import ByteGrammar.Grammar.Basic
import Mathlib.Logic.Relation

namespace ByteGrammar.Grammar

variable {ρ : Type} {rules : ρ → Grammar ρ}

-- The grammars that a grammar runs itself. A rule runs its body.
def parts (rules : ρ → Grammar ρ) : Grammar ρ → List (Grammar ρ)
  | literal _ => []
  | anyByte => []
  | byte _ => []
  | satisfy _ => []
  | atEnd => []
  | sequence parts => parts
  | both first second => [first, second]
  | choice arms => arms
  | orElse first second => [first, second]
  | map _ _ body => [body]
  | refine _ _ body => [body]
  | optional body => [body]
  | notFollowedBy body => [body]
  | followedBy body => [body]
  | between opening body closing => [opening, body, closing]
  | foldMany _ _ body => [body]
  | foldMany1 _ _ body => [body]
  | many _ body => [body]
  | many1 _ body => [body]
  | delay body => [body]
  | rule name => [rules name]
  | group body => [body]
  | probe _ body => [body]
  | primitive _ => []

-- The grammars that a parse may come to, at any depth and through any rules
def Reaches (rules : ρ → Grammar ρ) : Grammar ρ → Grammar ρ → Prop :=
  Relation.ReflTransGen fun whole part => part ∈ whole.parts rules

theorem Reaches.refl (grammar : Grammar ρ) : Reaches rules grammar grammar :=
  Relation.ReflTransGen.refl

theorem Reaches.of_part {whole part inner : Grammar ρ} (hpart : part ∈ whole.parts rules)
    (hinner : Reaches rules part inner) : Reaches rules whole inner := hinner.head hpart

-- A set of grammars that has the parts of each of them has all that is reached from one
theorem Reaches.mem_of_closed {whole part : Grammar ρ} (h : Reaches rules whole part)
    (members : List (Grammar ρ))
    (hclosed : ∀ member ∈ members, ∀ part ∈ member.parts rules, part ∈ members)
    (hwhole : whole ∈ members) : part ∈ members := by
  induction h with
  | refl => exact hwhole
  | tail _ hpart ih => exact hclosed _ ih _ hpart

theorem sizeOf_lt_of_mem_parts {whole part : Grammar ρ} (hrule : ∀ name, whole ≠ rule name)
    (hpart : part ∈ whole.parts rules) : sizeOf part < sizeOf whole := by
  cases whole with
  | rule name => exact absurd rfl (hrule name)
  | literal _ | anyByte | byte _ | satisfy _ | atEnd | primitive _ => cases hpart
  | sequence parts | choice parts =>
    have hlt : sizeOf part < sizeOf parts := List.sizeOf_lt_of_mem hpart
    simp only [sequence.sizeOf_spec, choice.sizeOf_spec]
    omega
  | both first second | orElse first second =>
    have hpart : part = first ∨ part = second := by simpa [parts] using hpart
    rcases hpart with rfl | rfl <;> simp only [both.sizeOf_spec, orElse.sizeOf_spec] <;> omega
  | between opening body closing =>
    have hpart : part = opening ∨ part = body ∨ part = closing := by simpa [parts] using hpart
    rcases hpart with rfl | rfl | rfl <;> rw [between.sizeOf_spec] <;> omega
  | map _ _ _ | refine _ _ _ | foldMany _ _ _ | foldMany1 _ _ _ | many _ _ | many1 _ _
  | probe _ _ =>
    obtain rfl := List.mem_singleton.mp hpart
    simp only [map.sizeOf_spec, refine.sizeOf_spec, foldMany.sizeOf_spec, foldMany1.sizeOf_spec,
      many.sizeOf_spec, many1.sizeOf_spec, probe.sizeOf_spec]
    omega
  | optional _ | notFollowedBy _ | followedBy _ | delay _ | group _ =>
    obtain rfl := List.mem_singleton.mp hpart
    simp

-- Induction on a grammar, where a rule is a leaf
theorem parts_induction (rules : ρ → Grammar ρ) {motive : Grammar ρ → Prop}
    (reference : ∀ name, motive (rule name))
    (whole : ∀ grammar, (∀ name, grammar ≠ rule name) →
      (∀ part ∈ grammar.parts rules, motive part) → motive grammar)
    (grammar : Grammar ρ) : motive grammar := by
  by_cases hrule : ∃ name, grammar = rule name
  · obtain ⟨name, rfl⟩ := hrule
    exact reference name
  · have hrule : ∀ name, grammar ≠ rule name := not_exists.mp hrule
    apply whole grammar hrule
    intro part hpart
    have hlt := sizeOf_lt_of_mem_parts hrule hpart
    exact parts_induction rules reference whole part
termination_by sizeOf grammar

end ByteGrammar.Grammar
