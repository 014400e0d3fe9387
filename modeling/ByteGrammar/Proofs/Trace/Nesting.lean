import ByteGrammar.Grammar.Depth
import ByteGrammar.Proofs.Trace.Grammar

namespace ByteGrammar.Grammar

variable {ρ : Type} {rules : ρ → Grammar ρ}

-- Every entry is followed by the rest of a whole parse of what is entered
inductive Nested (rules : ρ → Grammar ρ) : List (Event (Note ρ)) → Prop
  | nil : Nested rules []
  | event (event : Event (Note ρ)) (later : List (Event (Note ρ))) (hentry : event.entered? = none)
      (hlater : Nested rules later) : Nested rules (event :: later)
  | entry (grammar : Grammar ρ) (place : Bytes) (inside later : List (Event (Note ρ)))
      (result : Except Error (Outcome Value))
      (hparse : Parses rules grammar place (.note (.entered grammar place) :: inside) result)
      (hinside : Nested rules inside) (hlater : Nested rules later) :
      Nested rules (.note (.entered grammar place) :: (inside ++ later))

theorem Nested.append {first second : List (Event (Note ρ))} (hfirst : Nested rules first)
    (hsecond : Nested rules second) : Nested rules (first ++ second) := by
  induction hfirst with
  | nil => exact hsecond
  | event event later hentry _ ih => exact .event event _ hentry ih
  | entry grammar place inside later result hparse hinside _ _ ih =>
    rw [List.cons_append, List.append_assoc]
    exact .entry grammar place inside _ result hparse hinside ih

theorem Nested.of_no_entry {trace : List (Event (Note ρ))}
    (h : ∀ event ∈ trace, event.entered? = none) : Nested rules trace := by
  induction trace with
  | nil => exact .nil
  | cons event later ih =>
    exact .event event later (h event List.mem_cons_self)
      (ih fun other hother => h other (List.mem_cons_of_mem _ hother))

theorem Nested.of_parses {grammar : Grammar ρ} {place : Bytes} {inside : List (Event (Note ρ))}
    {result : Except Error (Outcome Value)}
    (hparse : Parses rules grammar place (.note (.entered grammar place) :: inside) result)
    (hinside : Nested rules inside) : Nested rules (.note (.entered grammar place) :: inside) := by
  have h := Nested.entry grammar place inside [] result hparse hinside .nil
  rwa [List.append_nil] at h

def nestingLaw (rules : ρ → Grammar ρ) : TraceLaw rules :=
  .always (fun _ => True) (Nested rules) (fun _ _ => trivial) .nil .append
    (fun _ hentry => .event _ [] hentry .nil)
    (fun hraise => .of_no_entry fun _ => hraise.entered?_eq_none)
    (fun _ hparser => .of_parses ⟨_, hparser⟩)

theorem parser_nested {depth : Nat} {grammar : Grammar ρ} {input : Bytes}
    {trace : List (Event (Note ρ))} {result : Except Error (Outcome Value)}
    (h : parser rules depth grammar input = .ended trace result) : Nested rules trace := by
  have hobeys := parser_obeys (nestingLaw rules) depth grammar (fun _ _ _ _ _ _ _ => trivial)
    input trivial
  rw [h] at hobeys
  exact hobeys.holds fun _ => rfl

-- The parse that an entry begins is found in the trace right after it. Where the entry lies
-- inside another parse, so does the parse that it begins.
theorem Nested.parses_of_entry {trace earlier later : List (Event (Note ρ))} {grammar : Grammar ρ}
    {place : Bytes} (h : Nested rules trace)
    (hsplit : trace = earlier ++ .note (.entered grammar place) :: later) :
    ∃ inside after result, later = inside ++ after ∧
      Parses rules grammar place (.note (.entered grammar place) :: inside) result := by
  induction h generalizing earlier later with
  | nil => simp at hsplit
  | event event rest hentry _ ih =>
    cases earlier with
    | nil =>
      obtain ⟨rfl, -⟩ := List.cons.inj hsplit
      cases hentry
    | cons first earlier => exact ih (List.cons.inj hsplit).2
  | entry other otherPlace inside rest result hparse _ _ ihinside ihrest =>
    cases earlier with
    | nil =>
      obtain ⟨hevent, rfl⟩ := List.cons.inj hsplit
      cases hevent
      exact ⟨inside, rest, result, rfl, hparse⟩
    | cons first earlier =>
      rcases List.append_eq_append_iff.mp (List.cons.inj hsplit).2 with
        ⟨skipped, rfl, hrest⟩ | ⟨skipped, hinside, hlater⟩
      · exact ihrest hrest
      · cases skipped with
        | nil =>
          have hrest : rest = [] ++ .note (.entered grammar place) :: later := hlater.symm
          exact ihrest hrest
        | cons entry skipped =>
          obtain ⟨rfl, rfl⟩ := List.cons.inj hlater
          obtain ⟨inner, after, innerResult, rfl, hinner⟩ := ihinside hinside
          exact ⟨inner, after ++ rest, innerResult, List.append_assoc .., hinner⟩

end ByteGrammar.Grammar
