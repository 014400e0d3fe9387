import ByteGrammar.Proofs.Grammar.Core
import ByteGrammar.Proofs.Grammar.Derived
import ByteGrammar.Proofs.Grammar.Unrolled

namespace ByteGrammar

open ByteGrammar.Parser (Agree)

namespace Grammar

variable {ρ : Type} {rules : ρ → Grammar ρ} {depth : Nat}

-- A function that does not fail is applied alike, whether or not the call is noted
theorem map_agree_refine {inner other : Parser (Note ρ) Value} (label : String) (f : Value → Value)
    (h : inner.Agree Eq other) :
    (inner.map f).Agree Eq (other.refine fun value => noting (.called label) (.ok (f value))) := by
  apply h.refine
  rintro value _ rfl
  exact .ended (.ok _ _ rfl)

theorem satisfy_agree_testing (test : UInt8 → Bool) :
    (Parser.satisfy test : Parser (Note ρ) UInt8).Agree Eq
      (Parser.satisfyRun (testing test) : Parser (Note ρ) UInt8) :=
  .satisfyRun fun byte => .ended (.ok (test byte) _ rfl)

theorem ofParts_pair (first second : Parser (Note ρ) Value) :
    (Parser.sequence [first, second]).map Value.ofParts =
      (Parser.sequence [first, second]).map Value.tuple := by
  rw [← Parser.both_map, Parser.map_map, Parser.map_map]
  rfl

theorem item_ofParts (values : List Value) (index : Nat) :
    (Value.ofParts values).item index = values.getD index .unit := by
  cases values <;> rfl

-- A sequence under construction, as the accumulator of a fold
def Kept (items : Array Value) (sequence : Value) : Prop := sequence = .list items.toList

theorem allocate_agree_seed (storage : Storage Value) :
    (storage.allocate : Run (Note ρ) (Array Value)).Agree Kept
      (noting .seeded storage.seed : Run (Note ρ) Value) := by
  cases storage with
  | custom empty room =>
    cases empty with
    | ok _ => exact .ended (.ok _ _ rfl)
    | error error => exact .ended (.error _)
  | _ => exact .ended (.ok _ _ rfl)

theorem push_agree_step (storage : Storage Value) (items : Array Value)
    (sequence value another : Value) (hkept : Kept items sequence) (hvalue : value = another) :
    (storage.push items value : Run (Note ρ) (Array Value)).Agree Kept
      (noting (.combined sequence another) (storage.step sequence another) :
        Run (Note ρ) Value) := by
  obtain rfl : sequence = .list items.toList := hkept
  obtain rfl : value = another := hvalue
  have hnext : Kept (items.push value) (.list (items.toList ++ [value])) := by
    rw [Kept, Array.toList_push]
  cases storage with
  | heap | arena => exact .ended (.ok _ _ hnext)
  | fullArena => exact .ended (.error _)
  | bounded limit =>
    have hlength : (Value.list items.toList).elements.length = items.size := Array.length_toList
    rw [Storage.push, Storage.step, Storage.room, hlength]
    by_cases hsize : items.size < limit
    · rw [if_pos hsize, if_pos hsize]
      exact .ended (.ok _ _ hnext)
    · rw [if_neg hsize, if_neg hsize]
      exact .ended (.error _)
  | custom empty room =>
    have harray : (Value.list items.toList).elements.toArray = items := Array.toArray_toList
    rw [Storage.push, Storage.step, Storage.room, harray]
    cases room items value with
    | ok _ => exact .ended (.ok _ _ hnext)
    | error error => exact .ended (.error _)

theorem finish_agree (items : Array Value) (sequence : Value) (hkept : Kept items sequence) :
    (Value.list <$> Parser.finish items : Run (Note ρ) Value).Agree Eq
      (noting (.called "finish") (.ok (id sequence)) : Run (Note ρ) Value) := by
  exact .ended (.ok _ _ hkept.symm)

theorem core_isCore (grammar : Grammar ρ) : grammar.core.Core := by
  induction grammar using parts_induction rule with
  | reference name => exact .rule name
  | whole grammar hrule ih =>
    cases grammar with
    | literal expected => exact .literal expected
    | anyByte => exact .satisfy _
    | byte expected => exact .satisfy _
    | satisfy test => exact .satisfy test
    | atEnd => exact .notFollowedBy _ (.satisfy _)
    | sequence parts =>
      rw [core, coreAll_eq_map]
      exact .sequence _ (List.forall_mem_map.mpr ih)
    | both first second =>
      exact .sequence _ (List.forall_mem_map.mpr ih)
    | choice arms =>
      rw [core, coreAll_eq_map]
      exact .choice _ (List.forall_mem_map.mpr ih)
    | orElse first second =>
      exact .choice _ (List.forall_mem_map.mpr ih)
    | map label f body => exact .refine _ _ _ (ih body (by simp [parts]))
    | refine label f body => exact .refine _ _ _ (ih body (by simp [parts]))
    | optional body =>
      have hsome : (applied "some" Value.some body.core).Core :=
        .refine _ _ _ (ih body (by simp [parts]))
      have hnone : (applied "none" (fun _ => Value.none) (empty : Grammar ρ)).Core :=
        .refine _ _ _ (.sequence [] (by simp))
      exact .choice _ (by simp [hsome, hnone])
    | notFollowedBy body => exact .notFollowedBy _ (ih body (by simp [parts]))
    | followedBy body => exact .notFollowedBy _ (.notFollowedBy _ (ih body (by simp [parts])))
    | between opening body closing =>
      exact .refine _ _ _ (.sequence _ (List.forall_mem_map.mpr ih))
    | foldMany init combine body => exact .foldMany _ _ _ (ih body (by simp [parts]))
    | foldMany1 init combine body => exact .foldMany1 _ _ _ (ih body (by simp [parts]))
    | many storage body =>
      exact .refine _ _ _ (.foldMany _ _ _ (ih body (by simp [parts])))
    | many1 storage body =>
      exact .refine _ _ _ (.foldMany1 _ _ _ (ih body (by simp [parts])))
    | delay body => exact .delay _ (ih body (by simp [parts]))
    | rule name => exact .rule name
    | group body => exact ih body (by simp [parts])
    | probe label body => exact .probe _ _ (ih body (by simp [parts]))
    | primitive given => exact .primitive given

-- The layer of a grammar and that of its core agree, where they read the same of the parts
theorem layer_agree_core {grammar : Grammar ρ} (hrule : ∀ name, grammar ≠ rule name)
    {reading : Grammar ρ → Parser (Note ρ) Value} {others : ρ → Grammar ρ}
    (hreading : ∀ other : Grammar ρ, (∀ name, other ≠ rule name) →
      reading other = layer others depth reading other) :
    (layer rules depth (fun part => reading part.core) grammar).Agree Eq
      (reading grammar.core) := by
  cases grammar with
  | literal expected =>
    rw [core, hreading _ (by simp)]
    exact .refl _
  | anyByte =>
    rw [core, hreading _ (by simp), layer, Parser.anyByte_eq_satisfy]
    exact (satisfy_agree_testing _).map fun _ _ hbyte => congrArg Value.byte hbyte
  | byte expected =>
    rw [core, hreading _ (by simp), layer, Parser.byte_eq_satisfy]
    exact (satisfy_agree_testing _).map fun _ _ hbyte => congrArg Value.byte hbyte
  | satisfy test =>
    rw [core, hreading _ (by simp)]
    exact .refl _
  | atEnd =>
    rw [core, hreading _ (by simp), layer, layer, hreading (satisfy _) (by simp), layer,
      Parser.atEnd_eq_notFollowedBy, Parser.map_notFollowedBy]
    exact (satisfy_agree_testing _).notFollowedBy.map fun _ _ _ => rfl
  | sequence parts =>
    rw [core, hreading _ (by simp), layer, layer, coreAll_eq_map, List.map_map]
    exact .refl _
  | both first second =>
    rw [core, hreading _ (by simp), layer_both]
    exact .of_eq (ofParts_pair _ _).symm
  | choice arms =>
    rw [core, hreading _ (by simp), layer, layer, coreAll_eq_map, List.map_map]
    exact .refl _
  | orElse first second =>
    rw [core, hreading _ (by simp)]
    exact .of_eq (Parser.orElse_eq_choice _ _)
  | map label f body =>
    rw [core, applied, hreading _ (by simp)]
    exact .refl _
  | refine label f body =>
    rw [core, hreading _ (by simp)]
    exact .refl _
  | optional body =>
    have hempty : reading empty = Parser.succeed .unit := hreading empty (by simp [empty])
    rw [core, hreading _ (by simp), layer, layer, Parser.optional_eq_orElse, Parser.orElse_map,
      Parser.map_map, Parser.succeed_map]
    have hsome : ((reading body.core).map Value.some).Agree Eq
        (reading (applied "some" Value.some body.core)) := by
      rw [applied, hreading (refine _ _ _) (by simp)]
      exact map_agree_refine "some" Value.some (.refl _)
    have hnone : (Parser.succeed Value.none : Parser (Note ρ) Value).Agree Eq
        (reading (applied "none" (fun _ => Value.none) empty)) := by
      rw [applied, hreading (refine _ _ _) (by simp), layer, hempty]
      exact map_agree_refine "none" (fun _ => Value.none) (.refl (Parser.succeed .unit))
    exact (hsome.orElse hnone).trans (.of_eq (Parser.orElse_eq_choice _ _))
  | notFollowedBy body =>
    rw [core, hreading _ (by simp)]
    exact .refl _
  | followedBy body =>
    rw [core, hreading _ (by simp), layer, layer, hreading (notFollowedBy _) (by simp), layer,
      Parser.map_notFollowedBy, Parser.followedBy_eq_notFollowedBy]
    exact .refl _
  | between opening body closing =>
    rw [core, applied, hreading _ (by simp), layer, hreading (sequence _) (by simp), layer_between,
      layer]
    have hitem : (fun values : List Value => values.getD 1 .unit) =
        fun values => (Value.ofParts values).item 1 :=
      funext fun values => (item_ofParts values 1).symm
    rw [hitem, ← Parser.map_map]
    exact map_agree_refine "second" (Value.item 1) (.refl _)
  | foldMany init combine body =>
    rw [core, hreading _ (by simp)]
    exact .refl _
  | foldMany1 init combine body =>
    rw [core, hreading _ (by simp)]
    exact .refl _
  | many storage body =>
    rw [core, applied, hreading _ (by simp), layer, layer, hreading (foldMany _ _ _) (by simp), layer,
      Parser.many, Parser.refine_map]
    have hfold := (Agree.refl (reading body.core)).foldMany (allocate_agree_seed storage)
      (push_agree_step storage) depth
    exact hfold.refine finish_agree
  | many1 storage body =>
    rw [core, applied, hreading _ (by simp), layer, layer, hreading (foldMany1 _ _ _) (by simp), layer,
      Parser.many1, Parser.refine_map]
    have hfold := (Agree.refl (reading body.core)).foldMany1 (allocate_agree_seed storage)
      (push_agree_step storage) depth
    exact hfold.refine finish_agree
  | delay body =>
    rw [core, hreading _ (by simp)]
    exact .refl _
  | rule name => exact absurd rfl (hrule name)
  | group body => exact .refl _
  | probe label body =>
    rw [core, hreading _ (by simp)]
    exact .refl _
  | primitive given =>
    rw [core, hreading _ (by simp)]
    exact .refl _

theorem unrolled_agree_of_references
    (hreferences : ∀ name, (unrolled rules depth (rule name)).Agree Eq
      (unrolled (fun name => (rules name).core) depth (rule name)))
    (grammar : Grammar ρ) : (unrolled rules depth grammar).Agree Eq
      (unrolled (fun name => (rules name).core) depth grammar.core) := by
  induction grammar using parts_induction rules with
  | reference name => exact hreferences name
  | whole grammar hrule ih =>
    rw [unrolled_eq_layer hrule]
    exact (layer_agree ih).trans (layer_agree_core hrule fun _ => unrolled_eq_layer)

-- A grammar and its core agree. The induction is on the depth of the rules, and within a body on
-- the grammar, so that a derived combinator and its definition are compared at one depth.
theorem unrolled_agree_core (rules : ρ → Grammar ρ) (depth : Nat) (grammar : Grammar ρ) :
    (unrolled rules depth grammar).Agree Eq
      (unrolled (fun name => (rules name).core) depth grammar.core) := by
  induction depth generalizing grammar with
  | zero =>
    apply unrolled_agree_of_references
    intro name
    rw [unrolled, unrolled]
    exact .refl _
  | succ depth ih =>
    apply unrolled_agree_of_references
    intro name
    rw [unrolled, unrolled]
    exact (ih (rules name)).delay

-- Derived combinators mean what their definitions mean, in every context at once. A grammar can be
-- put in terms of few combinators, and its rules with it, so that for every input both parses end
-- with the same result or neither ends.
theorem core_parses_iff (rules : ρ → Grammar ρ) (grammar : Grammar ρ) (input : Bytes)
    (result : Except Error (Outcome Value)) :
    (grammar.core.Core ∧ ∀ name, (rules name).core.Core) ∧
    ((∃ trace, Parses rules grammar input trace result) ↔
      ∃ trace, Parses (fun name => (rules name).core) grammar.core input trace result) := by
  refine ⟨⟨core_isCore grammar, fun name => core_isCore (rules name)⟩, ?_⟩
  rw [parses_iff_unrolled, parses_iff_unrolled]
  have hagree (depth : Nat) := Parser.agree_iff_below.mp (unrolled_agree_core rules depth grammar)
  constructor
  · rintro ⟨depth, hgives⟩
    exact ⟨depth, (hagree depth).1 input result hgives⟩
  · rintro ⟨depth, hgives⟩
    exact ⟨depth, (hagree depth).2 input result hgives⟩

end Grammar

end ByteGrammar
