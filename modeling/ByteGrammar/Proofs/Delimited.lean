import ByteGrammar.Format.Delimited
import ByteGrammar.Parser.Approximation
import ByteGrammar.Proofs.Mirror.Relief
import ByteGrammar.Proofs.Parser.Derived
import ByteGrammar.Proofs.Parser.Matches

namespace ByteGrammar.Format

open ByteGrammar.Parser

variable {ν : Type}

-- The closing text stands behind the body, and does not begin before that
def FirstBehind (body closing : Bytes) : Prop :=
  ∀ place < body.length, ¬ closing <+: (body ++ closing).drop place

instance (body closing : Bytes) : Decidable (FirstBehind body closing) :=
  inferInstanceAs (Decidable (∀ place < body.length, ¬ closing <+: (body ++ closing).drop place))

theorem firstBehind_cons_iff {first : UInt8} {body closing : Bytes} :
    FirstBehind (first :: body) closing ↔
      ¬ closing <+: first :: body ++ closing ∧ FirstBehind body closing :=
  Nat.forall_lt_succ_left

-- As long as it begins within the body, what comes after the closing text makes no difference
theorem closing_prefix_drop_iff {body closing : Bytes} {place : Nat} (h : place ≤ body.length)
    (tail : Bytes) : closing <+: (body ++ closing ++ tail).drop place ↔
      closing <+: (body ++ closing).drop place := by
  rw [List.drop_append_of_le_length (by simp only [List.length_append]; omega)]
  apply List.isPrefix_append_of_length
  simp only [List.length_drop, List.length_append]
  omega

-- There is a first place for the closing text if there is any, by induction on the text
theorem exists_firstBehind_iff {closing text : Bytes} :
    (∃ body tail, text = body ++ closing ++ tail ∧ FirstBehind body closing) ↔
      closing <:+: text := by
  constructor
  · rintro ⟨body, tail, rfl, -⟩
    exact ⟨body, tail, rfl⟩
  intro h
  induction text with
  | nil =>
    obtain rfl : closing = [] := List.infix_nil.mp h
    exact ⟨[], [], rfl, nofun⟩
  | cons first rest ih =>
    by_cases hfirst : closing <+: first :: rest
    · obtain ⟨tail, htail⟩ := hfirst
      exact ⟨[], tail, htail.symm, nofun⟩
    · have hrest : closing <:+: rest := (List.infix_cons_iff.mp h).resolve_left hfirst
      obtain ⟨body, tail, rfl, hbody⟩ := ih hrest
      refine ⟨first :: body, tail, rfl, firstBehind_cons_iff.mpr ⟨?_, hbody⟩⟩
      intro hclosing
      exact hfirst (hclosing.trans (List.prefix_append _ tail))

-- One byte of the body

theorem bodyByte_matched_iff {closing input tail : Bytes} {value : UInt8} :
    ((bodyByte closing : Parser ν UInt8) input).Gives (.ok (.matched value tail)) ↔
      input = value :: tail ∧ ¬ closing <+: input := by
  simp only [bodyByte, both, map_matched_iff, andThen_matched_iff, notFollowedBy_matched_iff,
    literal_noMatch_iff, anyByte_eq_satisfy, satisfy_matched_iff]
  constructor
  · rintro ⟨_, ⟨_, rest, ⟨hclosing, rfl⟩, _, ⟨hinput, -⟩, rfl⟩, rfl⟩
    exact ⟨hinput, hclosing⟩
  · rintro ⟨hinput, hclosing⟩
    exact ⟨((), value), ⟨(), input, ⟨hclosing, rfl⟩, value, ⟨hinput, trivial⟩, rfl⟩, rfl⟩

theorem bodyByte_answers (closing input : Bytes) :
    (bodyByte closing : Parser ν UInt8).Answers input := by
  have hguard : (literal closing).notFollowedBy.Answers input :=
    (literal_answers (ν := ν) closing input).notFollowedBy
  apply Answers.map
  apply hguard.andThen
  intro _ tail _
  rw [anyByte_eq_satisfy]
  exact (satisfy_answers _ tail).map _

theorem bodyByte_noMatch_iff {closing input : Bytes} :
    ((bodyByte closing : Parser ν UInt8) input).Gives (.ok .noMatch) ↔
      input = [] ∨ closing <+: input := by
  rw [(bodyByte_answers closing input).noMatch_iff]
  simp only [bodyByte_matched_iff]
  cases input with
  | nil => simp
  | cons first rest => simp

theorem bodyByte_takes (closing : Bytes) : (bodyByte closing : Parser ν UInt8).Takes 1 := by
  intro input value tail hmatch
  obtain ⟨rfl, -⟩ := bodyByte_matched_iff.mp hmatch
  exact Nat.le_refl _

-- The loop goes over the bytes of a body, at none of which the closing text begins
theorem rounds_bodyByte_iff {closing body input tail : Bytes} :
    Rounds (bodyByte closing : Parser ν UInt8) input body tail ↔
      input = body ++ tail ∧ ∀ place < body.length, ¬ closing <+: input.drop place := by
  induction body generalizing input with
  | nil =>
    constructor
    · intro h
      cases h
      exact ⟨rfl, nofun⟩
    · rintro ⟨rfl, -⟩
      exact .none _
  | cons first body ih =>
    rw [List.length_cons, Nat.forall_lt_succ_left]
    constructor
    · intro h
      cases h with
      | next _ _ rest _ _ hmatch hrest =>
        obtain ⟨rfl, hfirst⟩ := bodyByte_matched_iff.mp hmatch
        obtain ⟨rfl, hbody⟩ := ih.mp hrest
        exact ⟨rfl, hfirst, hbody⟩
    · rintro ⟨rfl, hfirst, hbody⟩
      exact .next _ first (body ++ tail) body tail (bodyByte_matched_iff.mpr ⟨rfl, hfirst⟩)
        (ih.mpr ⟨rfl, hbody⟩)

-- A storage that takes whatever the heap takes never refuses anything
theorem many_eq_heap {α : Type} {storage : Storage α} (h : Storage.heap.Roomier storage)
    (rounds : Nat) (inner : Parser ν α) : many rounds storage inner = many rounds .heap inner := by
  have hallocate : (storage.allocate : Run ν (Array α)) = Storage.heap.allocate := by
    rw [Storage.allocate, h.empty rfl]
    rfl
  have hpush : (storage.push : Array α → α → Run ν (Array α)) = Storage.heap.push := by
    funext items value
    rw [Storage.push, h.room items value rfl]
    rfl
  rw [many, hallocate, hpush]
  rfl

section Delimited

variable {storage : Storage UInt8} (hstorage : Storage.heap.Roomier storage)
include hstorage

-- The body in front of a closing text, by how the input is made up
theorem body_matched_iff {closing rest body tail : Bytes} :
    ((roundPerByte fun rounds => many rounds storage (bodyByte closing) : Parser ν Bytes)
        rest).Gives (.ok (.matched body (closing ++ tail))) ↔
      rest = body ++ closing ++ tail ∧ FirstBehind body closing := by
  have hstop : ((bodyByte closing : Parser ν UInt8) (closing ++ tail)).Gives (.ok .noMatch) :=
    bodyByte_noMatch_iff.mpr (.inr (List.prefix_append closing tail))
  rw [roundPerByte, many_eq_heap hstorage, many_heap_matched_iff, rounds_bodyByte_iff]
  constructor
  · rintro ⟨-, ⟨rfl, hbody⟩, -⟩
    refine ⟨(List.append_assoc ..).symm, fun place hplace => ?_⟩
    rw [← closing_prefix_drop_iff (Nat.le_of_lt hplace) tail, List.append_assoc]
    exact hbody place hplace
  · rintro ⟨rfl, hbody⟩
    refine ⟨?_, ⟨List.append_assoc .., fun place hplace => ?_⟩, hstop⟩
    · simp only [List.length_append]
      omega
    · rw [closing_prefix_drop_iff (Nat.le_of_lt hplace)]
      exact hbody place hplace

theorem delimited_matched_iff {opening closing input body tail : Bytes} :
    ((delimited storage opening closing : Parser ν Bytes) input).Gives
        (.ok (.matched body tail)) ↔
      input = opening ++ body ++ closing ++ tail ∧ FirstBehind body closing := by
  simp only [delimited, between, andThen_matched_iff, map_matched_iff, literal_matched_iff]
  constructor
  · rintro ⟨_, rest, ⟨rfl, -⟩, _, _, hbody, _, ⟨rfl, -⟩, rfl⟩
    obtain ⟨rfl, hfirst⟩ := (body_matched_iff hstorage).mp hbody
    exact ⟨by simp only [List.append_assoc], hfirst⟩
  · rintro ⟨rfl, hfirst⟩
    have hinput : opening ++ body ++ closing ++ tail = opening ++ (body ++ closing ++ tail) := by
      simp only [List.append_assoc]
    have hbody : ((roundPerByte fun rounds => many rounds storage (bodyByte closing) :
        Parser ν Bytes) (body ++ closing ++ tail)).Gives (.ok (.matched body (closing ++ tail))) :=
      (body_matched_iff hstorage).mpr ⟨rfl, hfirst⟩
    exact ⟨opening, _, ⟨hinput, rfl⟩, body, closing ++ tail, hbody, closing, ⟨rfl, rfl⟩, rfl⟩

theorem delimited_answers (opening closing input : Bytes) :
    (delimited storage opening closing : Parser ν Bytes).Answers input := by
  apply (literal_answers opening input).andThen
  intro _ rest _
  have hbody : (many (rest.length + 1) .heap (bodyByte closing) : Parser ν Bytes).Answers rest :=
    .many_heap (fun place _ => bodyByte_answers closing place) (bodyByte_takes closing)
      rest.length.lt_succ_self
  rw [← many_eq_heap hstorage] at hbody
  have hrepeated : (roundPerByte fun rounds => many rounds storage (bodyByte closing) :
      Parser ν Bytes).Answers rest := hbody
  exact hrepeated.andThen fun _ last _ => (literal_answers closing last).map _

theorem delimited_noMatch_iff {opening closing input : Bytes} :
    ((delimited storage opening closing : Parser ν Bytes) input).Gives (.ok .noMatch) ↔
      ¬ opening <+: input ∨ ¬ closing <:+: input.drop opening.length := by
  rw [(delimited_answers hstorage opening closing input).noMatch_iff, ← not_and_or, not_iff_not,
    ← exists_firstBehind_iff]
  simp only [delimited_matched_iff hstorage]
  constructor
  · rintro ⟨body, tail, rfl, hbody⟩
    simp only [List.append_assoc]
    exact ⟨List.prefix_append .., body, tail, by simp, hbody⟩
  · rintro ⟨⟨rest, rfl⟩, body, tail, hrest, hbody⟩
    rw [List.drop_left] at hrest
    exact ⟨body, tail, by simp [hrest], hbody⟩

-- There are enough rounds: with more of them the parse is the same
theorem delimited_eq_more (opening closing input : Bytes) (more : Nat) :
    (delimited storage opening closing : Parser ν Bytes) input =
      between (literal opening)
        (roundPerByte fun rounds => many (rounds + more) storage (bodyByte closing))
        (literal closing) input := by
  obtain ⟨outcome, trace, hrun⟩ := delimited_answers (ν := ν) hstorage opening closing input
  have hbody : Approximates
      (roundPerByte fun rounds => many rounds storage (bodyByte closing) : Parser ν Bytes)
      (roundPerByte fun rounds => many (rounds + more) storage (bodyByte closing)) :=
    fun place => (Approximates.refl (bodyByte closing)).many storage (Nat.le_add_right _ more) place
  have happroximates := (Approximates.refl (literal opening)).between hbody
    (.refl (literal closing)) input
  rw [delimited, between] at hrun ⊢
  rw [between, hrun] at happroximates
  rw [hrun]
  exact happroximates.eq_of_ended.symm

end Delimited

-- Delimited text is cut at the first place behind the opening text where the closing text stands.
-- It does not match if the input does not start with the one or if the other does not follow, so
-- that no byte is part of both. It always ends, never with an error, and would do the same if the
-- loop had more rounds. Either text may be empty, and the closing one may overlap with itself.
theorem delimited_cut_at_first_closing {storage : Storage UInt8}
    (hstorage : Storage.heap.Roomier storage) (opening closing input : Bytes) :
    (∀ body tail, ((delimited storage opening closing : Parser ν Bytes) input).Gives
        (.ok (.matched body tail)) ↔
      input = opening ++ body ++ closing ++ tail ∧ FirstBehind body closing) ∧
    (((delimited storage opening closing : Parser ν Bytes) input).Gives (.ok .noMatch) ↔
      ¬ opening <+: input ∨ ¬ closing <:+: input.drop opening.length) ∧
    (∃ trace outcome,
      (delimited storage opening closing : Parser ν Bytes) input = .ended trace (.ok outcome)) ∧
    ∀ more, (delimited storage opening closing : Parser ν Bytes) input =
      between (literal opening)
        (roundPerByte fun rounds => many (rounds + more) storage (bodyByte closing))
        (literal closing) input := by
  obtain ⟨outcome, trace, hrun⟩ := delimited_answers (ν := ν) hstorage opening closing input
  exact ⟨fun _ _ => delimited_matched_iff hstorage, delimited_noMatch_iff hstorage,
    ⟨trace, outcome, hrun⟩, delimited_eq_more hstorage opening closing input⟩

-- "/*a**/b*/" in an arena, and on the heap "/*/" and "baaa", cut at the first "aa"
theorem delimited_cut_at_first_closing_comment :
    Storage.heap.Roomier (.arena : Storage UInt8) ∧
    Storage.heap.Roomier (.heap : Storage UInt8) ∧
    ((comment : Parser Unit Bytes) [47, 42, 97, 42, 42, 47, 98, 42, 47]).Gives
      (.ok (.matched [97, 42] [98, 42, 47])) ∧
    ((delimited .heap [47, 42] [42, 47] : Parser Unit Bytes) [47, 42, 47]).Gives
      (.ok .noMatch) ∧
    ((delimited .heap [] [97, 97] : Parser Unit Bytes) [98, 97, 97, 97]).Gives
      (.ok (.matched [98] [97])) := by
  have harena : Storage.heap.Roomier (.arena : Storage UInt8) := ⟨fun _ => rfl, fun _ _ _ => rfl⟩
  have hheap : Storage.heap.Roomier (.heap : Storage UInt8) := Storage.roomier_heap .heap
  have hcomment := delimited_cut_at_first_closing (ν := Unit) harena [47, 42] [42, 47]
    [47, 42, 97, 42, 42, 47, 98, 42, 47]
  have hopen := delimited_cut_at_first_closing (ν := Unit) hheap [47, 42] [42, 47] [47, 42, 47]
  have hoverlap := delimited_cut_at_first_closing (ν := Unit) hheap [] [97, 97] [98, 97, 97, 97]
  exact ⟨harena, hheap, (hcomment.1 _ _).mpr ⟨rfl, by decide⟩, hopen.2.1.mpr (.inr (by decide)),
    (hoverlap.1 _ _).mpr ⟨rfl, by decide⟩⟩

end ByteGrammar.Format
