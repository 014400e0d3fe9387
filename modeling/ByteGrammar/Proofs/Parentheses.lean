import ByteGrammar.Format.Parentheses
import ByteGrammar.Proofs.Locality
import ByteGrammar.Proofs.Parser.Choice

namespace ByteGrammar.Format

open ByteGrammar.Parser

variable {ν : Type}

-- How many parentheses are opened before there is anything else
def opened (input : Bytes) : Nat := (input.takeWhile (· = 40)).length

-- All parentheses that are opened, if as many are closed right after them, and otherwise nothing
def allOrNothing (input : Bytes) : Outcome Nat :=
  if List.replicate (opened input) 41 <+: input.drop (opened input) then
    .matched (opened input) ((input.drop (opened input)).drop (opened input))
  else .matched 0 input

theorem opened_cons (rest : Bytes) : opened (40 :: rest) = opened rest + 1 := by
  simp [opened]

theorem opened_eq_zero {input : Bytes} (h : input.head? ≠ some 40) : opened input = 0 := by
  cases input with
  | nil => rfl
  | cons first rest =>
    have hfirst : first ≠ 40 := by simpa using h
    simp [opened, hfirst]

theorem allOrNothing_of_opened_eq_zero {input : Bytes} (h : opened input = 0) :
    allOrNothing input = .matched 0 input := by
  simp [allOrNothing, h]

-- One more parenthesis is closed if another one follows those that are closed already
theorem replicate_succ_prefix_iff {depth : Nat} {tail : Bytes} :
    List.replicate (depth + 1) 41 <+: List.replicate depth 41 ++ tail ↔
      tail.head? = some 41 := by
  rw [List.replicate_succ', List.prefix_append_right_inj]
  cases tail with
  | nil => simp
  | cons first rest => simp [eq_comm]

-- With one more parenthesis opened, either all of them are closed with one more at the end, or
-- there is no parenthesis to close this one. The latter is also the case where nothing has been
-- taken of the others, as there is an opening parenthesis then.
theorem allOrNothing_cons_cases (inner : Bytes) :
    (∃ tail, allOrNothing inner = .matched (opened inner) (41 :: tail) ∧
      allOrNothing (40 :: inner) = .matched (opened inner + 1) tail) ∨
    ∃ depth tail, allOrNothing inner = .matched depth tail ∧ tail.head? ≠ some 41 ∧
      allOrNothing (40 :: inner) = .matched 0 (40 :: inner) := by
  unfold allOrNothing
  rw [opened_cons, List.drop_succ_cons]
  by_cases hclosed : List.replicate (opened inner) 41 <+: inner.drop (opened inner)
  · rw [if_pos hclosed]
    obtain ⟨tail, htail⟩ := hclosed
    rw [← htail, List.drop_left' List.length_replicate]
    by_cases hnext : tail.head? = some 41
    · obtain ⟨last, rfl⟩ := List.head?_eq_some_iff.mp hnext
      rw [if_pos (replicate_succ_prefix_iff.mpr hnext), List.append_cons, ← List.replicate_succ',
        List.drop_left' List.length_replicate]
      exact .inl ⟨last, rfl, rfl⟩
    · rw [if_neg (mt replicate_succ_prefix_iff.mp hnext)]
      exact .inr ⟨_, tail, rfl, hnext, rfl⟩
  · have hmore : ¬ List.replicate (opened inner + 1) 41 <+: inner.drop (opened inner) := by
      rw [List.replicate_succ']
      exact fun h => hclosed ((List.prefix_append _ _).trans h)
    have hnext : inner.head? ≠ some 41 := by
      intro hhead
      have hzero : opened inner = 0 := opened_eq_zero (by simp [hhead])
      rw [hzero] at hclosed
      exact hclosed List.nil_prefix
    rw [if_neg hclosed, if_neg hmore]
    exact .inr ⟨0, inner, rfl, hnext, rfl⟩

-- A literal leaves no event but for the mark at the end of the input

theorem literal_append (expected tail : Bytes) :
    (literal expected : Parser ν Bytes) (expected ++ tail) =
      .ended [] (.ok (.matched expected tail)) := by
  simp [literal]

theorem exists_literal_ends {expected input : Bytes} (h : ¬ expected <+: input) :
    ∃ ends, (literal expected : Parser ν Bytes) input = .ended ends (.ok .noMatch) ∧
      withoutEnds ends = [] := by
  unfold literal
  by_cases hshort : input <+: expected
  · exact ⟨[.reachedEnd], by simp [h, hshort, Run.report], rfl⟩
  · exact ⟨[], by simp [h, hshort], rfl⟩

-- One level, by what there is to read on this level. None of the marks depends on the bound.

theorem parenthesesWithin_succ (bound : Nat) :
    (parenthesesWithin (bound + 1) : Parser ν Nat) =
      ((between (literal openParenthesis) (delay (parenthesesWithin bound))
        (literal closeParenthesis)).map (· + 1)).orElse (succeed 0) :=
  congrArg (Parser.orElse _) (orElse_never _)

theorem exists_level_without_opening {input : Bytes} (h : input.head? ≠ some 40) :
    ∃ ends, withoutEnds ends = [] ∧ ∀ bound,
      (parenthesesWithin (bound + 1) : Parser ν Nat) input =
        .ended ends (.ok (.matched 0 input)) := by
  have hopen : ¬ openParenthesis <+: input := by
    rintro ⟨rest, rfl⟩
    exact h rfl
  obtain ⟨ends, hliteral, hends⟩ := exists_literal_ends (ν := ν) hopen
  refine ⟨ends, hends, fun bound => ?_⟩
  simp [parenthesesWithin_succ, orElse, map, refine, between, andThen, succeed, hliteral]

theorem level_of_closed {bound depth : Nat} {inner tail : Bytes} {trace : List (Event ν)}
    (h : parenthesesWithin bound inner = .ended trace (.ok (.matched depth (41 :: tail)))) :
    parenthesesWithin (bound + 1) (40 :: inner) =
      .ended (.building inner :: trace) (.ok (.matched (depth + 1) tail)) := by
  have hopen : (literal openParenthesis : Parser ν Bytes) (40 :: inner) = _ :=
    literal_append [40] inner
  have hclose : (literal closeParenthesis : Parser ν Bytes) (41 :: tail) = _ :=
    literal_append [41] tail
  simp [parenthesesWithin_succ, orElse, map, refine, between, andThen, delay, Run.report, hopen, h,
    hclose]

theorem exists_level_of_unclosed {inner tail : Bytes} (htail : tail.head? ≠ some 41) :
    ∃ ends : List (Event ν), withoutEnds ends = [] ∧ ∀ bound depth trace,
      parenthesesWithin bound inner = .ended trace (.ok (.matched depth tail)) →
      parenthesesWithin (bound + 1) (40 :: inner) =
        .ended (.building inner :: trace ++ ends) (.ok (.matched 0 (40 :: inner))) := by
  have hclosing : ¬ closeParenthesis <+: tail := by
    rintro ⟨rest, rfl⟩
    exact htail rfl
  have hopen : (literal openParenthesis : Parser ν Bytes) (40 :: inner) = _ :=
    literal_append [40] inner
  obtain ⟨ends, hclose, hends⟩ := exists_literal_ends (ν := ν) hclosing
  refine ⟨ends, hends, fun bound depth trace h => ?_⟩
  simp [parenthesesWithin_succ, orElse, map, refine, between, andThen, succeed, delay, Run.report,
    hopen, h, hclose]

-- All levels, by induction on the input
theorem exists_levels (input : Bytes) :
    ∃ trace : List (Event ν),
      (∀ more, parenthesesWithin (opened input + 1 + more) input =
        .ended trace (.ok (allOrNothing input))) ∧
      withoutEnds trace =
        (List.range (opened input)).map fun level => .building (input.drop (level + 1)) := by
  by_cases hhead : input.head? = some 40
  · obtain ⟨inner, rfl⟩ := List.head?_eq_some_iff.mp hhead
    obtain ⟨trace, hinner, htrace⟩ := exists_levels inner
    have hbuilding : ∀ ends : List (Event ν), withoutEnds ends = [] →
        withoutEnds (.building inner :: trace ++ ends) = (List.range (opened (40 :: inner))).map
          fun level => .building ((40 :: inner).drop (level + 1)) := by
      intro ends hends
      rw [withoutEnds_append, hends, List.append_nil, opened_cons, List.range_succ_eq_map]
      show Event.building inner :: withoutEnds trace = _
      simp [htrace]
    rcases allOrNothing_cons_cases inner with
      ⟨tail, hall, hmore⟩ | ⟨depth, tail, hbelow, htail, hnothing⟩
    · refine ⟨_, fun more => ?_, hbuilding [] rfl⟩
      rw [List.append_nil, opened_cons, hmore, Nat.add_right_comm _ 1 more]
      exact level_of_closed ((hinner more).trans (by rw [hall]))
    · obtain ⟨ends, hends, hlevel⟩ := exists_level_of_unclosed (ν := ν) htail
      refine ⟨_, fun more => ?_, hbuilding ends hends⟩
      rw [opened_cons, hnothing, Nat.add_right_comm _ 1 more]
      exact hlevel _ depth trace ((hinner more).trans (by rw [hbelow]))
  · obtain ⟨ends, hends, hlevel⟩ := exists_level_without_opening (ν := ν) hhead
    have hzero := opened_eq_zero hhead
    rw [hzero, allOrNothing_of_opened_eq_zero hzero]
    refine ⟨ends, fun more => ?_, hends⟩
    rw [Nat.add_right_comm]
    exact hlevel (0 + more)
termination_by input.length

-- Parentheses are taken all or not at all. Where as many are closed as have been opened, what is
-- matched is how many there are; otherwise nothing is taken. The parse always ends, never with an
-- error, and the grammar is built once for each parenthesis that is opened, on what follows that
-- one. Only so many levels and one to stop in are needed: more of them make no difference.
theorem parentheses_all_or_nothing (input : Bytes) :
    ∃ trace, (parentheses : Parser ν Nat) input = .ended trace (.ok (allOrNothing input)) ∧
      withoutEnds trace =
        (List.range (opened input)).map (fun level => .building (input.drop (level + 1))) ∧
      ∀ more, parenthesesWithin (opened input + 1 + more) input =
        (parentheses : Parser ν Nat) input := by
  obtain ⟨trace, hlevels, htrace⟩ := exists_levels (ν := ν) input
  have hlength : opened input ≤ input.length := (List.takeWhile_sublist _).length_le
  have hbound : opened input + 1 + (input.length - opened input) = input.length + 1 := by omega
  have hparse := hlevels (input.length - opened input)
  rw [hbound] at hparse
  exact ⟨trace, hparse, htrace, fun more => (hlevels more).trans hparse.symm⟩

-- "(()x"
example : (parentheses : Parser Unit Nat) [40, 40, 41, 120] =
    .ended [.building [40, 41, 120], .building [41, 120]]
      (.ok (.matched 0 [40, 40, 41, 120])) := rfl

end ByteGrammar.Format
