import ByteGrammar.Proofs.FoldMeaning
import ByteGrammar.Proofs.Parser.Takes
import Mathlib.Tactic.SplitIfs

namespace ByteGrammar.Parser

variable {ν α β γ : Type}

-- What a parser made of others matches, by what its parts match

theorem andThen_matched_iff {first : Parser ν α} {next : α → Parser ν β} {input tail : Bytes}
    {value : β} :
    ((first.andThen next) input).Gives (.ok (.matched value tail)) ↔
      ∃ mid rest, (first input).Gives (.ok (.matched mid rest)) ∧
        (next mid rest).Gives (.ok (.matched value tail)) := by
  unfold andThen
  rw [Run.bind_gives_ok_iff]
  constructor
  · rintro ⟨outcome, hfirst, hnext⟩
    cases outcome with
    | matched mid rest => exact ⟨mid, rest, hfirst, hnext⟩
    | noMatch =>
      obtain ⟨_, hnext⟩ := hnext
      cases hnext
  · rintro ⟨mid, rest, hfirst, hnext⟩
    exact ⟨.matched mid rest, hfirst, hnext⟩

theorem andThen_noMatch_of_noMatch {first : Parser ν α} {next : α → Parser ν β} {input : Bytes}
    (hfirst : (first input).Gives (.ok .noMatch)) :
    ((first.andThen next) input).Gives (.ok .noMatch) :=
  Run.bind_gives_ok_iff.mpr ⟨.noMatch, hfirst, _, rfl⟩

-- The second part fails only where the first has matched
theorem andThen_error_iff {first : Parser ν α} {next : α → Parser ν β} {input : Bytes}
    {error : Error} :
    ((first.andThen next) input).Gives (.error error) ↔
      (first input).Gives (.error error) ∨
      ∃ mid rest, (first input).Gives (.ok (.matched mid rest)) ∧
        (next mid rest).Gives (.error error) := by
  unfold andThen
  rw [Run.bind_gives_error_iff]
  apply or_congr_right
  constructor
  · rintro ⟨outcome, hfirst, hnext⟩
    cases outcome with
    | matched mid rest => exact ⟨mid, rest, hfirst, hnext⟩
    | noMatch =>
      obtain ⟨_, hnext⟩ := hnext
      cases hnext
  · rintro ⟨mid, rest, hfirst, hnext⟩
    exact ⟨.matched mid rest, hfirst, hnext⟩

theorem exists_andThen_gives {first : Parser ν α} {next : α → Parser ν β} {input : Bytes}
    (hfirst : ∃ result, (first input).Gives result)
    (hnext : ∀ mid rest, (first input).Gives (.ok (.matched mid rest)) →
      ∃ result, (next mid rest).Gives result) :
    ∃ result, ((first.andThen next) input).Gives result := by
  obtain ⟨result, hrun⟩ := hfirst
  match result with
  | .error error => exact ⟨_, andThen_error_iff.mpr (.inl hrun)⟩
  | .ok .noMatch => exact ⟨_, andThen_noMatch_of_noMatch hrun⟩
  | .ok (.matched mid rest) =>
    obtain ⟨result, hrest⟩ := hnext mid rest hrun
    obtain ⟨own, hrun⟩ := hrun
    refine ⟨result, ?_⟩
    simp only [andThen, hrun, Run.ok_bind, Run.after_gives_iff]
    exact hrest

theorem orElse_gives_iff {first second : Parser ν α} {input : Bytes}
    {result : Except Error (Outcome α)} :
    ((first.orElse second) input).Gives result ↔
      ((first input).Gives result ∧ result ≠ .ok .noMatch) ∨
      (first input).Gives (.ok .noMatch) ∧ (second input).Gives result := by
  unfold orElse
  cases hfirst : first input with
  | unfinished => simp [Run.not_gives_unfinished]
  | ended trace answer =>
    match answer with
    | .error error =>
      simp only [Run.error_bind, Run.ended_gives_iff, reduceCtorEq, false_and, or_false]
      exact (and_iff_left_of_imp fun h => h ▸ by simp).symm
    | .ok .noMatch =>
      simp only [Run.ok_bind, Run.after_gives_iff, Run.ended_gives_iff, true_and]
      exact (or_iff_right fun h => h.2 h.1.symm).symm
    | .ok (.matched value tail) =>
      simp only [Run.ok_bind, Run.pure_eq, Run.after_gives_iff, Run.ended_gives_iff,
        Except.ok.injEq, reduceCtorEq, false_and, or_false]
      exact (and_iff_left_of_imp fun h => h ▸ by simp).symm

theorem orElse_matched_iff {first second : Parser ν α} {input tail : Bytes} {value : α} :
    ((first.orElse second) input).Gives (.ok (.matched value tail)) ↔
      (first input).Gives (.ok (.matched value tail)) ∨
      (first input).Gives (.ok .noMatch) ∧ (second input).Gives (.ok (.matched value tail)) := by
  simp [orElse_gives_iff]

theorem refine_matched_iff {inner : Parser ν α} {f : α → Run ν β} {input tail : Bytes}
    {value : β} :
    ((inner.refine f) input).Gives (.ok (.matched value tail)) ↔
      ∃ mid, (inner input).Gives (.ok (.matched mid tail)) ∧ (f mid).Gives (.ok value) := by
  unfold refine
  rw [Run.bind_gives_ok_iff]
  constructor
  · rintro ⟨outcome, hinner, hrest⟩
    cases outcome with
    | matched mid rest =>
      obtain ⟨result, hf, _, hresult⟩ := Run.bind_gives_ok_iff.mp hrest
      cases hresult
      exact ⟨mid, hinner, hf⟩
    | noMatch =>
      obtain ⟨_, hrest⟩ := hrest
      cases hrest
  · rintro ⟨mid, hinner, hf⟩
    exact ⟨.matched mid tail, hinner, Run.bind_gives_ok_iff.mpr ⟨value, hf, _, rfl⟩⟩

theorem refine_noMatch_iff {inner : Parser ν α} {f : α → Run ν β} {input : Bytes} :
    ((inner.refine f) input).Gives (.ok .noMatch) ↔ (inner input).Gives (.ok .noMatch) := by
  unfold refine
  rw [Run.bind_gives_ok_iff]
  constructor
  · rintro ⟨outcome, hinner, hrest⟩
    cases outcome with
    | matched mid rest =>
      obtain ⟨result, -, _, hresult⟩ := Run.bind_gives_ok_iff.mp hrest
      cases hresult
    | noMatch => exact hinner
  · intro hinner
    exact ⟨.noMatch, hinner, _, rfl⟩

-- An error of the function is an error of the whole
theorem refine_error_of_matched {inner : Parser ν α} {f : α → Run ν β} {input tail : Bytes}
    {mid : α} {error : Error} (hinner : (inner input).Gives (.ok (.matched mid tail)))
    (hf : (f mid).Gives (.error error)) : ((inner.refine f) input).Gives (.error error) :=
  Run.bind_gives_error_iff.mpr
    (.inr ⟨.matched mid tail, hinner, Run.bind_gives_error_iff.mpr (.inl hf)⟩)

theorem map_matched_iff {inner : Parser ν α} {f : α → β} {input tail : Bytes} {value : β} :
    ((inner.map f) input).Gives (.ok (.matched value tail)) ↔
      ∃ mid, (inner input).Gives (.ok (.matched mid tail)) ∧ f mid = value := by
  unfold map
  rw [refine_matched_iff]
  simp

theorem both_matched_iff {first : Parser ν α} {second : Parser ν β} {input tail : Bytes}
    {pair : α × β} :
    ((first.both second) input).Gives (.ok (.matched pair tail)) ↔
      ∃ rest, (first input).Gives (.ok (.matched pair.1 rest)) ∧
        (second rest).Gives (.ok (.matched pair.2 tail)) := by
  simp only [both, andThen_matched_iff, map_matched_iff]
  constructor
  · rintro ⟨left, rest, hfirst, right, hsecond, rfl⟩
    exact ⟨rest, hfirst, hsecond⟩
  · rintro ⟨rest, hfirst, hsecond⟩
    exact ⟨pair.1, rest, hfirst, pair.2, hsecond, rfl⟩

theorem delay_gives_iff {inner : Parser ν α} {input : Bytes}
    {result : Except Error (Outcome α)} :
    (inner.delay input).Gives result ↔ (inner input).Gives result :=
  Run.after_gives_iff

theorem optional_matched_iff {inner : Parser ν α} {input tail : Bytes} {value : Option α} :
    (inner.optional input).Gives (.ok (.matched value tail)) ↔
      (∃ mid, (inner input).Gives (.ok (.matched mid tail)) ∧ value = some mid) ∨
      (inner input).Gives (.ok .noMatch) ∧ value = none ∧ tail = input := by
  unfold optional
  rw [Run.bind_gives_ok_iff]
  constructor
  · rintro ⟨outcome, hinner, _, hrest⟩
    cases outcome with
    | matched mid rest =>
      cases hrest
      exact .inl ⟨mid, hinner, rfl⟩
    | noMatch =>
      cases hrest
      exact .inr ⟨hinner, rfl, rfl⟩
  · rintro (⟨mid, hinner, rfl⟩ | ⟨hinner, rfl, rfl⟩)
    · exact ⟨_, hinner, _, rfl⟩
    · exact ⟨_, hinner, _, rfl⟩

-- Lookahead leaves the input as it is

theorem notFollowedBy_matched_iff {inner : Parser ν α} {input tail : Bytes} {value : Unit} :
    (inner.notFollowedBy input).Gives (.ok (.matched value tail)) ↔
      (inner input).Gives (.ok .noMatch) ∧ tail = input := by
  unfold notFollowedBy
  rw [Run.bind_gives_ok_iff]
  constructor
  · rintro ⟨outcome, hinner, _, hrest⟩
    cases outcome with
    | matched mid rest => cases hrest
    | noMatch =>
      cases hrest
      exact ⟨hinner, rfl⟩
  · rintro ⟨hinner, rfl⟩
    exact ⟨.noMatch, hinner, _, rfl⟩

theorem notFollowedBy_noMatch_iff {inner : Parser ν α} {input : Bytes} :
    (inner.notFollowedBy input).Gives (.ok .noMatch) ↔
      ∃ value tail, (inner input).Gives (.ok (.matched value tail)) := by
  unfold notFollowedBy
  rw [Run.bind_gives_ok_iff]
  constructor
  · rintro ⟨outcome, hinner, _, hrest⟩
    cases outcome with
    | matched mid rest => exact ⟨mid, rest, hinner⟩
    | noMatch => cases hrest
  · rintro ⟨value, tail, hinner⟩
    exact ⟨.matched value tail, hinner, _, rfl⟩

theorem literal_matched_iff {expected value input tail : Bytes} :
    ((literal expected : Parser ν Bytes) input).Gives (.ok (.matched value tail)) ↔
      input = expected ++ tail ∧ value = expected := by
  unfold literal
  by_cases h : expected <+: input
  · obtain ⟨rest, rfl⟩ := h
    simp [and_comm, eq_comm]
  · have hne : input ≠ expected ++ tail := fun heq => h ⟨tail, heq.symm⟩
    by_cases hshort : input <+: expected <;> simp [h, hshort, hne, Run.report]

theorem literal_noMatch_iff {expected input : Bytes} :
    ((literal expected : Parser ν Bytes) input).Gives (.ok .noMatch) ↔ ¬ expected <+: input := by
  unfold literal
  by_cases h : expected <+: input
  · simp [h]
  · by_cases hshort : input <+: expected <;> simp [h, hshort, Run.report]

theorem byte_matched_iff {expected value : UInt8} {input tail : Bytes} :
    ((byte expected : Parser ν UInt8) input).Gives (.ok (.matched value tail)) ↔
      input = expected :: tail ∧ value = expected := by
  cases input with
  | nil => simp [byte, Run.report]
  | cons first rest =>
    by_cases hfirst : first = expected
    · simp [byte, hfirst, and_comm, eq_comm]
    · simp [byte, hfirst]

theorem byte_noMatch_iff {expected : UInt8} {input : Bytes} :
    ((byte expected : Parser ν UInt8) input).Gives (.ok .noMatch) ↔
      input.head? ≠ some expected := by
  cases input with
  | nil => simp [byte, Run.report]
  | cons first rest =>
    by_cases hfirst : first = expected <;> simp [byte, hfirst]

theorem satisfy_matched_iff {test : UInt8 → Bool} {value : UInt8} {input tail : Bytes} :
    ((satisfy test : Parser ν UInt8) input).Gives (.ok (.matched value tail)) ↔
      input = value :: tail ∧ test value := by
  cases input with
  | nil => simp [satisfy, satisfyRun, Run.report]
  | cons first rest =>
    cases htest : test first <;> simp [satisfy, satisfyRun, htest] <;> grind

theorem satisfy_noMatch_iff {test : UInt8 → Bool} {input : Bytes} :
    ((satisfy test : Parser ν UInt8) input).Gives (.ok .noMatch) ↔
      ∀ first, input.head? = some first → test first = false := by
  cases input with
  | nil => simp [satisfy, satisfyRun, Run.report]
  | cons first rest =>
    cases htest : test first <;> simp [satisfy, satisfyRun, htest]

-- A loop over bytes that pass a test

theorem takeWhile_eq_nil_iff_head? {test : UInt8 → Bool} {input : Bytes} :
    input.takeWhile test = [] ↔ ∀ first, input.head? = some first → test first = false := by
  cases input with
  | nil => exact ⟨fun _ => nofun, fun _ => rfl⟩
  | cons first rest => cases hfirst : test first <;> simp [hfirst]

theorem exists_first_of_takeWhile {test : UInt8 → Bool} {input : Bytes}
    (h : input.takeWhile test ≠ []) : ∃ first rest, input = first :: rest ∧ test first := by
  cases input with
  | nil => exact absurd rfl h
  | cons first rest =>
    cases hfirst : test first with
    | true => exact ⟨first, rest, rfl, hfirst⟩
    | false => exact absurd (List.takeWhile_cons_of_neg (by simp [hfirst])) h

theorem rounds_satisfy_iff {test : UInt8 → Bool} {values input tail : Bytes} :
    Rounds (satisfy test : Parser ν UInt8) input values tail ↔
      input = values ++ tail ∧ ∀ value ∈ values, test value := by
  induction values generalizing input with
  | nil =>
    constructor
    · intro h
      cases h
      exact ⟨rfl, nofun⟩
    · rintro ⟨rfl, -⟩
      exact .none _
  | cons first rest ih =>
    rw [List.forall_mem_cons]
    constructor
    · intro h
      cases h with
      | next _ _ place _ _ hmatch hrest =>
        obtain ⟨rfl, hfirst⟩ := satisfy_matched_iff.mp hmatch
        obtain ⟨rfl, hpassed⟩ := ih.mp hrest
        exact ⟨rfl, hfirst, hpassed⟩
    · rintro ⟨rfl, hfirst, hpassed⟩
      exact .next _ first (rest ++ tail) rest tail (satisfy_matched_iff.mpr ⟨rfl, hfirst⟩)
        (ih.mpr ⟨rfl, hpassed⟩)

-- It can only stop at the first byte that does not pass
theorem rounds_satisfy_stop_iff {test : UInt8 → Bool} {values input tail : Bytes} :
    Rounds (satisfy test : Parser ν UInt8) input values tail ∧
        ((satisfy test : Parser ν UInt8) tail).Gives (.ok .noMatch) ↔
      values = input.takeWhile test ∧ tail = input.dropWhile test := by
  rw [rounds_satisfy_iff, satisfy_noMatch_iff]
  constructor
  · rintro ⟨⟨rfl, hpassed⟩, hstop⟩
    have htaken : tail.takeWhile test = [] := takeWhile_eq_nil_iff_head?.mpr hstop
    have hdropped : tail.dropWhile test = tail := by
      have htail : tail.takeWhile test ++ tail.dropWhile test = tail :=
        List.takeWhile_append_dropWhile
      rwa [htaken, List.nil_append] at htail
    rw [List.takeWhile_append_of_pos hpassed, List.dropWhile_append_of_pos hpassed, htaken,
      hdropped, List.append_nil]
    exact ⟨rfl, rfl⟩
  · rintro ⟨rfl, rfl⟩
    refine ⟨⟨List.takeWhile_append_dropWhile.symm, List.all_eq_true.mp List.all_takeWhile⟩, ?_⟩
    intro first hfirst
    have hstop := List.head?_dropWhile_not test input
    rwa [hfirst] at hstop

-- On the heap, nothing is refused: a repetition has as many elements as there were rounds

theorem foldlM_push_heap (values items : List α) :
    (values.foldlM (Storage.heap : Storage α).push items.toArray : Run ν (Array α)).Gives
      (.ok (items ++ values).toArray) := by
  induction values generalizing items with
  | nil => simp
  | cons value rest ih =>
    have hpush : ((Storage.heap : Storage α).push items.toArray value : Run ν (Array α)).Gives
        (.ok (items ++ [value]).toArray) := ⟨_, by rw [← List.push_toArray]; rfl⟩
    have hrest := ih (items ++ [value])
    rw [List.append_assoc] at hrest
    exact foldlM_cons_gives_ok_iff.mpr ⟨_, hpush, hrest⟩

theorem many_heap_matched_iff {inner : Parser ν α} {rounds : Nat} {input tail : Bytes}
    {values : List α} :
    ((many rounds .heap inner) input).Gives (.ok (.matched values tail)) ↔
      values.length < rounds ∧ Rounds inner input values tail ∧
        (inner tail).Gives (.ok .noMatch) := by
  unfold many
  rw [refine_matched_iff]
  constructor
  · rintro ⟨items, hfold, _, hfinish⟩
    obtain ⟨seed, ⟨_, hseed⟩, hloop⟩ := foldMany_gives_ok_iff.mp hfold
    obtain rfl := Storage.eq_empty_of_allocate hseed
    obtain ⟨others, hlength, hrounds, hstop, hitems⟩ := foldRounds_gives_ok_iff.mp hloop
    cases hitems.unique (foldlM_push_heap others [])
    cases eq_toList_of_finish hfinish
    exact ⟨hlength, hrounds, hstop⟩
  · rintro ⟨hlength, hrounds, hstop⟩
    refine ⟨values.toArray, foldMany_gives_ok_iff.mpr ⟨#[], ⟨_, rfl⟩, ?_⟩, _, rfl⟩
    exact foldRounds_gives_ok_iff.mpr
      ⟨values, hlength, hrounds, hstop, foldlM_push_heap values []⟩

-- Where the parser matches at once, one or more are zero or more
theorem many1_matched_iff_of_match {inner : Parser ν α} {storage : Storage α} {rounds : Nat}
    {input rest tail : Bytes} {value : α} {values : List α}
    (h : (inner input).Gives (.ok (.matched value rest))) :
    ((many1 rounds storage inner) input).Gives (.ok (.matched values tail)) ↔
      ((many (rounds + 1) storage inner) input).Gives (.ok (.matched values tail)) := by
  simp only [many1, many, refine_matched_iff, foldMany1_gives_iff_of_match h]

theorem many1_heap_noMatch_of_noMatch {inner : Parser ν α} {rounds : Nat} {input : Bytes}
    (h : (inner input).Gives (.ok .noMatch)) :
    ((many1 rounds .heap inner) input).Gives (.ok .noMatch) := by
  obtain ⟨own, h⟩ := h
  refine refine_noMatch_iff.mpr ?_
  simp [foldMany1, Storage.allocate, Storage.empty, h, Run.report]

theorem many_heap_satisfy_gives {test : UInt8 → Bool} {rounds : Nat} {input : Bytes}
    (hrounds : input.length < rounds) :
    ((many rounds .heap (satisfy test) : Parser ν Bytes) input).Gives
      (.ok (.matched (input.takeWhile test) (input.dropWhile test))) := by
  obtain ⟨hpassed, hstop⟩ := rounds_satisfy_stop_iff (ν := ν).mpr
    (⟨rfl, rfl⟩ : input.takeWhile test = _ ∧ input.dropWhile test = _)
  have hlength := (List.takeWhile_sublist (l := input) test).length_le
  exact many_heap_matched_iff.mpr ⟨by omega, hpassed, hstop⟩

theorem many1_heap_satisfy_gives {test : UInt8 → Bool} {rounds : Nat}
    {input : Bytes} (hrounds : input.length ≤ rounds) :
    ((many1 rounds .heap (satisfy test) : Parser ν Bytes) input).Gives
      (.ok (if input.takeWhile test = [] then .noMatch
        else .matched (input.takeWhile test) (input.dropWhile test))) := by
  split_ifs with hempty
  · exact many1_heap_noMatch_of_noMatch
      (satisfy_noMatch_iff.mpr (takeWhile_eq_nil_iff_head?.mp hempty))
  · obtain ⟨first, rest, rfl, hfirst⟩ := exists_first_of_takeWhile hempty
    have hmatch : ((satisfy test : Parser ν UInt8) (first :: rest)).Gives
        (.ok (.matched first rest)) := satisfy_matched_iff.mpr ⟨rfl, hfirst⟩
    exact (many1_matched_iff_of_match hmatch).mpr (many_heap_satisfy_gives (by omega))

-- A parser that ends without an error, here

def Answers (parser : Parser ν α) (input : Bytes) : Prop :=
  ∃ outcome, (parser input).Gives (.ok outcome)

-- Where there is no error, it is enough to know what is matched
theorem Answers.noMatch_iff {parser : Parser ν α} {input : Bytes} (h : parser.Answers input) :
    (parser input).Gives (.ok .noMatch) ↔
      ¬ ∃ value tail, (parser input).Gives (.ok (.matched value tail)) := by
  obtain ⟨outcome, hrun⟩ := h
  constructor
  · rintro hnone ⟨value, tail, hmatch⟩
    cases hnone.unique hmatch
  · intro hnone
    cases outcome with
    | noMatch => exact hrun
    | matched value tail => exact absurd ⟨value, tail, hrun⟩ hnone

theorem Answers.not_gives_error {parser : Parser ν α} {input : Bytes} (h : parser.Answers input)
    (error : Error) : ¬ (parser input).Gives (.error error) := by
  obtain ⟨outcome, hrun⟩ := h
  exact fun herror => nomatch hrun.unique herror

theorem Answers.andThen {first : Parser ν α} {next : α → Parser ν β} {input : Bytes}
    (hfirst : first.Answers input)
    (hnext : ∀ value tail, (first input).Gives (.ok (.matched value tail)) →
      (next value).Answers tail) : (first.andThen next).Answers input := by
  obtain ⟨outcome, hrun⟩ := hfirst
  cases outcome with
  | matched value tail =>
    obtain ⟨outcome, hrest⟩ := hnext value tail hrun
    exact ⟨outcome, Run.bind_gives_ok_iff.mpr ⟨_, hrun, hrest⟩⟩
  | noMatch => exact ⟨.noMatch, Run.bind_gives_ok_iff.mpr ⟨_, hrun, _, rfl⟩⟩

theorem Answers.orElse {first second : Parser ν α} {input : Bytes}
    (hfirst : first.Answers input) (hsecond : second.Answers input) :
    (first.orElse second).Answers input := by
  obtain ⟨outcome, hrun⟩ := hfirst
  cases outcome with
  | matched value tail => exact ⟨_, Run.bind_gives_ok_iff.mpr ⟨_, hrun, _, rfl⟩⟩
  | noMatch =>
    obtain ⟨outcome, hrest⟩ := hsecond
    exact ⟨outcome, Run.bind_gives_ok_iff.mpr ⟨_, hrun, hrest⟩⟩

theorem Answers.map {inner : Parser ν α} {input : Bytes} (hinner : inner.Answers input)
    (f : α → β) : (inner.map f).Answers input := by
  obtain ⟨outcome, hrun⟩ := hinner
  cases outcome with
  | matched value tail => exact ⟨_, Run.bind_gives_ok_iff.mpr ⟨_, hrun, _, rfl⟩⟩
  | noMatch => exact ⟨_, Run.bind_gives_ok_iff.mpr ⟨_, hrun, _, rfl⟩⟩

theorem Answers.optional {inner : Parser ν α} {input : Bytes} (hinner : inner.Answers input) :
    inner.optional.Answers input := by
  obtain ⟨outcome, hrun⟩ := hinner
  cases outcome with
  | matched value tail => exact ⟨_, Run.bind_gives_ok_iff.mpr ⟨_, hrun, _, rfl⟩⟩
  | noMatch => exact ⟨_, Run.bind_gives_ok_iff.mpr ⟨_, hrun, _, rfl⟩⟩

theorem Answers.notFollowedBy {inner : Parser ν α} {input : Bytes} (hinner : inner.Answers input) :
    inner.notFollowedBy.Answers input := by
  obtain ⟨outcome, hrun⟩ := hinner
  cases outcome with
  | matched value tail => exact ⟨_, notFollowedBy_noMatch_iff.mpr ⟨value, tail, hrun⟩⟩
  | noMatch => exact ⟨.matched () input, notFollowedBy_matched_iff.mpr ⟨hrun, rfl⟩⟩

theorem literal_answers (expected input : Bytes) :
    (literal expected : Parser ν Bytes).Answers input := by
  by_cases h : expected <+: input
  · obtain ⟨tail, rfl⟩ := h
    exact ⟨_, literal_matched_iff.mpr ⟨rfl, rfl⟩⟩
  · exact ⟨_, literal_noMatch_iff.mpr h⟩

theorem byte_answers (expected : UInt8) (input : Bytes) :
    (byte expected : Parser ν UInt8).Answers input := by
  cases input with
  | nil => exact ⟨_, _, rfl⟩
  | cons first rest => exact ⟨_, _, rfl⟩

theorem satisfy_answers (test : UInt8 → Bool) (input : Bytes) :
    (satisfy test : Parser ν UInt8).Answers input := by
  cases input with
  | nil => exact ⟨_, _, rfl⟩
  | cons first rest =>
    by_cases htest : test first
    · exact ⟨.matched first rest, satisfy_matched_iff.mpr ⟨rfl, htest⟩⟩
    · refine ⟨.noMatch, satisfy_noMatch_iff.mpr fun other hother => ?_⟩
      cases hother
      exact Bool.eq_false_iff.mpr htest

-- Rounds that take something come to a last one
theorem exists_last_round {inner : Parser ν α} (htakes : inner.Takes 1) (input : Bytes) :
    ∃ values tail, Rounds inner input values tail ∧
      ∀ value rest, ¬ (inner tail).Gives (.ok (.matched value rest)) := by
  by_cases hmatch : ∃ value rest, (inner input).Gives (.ok (.matched value rest))
  · obtain ⟨value, rest, hrun⟩ := hmatch
    have hshorter := htakes input value rest hrun
    obtain ⟨values, tail, hrounds, hlast⟩ := exists_last_round htakes rest
    exact ⟨value :: values, tail, .next _ _ _ _ _ hrun hrounds, hlast⟩
  · exact ⟨[], input, .none input, fun value rest hrun => hmatch ⟨value, rest, hrun⟩⟩
termination_by input.length

-- Where there is no error on the way, the parser does not match at that place
theorem exists_rounds {inner : Parser ν α} (htakes : inner.Takes 1) (input : Bytes)
    (hinner : ∀ place, place.length ≤ input.length → inner.Answers place) :
    ∃ values tail, Rounds inner input values tail ∧ (inner tail).Gives (.ok .noMatch) := by
  obtain ⟨values, tail, hrounds, hlast⟩ := exists_last_round htakes input
  have hlength := hrounds.length_add_le fun place value rest hrun => htakes place value rest hrun
  refine ⟨values, tail, hrounds, (hinner tail (by omega)).noMatch_iff.mpr ?_⟩
  rintro ⟨value, rest, hrun⟩
  exact hlast value rest hrun

theorem Answers.many_heap {inner : Parser ν α} {input : Bytes} {rounds : Nat}
    (hinner : ∀ place, place.length ≤ input.length → inner.Answers place)
    (htakes : inner.Takes 1) (hrounds : input.length < rounds) :
    (many rounds .heap inner).Answers input := by
  obtain ⟨values, tail, hvalues, hstop⟩ := exists_rounds htakes input hinner
  have hlength := hvalues.length_add_le fun place value rest hrun => htakes place value rest hrun
  exact ⟨.matched values tail,
    many_heap_matched_iff.mpr ⟨by omega, hvalues, hstop⟩⟩

end ByteGrammar.Parser
