import ByteGrammar.Format.Decimal
import ByteGrammar.Parser.Approximation
import ByteGrammar.Proofs.Run.Gives

namespace ByteGrammar.Parser

variable {ν α β : Type} {inner : Parser ν α} {init : Run ν β} {combine : β → α → Run ν β}

-- The matches of a parser that is run again and again on its own tails, with the place that
-- the last of them leaves. It may match there once more.
inductive Rounds (inner : Parser ν α) : Bytes → List α → Bytes → Prop
  | none (input : Bytes) : Rounds inner input [] input
  | next (input : Bytes) (value : α) (tail : Bytes) (values : List α) (last : Bytes)
      (hmatch : (inner input).Gives (.ok (.matched value tail)))
      (hrest : Rounds inner tail values last) : Rounds inner input (value :: values) last

-- The next round ends with an error: of the parser, or of the function on what it yields
def RoundFails (inner : Parser ν α) (combine : β → α → Run ν β) (accumulator : β) (place : Bytes)
    (error : Error) : Prop :=
  (inner place).Gives (.error error) ∨
  ∃ value tail, (inner place).Gives (.ok (.matched value tail)) ∧
    (combine accumulator value).Gives (.error error)

-- A fold ends, within some number of rounds
def Folds (inner : Parser ν α) (init : Run ν β) (combine : β → α → Run ν β) (input : Bytes)
    (result : Except Error (Outcome β)) : Prop :=
  ∃ rounds, (foldMany rounds inner init combine input).Gives result

-- One round: the loop stops, or it goes on from the tail with the next accumulator

theorem foldRounds_succ_gives_ok_iff {rounds iterations : Nat} {accumulator : β} {input : Bytes}
    {last : β × Bytes} :
    (foldRounds inner combine (rounds + 1) iterations [] accumulator input).Gives (.ok last) ↔
      ((inner input).Gives (.ok .noMatch) ∧ last = (accumulator, input)) ∨
      ∃ value tail next, (inner input).Gives (.ok (.matched value tail)) ∧
        (combine accumulator value).Gives (.ok next) ∧
        (foldRounds inner combine rounds (iterations + 1) [] next tail).Gives (.ok last) := by
  rw [foldRounds_succ, Run.bind_gives_ok_iff]
  constructor
  · rintro ⟨outcome, hrun, hrest⟩
    cases outcome with
    | noMatch =>
      obtain ⟨_, hstopped⟩ := hrest
      cases hstopped
      exact .inl ⟨hrun, rfl⟩
    | matched value tail =>
      obtain ⟨next, hnext, hloop⟩ := Run.bind_gives_ok_iff.mp hrest
      exact .inr ⟨value, tail, next, hrun, hnext, hloop⟩
  · rintro (⟨hrun, rfl⟩ | ⟨value, tail, next, hrun, hnext, hloop⟩)
    · exact ⟨.noMatch, hrun, _, rfl⟩
    · exact ⟨.matched value tail, hrun, Run.bind_gives_ok_iff.mpr ⟨next, hnext, hloop⟩⟩

theorem foldRounds_succ_gives_error_iff {rounds iterations : Nat} {accumulator : β}
    {input : Bytes} {error : Error} :
    (foldRounds inner combine (rounds + 1) iterations [] accumulator input).Gives (.error error) ↔
      RoundFails inner combine accumulator input error ∨
      ∃ value tail next, (inner input).Gives (.ok (.matched value tail)) ∧
        (combine accumulator value).Gives (.ok next) ∧
        (foldRounds inner combine rounds (iterations + 1) [] next tail).Gives (.error error) := by
  rw [foldRounds_succ, Run.bind_gives_error_iff]
  constructor
  · rintro (hfails | ⟨outcome, hrun, hrest⟩)
    · exact .inl (.inl hfails)
    cases outcome with
    | noMatch =>
      obtain ⟨_, hstopped⟩ := hrest
      cases hstopped
    | matched value tail =>
      rcases Run.bind_gives_error_iff.mp hrest with hfails | ⟨next, hnext, hloop⟩
      · exact .inl (.inr ⟨value, tail, hrun, hfails⟩)
      · exact .inr ⟨value, tail, next, hrun, hnext, hloop⟩
  · rintro ((hfails | ⟨value, tail, hrun, hfails⟩) | ⟨value, tail, next, hrun, hnext, hloop⟩)
    · exact .inl hfails
    · exact .inr ⟨_, hrun, Run.bind_gives_error_iff.mpr (.inl hfails)⟩
    · exact .inr ⟨_, hrun, Run.bind_gives_error_iff.mpr (.inr ⟨next, hnext, hloop⟩)⟩

-- All rounds, by induction on how many there may be

theorem foldlM_cons_gives_ok_iff {accumulator total : β} {value : α} {values : List α} :
    ((value :: values).foldlM combine accumulator).Gives (.ok total) ↔
      ∃ next, (combine accumulator value).Gives (.ok next) ∧
        (values.foldlM combine next).Gives (.ok total) := by
  rw [List.foldlM_cons, Run.bind_gives_ok_iff]

theorem foldRounds_gives_ok_iff {rounds iterations : Nat} {accumulator total : β}
    {input tail : Bytes} :
    (foldRounds inner combine rounds iterations [] accumulator input).Gives (.ok (total, tail)) ↔
      ∃ values, values.length < rounds ∧ Rounds inner input values tail ∧
        (inner tail).Gives (.ok .noMatch) ∧
        (values.foldlM combine accumulator).Gives (.ok total) := by
  induction rounds generalizing iterations accumulator input with
  | zero => simp [Run.not_gives_unfinished]
  | succ rounds ih =>
    rw [foldRounds_succ_gives_ok_iff]
    constructor
    · rintro (⟨hstop, hlast⟩ | ⟨value, rest, next, hmatch, hnext, hloop⟩)
      · cases hlast
        exact ⟨[], by simp, .none _, hstop, by simp⟩
      · obtain ⟨values, hlength, hrounds, hstop, htotal⟩ := ih.mp hloop
        exact ⟨value :: values, by simpa using hlength, .next _ _ _ _ _ hmatch hrounds, hstop,
          foldlM_cons_gives_ok_iff.mpr ⟨next, hnext, htotal⟩⟩
    · rintro ⟨values, hlength, hrounds, hstop, htotal⟩
      cases hrounds with
      | none =>
        obtain rfl : accumulator = total := by simpa using htotal
        exact .inl ⟨hstop, rfl⟩
      | next _ value rest values _ hmatch hrounds =>
        obtain ⟨next, hnext, htotal⟩ := foldlM_cons_gives_ok_iff.mp htotal
        have hlength : values.length < rounds := by simpa using hlength
        exact .inr ⟨value, rest, next, hmatch, hnext,
          ih.mpr ⟨values, hlength, hrounds, hstop, htotal⟩⟩

theorem foldRounds_gives_error_iff {rounds iterations : Nat} {accumulator : β} {input : Bytes}
    {error : Error} :
    (foldRounds inner combine rounds iterations [] accumulator input).Gives (.error error) ↔
      ∃ values place held, values.length < rounds ∧ Rounds inner input values place ∧
        (values.foldlM combine accumulator).Gives (.ok held) ∧
        RoundFails inner combine held place error := by
  induction rounds generalizing iterations accumulator input with
  | zero => simp [Run.not_gives_unfinished]
  | succ rounds ih =>
    rw [foldRounds_succ_gives_error_iff]
    constructor
    · rintro (hfails | ⟨value, rest, next, hmatch, hnext, hloop⟩)
      · exact ⟨[], input, accumulator, by simp, .none _, by simp, hfails⟩
      · obtain ⟨values, place, held, hlength, hrounds, hheld, hfails⟩ := ih.mp hloop
        exact ⟨value :: values, place, held, by simpa using hlength,
          .next _ _ _ _ _ hmatch hrounds, foldlM_cons_gives_ok_iff.mpr ⟨next, hnext, hheld⟩, hfails⟩
    · rintro ⟨values, place, held, hlength, hrounds, hheld, hfails⟩
      cases hrounds with
      | none =>
        obtain rfl : accumulator = held := by simpa using hheld
        exact .inl hfails
      | next _ value rest values _ hmatch hrounds =>
        obtain ⟨next, hnext, hheld⟩ := foldlM_cons_gives_ok_iff.mp hheld
        have hlength : values.length < rounds := by simpa using hlength
        exact .inr ⟨value, rest, next, hmatch, hnext,
          ih.mpr ⟨values, place, held, hlength, hrounds, hheld, hfails⟩⟩

-- The rounds that came before are counted, but make no other difference
theorem foldRounds_gives_iff_uncounted {rounds iterations : Nat} {accumulator : β} {input : Bytes}
    {result : Except Error (β × Bytes)} :
    (foldRounds inner combine rounds iterations [] accumulator input).Gives result ↔
      (foldRounds inner combine rounds 0 [] accumulator input).Gives result := by
  cases result with
  | error error => rw [foldRounds_gives_error_iff, foldRounds_gives_error_iff]
  | ok last => rw [foldRounds_gives_ok_iff, foldRounds_gives_ok_iff]

-- What is left gets shorter in each round, so there are no more rounds than bytes
theorem foldRounds_ne_unfinished (hinner : ∀ place, inner place ≠ .unfinished)
    (hcombine : ∀ accumulator value, combine accumulator value ≠ .unfinished)
    (hshorter : ∀ place value tail, (inner place).Gives (.ok (.matched value tail)) →
      tail.length < place.length)
    {rounds iterations : Nat} {accumulator : β} {input : Bytes} (hrounds : input.length < rounds) :
    foldRounds inner combine rounds iterations [] accumulator input ≠ .unfinished := by
  induction rounds generalizing iterations accumulator input with
  | zero => omega
  | succ rounds ih =>
    rw [foldRounds_succ]
    apply Run.bind_ne_unfinished (hinner input)
    intro outcome hrun
    cases outcome with
    | noMatch => simp [Run.report]
    | matched value tail =>
      have htail := hshorter input value tail hrun
      apply Run.bind_ne_unfinished (hcombine accumulator value)
      intro next _
      exact ih (by omega)

theorem Rounds.length_add_le {input last : Bytes} {values : List α}
    (h : Rounds inner input values last)
    (hshorter : ∀ place value tail, (inner place).Gives (.ok (.matched value tail)) →
      tail.length < place.length) :
    values.length + last.length ≤ input.length := by
  induction h with
  | none input => simp
  | next input value tail values last hmatch hrest ih =>
    have htail := hshorter input value tail hmatch
    simp only [List.length_cons]
    omega

-- A fold is a seed and then the rounds of its loop

theorem foldMany_gives_ok_iff {rounds : Nat} {input tail : Bytes} {total : β} :
    (foldMany rounds inner init combine input).Gives (.ok (.matched total tail)) ↔
      ∃ seed, init.Gives (.ok seed) ∧
        (foldRounds inner combine rounds 0 [] seed input).Gives (.ok (total, tail)) := by
  unfold foldMany
  rw [Run.bind_gives_ok_iff]
  refine exists_congr fun seed => and_congr_right fun _ => ?_
  rw [Run.bind_gives_ok_iff]
  constructor
  · rintro ⟨⟨last, rest⟩, hloop, _, hlast⟩
    cases hlast
    exact hloop
  · intro hloop
    exact ⟨_, hloop, _, rfl⟩

theorem foldMany_gives_error_iff {rounds : Nat} {input : Bytes} {error : Error} :
    (foldMany rounds inner init combine input).Gives (.error error) ↔
      init.Gives (.error error) ∨ ∃ seed, init.Gives (.ok seed) ∧
        (foldRounds inner combine rounds 0 [] seed input).Gives (.error error) := by
  unfold foldMany
  rw [Run.bind_gives_error_iff]
  refine or_congr_right (exists_congr fun seed => and_congr_right fun _ => ?_)
  rw [Run.bind_gives_error_iff]
  simp

theorem foldMany_eq_of_init {trace : List (Event ν)} {error : Error}
    (h : init = .ended trace (.error error)) (rounds : Nat) (input : Bytes) :
    foldMany rounds inner init combine input = .ended trace (.error error) := by
  rw [h]
  rfl

-- Where the parser matches at once, the first round may be one of the loop
theorem foldMany1_gives_iff_of_match {rounds : Nat} {input tail : Bytes} {value : α}
    {result : Except Error (Outcome β)} (h : (inner input).Gives (.ok (.matched value tail))) :
    (foldMany1 rounds inner init combine input).Gives result ↔
      (foldMany (rounds + 1) inner init combine input).Gives result := by
  obtain ⟨own, h⟩ := h
  simp only [foldMany1, foldMany, foldRounds_succ, h, Run.ok_bind, Run.after_bind, bind_assoc]
  apply Run.bind_gives_congr fun _ => Iff.rfl
  intro seed result
  rw [Run.after_gives_iff, Run.after_gives_iff]
  apply Run.bind_gives_congr fun _ => Iff.rfl
  intro start
  exact Run.bind_gives_congr (fun _ => foldRounds_gives_iff_uncounted.symm) fun _ _ => Iff.rfl

theorem folds_ok_iff {input tail : Bytes} {total : β} :
    Folds inner init combine input (.ok (.matched total tail)) ↔
      ∃ seed values, init.Gives (.ok seed) ∧ Rounds inner input values tail ∧
        (inner tail).Gives (.ok .noMatch) ∧ (values.foldlM combine seed).Gives (.ok total) := by
  constructor
  · rintro ⟨rounds, h⟩
    obtain ⟨seed, hseed, hloop⟩ := foldMany_gives_ok_iff.mp h
    obtain ⟨values, -, hmeaning⟩ := foldRounds_gives_ok_iff.mp hloop
    exact ⟨seed, values, hseed, hmeaning⟩
  · rintro ⟨seed, values, hseed, hmeaning⟩
    refine ⟨values.length + 1, foldMany_gives_ok_iff.mpr ⟨seed, hseed, ?_⟩⟩
    exact foldRounds_gives_ok_iff.mpr ⟨values, Nat.lt_succ_self _, hmeaning⟩

theorem folds_error_iff {input : Bytes} {error : Error} :
    Folds inner init combine input (.error error) ↔
      init.Gives (.error error) ∨
      ∃ seed values place held, init.Gives (.ok seed) ∧ Rounds inner input values place ∧
        (values.foldlM combine seed).Gives (.ok held) ∧
        RoundFails inner combine held place error := by
  constructor
  · rintro ⟨rounds, h⟩
    rcases foldMany_gives_error_iff.mp h with hinit | ⟨seed, hseed, hloop⟩
    · exact .inl hinit
    · obtain ⟨values, place, held, -, hmeaning⟩ := foldRounds_gives_error_iff.mp hloop
      exact .inr ⟨seed, values, place, held, hseed, hmeaning⟩
  · rintro (hinit | ⟨seed, values, place, held, hseed, hmeaning⟩)
    · exact ⟨0, foldMany_gives_error_iff.mpr (.inl hinit)⟩
    · refine ⟨values.length + 1, foldMany_gives_error_iff.mpr (.inr ⟨seed, hseed, ?_⟩)⟩
      exact foldRounds_gives_error_iff.mpr
        ⟨values, place, held, Nat.lt_succ_self _, hmeaning⟩

theorem not_folds_noMatch {input : Bytes} : ¬ Folds inner init combine input (.ok .noMatch) := by
  rintro ⟨rounds, h⟩
  obtain ⟨seed, -, hrest⟩ := Run.bind_gives_ok_iff.mp h
  obtain ⟨last, -, _, hlast⟩ := Run.bind_gives_ok_iff.mp hrest
  cases hlast

-- More rounds do not change how a fold ends
theorem Folds.unique {input : Bytes} {result other : Except Error (Outcome β)}
    (h : Folds inner init combine input result) (hother : Folds inner init combine input other) :
    result = other := by
  obtain ⟨rounds, trace, h⟩ := h
  obtain ⟨more, mark, hother⟩ := hother
  have hfirst := Approximates.foldMany (.refl inner) init combine (Nat.le_max_left rounds more) input
  have hsecond :=
    Approximates.foldMany (.refl inner) init combine (Nat.le_max_right rounds more) input
  rw [h] at hfirst
  rw [hother] at hsecond
  have hsame := hfirst.eq_of_ended.symm.trans hsecond.eq_of_ended
  cases hsame
  rfl

-- What a fold means. If its seed fails, that is its error and nothing else is run. Otherwise the
-- parser is run on its own tails until it does not match. The fold gives what the values come to
-- in order, or the first error on the way. It ends on every input if each round ends and takes
-- something.
theorem foldMany_meaning (inner : Parser ν α) (init : Run ν β) (combine : β → α → Run ν β)
    (input : Bytes) :
    (∀ trace error, init = .ended trace (.error error) →
      ∀ rounds, foldMany rounds inner init combine input = .ended trace (.error error)) ∧
    (∀ total tail, Folds inner init combine input (.ok (.matched total tail)) ↔
      ∃ seed values, init.Gives (.ok seed) ∧ Rounds inner input values tail ∧
        (inner tail).Gives (.ok .noMatch) ∧ (values.foldlM combine seed).Gives (.ok total)) ∧
    (∀ error, Folds inner init combine input (.error error) ↔
      init.Gives (.error error) ∨
      ∃ seed values place held, init.Gives (.ok seed) ∧ Rounds inner input values place ∧
        (values.foldlM combine seed).Gives (.ok held) ∧
        RoundFails inner combine held place error) ∧
    ¬ Folds inner init combine input (.ok .noMatch) ∧
    (∀ result other, Folds inner init combine input result →
      Folds inner init combine input other → result = other) ∧
    ((∀ place, inner place ≠ .unfinished) →
      (∀ accumulator value, combine accumulator value ≠ .unfinished) →
      (∀ place value tail, (inner place).Gives (.ok (.matched value tail)) →
        tail.length < place.length) →
      (init ≠ .unfinished → ∃ result, Folds inner init combine input result) ∧
      ∀ values last, Rounds inner input values last →
        values.length + last.length ≤ input.length) := by
  refine ⟨fun _ _ hinit rounds => foldMany_eq_of_init hinit rounds input, fun _ _ => folds_ok_iff,
    fun _ => folds_error_iff, not_folds_noMatch, fun _ _ => Folds.unique, ?_⟩
  intro hinner hcombine hshorter
  refine ⟨?_, fun _ _ hrounds => hrounds.length_add_le hshorter⟩
  intro hinit
  have hends : foldMany (input.length + 1) inner init combine input ≠ .unfinished := by
    apply Run.bind_ne_unfinished hinit
    intro seed _
    apply Run.bind_ne_unfinished
    · exact foldRounds_ne_unfinished hinner hcombine hshorter input.length.lt_succ_self
    · intro _ _
      simp
  obtain ⟨result, hresult⟩ := Run.exists_gives_of_ne_unfinished hends
  exact ⟨result, _, hresult⟩

open ByteGrammar.Format

theorem satisfy_ne_unfinished (test : UInt8 → Bool) (input : Bytes) :
    (satisfy test : Parser ν UInt8) input ≠ .unfinished := by
  cases input with
  | nil => simp [satisfy, satisfyRun, Run.report]
  | cons first tail =>
    cases htest : test first <;> simp [satisfy, satisfyRun, htest]

theorem satisfy_shorter {test : UInt8 → Bool} {input tail : Bytes} {value : UInt8}
    (h : ((satisfy test : Parser ν UInt8) input).Gives (.ok (.matched value tail))) :
    tail.length < input.length := by
  obtain ⟨trace, h⟩ := h
  cases input with
  | nil => cases h
  | cons first rest =>
    cases htest : test first with
    | false => simp [satisfy, satisfyRun, htest] at h
    | true =>
      obtain ⟨-, -, rfl⟩ : [] = trace ∧ first = value ∧ rest = tail := by
        simpa [satisfy, satisfyRun, htest] using h
      simp

theorem decimalStep_ne_unfinished (limit number : Int) (digit : UInt8) :
    (decimalStep limit number digit : Run ν Int) ≠ .unfinished := by
  unfold decimalStep
  cases Decimal.append limit number digit.toNat <;> simp [Run.ofExcept, Run.pure, Run.raise]

-- "12x", where numbers are at most 255
theorem foldMany_meaning_decimal :
    (∃ result, Folds (decimalDigit : Parser Unit UInt8) (pure 0) (decimalStep 255) [49, 50, 120]
      result) ∧
    Folds (decimalDigit : Parser Unit UInt8) (pure 0) (decimalStep 255) [49, 50, 120]
      (.ok (.matched 12 [120])) := by
  obtain ⟨-, hok, -, -, -, hends⟩ := foldMany_meaning (decimalDigit : Parser Unit UInt8) (pure 0)
    (decimalStep 255) [49, 50, 120]
  constructor
  · exact (hends (satisfy_ne_unfinished _) (decimalStep_ne_unfinished 255)
      fun _ _ _ => satisfy_shorter).1 (by simp)
  · have hsecond : Rounds (decimalDigit : Parser Unit UInt8) [50, 120] [50] [120] :=
      .next _ _ _ _ _ ⟨_, rfl⟩ (.none _)
    exact (hok 12 [120]).mpr
      ⟨0, [49, 50], ⟨_, rfl⟩, .next _ _ _ _ _ ⟨_, rfl⟩ hsecond, ⟨_, rfl⟩, _, rfl⟩

end ByteGrammar.Parser
