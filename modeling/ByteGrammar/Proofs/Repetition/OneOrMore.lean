import ByteGrammar.Proofs.Parser.Derived
import ByteGrammar.Proofs.Parser.Matches
import ByteGrammar.Proofs.Repetition.Trace

namespace ByteGrammar.Parser

variable {ν α β γ : Type} {inner : Parser ν α} {init : Run ν β} {combine : β → α → Run ν β}
  {storage : Storage α} {input : Bytes}

-- The same trace of a match but for the last event, which counts one iteration more. An error
-- leaves the very same trace.
inductive CountsOneMore : List (Event ν) → List (Event ν) → Except Error (Outcome β) → Prop
  | matched (earlier : List (Event ν)) (iterations : Nat) (total : β) (tail : Bytes) :
      CountsOneMore (earlier ++ [.foldStopped iterations tail])
        (earlier ++ [.foldStopped (iterations + 1) tail]) (.ok (.matched total tail))
  | error (trace : List (Event ν)) (error : Error) : CountsOneMore trace trace (.error error)

theorem foldMany1_eq_of_init {calls : List (Event ν)} {error : Error}
    (h : init = .ended calls (.error error)) (rounds : Nat) :
    foldMany1 rounds inner init combine input = .ended calls (.error error) := by
  rw [h]
  rfl

-- Where the parser does not match at once, one form rejects and the other yields the seed

theorem foldMany1_eq_of_noMatch {calls own : List (Event ν)} {seed : β}
    (hinit : init = .ended calls (.ok seed)) (hstop : inner input = .ended own (.ok .noMatch))
    (rounds : Nat) : foldMany1 rounds inner init combine input =
      .ended (calls ++ own ++ [.foldRejected input]) (.ok .noMatch) := by
  simp [foldMany1, hinit, hstop, Run.report]

theorem foldMany_eq_of_noMatch {calls own : List (Event ν)} {seed : β}
    (hinit : init = .ended calls (.ok seed)) (hstop : inner input = .ended own (.ok .noMatch))
    (rounds : Nat) : foldMany (rounds + 1) inner init combine input =
      .ended (calls ++ own ++ [.foldStopped 0 input]) (.ok (.matched seed input)) := by
  simp [foldMany, foldRounds_succ, hinit, hstop, Run.report]

-- Where there is a turn, both forms are closed with the same outcome

theorem countsOneMore_of_turn (earlier : List (Event ν)) (turn : Turn ν α β)
    (turns : List (Turn ν α β)) (last : β) (stop : Bytes) :
    CountsOneMore (earlier ++ (foldMany1Closing (turn :: turns) last stop).1)
      (earlier ++ (foldManyClosing (turn :: turns) last stop).1)
      (.ok (foldManyClosing (turn :: turns) last stop).2) :=
  .matched earlier turns.length last stop

theorem Stops.exists_first {earlier : List (Event ν)} {turns : List (Turn ν α β)} {last : β}
    {stop : Bytes} (h : Stops inner init combine input earlier turns last stop)
    (hfirst : ∀ seed, init.Gives (.ok seed) → ¬ (inner input).Gives (.ok .noMatch)) :
    ∃ turn rest, turns = turn :: rest := by
  obtain ⟨calls, seed, _, _, _, own, hinit, hturns, hstop⟩ := h
  have hmatch := hfirst seed ⟨calls, hinit⟩
  cases hturns with
  | none => exact absurd ⟨own, hstop⟩ hmatch
  | next _ _ turn rest => exact ⟨turn, rest, rfl⟩

theorem foldMany1_one_more
    (hfirst : ∀ seed, init.Gives (.ok seed) → ¬ (inner input).Gives (.ok .noMatch))
    {trace : List (Event ν)} {result : Except Error (Outcome β)}
    (h : Repeats inner init combine foldMany1Closing input trace result) :
    ∃ other, CountsOneMore trace other result ∧
      Repeats inner init combine foldManyClosing input other result := by
  apply h.reclosed CountsOneMore CountsOneMore.error
  intro earlier turns last stop hstops
  obtain ⟨turn, turns, rfl⟩ := hstops.exists_first hfirst
  exact ⟨rfl, countsOneMore_of_turn earlier turn turns last stop⟩

theorem foldMany_one_less
    (hfirst : ∀ seed, init.Gives (.ok seed) → ¬ (inner input).Gives (.ok .noMatch))
    {other : List (Event ν)} {result : Except Error (Outcome β)}
    (h : Repeats inner init combine foldManyClosing input other result) :
    ∃ trace, CountsOneMore trace other result ∧
      Repeats inner init combine foldMany1Closing input trace result := by
  apply h.reclosed (fun other trace => CountsOneMore trace other) CountsOneMore.error
  intro earlier turns last stop hstops
  obtain ⟨turn, turns, rfl⟩ := hstops.exists_first hfirst
  exact ⟨rfl, countsOneMore_of_turn earlier turn turns last stop⟩

-- An ordered choice whose second arm matches everything

theorem endsWith_orElse_succeed_iff {repetition : Nat → Parser ν α} {fallback : α}
    {result : Except Error (Outcome α)} :
    EndsWith (fun rounds => (repetition rounds).orElse (succeed fallback)) input result ↔
      (EndsWith repetition input result ∧ result ≠ .ok .noMatch) ∨
      EndsWith repetition input (.ok .noMatch) ∧ result = .ok (.matched fallback input) := by
  have hends (parser : Nat → Parser ν α) (answer : Except Error (Outcome α)) :
      EndsWith parser input answer ↔ ∃ rounds, (parser rounds input).Gives answer := exists_comm
  have hfallback : ((succeed fallback : Parser ν α) input).Gives result ↔
      result = .ok (.matched fallback input) := by
    simp [succeed, eq_comm]
  simp only [hends, orElse_gives_iff, hfallback, exists_or, exists_and_right]

-- What a repetition yields is what it is closed with after its turns
theorem exists_repeats_ok_iff {closing : List (Turn ν α β) → β → Bytes → List (Event ν) × Outcome γ}
    {outcome : Outcome γ} :
    (∃ trace, Repeats inner init combine closing input trace (.ok outcome)) ↔
      ∃ earlier turns last stop, Stops inner init combine input earlier turns last stop ∧
        outcome = (closing turns last stop).2 := by
  simp only [repeats_ok_iff]
  constructor
  · rintro ⟨_, earlier, turns, last, stop, hstops, -, houtcome⟩
    exact ⟨earlier, turns, last, stop, hstops, houtcome⟩
  · rintro ⟨earlier, turns, last, stop, hstops, houtcome⟩
    exact ⟨_, earlier, turns, last, stop, hstops, rfl, houtcome⟩

theorem Stops.eq_input {earlier : List (Event ν)} {last : β} {stop : Bytes}
    (h : Stops inner init combine input earlier [] last stop) : stop = input := by
  obtain ⟨_, _, _, _, _, _, _, hturns, _⟩ := h
  cases hturns
  rfl

-- With a turn, both repetitions yield the values of the turns. Without one, one yields nothing and
-- the other rejects.
theorem endsWith_many_iff {result : Except Error (Outcome (List α))} :
    EndsWith (fun rounds => many rounds storage inner) input result ↔
      (EndsWith (fun rounds => many1 rounds storage inner) input result ∧ result ≠ .ok .noMatch) ∨
      EndsWith (fun rounds => many1 rounds storage inner) input (.ok .noMatch) ∧
        result = .ok (.matched [] input) := by
  simp only [EndsWith, many_ends_iff, many1_ends_iff]
  cases result with
  | error error =>
    simp only [ne_eq, reduceCtorEq, not_false_eq_true, and_true, and_false, or_false]
    exact exists_congr fun _ => ⟨Repeats.error_congr, Repeats.error_congr⟩
  | ok outcome =>
    simp only [exists_repeats_ok_iff]
    constructor
    · rintro ⟨earlier, turns, last, stop, hstops, rfl⟩
      cases turns with
      | nil =>
        obtain rfl := hstops.eq_input
        exact .inr ⟨⟨earlier, [], last, stop, hstops, rfl⟩, rfl⟩
      | cons turn turns =>
        exact .inl ⟨⟨earlier, turn :: turns, last, stop, hstops, rfl⟩, nofun⟩
    · rintro (⟨⟨earlier, turns, last, stop, hstops, rfl⟩, hmatched⟩ |
        ⟨⟨earlier, turns, last, stop, hstops, hrejected⟩, hresult⟩)
      · cases turns with
        | nil => exact absurd rfl hmatched
        | cons turn turns => exact ⟨earlier, turn :: turns, last, stop, hstops, rfl⟩
      · cases turns with
        | nil =>
          obtain rfl := hstops.eq_input
          cases hresult
          exact ⟨earlier, [], last, stop, hstops, rfl⟩
        | cons turn turns => cases hrejected

theorem many_eq_choice_many1 {result : Except Error (Outcome (List α))} :
    EndsWith (fun rounds => many rounds storage inner) input result ↔
      EndsWith (fun rounds => choice [many1 rounds storage inner,
        (sequence ([] : List (Parser ν α))).map fun _ => []]) input result := by
  simp only [← orElse_eq_choice, sequence, succeed_map, endsWith_orElse_succeed_iff]
  exact endsWith_many_iff

-- The two forms of a fold agree. If the seed fails, its error is that of both and nothing else is
-- run. If the parser does not match at once, one form rejects and the other yields the seed, and no
-- value is combined in either. In every other case they end alike, if at all: after the same events,
-- so with the same runs of the parser and the same calls in the same order, but for the number in
-- the last event, and with the same error or the same total and tail. A repetition into a storage
-- is an ordered choice of its one-or-more form and an empty sequence.
theorem one_or_more_agrees (inner : Parser ν α) (init : Run ν β) (combine : β → α → Run ν β)
    (storage : Storage α) (input : Bytes) :
    (∀ calls error, init = .ended calls (.error error) → ∀ rounds,
      foldMany rounds inner init combine input = .ended calls (.error error) ∧
      foldMany1 rounds inner init combine input = .ended calls (.error error)) ∧
    (∀ calls seed own, init = .ended calls (.ok seed) → inner input = .ended own (.ok .noMatch) →
      ∀ rounds,
        foldMany (rounds + 1) inner init combine input =
          .ended (calls ++ own ++ [.foldStopped 0 input]) (.ok (.matched seed input)) ∧
        foldMany1 rounds inner init combine input =
          .ended (calls ++ own ++ [.foldRejected input]) (.ok .noMatch)) ∧
    ((∀ seed, init.Gives (.ok seed) → ¬ (inner input).Gives (.ok .noMatch)) →
      (∀ trace result,
        Ends (fun rounds => foldMany1 rounds inner init combine) input trace result →
          ∃ other, CountsOneMore trace other result ∧
            Ends (fun rounds => foldMany rounds inner init combine) input other result) ∧
      (∀ other result,
        Ends (fun rounds => foldMany rounds inner init combine) input other result →
          ∃ trace, CountsOneMore trace other result ∧
            Ends (fun rounds => foldMany1 rounds inner init combine) input trace result)) ∧
    ∀ result, EndsWith (fun rounds => many rounds storage inner) input result ↔
      EndsWith (fun rounds => choice [many1 rounds storage inner,
        (sequence ([] : List (Parser ν α))).map fun _ => []]) input result := by
  refine ⟨?_, ?_, ?_, fun _ => many_eq_choice_many1⟩
  · intro calls error hinit rounds
    exact ⟨foldMany_eq_of_init hinit rounds input, foldMany1_eq_of_init hinit rounds⟩
  · intro calls seed own hinit hstop rounds
    exact ⟨foldMany_eq_of_noMatch hinit hstop rounds, foldMany1_eq_of_noMatch hinit hstop rounds⟩
  · intro hfirst
    simp only [foldMany_ends_iff, foldMany1_ends_iff]
    exact ⟨fun _ _ h => foldMany1_one_more hfirst h, fun _ _ h => foldMany_one_less hfirst h⟩

open ByteGrammar.Format

-- Decimal numbers of at most 255: "12x", "x", and "12x" with a seed that fails
theorem one_or_more_agrees_decimal :
    (∀ rounds, foldMany rounds decimalDigit (Run.ofExcept (.error Decimal.outOfRange))
        (decimalStep 255) [49, 50, 120] =
          (.ended [.raised Decimal.outOfRange] (.error Decimal.outOfRange) : Run Unit _)) ∧
    (∀ rounds, foldMany1 rounds decimalDigit (pure 0) (decimalStep 255) [120] =
      (.ended [.foldRejected [120]] (.ok .noMatch) : Run Unit _)) ∧
    ¬ (decimalDigit [49, 50, 120] : Run Unit _).Gives (.ok .noMatch) ∧
    ∃ trace : List (Event Unit),
      CountsOneMore trace [.foldStopped 2 [120]] (.ok (.matched (12 : Int) [120])) ∧
      Ends (fun rounds => foldMany1 rounds decimalDigit (pure 0) (decimalStep 255))
        [49, 50, 120] trace (.ok (.matched 12 [120])) := by
  have hfails := (one_or_more_agrees (decimalDigit : Parser Unit UInt8)
    (Run.ofExcept (.error Decimal.outOfRange)) (decimalStep 255) .heap [49, 50, 120]).1
  have hrejects := (one_or_more_agrees (decimalDigit : Parser Unit UInt8) (pure 0)
    (decimalStep 255) .heap [120]).2.1
  have hagrees := (one_or_more_agrees (decimalDigit : Parser Unit UInt8) (pure 0)
    (decimalStep 255) .heap [49, 50, 120]).2.2.1
  have hfirst : ¬ (decimalDigit [49, 50, 120] : Run Unit _).Gives (.ok .noMatch) := by
    rintro ⟨_, h⟩
    cases h
  refine ⟨fun rounds => (hfails _ _ rfl rounds).1, fun rounds => (hrejects _ _ _ rfl rfl rounds).2,
    hfirst, (hagrees fun _ _ => hfirst).2 _ _ ⟨3, rfl⟩⟩

end ByteGrammar.Parser
