import ByteGrammar.Parser.Many
import ByteGrammar.Proofs.Run.Gives

namespace ByteGrammar.Parser

variable {ν α β γ : Type} {inner : Parser ν α} {init : Run ν β} {combine : β → α → Run ν β}

-- A repetition ends, within some number of rounds
def Ends (repetition : Nat → Parser ν α) (input : Bytes) (trace : List (Event ν))
    (result : Except Error (Outcome α)) : Prop :=
  ∃ rounds, repetition rounds input = .ended trace result

-- A repetition ends with this result, whatever it traces
def EndsWith (repetition : Nat → Parser ν α) (input : Bytes) (result : Except Error (Outcome α)) :
    Prop :=
  ∃ trace, Ends repetition input trace result

-- One turn of a loop: a match of the parser with its own trace, and the one call that takes the
-- value into the accumulator
structure Turn (ν α β : Type) where
  own : List (Event ν)
  value : α
  tail : Bytes
  calls : List (Event ν)
  next : β

def Turn.trace (turn : Turn ν α β) : List (Event ν) := turn.own ++ turn.calls

-- Turns in a row, each on the tail and with the accumulator that the one before it has left
inductive Turns (inner : Parser ν α) (combine : β → α → Run ν β) :
    β → Bytes → List (Turn ν α β) → β → Bytes → Prop
  | none (accumulator : β) (place : Bytes) :
      Turns inner combine accumulator place [] accumulator place
  | next (accumulator : β) (place : Bytes) (turn : Turn ν α β) (turns : List (Turn ν α β))
      (last : β) (stop : Bytes)
      (hmatch : inner place = .ended turn.own (.ok (.matched turn.value turn.tail)))
      (hcombine : combine accumulator turn.value = .ended turn.calls (.ok turn.next))
      (hrest : Turns inner combine turn.next turn.tail turns last stop) :
      Turns inner combine accumulator place (turn :: turns) last stop

-- How a loop ends after its turns. Only where the parser does not match is anything traced by the
-- loop itself. An error is the last that happens.
inductive Ending (inner : Parser ν α) (combine : β → α → Run ν β) (accumulator : β) (place : Bytes)
    (closing : List (Event ν)) (outcome : γ) : List (Event ν) → Except Error γ → Prop
  | stopped (own : List (Event ν)) (hstop : inner place = .ended own (.ok .noMatch)) :
      Ending inner combine accumulator place closing outcome (own ++ closing) (.ok outcome)
  | failed (own : List (Event ν)) (error : Error)
      (hfail : inner place = .ended own (.error error)) :
      Ending inner combine accumulator place closing outcome own (.error error)
  | refused (own : List (Event ν)) (value : α) (tail : Bytes) (calls : List (Event ν))
      (error : Error) (hmatch : inner place = .ended own (.ok (.matched value tail)))
      (hrefuse : combine accumulator value = .ended calls (.error error)) :
      Ending inner combine accumulator place closing outcome (own ++ calls) (.error error)

-- The turns of a loop and its ending. `closing` says what is traced and what is yielded where the
-- parser does not match after these turns.
inductive Loops (inner : Parser ν α) (combine : β → α → Run ν β)
    (closing : List (Turn ν α β) → β → Bytes → List (Event ν) × Outcome γ) (start : β)
    (input : Bytes) : List (Event ν) → Except Error (Outcome γ) → Prop
  | mk (turns : List (Turn ν α β)) (last : β) (stop : Bytes) (ending : List (Event ν))
      (result : Except Error (Outcome γ)) (hturns : Turns inner combine start input turns last stop)
      (hending : Ending inner combine last stop (closing turns last stop).1
        (closing turns last stop).2 ending result) :
      Loops inner combine closing start input (turns.flatMap Turn.trace ++ ending) result

-- The whole of a repetition: first the call that makes the seed, and then the loop
inductive Repeats (inner : Parser ν α) (init : Run ν β) (combine : β → α → Run ν β)
    (closing : List (Turn ν α β) → β → Bytes → List (Event ν) × Outcome γ) (input : Bytes) :
    List (Event ν) → Except Error (Outcome γ) → Prop
  | unseeded (calls : List (Event ν)) (error : Error)
      (hinit : init = .ended calls (.error error)) :
      Repeats inner init combine closing input calls (.error error)
  | seeded (calls : List (Event ν)) (seed : β) (later : List (Event ν))
      (result : Except Error (Outcome γ)) (hinit : init = .ended calls (.ok seed))
      (hloop : Loops inner combine closing seed input later result) :
      Repeats inner init combine closing input (calls ++ later) result

-- One step of a loop: there is an ending here, or a turn and the rest of the loop
def loopStep (inner : Parser ν α) (combine : β → α → Run ν β) (closing : List (Event ν))
    (outcome : γ) (rest : β → Bytes → Run ν γ) (accumulator : β) (input : Bytes) : Run ν γ := do
  match ← inner input with
  | .noMatch => .ended closing (.ok outcome)
  | .matched value tail => do
    let next ← combine accumulator value
    rest next tail

theorem loopStep_eq_ended_iff {closing : List (Event ν)} {outcome : γ}
    {rest : β → Bytes → Run ν γ} {accumulator : β} {input : Bytes} {trace : List (Event ν)}
    {result : Except Error γ} :
    loopStep inner combine closing outcome rest accumulator input = .ended trace result ↔
      Ending inner combine accumulator input closing outcome trace result ∨
      ∃ (turn : Turn ν α β) (later : List (Event ν)),
        inner input = .ended turn.own (.ok (.matched turn.value turn.tail)) ∧
        combine accumulator turn.value = .ended turn.calls (.ok turn.next) ∧
        rest turn.next turn.tail = .ended later result ∧ trace = turn.trace ++ later := by
  unfold loopStep
  constructor
  · intro h
    rcases Run.bind_eq_ended h with ⟨error, hfail, rfl⟩ | ⟨own, _, outcome, hrun, hnext, rfl⟩
    · exact .inl (.failed trace error hfail)
    cases outcome with
    | noMatch =>
      cases hnext
      exact .inl (.stopped own hrun)
    | matched value tail =>
      rcases Run.bind_eq_ended hnext with ⟨error, hrefuse, rfl⟩ | ⟨calls, later, next, hcombine, hrest, rfl⟩
      · exact .inl (.refused own value tail _ error hrun hrefuse)
      · exact .inr ⟨⟨own, value, tail, calls, next⟩, later, hrun, hcombine, hrest,
          (List.append_assoc _ _ _).symm⟩
  · rintro (hending | ⟨turn, later, hmatch, hcombine, hrest, rfl⟩)
    · cases hending with
      | stopped own hstop => simp [hstop]
      | failed own error hfail => simp [hfail]
      | refused own value tail calls error hmatch hrefuse => simp [hmatch, hrefuse]
    · simp [hmatch, hcombine, hrest, Turn.trace]

theorem loopStep_of_match {closing : List (Event ν)} {outcome : γ} {rest : β → Bytes → Run ν γ}
    {accumulator : β} {input tail : Bytes} {own : List (Event ν)} {value : α}
    (hmatch : inner input = .ended own (.ok (.matched value tail))) :
    loopStep inner combine closing outcome rest accumulator input =
      (combine accumulator value >>= fun next => rest next tail).after own := by
  simp [loopStep, hmatch]

-- A step depends on the rest of the loop only where the parser matches
theorem loopStep_congr {closing : List (Event ν)} {outcome : γ} {other : β → α → Run ν β}
    {rest another : β → Bytes → Run ν γ} {accumulator : β} {input : Bytes}
    (h : ∀ value tail, (inner input).Gives (.ok (.matched value tail)) →
      (combine accumulator value >>= fun next => rest next tail) =
        other accumulator value >>= fun next => another next tail) :
    loopStep inner combine closing outcome rest accumulator input =
      loopStep inner other closing outcome another accumulator input := by
  unfold loopStep
  cases hrun : inner input with
  | unfinished => rfl
  | ended trace result =>
    match result with
    | .error error => rfl
    | .ok .noMatch => rfl
    | .ok (.matched value tail) => simp only [Run.ok_bind, h value tail ⟨trace, hrun⟩]

theorem exists_loopStep_gives {closing : List (Event ν)} {outcome : γ}
    {rest : β → Bytes → Run ν γ} {accumulator : β} {input : Bytes}
    (hinner : inner input ≠ .unfinished)
    (h : ∀ value tail, (inner input).Gives (.ok (.matched value tail)) →
      ∃ result, (combine accumulator value >>= fun next => rest next tail).Gives result) :
    ∃ result, (loopStep inner combine closing outcome rest accumulator input).Gives result := by
  obtain ⟨answer, own, hrun⟩ := Run.exists_gives_of_ne_unfinished hinner
  match answer with
  | .error error => exact ⟨.error error, own, by simp [loopStep, hrun]⟩
  | .ok .noMatch => exact ⟨.ok outcome, own ++ closing, by simp [loopStep, hrun]⟩
  | .ok (.matched value tail) =>
    rw [loopStep_of_match hrun]
    simp only [Run.after_gives_iff]
    exact h value tail ⟨own, hrun⟩

-- The loop of a fold, with what the fold yields
def foldLoop (inner : Parser ν α) (combine : β → α → Run ν β) (rounds iterations : Nat)
    (accumulator : β) (input : Bytes) : Run ν (Outcome β) := do
  let (total, tail) ← foldRounds inner combine rounds iterations [] accumulator input
  pure (.matched total tail)

theorem foldLoop_succ (rounds iterations : Nat) (accumulator : β) (input : Bytes) :
    foldLoop inner combine (rounds + 1) iterations accumulator input =
      loopStep inner combine [.foldStopped iterations input] (.matched accumulator input)
        (foldLoop inner combine rounds (iterations + 1)) accumulator input := by
  unfold foldLoop loopStep
  rw [foldRounds_succ, bind_assoc]
  congr 1
  funext outcome
  cases outcome with
  | noMatch => simp [Run.report]
  | matched value tail => simp only [bind_assoc]

-- A fold is the call for the seed and its loop. The one-or-more form has a step of its own first.

theorem foldMany_eq_bind (rounds : Nat) (input : Bytes) :
    foldMany rounds inner init combine input =
      init >>= fun seed => foldLoop inner combine rounds 0 seed input := rfl

theorem foldMany1_eq_bind (rounds : Nat) (input : Bytes) :
    foldMany1 rounds inner init combine input =
      init >>= fun seed =>
        loopStep inner combine [.foldRejected input] .noMatch (foldLoop inner combine rounds 0) seed
          input := rfl

-- All turns of a loop, by induction on how many rounds there may be
theorem foldLoop_eq_ended_iff {rounds iterations : Nat} {accumulator : β} {input : Bytes}
    {trace : List (Event ν)} {result : Except Error (Outcome β)} :
    foldLoop inner combine rounds iterations accumulator input = .ended trace result ↔
      ∃ turns last stop ending, turns.length < rounds ∧
        Turns inner combine accumulator input turns last stop ∧
        Ending inner combine last stop [.foldStopped (iterations + turns.length) stop]
          (.matched last stop) ending result ∧
        trace = turns.flatMap Turn.trace ++ ending := by
  induction rounds generalizing iterations accumulator input trace with
  | zero =>
    constructor
    · intro h
      cases h
    · rintro ⟨turns, _, _, _, hlength, -⟩
      omega
  | succ rounds ih =>
    rw [foldLoop_succ, loopStep_eq_ended_iff]
    constructor
    · rintro (hending | ⟨turn, later, hmatch, hcombine, hrest, rfl⟩)
      · exact ⟨[], accumulator, input, trace, by simp, .none _ _, hending, by simp⟩
      · obtain ⟨turns, last, stop, ending, hlength, hturns, hending, rfl⟩ := ih.mp hrest
        refine ⟨turn :: turns, last, stop, ending, by simpa using hlength,
          .next _ _ _ _ _ _ hmatch hcombine hturns, ?_, by simp⟩
        rw [List.length_cons, Nat.add_comm turns.length, ← Nat.add_assoc]
        exact hending
    · rintro ⟨turns, last, stop, ending, hlength, hturns, hending, rfl⟩
      cases hturns with
      | none => exact .inl hending
      | next _ _ turn turns _ _ hmatch hcombine hrest =>
        rw [List.length_cons, Nat.add_comm turns.length, ← Nat.add_assoc] at hending
        have hlength : turns.length < rounds := by simpa using hlength
        exact .inr ⟨turn, _, hmatch, hcombine,
          ih.mpr ⟨turns, last, stop, ending, hlength, hrest, hending, rfl⟩, by simp⟩

end ByteGrammar.Parser
