import ByteGrammar.Parser.Basic

namespace ByteGrammar.Parser

variable {ν α β : Type}

-- Runs a parser on its own tails for as long as it matches, and combines the values into
-- an accumulator. There is no other way out of the loop than `noMatch` or an error, so
-- a parser that takes nothing can run out of rounds. `earlier` is the trace of the rounds
-- before this one, newest first.
@[specialize]
def foldRounds (inner : Parser ν α) (combine : β → α → Run ν β) :
    Nat → Nat → List (Event ν) → β → Bytes → Run ν (β × Bytes)
  | 0, _, _, _, _ => .unfinished
  | rounds + 1, iterations, earlier, accumulator, input =>
    match inner input with
    | .unfinished => .unfinished
    | .ended trace (.error error) => .ended (earlier.reverseAux trace) (.error error)
    | .ended trace (.ok .noMatch) =>
      .ended (earlier.reverseAux (trace ++ [.foldStopped iterations input]))
        (.ok (accumulator, input))
    | .ended trace (.ok (.matched value tail)) =>
      match combine accumulator value with
      | .unfinished => .unfinished
      | .ended calls (.error error) =>
        .ended (earlier.reverseAux (trace ++ calls)) (.error error)
      | .ended calls (.ok next) =>
        foldRounds inner combine rounds (iterations + 1)
          (calls.reverseAux (trace.reverseAux earlier)) next tail

-- Zero or more. The seed is made first, and anew for each parse.
def foldMany (rounds : Nat) (inner : Parser ν α) (init : Run ν β) (combine : β → α → Run ν β) :
    Parser ν β := fun input => do
  let seed ← init
  let (total, tail) ← foldRounds inner combine rounds 0 [] seed input
  pure (.matched total tail)

-- One or more. The first element is not counted among the iterations.
def foldMany1 (rounds : Nat) (inner : Parser ν α) (init : Run ν β) (combine : β → α → Run ν β) :
    Parser ν β := fun input => do
  let seed ← init
  match ← inner input with
  | .noMatch => do
    Run.report (.foldRejected input)
    pure .noMatch
  | .matched value tail => do
    let start ← combine seed value
    let (total, tail) ← foldRounds inner combine rounds 0 [] start tail
    pure (.matched total tail)

-- One round for each byte that is left and one to stop in: enough for a repetition that
-- takes a byte in each round
def roundPerByte (repetition : Nat → Parser ν α) : Parser ν α := fun input =>
  repetition (input.length + 1) input

theorem foldRounds_earlier (inner : Parser ν α) (combine : β → α → Run ν β)
    (rounds iterations : Nat) (earlier : List (Event ν)) (accumulator : β) (input : Bytes) :
    foldRounds inner combine rounds iterations earlier accumulator input =
      (foldRounds inner combine rounds iterations [] accumulator input).after earlier.reverse := by
  induction rounds generalizing iterations earlier accumulator input with
  | zero => rfl
  | succ rounds ih =>
    simp only [foldRounds]
    cases inner input with
    | unfinished => rfl
    | ended trace result =>
      match result with
      | .error error => simp [List.reverseAux_eq]
      | .ok .noMatch => simp [List.reverseAux_eq]
      | .ok (.matched value tail) =>
        dsimp only
        cases combine accumulator value with
        | unfinished => rfl
        | ended calls result =>
          cases result with
          | error error => simp [List.reverseAux_eq]
          | ok next =>
            dsimp only
            rw [ih, ih (iterations + 1) (calls.reverseAux (trace.reverseAux []))]
            simp [List.reverseAux_eq]

@[simp]
theorem foldRounds_zero (inner : Parser ν α) (combine : β → α → Run ν β) (iterations : Nat)
    (earlier : List (Event ν)) (accumulator : β) (input : Bytes) :
    foldRounds inner combine 0 iterations earlier accumulator input = .unfinished := rfl

-- One round, without the trace that is carried along
theorem foldRounds_succ (inner : Parser ν α) (combine : β → α → Run ν β)
    (rounds iterations : Nat) (accumulator : β) (input : Bytes) :
    foldRounds inner combine (rounds + 1) iterations [] accumulator input = (do
      match ← inner input with
      | .noMatch => do
        Run.report (.foldStopped iterations input)
        pure (accumulator, input)
      | .matched value tail => do
        let next ← combine accumulator value
        foldRounds inner combine rounds (iterations + 1) [] next tail) := by
  simp only [foldRounds]
  cases inner input with
  | unfinished => rfl
  | ended trace result =>
    match result with
    | .error error => rfl
    | .ok .noMatch => simp [List.reverseAux_eq, Run.report]
    | .ok (.matched value tail) =>
      dsimp only [Run.ok_bind]
      cases combine accumulator value with
      | unfinished => rfl
      | ended calls result =>
        cases result with
        | error error => simp [List.reverseAux_eq]
        | ok next =>
          simp only [Run.ok_bind, Run.after_after]
          rw [foldRounds_earlier]
          simp [List.reverseAux_eq]

end ByteGrammar.Parser
