import ByteGrammar.Run

namespace ByteGrammar

-- A parser is run on the bytes that remain and never sees those before them
abbrev Parser (ν α : Type) := Bytes → Run ν (Outcome α)

namespace Parser

variable {ν α β γ : Type}

-- Parsers that read bytes themselves. One that could have read the input differently
-- if there had been more of it says so with `reachedEnd`.

def literal (expected : Bytes) : Parser ν Bytes := fun input =>
  if expected <+: input then
    pure (.matched expected (input.drop expected.length))
  else if input <+: expected then do
    Run.report .reachedEnd
    pure .noMatch
  else
    pure .noMatch

def anyByte : Parser ν UInt8
  | [] => do
    Run.report .reachedEnd
    pure .noMatch
  | first :: tail => pure (.matched first tail)

def byte (expected : UInt8) : Parser ν UInt8
  | [] => do
    Run.report .reachedEnd
    pure .noMatch
  | first :: tail => pure (if first = expected then .matched first tail else .noMatch)

-- The test is not asked about an empty input
def satisfyRun (test : UInt8 → Run ν Bool) : Parser ν UInt8
  | [] => do
    Run.report .reachedEnd
    pure .noMatch
  | first :: tail => do
    if ← test first then pure (.matched first tail) else pure .noMatch

def satisfy (test : UInt8 → Bool) : Parser ν UInt8 :=
  satisfyRun fun first => pure (test first)

def atEnd : Parser ν Unit
  | [] => do
    Run.report .reachedEnd
    pure (.matched () [])
  | _ :: _ => pure .noMatch

-- Parsers made of others. An error of a part is an error of the whole, and nothing is
-- run after it.

def succeed (value : α) : Parser ν α := fun input => pure (.matched value input)

def never : Parser ν α := fun _ => pure .noMatch

-- Goes on with a parser that may depend on the value, from where the first one stopped
def andThen (first : Parser ν α) (next : α → Parser ν β) : Parser ν β := fun input => do
  match ← first input with
  | .matched value tail => next value tail
  | .noMatch => pure .noMatch

-- The second parser is run on the input the first was given
def orElse (first second : Parser ν α) : Parser ν α := fun input => do
  match ← first input with
  | .matched value tail => pure (.matched value tail)
  | .noMatch => second input

def refine (f : α → Run ν β) (inner : Parser ν α) : Parser ν β := fun input => do
  match ← inner input with
  | .matched value tail => do
    let value ← f value
    pure (.matched value tail)
  | .noMatch => pure .noMatch

def map (f : α → β) (inner : Parser ν α) : Parser ν β :=
  inner.refine fun value => pure (f value)

def both (first : Parser ν α) (second : Parser ν β) : Parser ν (α × β) :=
  first.andThen fun left => second.map fun right => (left, right)

def sequence : List (Parser ν α) → Parser ν (List α)
  | [] => succeed []
  | first :: rest => first.andThen fun value => (sequence rest).map (value :: ·)

def choice : List (Parser ν α) → Parser ν α
  | [] => never
  | first :: rest => first.orElse (choice rest)

def optional (inner : Parser ν α) : Parser ν (Option α) := fun input => do
  match ← inner input with
  | .matched value tail => pure (.matched (some value) tail)
  | .noMatch => pure (.matched none input)

-- Lookahead takes nothing, whether it matches or not

def notFollowedBy (inner : Parser ν α) : Parser ν Unit := fun input => do
  match ← inner input with
  | .matched _ _ => pure .noMatch
  | .noMatch => pure (.matched () input)

def followedBy (inner : Parser ν α) : Parser ν Unit := fun input => do
  match ← inner input with
  | .matched _ _ => pure (.matched () input)
  | .noMatch => pure .noMatch

def between (opening : Parser ν α) (inner : Parser ν β) (closing : Parser ν γ) : Parser ν β :=
  opening.andThen fun _ => inner.andThen fun value => closing.map fun _ => value

-- A parser that is built each time it is run, so that a grammar may refer to itself
def delay (inner : Parser ν α) : Parser ν α := fun input => do
  Run.report (.building input)
  inner input

end Parser

end ByteGrammar
