namespace ByteGrammar

abbrev Bytes := List UInt8

-- A match carries the part of the input that it left. A parser that does not match
-- takes nothing and is no error: another may be tried on the same input.
inductive Outcome (α : Type) where
  | matched (value : α) (tail : Bytes)
  | noMatch
deriving DecidableEq

namespace Outcome

variable {α β : Type}

def map (f : α → β) : Outcome α → Outcome β
  | matched value tail => matched (f value) tail
  | noMatch => noMatch

def isMatch : Outcome α → Bool
  | matched _ _ => true
  | noMatch => false

def tail? : Outcome α → Option Bytes
  | matched _ tail => some tail
  | noMatch => none

def toOption : Outcome α → Option (α × Bytes)
  | matched value tail => some (value, tail)
  | noMatch => none

@[simp]
theorem map_matched (f : α → β) (value : α) (tail : Bytes) :
    (matched value tail).map f = matched (f value) tail := rfl

@[simp]
theorem map_noMatch (f : α → β) : (noMatch : Outcome α).map f = noMatch := rfl

end Outcome

end ByteGrammar
