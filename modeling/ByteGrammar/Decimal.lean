import ByteGrammar.Error
import ByteGrammar.Word

namespace ByteGrammar.Decimal

-- One more digit on the right. Every step has to fit in 64 bits, and the result may
-- not exceed the limit. A digit is given by its code, which for '0' is 48.
def append? (limit number code : Int) : Option Int := do
  let tens ← Word.checked? (number * 10)
  let digit ← Word.checked? (code - 48)
  let next ← Word.checked? (tens + digit)
  if next ≤ limit then some next else none

def outOfRange : Error := .custom "number out of range" []

def append (limit number code : Int) : Except Error Int :=
  match append? limit number code with
  | some next => .ok next
  | none => .error outOfRange

end ByteGrammar.Decimal
