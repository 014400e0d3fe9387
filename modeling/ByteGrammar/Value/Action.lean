import ByteGrammar.ByteClass
import ByteGrammar.Decimal
import ByteGrammar.Hex
import ByteGrammar.Value.Basic

namespace ByteGrammar.Value

-- Functions of one value

def length (value : Value) : Value := int value.flat.length

def concat (value : Value) : Value := bytes value.flat

-- How many parts a value has. A match of an optional parser has one.
def count : Value → Value
  | tuple items => int items.length
  | list items => int items.length
  | some _ => int 1
  | _ => int 0

-- The part at an index, if there is one
def item (index : Nat) : Value → Value
  | tuple items => items.getD index unit
  | list items => items.getD index unit
  | _ => unit

def add (amount : Int) (value : Value) : Value := int (Word.saturate (value.toInt + amount))

-- Functions of one value that may fail

def failWith (message : String) : Except Error Value := .error (.custom message [])

def failIf (refused : Bytes) (message : String) (value : Value) : Except Error Value :=
  if value.flat = refused then failWith message else .ok value

-- Reads digits from left to right. The first byte that is no digit or digit that is too
-- much decides the error.
def readDecimal (limit : Int) (number : Int) : Bytes → Except Error Int
  | [] => .ok number
  | code :: rest =>
    if ByteClass.isDigit code then
      match Decimal.append limit number code.toNat with
      | .ok next => readDecimal limit next rest
      | .error error => .error error
    else
      .error (.custom ("invalid digit 0x" ++ Hex.encode [code]) [])

def decimal (limit : Int) (value : Value) : Except Error Value :=
  match value.flat with
  | [] => failWith "empty number"
  | digits => (readDecimal limit 0 digits).map int

-- How many characters the bytes encode
def codePoints (value : Value) : Except Error Value :=
  match String.fromUTF8? (ByteArray.mk value.flat.toArray) with
  | .some text => .ok (int text.length)
  | .none => failWith "invalid utf-8"

-- Steps of a fold

def checkedInt (number : Int) : Except Error Value :=
  match Word.checked? number with
  | .some number => .ok (int number)
  | .none => failWith "integer overflow"

def tally (accumulator _value : Value) : Except Error Value :=
  checkedInt (accumulator.toInt + 1)

def sum (accumulator value : Value) : Except Error Value :=
  checkedInt (accumulator.toInt + value.toInt)

def appendDigit (limit : Int) (accumulator value : Value) : Except Error Value :=
  (Decimal.append limit accumulator.toInt value.toInt).map int

def push : Value → Value → Value
  | list items, value => list (items ++ [value])
  | accumulator, value => list [accumulator, value]

def join (accumulator value : Value) : Value := bytes (accumulator.flat ++ value.flat)

def tallyUntil (number : Int) (message : String) (accumulator value : Value) :
    Except Error Value :=
  if accumulator.toInt = number then failWith message else tally accumulator value

def pushUnless (refused : Bytes) (message : String) (accumulator value : Value) :
    Except Error Value :=
  if value.flat = refused then failWith message else .ok (push accumulator value)

end ByteGrammar.Value
