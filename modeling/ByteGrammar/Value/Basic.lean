import ByteGrammar.Outcome

namespace ByteGrammar

-- What a grammar yields. A `slice` is a part of the input, `bytes` are made by a function.
inductive Value where
  | unit
  | byte (only : UInt8)
  | slice (content : Bytes)
  | bytes (content : Bytes)
  | int (number : Int)
  | tuple (items : List Value)
  | list (items : List Value)
  | some (value : Value)
  | none
  | tag (text : String) (value : Value)

namespace Value

mutual

-- All bytes in a value, depth first and in order
def flat : Value → Bytes
  | unit => []
  | byte only => [only]
  | slice content => content
  | bytes content => content
  | int _ => []
  | tuple items => flatAll items
  | list items => flatAll items
  | some value => flat value
  | none => []
  | tag _ value => flat value

def flatAll : List Value → Bytes
  | [] => []
  | value :: rest => flat value ++ flatAll rest

end

-- The number that a value stands for, which for one that is no number and no byte is
-- how many bytes it holds
def toInt : Value → Int
  | int number => number
  | byte only => only.toNat
  | value => value.flat.length

-- The value of a sequence. An empty one yields nothing.
def ofParts : List Value → Value
  | [] => unit
  | parts => tuple parts

def ofOption : Option Value → Value
  | .some value => some value
  | .none => none

theorem flatAll_eq_flatMap (items : List Value) : flatAll items = items.flatMap flat := by
  induction items with
  | nil => simp [flatAll]
  | cons value rest ih => simp [flatAll, ih]

theorem flat_list (items : List Value) : (list items).flat = items.flatMap flat := by
  rw [flat, flatAll_eq_flatMap]

theorem flat_ofParts (items : List Value) : (ofParts items).flat = items.flatMap flat := by
  cases items with
  | nil => simp [ofParts, flat]
  | cons value rest =>
    change (tuple (value :: rest)).flat = _
    rw [flat, flatAll_eq_flatMap]

theorem flat_ofOption (value : Option Value) : (ofOption value).flat = value.elim [] flat := by
  cases value with
  | none => simp [ofOption, flat]
  | some value => simp [ofOption, flat]

end Value

end ByteGrammar
