import ByteGrammar.Format.Decimal
import ByteGrammar.Parser.Many

namespace ByteGrammar.Format

-- A number given to a short name, as in "ab=+12;"
structure Setting where
  key : Bytes
  sign : Option UInt8
  number : Int
deriving DecidableEq

namespace Setting

open ByteGrammar.Parser

variable {ν : Type}

def equals : UInt8 := 61

def semicolon : UInt8 := 59

def isSign (byte : UInt8) : Bool := byte = 43 || byte = 45

def longestKey : Nat := 4

def greatestNumber : Int := 255

def keyText : Parser ν Bytes :=
  roundPerByte fun rounds => many1 rounds (.bounded longestKey) (satisfy ByteClass.isLower)

-- A setting stands before a semicolon, which it does not take, or at the end. The sign does
-- not change the number.
def parser : Parser ν Setting :=
  keyText.andThen fun key =>
  (byte equals).andThen fun _ =>
  (optional (satisfy isSign)).andThen fun sign =>
  (decimal greatestNumber).andThen fun number =>
  (choice [followedBy (byte semicolon), atEnd]).map fun _ => ⟨key, sign, number⟩

end Setting

end ByteGrammar.Format
