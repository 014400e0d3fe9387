import ByteGrammar.Outcome

namespace ByteGrammar

-- Sets of bytes. Letters and digits are those of ASCII.
inductive ByteClass where
  | digit
  | alpha
  | alnum
  | lower
  | upper
  | any
  | none
  | range (low high : UInt8)
  | among (members : Bytes)
  | complement (inner : ByteClass)
deriving DecidableEq

namespace ByteClass

def isDigit (byte : UInt8) : Bool := 48 ≤ byte && byte ≤ 57

def isLower (byte : UInt8) : Bool := 97 ≤ byte && byte ≤ 122

def isUpper (byte : UInt8) : Bool := 65 ≤ byte && byte ≤ 90

def isAlpha (byte : UInt8) : Bool := isLower byte || isUpper byte

def isAlnum (byte : UInt8) : Bool := isAlpha byte || isDigit byte

def contains : ByteClass → UInt8 → Bool
  | digit, byte => isDigit byte
  | alpha, byte => isAlpha byte
  | alnum, byte => isAlnum byte
  | lower, byte => isLower byte
  | upper, byte => isUpper byte
  | any, _ => true
  | none, _ => false
  | range low high, byte => low ≤ byte && byte ≤ high
  | among members, byte => members.contains byte
  | complement inner, byte => !inner.contains byte

end ByteClass

end ByteGrammar
