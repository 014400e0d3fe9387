import ByteGrammar.ByteClass
import ByteGrammar.Decimal
import ByteGrammar.Parser.Fold

namespace ByteGrammar.Format

open ByteGrammar.Parser

variable {ν : Type}

def decimalDigit : Parser ν UInt8 := satisfy ByteClass.isDigit

def decimalStep (limit number : Int) (digit : UInt8) : Run ν Int :=
  Run.ofExcept (Decimal.append limit number digit.toNat)

-- One or more digits. A number above the limit is an error, however many digits follow.
def decimal (limit : Int) : Parser ν Int :=
  roundPerByte fun rounds => foldMany1 rounds decimalDigit (pure 0) (decimalStep limit)

-- Zero or more digits, where none are the number zero
def decimalOrZero (limit : Int) : Parser ν Int :=
  roundPerByte fun rounds => foldMany rounds decimalDigit (pure 0) (decimalStep limit)

end ByteGrammar.Format
