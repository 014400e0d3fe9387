import ByteGrammar.ByteClass
import ByteGrammar.Parser.Many

namespace ByteGrammar.Format

inductive Token where
  | word (text : Bytes)
  | arrow (text : Bytes)
deriving DecidableEq

namespace Token

open ByteGrammar.Parser

variable {ν : Type}

-- "->"
def arrowText : Bytes := [45, 62]

-- "panic"
def reservedText : Bytes := [112, 97, 110, 105, 99]

def reservedWord : Error := .custom "reserved word" []

-- A letter, and letters and digits for as long as there are any
def letters : Parser ν Token :=
  (both (satisfy ByteClass.isAlpha)
    (roundPerByte fun rounds => many rounds .heap (satisfy ByteClass.isAlnum))).map
    fun text => word (text.1 :: text.2)

-- The check is made on the whole word
def checkReserved : Token → Except Error Token
  | word text => if text = reservedText then .error reservedWord else .ok (word text)
  | arrow text => .ok (arrow text)

def parser : Parser ν Token :=
  (choice [(literal arrowText).map arrow, letters]).refine fun token =>
    Run.ofExcept (checkReserved token)

end Token

end ByteGrammar.Format
