import ByteGrammar.Parser.Fold

namespace ByteGrammar.Format

open ByteGrammar.Parser

variable {ν : Type}

def openParenthesis : Bytes := [40]

def closeParenthesis : Bytes := [41]

-- How deep parentheses are nested, with a bound on the depth. Where they are not balanced
-- nothing is taken.
def parenthesesWithin : Nat → Parser ν Nat
  | 0 => fun _ => .unfinished
  | bound + 1 =>
    choice [
      (between (literal openParenthesis) (delay (parenthesesWithin bound))
        (literal closeParenthesis)).map (· + 1),
      succeed 0]

-- Each level takes a byte
def parentheses : Parser ν Nat := roundPerByte parenthesesWithin

end ByteGrammar.Format
