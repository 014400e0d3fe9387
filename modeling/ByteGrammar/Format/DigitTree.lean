import ByteGrammar.ByteClass
import ByteGrammar.Parser.Many

namespace ByteGrammar.Format

-- Digits, and lists of such values
inductive DigitTree where
  | number (digit : Fin 10)
  | list (items : List DigitTree)

namespace DigitTree

open ByteGrammar.Parser

variable {ν : Type}

def opening : UInt8 := 91

def closing : UInt8 := 93

def comma : UInt8 := 44

def digitOf (byte : UInt8) : Fin 10 := Fin.ofNat 10 (byte.toNat - 48)

-- A value with a bound on how deep it is nested and on how long its lists are. Each item of
-- a list may be followed by one comma, also the last, and need not be.
def within : Nat → Parser ν DigitTree
  | 0 => fun _ => .unfinished
  | bound + 1 =>
    let item := (both (delay (within bound)) (optional (byte comma))).map Prod.fst
    choice [
      (satisfy ByteClass.isDigit).map fun byte => number (digitOf byte),
      (between (byte opening) (many bound .heap item) (byte closing)).map list]

-- Each level takes a byte, and so does each item. A list has one round more than it has
-- items.
def parser : Parser ν DigitTree := fun input => within (input.length + 2) input

end DigitTree

end ByteGrammar.Format
