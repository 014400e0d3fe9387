import ByteGrammar.Grammar.Primitive
import ByteGrammar.Storage

namespace ByteGrammar

-- A parser as data, over named rules. The functions of `map` and `refine` have a label,
-- under which their calls are noted. A `group` only hands on to what is in it, and so does
-- a `probe`, which is there to be seen in the trace.
inductive Grammar (ρ : Type) where
  | literal (expected : Bytes)
  | anyByte
  | byte (expected : UInt8)
  | satisfy (test : UInt8 → Bool)
  | atEnd
  | sequence (parts : List (Grammar ρ))
  | both (first second : Grammar ρ)
  | choice (arms : List (Grammar ρ))
  | orElse (first second : Grammar ρ)
  | map (label : String) (f : Value → Value) (body : Grammar ρ)
  | refine (label : String) (f : Value → Except Error Value) (body : Grammar ρ)
  | optional (body : Grammar ρ)
  | notFollowedBy (body : Grammar ρ)
  | followedBy (body : Grammar ρ)
  | between (opening body closing : Grammar ρ)
  | foldMany (init : Except Error Value) (combine : Value → Value → Except Error Value)
      (body : Grammar ρ)
  | foldMany1 (init : Except Error Value) (combine : Value → Value → Except Error Value)
      (body : Grammar ρ)
  | many (storage : Storage Value) (body : Grammar ρ)
  | many1 (storage : Storage Value) (body : Grammar ρ)
  | delay (body : Grammar ρ)
  | rule (name : ρ)
  | group (body : Grammar ρ)
  | probe (label : String) (body : Grammar ρ)
  | primitive (given : Primitive)

-- What a grammar leaves in the trace beside the events of its repetitions: the places
-- where its parts are entered, and the calls of its functions and primitives with their
-- answers
inductive Note (ρ : Type) where
  | entered (grammar : Grammar ρ) (input : Bytes)
  | tested (byte : UInt8)
  | called (label : String) (answer : Except Error Value)
  | seeded (answer : Except Error Value)
  | combined (accumulator value : Value) (answer : Except Error Value)
  | consulted (answer : Except Error (Outcome Value))

namespace Grammar

variable {ρ : Type}

-- A sequence of no parts
def empty : Grammar ρ := sequence []

-- A grammar inside so many layers
def nest (layer : Grammar ρ → Grammar ρ) : Nat → Grammar ρ → Grammar ρ
  | 0, grammar => grammar
  | count + 1, grammar => nest layer count (layer grammar)

end Grammar

end ByteGrammar
