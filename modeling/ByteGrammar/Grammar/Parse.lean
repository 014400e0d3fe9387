import ByteGrammar.Grammar.Basic
import ByteGrammar.Parser.Many

namespace ByteGrammar.Grammar

variable {ρ : Type}

-- A call is noted with its answer before the parse goes on or fails
def noting (note : Except Error Value → Note ρ) (answer : Except Error Value) :
    Run (Note ρ) Value := do
  Run.report (.note (note answer))
  Run.ofExcept answer

theorem eq_ok_of_noting {note : Except Error Value → Note ρ} {answer : Except Error Value}
    {calls : List (Event (Note ρ))} {value : Value}
    (h : noting note answer = .ended calls (.ok value)) : answer = .ok value := by
  obtain ⟨_, _, _, -, hanswer, -⟩ := Run.bind_eq_ok h
  exact Run.eq_ok_of_ofExcept hanswer

def testing (test : UInt8 → Bool) (byte : UInt8) : Run (Note ρ) Bool := do
  Run.report (.note (.tested byte))
  pure (test byte)

def consulting (given : Primitive) : Parser (Note ρ) Value := fun input => do
  Run.report (.note (.consulted (given.parse input)))
  given.parser input

-- What one layer of a grammar means, given what its parts mean
def layer (rules : ρ → Grammar ρ) (rounds : Nat) (part : Grammar ρ → Parser (Note ρ) Value) :
    Grammar ρ → Parser (Note ρ) Value
  | literal expected => (Parser.literal expected).map .slice
  | anyByte => Parser.anyByte.map .byte
  | byte expected => (Parser.byte expected).map .byte
  | satisfy test => (Parser.satisfyRun (testing test)).map .byte
  | atEnd => Parser.atEnd.map fun _ => .unit
  | sequence parts => (Parser.sequence (parts.map part)).map .ofParts
  | both first second =>
    ((part first).both (part second)).map fun pair => .tuple [pair.1, pair.2]
  | choice arms => Parser.choice (arms.map part)
  | orElse first second => (part first).orElse (part second)
  | map label f body => (part body).refine fun value => noting (.called label) (.ok (f value))
  | refine label f body => (part body).refine fun value => noting (.called label) (f value)
  | optional body => (part body).optional.map .ofOption
  | notFollowedBy body => (part body).notFollowedBy.map fun _ => .unit
  | followedBy body => (part body).followedBy.map fun _ => .unit
  | between opening body closing => (part opening).between (part body) (part closing)
  | foldMany init combine body =>
    Parser.foldMany rounds (part body) (noting .seeded init) fun accumulator value =>
      noting (.combined accumulator value) (combine accumulator value)
  | foldMany1 init combine body =>
    Parser.foldMany1 rounds (part body) (noting .seeded init) fun accumulator value =>
      noting (.combined accumulator value) (combine accumulator value)
  | many storage body => (Parser.many rounds storage (part body)).map .list
  | many1 storage body => (Parser.many1 rounds storage (part body)).map .list
  | delay body => (part body).delay
  | rule name => (part (rules name)).delay
  | group body => part body
  | probe _ body => part body
  | primitive given => consulting given

-- A grammar may refer to itself and repeat what takes nothing, so a parse is given a depth.
-- It bounds how far parts are entered inside each other and how often each is repeated.
-- A parse that ends within some depth ends the same way within any greater one.
def parser (rules : ρ → Grammar ρ) : Nat → Grammar ρ → Parser (Note ρ) Value
  | 0, _ => fun _ => .unfinished
  | depth + 1, grammar => fun input => do
    Run.report (.note (.entered grammar input))
    layer rules depth (parser rules depth) grammar input

theorem parser_succ (rules : ρ → Grammar ρ) (depth : Nat) (grammar : Grammar ρ) (input : Bytes) :
    parser rules (depth + 1) grammar input =
      (layer rules depth (parser rules depth) grammar input).after
        [.note (.entered grammar input)] := rfl

-- More than a parse that ends in practice can use up
def ample : Nat := 1 <<< 62

def parse (rules : ρ → Grammar ρ) (grammar : Grammar ρ) : Parser (Note ρ) Value :=
  parser rules ample grammar

end ByteGrammar.Grammar
