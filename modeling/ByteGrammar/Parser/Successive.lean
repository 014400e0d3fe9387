import ByteGrammar.Parser.Basic

namespace ByteGrammar.Parser

variable {ν α : Type}

-- Parses an input, then the tail of that match, and so on, each time as a parse of its own.
-- The first one that does not match is the last.
def successive (parser : Parser ν α) : Nat → Bytes → List (Run ν (Outcome α))
  | 0, _ => []
  | limit + 1, input =>
    let run := parser input
    match run with
    | .ended _ (.ok (.matched _ tail)) => run :: successive parser limit tail
    | _ => [run]

end ByteGrammar.Parser
