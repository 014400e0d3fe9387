import ByteGrammar.Parser.Fold
import ByteGrammar.Storage

namespace ByteGrammar.Parser

variable {ν α : Type}

-- Closes a sequence and gives its elements
def finish (items : Array α) : Run ν (List α) := do
  Run.report (.sequenceFinished items.size)
  pure items.toList

theorem eq_toList_of_finish {items : Array α} {calls : List (Event ν)} {values : List α}
    (h : finish items = .ended calls (.ok values)) : values = items.toList := by
  cases h
  rfl

-- Zero or more, kept in a storage
def many (rounds : Nat) (storage : Storage α) (inner : Parser ν α) : Parser ν (List α) :=
  (foldMany rounds inner storage.allocate storage.push).refine finish

-- One or more, kept in a storage
def many1 (rounds : Nat) (storage : Storage α) (inner : Parser ν α) : Parser ν (List α) :=
  (foldMany1 rounds inner storage.allocate storage.push).refine finish

end ByteGrammar.Parser
