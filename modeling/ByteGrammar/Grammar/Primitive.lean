import ByteGrammar.Parser.Basic
import ByteGrammar.Value.Basic

namespace ByteGrammar

-- A parser given by its user. `needsMore` tells where a longer input could change what
-- `parse` answers.
structure Primitive where
  parse : Bytes → Except Error (Outcome Value)
  needsMore : Bytes → Bool

namespace Primitive

variable {ν : Type}

def parser (primitive : Primitive) : Parser ν Value := fun input => do
  if primitive.needsMore input then Run.report .reachedEnd
  Run.ofExcept (primitive.parse input)

theorem parse_eq_ok {primitive : Primitive} {input : Bytes} {trace : List (Event ν)}
    {outcome : Outcome Value} (h : primitive.parser input = .ended trace (.ok outcome)) :
    primitive.parse input = .ok outcome := by
  unfold parser at h
  split at h
  · obtain ⟨_, _, _, -, hanswer, -⟩ := Run.bind_eq_ok h
    exact Run.eq_ok_of_ofExcept hanswer
  · exact Run.eq_ok_of_ofExcept h

-- So many bytes, whatever they are
def take (count : Nat) : Primitive where
  parse input :=
    let part := input.take count
    .ok (if part.length = count then .matched (.slice part) (input.drop count) else .noMatch)
  needsMore input := (input.take count).length < count

def fail (error : Error) : Primitive where
  parse _ := .error error
  needsMore _ := false

def never : Primitive where
  parse _ := .ok .noMatch
  needsMore _ := false

end Primitive

end ByteGrammar
