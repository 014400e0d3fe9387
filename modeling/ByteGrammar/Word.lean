namespace ByteGrammar.Word

-- Signed numbers of 64 bits

def least : Int := -9223372036854775808

def greatest : Int := 9223372036854775807

-- The number, if it fits
def checked? (number : Int) : Option Int :=
  if least ≤ number ∧ number ≤ greatest then some number else none

-- The nearest number that fits
def saturate (number : Int) : Int := max least (min number greatest)

theorem checked?_eq_some_iff (number result : Int) :
    checked? number = some result ↔ number = result ∧ least ≤ number ∧ number ≤ greatest := by
  unfold checked?
  split
  · next h => simp [h]
  · next h => simp [h]

end ByteGrammar.Word
