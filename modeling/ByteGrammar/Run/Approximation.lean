import ByteGrammar.Run

namespace ByteGrammar.Run

variable {ν α β : Type}

-- The first run has not come to an end, or is the second one
def Approximates (first second : Run ν α) : Prop := first = unfinished ∨ first = second

theorem Approximates.refl (run : Run ν α) : run.Approximates run := .inr rfl

theorem Approximates.bind {first second : Run ν α} {next other : α → Run ν β}
    (hrun : first.Approximates second)
    (hnext : ∀ value, (next value).Approximates (other value)) :
    (first >>= next).Approximates (second >>= other) := by
  rcases hrun with rfl | rfl
  · exact .inl rfl
  · cases first with
    | unfinished => exact .inl rfl
    | ended trace result =>
      cases result with
      | error error => exact .inr rfl
      | ok value =>
        rcases hnext value with h | h
        · left
          simp [h]
        · right
          simp [h]

theorem Approximates.eq_of_ended {trace : List (Event ν)} {result : Except Error α}
    {second : Run ν α} (h : (ended trace result).Approximates second) :
    second = ended trace result := by
  rcases h with h | h
  · cases h
  · exact h.symm

end ByteGrammar.Run
