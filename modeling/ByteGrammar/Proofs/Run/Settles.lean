import ByteGrammar.Proofs.Run.Gives

namespace ByteGrammar.Run

variable {ν α β : Type}

-- Runs of growing depth that are one and the same finished run from some depth on
def Settles (family : Nat → Run ν α) : Prop :=
  ∃ trace result depth, ∀ more, depth ≤ more → family more = .ended trace result

theorem Settles.const {run : Run ν α} (h : run ≠ .unfinished) : Settles fun _ => run := by
  obtain ⟨result, trace, hrun⟩ := exists_gives_of_ne_unfinished h
  exact ⟨trace, result, 0, fun _ _ => hrun⟩

-- What happens at small depths does not matter
theorem Settles.of_eventually_eq {family other : Nat → Run ν α} (h : Settles other) (start : Nat)
    (heq : ∀ depth, start ≤ depth → family depth = other depth) : Settles family := by
  obtain ⟨trace, result, depth, hother⟩ := h
  refine ⟨trace, result, max start depth, fun more hmore => ?_⟩
  rw [heq more (by omega), hother more (by omega)]

theorem Settles.of_succ {family : Nat → Run ν α} (h : Settles fun depth => family (depth + 1)) :
    Settles family := by
  obtain ⟨trace, result, depth, hfamily⟩ := h
  refine ⟨trace, result, depth + 1, fun more hmore => ?_⟩
  obtain ⟨less, rfl⟩ : ∃ less, more = less + 1 := ⟨more - 1, by omega⟩
  exact hfamily less (by omega)

theorem Settles.after {family : Nat → Run ν α} (h : Settles family) (earlier : List (Event ν)) :
    Settles fun depth => (family depth).after earlier := by
  obtain ⟨trace, result, depth, hfamily⟩ := h
  refine ⟨earlier ++ trace, result, depth, fun more hmore => ?_⟩
  show (family more).after earlier = _
  rw [hfamily more hmore, after_ended]

-- The second part has to settle on the values that the first part may give
theorem Settles.bind {first : Nat → Run ν α} {next : Nat → α → Run ν β} (hfirst : Settles first)
    (hnext : ∀ depth value, (first depth).Gives (.ok value) →
      Settles fun depth => next depth value) :
    Settles fun depth => first depth >>= next depth := by
  obtain ⟨trace, result, depth, hfirst⟩ := hfirst
  cases result with
  | error error =>
    refine ⟨trace, .error error, depth, fun more hmore => ?_⟩
    show first more >>= next more = _
    rw [hfirst more hmore, error_bind]
  | ok value =>
    have hgives : (first depth).Gives (.ok value) := ⟨trace, hfirst depth (Nat.le_refl _)⟩
    obtain ⟨later, result, start, hnext⟩ := hnext depth value hgives
    have hnext : ∀ more, start ≤ more → next more value = .ended later result := hnext
    refine ⟨trace ++ later, result, max depth start, fun more hmore => ?_⟩
    show first more >>= next more = _
    rw [hfirst more (by omega), ok_bind, hnext more (by omega), after_ended]

end ByteGrammar.Run
