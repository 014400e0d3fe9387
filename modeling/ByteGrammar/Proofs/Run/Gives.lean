import ByteGrammar.Run.Approximation

namespace ByteGrammar.Run

variable {ν α β : Type}

-- How a run ends, whatever it traces
def Gives (run : Run ν α) (result : Except Error α) : Prop := ∃ trace, run = .ended trace result

theorem not_gives_unfinished (result : Except Error α) : ¬ (unfinished : Run ν α).Gives result := by
  rintro ⟨trace, h⟩
  cases h

theorem Gives.unique {run : Run ν α} {result other : Except Error α} (h : run.Gives result)
    (hother : run.Gives other) : result = other := by
  obtain ⟨trace, rfl⟩ := h
  obtain ⟨_, hother⟩ := hother
  cases hother
  rfl

theorem Gives.gives_iff {run : Run ν α} {result other : Except Error α} (h : run.Gives result) :
    run.Gives other ↔ other = result := by
  constructor
  · exact fun hother => hother.unique h
  · rintro rfl
    exact h

@[simp]
theorem ended_gives_iff {trace : List (Event ν)} {result other : Except Error α} :
    (ended trace result).Gives other ↔ result = other := by
  constructor
  · rintro ⟨_, h⟩
    cases h
    rfl
  · rintro rfl
    exact ⟨trace, rfl⟩

theorem exists_gives_of_ne_unfinished {run : Run ν α} (h : run ≠ .unfinished) :
    ∃ result, run.Gives result := by
  cases run with
  | unfinished => exact absurd rfl h
  | ended trace result => exact ⟨result, trace, rfl⟩

theorem Approximates.eq_of_gives {first second : Run ν α} {result : Except Error α}
    (h : first.Approximates second) (hgives : first.Gives result) : second = first := by
  obtain ⟨trace, rfl⟩ := hgives
  exact h.eq_of_ended

theorem after_gives_iff {earlier : List (Event ν)} {run : Run ν α} {result : Except Error α} :
    (run.after earlier).Gives result ↔ run.Gives result := by
  cases run with
  | unfinished => rfl
  | ended trace other => simp

theorem bind_gives_ok_iff {first : Run ν α} {next : α → Run ν β} {value : β} :
    (first >>= next).Gives (.ok value) ↔
      ∃ mid, first.Gives (.ok mid) ∧ (next mid).Gives (.ok value) := by
  cases first with
  | unfinished => simp [not_gives_unfinished]
  | ended trace result => cases result <;> simp [after_gives_iff]

-- The second part is run only if the first has not failed
theorem bind_gives_error_iff {first : Run ν α} {next : α → Run ν β} {error : Error} :
    (first >>= next).Gives (.error error) ↔
      first.Gives (.error error) ∨ ∃ mid, first.Gives (.ok mid) ∧ (next mid).Gives (.error error) := by
  cases first with
  | unfinished => simp [not_gives_unfinished]
  | ended trace result => cases result <;> simp [after_gives_iff]

theorem bind_gives_congr {first second : Run ν α} {next other : α → Run ν β}
    (hfirst : ∀ result, first.Gives result ↔ second.Gives result)
    (hnext : ∀ mid result, (next mid).Gives result ↔ (other mid).Gives result)
    (result : Except Error β) : (first >>= next).Gives result ↔ (second >>= other).Gives result := by
  cases result with
  | error error => simp only [bind_gives_error_iff, hfirst, hnext]
  | ok value => simp only [bind_gives_ok_iff, hfirst, hnext]

theorem ofExcept_ne_unfinished (answer : Except Error α) :
    (ofExcept answer : Run ν α) ≠ .unfinished := by
  cases answer <;> simp [ofExcept, Run.pure, raise]

theorem bind_ne_unfinished {first : Run ν α} {next : α → Run ν β} (hfirst : first ≠ .unfinished)
    (hnext : ∀ mid, first.Gives (.ok mid) → next mid ≠ .unfinished) :
    (first >>= next) ≠ .unfinished := by
  cases first with
  | unfinished => exact absurd rfl hfirst
  | ended trace result =>
    cases result with
    | error error => simp
    | ok mid =>
      obtain ⟨result, later, hresult⟩ := exists_gives_of_ne_unfinished (hnext mid ⟨trace, rfl⟩)
      simp [hresult]

end ByteGrammar.Run
