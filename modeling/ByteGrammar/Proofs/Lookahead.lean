import ByteGrammar.Proofs.Factoring
import ByteGrammar.Proofs.Grouping
import Mathlib.Algebra.Ring.Parity

namespace ByteGrammar.Parser

open ByteGrammar.Grouping

variable {ν α β γ : Type} {part : γ → Parser ν α}

-- So many negations around a parser. With none of them it is the parser itself, but for its value.
def negations (inner : Parser ν α) : Nat → Parser ν Unit
  | 0 => inner.map fun _ => ()
  | count + 1 => (negations inner count).notFollowedBy

-- Neither of two parsers matches, if the first one does not and then the second does not

theorem orElse_notFollowedBy (first second : Parser ν α) :
    (first.orElse second).notFollowedBy =
      first.notFollowedBy.andThen fun _ => second.notFollowedBy := by
  funext input
  simp only [orElse, notFollowedBy, andThen, bind_assoc]
  congr 1
  funext outcome
  cases outcome <;> simp [Run.after_nil]

theorem choice_notFollowedBy (arms : List (Parser ν α)) :
    (choice arms).notFollowedBy = (sequence (arms.map notFollowedBy)).map fun _ => () := by
  induction arms with
  | nil => rfl
  | cons arm rest ih =>
    rw [choice, orElse_notFollowedBy, ih, List.map_cons, sequence, map_andThen]
    simp only [map_map]

-- Two negations are a positive lookahead, of which a third one leaves a single negation

theorem notFollowedBy_followedBy (inner : Parser ν α) :
    inner.followedBy.notFollowedBy = inner.notFollowedBy := by
  funext input
  simp only [followedBy, notFollowedBy, bind_assoc]
  congr 1
  funext outcome
  cases outcome <;> simp

theorem notFollowedBy_thrice (inner : Parser ν α) :
    inner.notFollowedBy.notFollowedBy.notFollowedBy = inner.notFollowedBy := by
  rw [← followedBy_eq_notFollowedBy inner, notFollowedBy_followedBy]

theorem negations_of_odd (inner : Parser ν α) {count : Nat} (h : Odd count) :
    negations inner count = inner.notFollowedBy := by
  obtain ⟨half, rfl⟩ := h
  induction half with
  | zero => exact map_notFollowedBy inner fun _ => ()
  | succ half ih =>
    have htwo : negations inner (2 * half + 3) = negations inner (2 * half + 1) :=
      notFollowedBy_thrice (negations inner (2 * half))
    rw [← ih, ← htwo]
    rfl

theorem negations_of_even (inner : Parser ν α) {count : Nat} (h : Even count)
    (hcount : 2 ≤ count) : negations inner count = inner.followedBy := by
  obtain ⟨less, rfl⟩ : ∃ less, count = less + 1 := ⟨count - 1, by omega⟩
  have hodd : Odd less := by
    rw [Nat.even_add_one, Nat.not_even_iff_odd] at h
    exact h
  rw [negations, negations_of_odd inner hodd, followedBy_eq_notFollowedBy]

-- Guards

-- What matches here matches when it is run again
theorem followedBy_both_gives_iff {inner : Parser ν α} {input : Bytes}
    {result : Except Error (Outcome α)} :
    ((inner.followedBy.both inner).map Prod.snd input).Gives result ↔
      (inner input).Gives result := by
  cases hinner : inner input with
  | unfinished => simp [map, refine, both, andThen, followedBy, hinner]
  | ended own answer =>
    cases answer with
    | error error => simp [map, refine, both, andThen, followedBy, hinner]
    | ok outcome =>
      cases outcome with
      | noMatch => simp [map, refine, both, andThen, followedBy, hinner]
      | matched value tail => simp [map, refine, both, andThen, followedBy, hinner]

theorem not_notFollowedBy_both_matched {inner : Parser ν α} {input tail : Bytes}
    {value : Unit × α} :
    ¬ (inner.notFollowedBy.both inner input).Gives (.ok (.matched value tail)) := by
  intro h
  obtain ⟨_, rest, hguard, hinner⟩ := andThen_matched_iff.mp h
  obtain ⟨hnone, rfl⟩ := notFollowedBy_matched_iff.mp hguard
  obtain ⟨other, hmatch, -⟩ := map_matched_iff.mp hinner
  cases hnone.unique hmatch

-- Where the guard holds, nothing is left of it
theorem notFollowedBy_both_gives_iff {first : Parser ν α} {second : Parser ν β} {input : Bytes}
    (h : (first input).Gives (.ok .noMatch)) {result : Except Error (Outcome β)} :
    ((first.notFollowedBy.both second).map Prod.snd input).Gives result ↔
      (second input).Gives result := by
  obtain ⟨own, hfirst⟩ := h
  have hguard : first.notFollowedBy input = .ended own (.ok (.matched () input)) := by
    simp [notFollowedBy, hfirst]
  rw [both, map_andThen]
  simp only [map_map, map_id, andThen, hguard, Run.ok_bind, Run.after_gives_iff]

-- The arms of a choice may be told apart beforehand
theorem guarded_choice_gives_iff {first second : Parser ν α} {input : Bytes}
    {result : Except Error (Outcome α)} :
    (choice [first, second] input).Gives result ↔
      (choice [(first.followedBy.both first).map Prod.snd,
        (first.notFollowedBy.both second).map Prod.snd] input).Gives result := by
  simp only [← orElse_eq_choice, orElse_gives_iff, followedBy_both_gives_iff]
  apply or_congr_right
  apply and_congr_right
  intro hfirst
  exact (notFollowedBy_both_gives_iff hfirst).symm

-- An error within a lookahead is an error of the lookahead

theorem notFollowedBy_of_error {inner : Parser ν α} {input : Bytes} {own : List (Event ν)}
    {error : Error} (h : inner input = .ended own (.error error)) :
    inner.notFollowedBy input = .ended own (.error error) := by
  simp [notFollowedBy, h]

theorem followedBy_of_error {inner : Parser ν α} {input : Bytes} {own : List (Event ν)}
    {error : Error} (h : inner input = .ended own (.error error)) :
    inner.followedBy input = .ended own (.error error) := by
  simp [followedBy, h]

theorem map_of_error {inner : Parser ν α} {input : Bytes} {own : List (Event ν)} {error : Error}
    (h : inner input = .ended own (.error error)) (f : α → β) :
    inner.map f input = .ended own (.error error) := by
  simp [map, refine, h]

theorem negations_of_error {inner : Parser ν α} {input : Bytes} {own : List (Event ν)}
    {error : Error} (h : inner input = .ended own (.error error)) (count : Nat) :
    negations inner count input = .ended own (.error error) := by
  induction count with
  | zero => exact map_of_error h fun _ => ()
  | succ count ih => exact notFollowedBy_of_error ih

theorem PassedOver.notFollowedBy_of_error {before : List (Parser ν α)} {input : Bytes}
    {runs : List (List (Event ν))} (hpassed : PassedOver before input runs) {arm : Parser ν α}
    {own : List (Event ν)} {error : Error} (h : arm input = .ended own (.error error))
    (others : List (Parser ν α)) :
    (choice (before ++ arm :: others)).notFollowedBy input =
      .ended (runs.flatten ++ own) (.error error) := by
  apply Parser.notFollowedBy_of_error
  rw [hpassed.choice_append_eq, choice_cons_eq h nofun, Run.after_ended]

theorem exists_of_notFollowedBy {inner : Parser ν α} {input : Bytes} {trace : List (Event ν)}
    {result : Except Error (Outcome Unit)} (h : inner.notFollowedBy input = .ended trace result) :
    ∃ answer, inner input = .ended trace answer := by
  rcases Run.bind_eq_ended h with ⟨error, hinner, -⟩ | ⟨own, later, outcome, hinner, hnext, rfl⟩
  · exact ⟨.error error, hinner⟩
  · cases outcome <;> cases hnext <;> exact ⟨_, by rw [hinner, List.append_nil]⟩

-- Laws of lookahead. That no arm of a choice matches is the sequence of the negations of its arms:
-- the runs are equal but for the units that are yielded, with the same arms visited in the same
-- order and on the same input, which is also what is left. A parser may be guarded by its own
-- lookahead but not by its negation, and a choice may be told which arm to take. Any odd number of
-- negations is one of them, and any even number is positive lookahead. An error goes through all
-- of these as it is.
theorem lookahead_algebra (part : γ → Parser ν α) (names : List γ) (first second : Parser ν α)
    (input : Bytes) :
    ((choice (names.map part)).notFollowedBy =
        (sequence (names.map fun name => (part name).notFollowedBy)).map (fun _ => ()) ∧
      (choice (names.map (visiting part))).notFollowedBy =
        (sequence (names.map fun name => (visiting part name).notFollowedBy)).map (fun _ => ()) ∧
      Shows part ((choice (names.map (visiting part))).notFollowedBy input)
        ((choice (names.map part)).notFollowedBy input) ∧
      (∀ trace result,
        (choice (names.map (visiting part))).notFollowedBy input = .ended trace result →
        ∃ tried untried, names = tried ++ untried ∧
          trace = tried.map fun name => .note (name, input)) ∧
      ∀ tail, ((choice (names.map part)).notFollowedBy input).Gives (.ok (.matched () tail)) →
        tail = input) ∧
    ((∀ result, ((first.followedBy.both first).map Prod.snd input).Gives result ↔
        (first input).Gives result) ∧
      (∀ value tail, ¬ (first.notFollowedBy.both first input).Gives (.ok (.matched value tail))) ∧
      ∀ result, (choice [first, second] input).Gives result ↔
        (choice [(first.followedBy.both first).map Prod.snd,
          (first.notFollowedBy.both second).map Prod.snd] input).Gives result) ∧
    ((∀ count, Odd count → negations first count = first.notFollowedBy) ∧
      ∀ count, Even count → 2 ≤ count → negations first count = first.followedBy) ∧
    ∀ own error, first input = .ended own (.error error) →
      (∀ before runs others, PassedOver before input runs →
        (choice (before ++ first :: others)).notFollowedBy input =
          .ended (runs.flatten ++ own) (.error error)) ∧
      (first.followedBy.both first).map Prod.snd input = .ended own (.error error) ∧
      first.notFollowedBy.both first input = .ended own (.error error) ∧
      choice [(first.followedBy.both first).map Prod.snd,
        (first.notFollowedBy.both second).map Prod.snd] input = .ended own (.error error) ∧
      ∀ count, negations first count input = .ended own (.error error) := by
  refine ⟨⟨?_, ?_, (Shows.choice names input).notFollowedBy, ?_, ?_⟩, ⟨?_, ?_, ?_⟩, ⟨?_, ?_⟩, ?_⟩
  · rw [choice_notFollowedBy, List.map_map]
    rfl
  · rw [choice_notFollowedBy, List.map_map]
    rfl
  · intro trace result h
    obtain ⟨answer, hchoice⟩ := exists_of_notFollowedBy h
    exact choice_visits hchoice
  · intro tail h
    exact (notFollowedBy_matched_iff.mp h).2
  · exact fun _ => followedBy_both_gives_iff
  · exact fun _ _ => not_notFollowedBy_both_matched
  · exact fun _ => guarded_choice_gives_iff
  · exact fun _ => negations_of_odd first
  · exact fun _ => negations_of_even first
  · intro own error h
    have hguard : (first.followedBy.both first).map Prod.snd input = .ended own (.error error) :=
      map_of_error (both_of_error (followedBy_of_error h) first) Prod.snd
    exact ⟨fun _ _ others hpassed => hpassed.notFollowedBy_of_error h others, hguard,
      both_of_error (notFollowedBy_of_error h) first, choice_cons_eq hguard nofun _,
      negations_of_error h⟩

-- A byte that is refused where it stands
def refused (expected : UInt8) : Parser Unit UInt8 :=
  (byte expected).refine fun _ => .raise (.custom "refused" [])

-- "ab" with a choice of 'b' and 'c', which is passed over, before 'a', which is refused
theorem lookahead_algebra_letters :
    (∃ tried untried, [98, 99] = tried ++ untried ∧
      [.note (98, [97, 98]), .note (99, [97, 98])] =
        tried.map fun name : UInt8 => (.note (name, [97, 98]) : Event (UInt8 × Bytes))) ∧
    (∀ tail, ((choice [byte 98, byte 99]).notFollowedBy [97, 98] : Run Unit _).Gives
      (.ok (.matched () tail)) → tail = [97, 98]) ∧
    ((choice [byte 98, byte 99]).notFollowedBy [97, 98] : Run Unit _).Gives
      (.ok (.matched () [97, 98])) ∧
    Odd 3 ∧ negations (refused 97) 3 = (refused 97).notFollowedBy ∧
    Even 4 ∧ negations (refused 97) 4 = (refused 97).followedBy ∧
    PassedOver [byte 98, byte 99] [97, 98] ([[], []] : List (List (Event Unit))) ∧
    (choice [byte 98, byte 99, refused 97, byte 97]).notFollowedBy [97, 98] =
      .ended [.raised (.custom "refused" [])] (.error (.custom "refused" [])) ∧
    negations (refused 97) 4 [97, 98] =
      .ended [.raised (.custom "refused" [])] (.error (.custom "refused" [])) := by
  obtain ⟨⟨-, -, -, hvisits, htail⟩, -, ⟨hodd, heven⟩, herror⟩ :=
    lookahead_algebra (byte : UInt8 → Parser Unit UInt8) [98, 99] (refused 97) (byte 97) [97, 98]
  obtain ⟨hchoice, -, -, -, hcount⟩ := herror _ _ rfl
  have hpassed : PassedOver [byte 98, byte 99] [97, 98] ([[], []] : List (List (Event Unit))) :=
    .cons rfl (.cons rfl .nil)
  have hthree : Odd 3 := ⟨1, rfl⟩
  have hfour : Even 4 := ⟨2, rfl⟩
  exact ⟨hvisits _ _ rfl, htail, ⟨[], rfl⟩, hthree, hodd 3 hthree, hfour, heven 4 hfour (by decide),
    hpassed, hchoice _ _ [byte 97] hpassed, hcount 4⟩

end ByteGrammar.Parser
