import ByteGrammar.Proofs.Mirror.Grammar

namespace ByteGrammar

variable {ρ ν α : Type}

def Outcome.append (more : Bytes) : Outcome α → Outcome α
  | matched value tail => matched value (tail ++ more)
  | noMatch => noMatch

-- The same event in a parse of an input with more bytes at its end
def Event.append (more : Bytes) : Event (Note ρ) → Event (Note ρ)
  | foldStopped iterations rest => foldStopped iterations (rest ++ more)
  | foldRejected rest => foldRejected (rest ++ more)
  | building rest => building (rest ++ more)
  | note (.entered grammar input) => note (.entered grammar (input ++ more))
  | note (.consulted answer) => note (.consulted (answer.map (Outcome.append more)))
  | event => event

-- A trace without the marks at the end of the input, which tell what a parse has not seen
def withoutEnds (trace : List (Event ν)) : List (Event ν) :=
  trace.filter fun
    | .reachedEnd => false
    | _ => true

theorem withoutEnds_append (first second : List (Event ν)) :
    withoutEnds (first ++ second) = withoutEnds first ++ withoutEnds second := List.filter_append ..

-- A primitive that answers alike on a longer input, unless it says that it needs more
def Primitive.Local (given : Primitive) : Prop :=
  ∀ input more, given.needsMore input = false →
    given.parse (input ++ more) = (given.parse input).map (Outcome.append more)

theorem append_nil_answer (answer : Except Error (Outcome α)) :
    answer.map (Outcome.append []) = answer := by
  match answer with
  | .ok (.matched value tail) =>
    show Except.ok (Outcome.matched value (tail ++ [])) = _
    rw [List.append_nil]
  | .ok .noMatch => rfl
  | .error error => rfl

theorem SameAnswer.append (more : Bytes) (answer : Except Error (Outcome α)) :
    SameAnswer (Outcome.Moved more Eq) answer (answer.map (Outcome.append more)) := by
  match answer with
  | .ok (.matched value tail) => exact .ok _ _ (.matched value value tail rfl)
  | .ok .noMatch => exact .ok _ _ .noMatch
  | .error failure => exact .error failure

theorem SameAnswer.eq_append {more : Bytes} {answer other : Except Error (Outcome α)}
    (h : SameAnswer (Outcome.Moved more Eq) answer other) :
    other = answer.map (Outcome.append more) := by
  obtain ⟨_, _, houtcome⟩ | _ := h
  · cases houtcome with
    | matched value other tail hvalue => rw [hvalue]; rfl
    | noMatch => rfl
  · rfl

-- Nothing is run where it could have read more
def Event.StaysInside : Event (Note ρ) → Prop
  | note (.entered part place) => ¬ part.TouchesEnd place
  | _ => True

instance : (event : Event (Note ρ)) → Decidable event.StaysInside
  | .note (.entered part place) => inferInstanceAs (Decidable (¬ part.TouchesEnd place))
  | .note (.tested _) | .note (.called _ _) | .note (.seeded _) | .note (.combined _ _ _)
  | .note (.consulted _) | .foldStopped _ _ | .foldRejected _ | .sequenceFull _
  | .sequenceFinished _ | .building _ | .allocated _ | .pushed _ _ | .raised _ | .reachedEnd =>
    inferInstanceAs (Decidable True)

theorem Event.Moved.append {more : Bytes} {first second : Event (Note ρ)}
    (h : Event.Moved more first second) : second = first.append more := by
  cases h <;> rfl

namespace Grammar

variable {rules : ρ → Grammar ρ} {whole : Grammar ρ} {more : Bytes}

-- A parse and one with more input. The first has an excuse if it has touched the end.
def extending (more : Bytes) : Mirror (Note ρ) (Note ρ) where
  more := more
  excuse piece := ∃ part place, piece = [.note (.entered part place)] ∧ part.TouchesEnd place
  traces first second := withoutEnds second = (withoutEnds first).map (Event.append more)
  traces_nil := rfl
  traces_append hfirst hlater := by
    rw [withoutEnds_append, withoutEnds_append, List.map_append, hfirst, hlater]
  traces_moved h := by
    obtain rfl := h.append
    cases h <;> rfl

theorem extending_more : (extending more : Mirror (Note ρ) (Note ρ)).more = more := rfl

theorem consulting_extending {given : Primitive} (h : given.Local) {input : Bytes}
    (hinput : more = [] ∨ ¬ given.needsMore input = true) :
    (consulting given input).Mirrored (extending more) (Outcome.Moved more Eq)
      (consulting given (input ++ more) : Run (Note ρ) (Outcome Value)) := by
  have hparse : given.parse (input ++ more) = (given.parse input).map (Outcome.append more) := by
    rcases hinput with rfl | hinput
    · rw [List.append_nil, append_nil_answer]
    · exact h input more (Bool.eq_false_iff.mpr hinput)
  apply consulting_mirrored <;> rw [extending_more]
  · rw [hparse]
    exact .append more (given.parse input)
  · rw [hparse]
    rfl
  · unfold Primitive.ends
    cases given.needsMore input <;> cases given.needsMore (input ++ more) <;> rfl

def extension (hprimitives : ∀ given, Reaches rules whole (.primitive given) → given.Local)
    (more : Bytes) : Simulation rules rules whole :=
  .self (extending more)
    (fun _ _ => rfl)
    (fun grammar input => (em (grammar.TouchesEnd input)).imp
      (fun htouches => ⟨grammar, input, rfl, htouches⟩) .inr)
    (fun _ hmoved => by cases hmoved <;> rfl)
    (fun _ => rfl)
    (fun _ _ => rfl)
    (fun _ => rfl)
    (fun given _ hreach => consulting_extending (hprimitives given hreach))

-- More input changes a parse only if the end was touched. Where nothing has been run that could
-- have read more, the parse of a longer input runs the same parts and calls the same functions
-- in the same order, and has the same result with the rest of the input after its tail.
theorem parse_append {depth : Nat} {grammar : Grammar ρ} {input : Bytes}
    {trace : List (Event (Note ρ))} {result : Except Error (Outcome Value)}
    (hprimitives : ∀ given, Reaches rules grammar (.primitive given) → given.Local)
    (h : parser rules depth grammar input = .ended trace result)
    (hinside : ∀ event ∈ trace, event.StaysInside) (more : Bytes) :
    ∃ later, parser rules depth grammar (input ++ more) =
        .ended later (result.map (Outcome.append more)) ∧
      withoutEnds later = (withoutEnds trace).map (Event.append more) := by
  have hmirrored := parser_mirrored (extension hprimitives more) depth (.refl grammar) rfl input
  rcases hmirrored trace result h with ⟨_, hpiece, part, place, rfl, htouches⟩ | hsecond
  · exact absurd htouches (hinside _ (hpiece.subset List.mem_cons_self))
  · obtain ⟨later, answer, hlater, htraces, hanswer⟩ := hsecond
    exact ⟨later, hanswer.eq_append ▸ hlater, htraces⟩

-- Parentheses around one byte that is none
def nestings : Unit → Grammar Unit := fun _ =>
  .choice [.between (.byte 40) (.rule ()) (.byte 41), .satisfy (· ≠ 41)]

-- Bytes in parentheses up to two semicolons
def clause : Grammar Unit :=
  .both (.many .heap (.both (.notFollowedBy (.literal [59, 59])) (.rule ())))
    (.primitive (.take 2))

theorem take_local (count : Nat) : (Primitive.take count).Local := by
  intro input more hinput
  have hlength : count ≤ input.length := by
    by_contra hshort
    simp [Primitive.take] at hinput
    omega
  simp only [Primitive.take, List.take_append_of_le_length hlength,
    List.drop_append_of_le_length hlength, List.length_take_of_le hlength, if_pos]
  rfl

-- "(a);;" and "(a);;("
theorem parse_append_clause :
    ∃ trace value later, parser nestings 12 clause [40, 97, 41, 59, 59] =
        .ended trace (.ok (.matched value [])) ∧
      (∀ event ∈ trace, event.StaysInside) ∧
      parser nestings 12 clause [40, 97, 41, 59, 59, 40] =
        .ended later (.ok (.matched value [40])) ∧
      withoutEnds later = (withoutEnds trace).map (Event.append [40]) := by
  have h : parser nestings 12 clause [40, 97, 41, 59, 59] = .ended _ (.ok (.matched _ [])) := rfl
  have hprimitives : ∀ given, Reaches nestings clause (.primitive given) → given.Local := by
    intro given hgiven
    have hmem := hgiven.mem_of_closed [clause,
      .many .heap (.both (.notFollowedBy (.literal [59, 59])) (.rule ())),
      .both (.notFollowedBy (.literal [59, 59])) (.rule ()), .notFollowedBy (.literal [59, 59]),
      .literal [59, 59], .rule (), nestings (), .between (.byte 40) (.rule ()) (.byte 41),
      .byte 40, .byte 41, .satisfy (· ≠ 41), .primitive (.take 2)]
      (by simp [clause, nestings, parts]) (by simp)
    obtain rfl : given = .take 2 := by simpa [clause, nestings] using hmem
    exact take_local 2
  obtain ⟨later, hlater, htraces⟩ := parse_append hprimitives h (by decide) [40]
  exact ⟨_, _, later, h, by decide, hlater, htraces⟩

end Grammar

end ByteGrammar
