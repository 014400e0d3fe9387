import ByteGrammar.Proofs.Repetition.Turns

namespace ByteGrammar.Parser

variable {ν α β γ : Type} {inner : Parser ν α} {init : Run ν β} {combine : β → α → Run ν β}
  {storage : Storage α}

-- Where a fold stops. In the one-or-more form the first turn is not counted.

def foldManyClosing (turns : List (Turn ν α β)) (last : β) (stop : Bytes) :
    List (Event ν) × Outcome β :=
  ([.foldStopped turns.length stop], .matched last stop)

def foldMany1Closing : List (Turn ν α β) → β → Bytes → List (Event ν) × Outcome β
  | [], _, stop => ([.foldRejected stop], .noMatch)
  | _ :: turns, last, stop => ([.foldStopped turns.length stop], .matched last stop)

-- Where a repetition into a storage stops. It yields the values of its turns, and all turns are
-- counted as items.

def manyClosing (turns : List (Turn ν α (Array α))) (_items : Array α) (stop : Bytes) :
    List (Event ν) × Outcome (List α) :=
  ([.foldStopped turns.length stop, .sequenceFinished turns.length],
    .matched (turns.map Turn.value) stop)

def many1Closing : List (Turn ν α (Array α)) → Array α → Bytes → List (Event ν) × Outcome (List α)
  | [], _, stop => ([.foldRejected stop], .noMatch)
  | first :: turns, _, stop =>
    ([.foldStopped turns.length stop, .sequenceFinished (turns.length + 1)],
      .matched (first.value :: turns.map Turn.value) stop)

-- The loop of each form of a fold, within some number of rounds

theorem foldLoop_ends_iff {start : β} {input : Bytes} {trace : List (Event ν)}
    {result : Except Error (Outcome β)} :
    (∃ rounds, foldLoop inner combine rounds 0 start input = .ended trace result) ↔
      Loops inner combine foldManyClosing start input trace result := by
  simp only [foldLoop_eq_ended_iff, Nat.zero_add]
  constructor
  · rintro ⟨_, turns, last, stop, ending, -, hturns, hending, rfl⟩
    exact .mk turns last stop ending result hturns hending
  · rintro ⟨turns, last, stop, ending, _, hturns, hending⟩
    exact ⟨turns.length + 1, turns, last, stop, ending, by omega, hturns, hending, rfl⟩

theorem loopStep_ends_iff {start : β} {input : Bytes} {trace : List (Event ν)}
    {result : Except Error (Outcome β)} :
    (∃ rounds, loopStep inner combine [.foldRejected input] .noMatch
      (foldLoop inner combine rounds 0) start input = .ended trace result) ↔
      Loops inner combine foldMany1Closing start input trace result := by
  simp only [loopStep_eq_ended_iff]
  constructor
  · rintro ⟨rounds, hending | ⟨turn, later, hmatch, hcombine, hrest, rfl⟩⟩
    · exact .mk [] start input trace result (.none _ _) hending
    · obtain ⟨turns, last, stop, ending, _, hturns, hending⟩ := foldLoop_ends_iff.mp ⟨rounds, hrest⟩
      rw [← List.append_assoc, ← List.flatMap_cons]
      exact .mk (turn :: turns) last stop ending result
        (.next _ _ _ _ _ _ hmatch hcombine hturns) hending
  · rintro ⟨turns, last, stop, ending, _, hturns, hending⟩
    cases hturns with
    | none => exact ⟨0, .inl hending⟩
    | next _ _ turn turns _ _ hmatch hcombine hturns =>
      obtain ⟨rounds, hrest⟩ :=
        foldLoop_ends_iff.mpr (.mk turns last stop ending result hturns hending)
      exact ⟨rounds, .inr ⟨turn, _, hmatch, hcombine, hrest, by simp⟩⟩

-- A fold makes its seed and goes through its loop

theorem bind_ends_iff {closing : List (Turn ν α β) → β → Bytes → List (Event ν) × Outcome γ}
    {loop : Nat → β → Run ν (Outcome γ)} {input : Bytes}
    (hloop : ∀ seed later result, (∃ rounds, loop rounds seed = .ended later result) ↔
      Loops inner combine closing seed input later result)
    {trace : List (Event ν)} {result : Except Error (Outcome γ)} :
    Ends (fun rounds _ => init >>= loop rounds) input trace result ↔
      Repeats inner init combine closing input trace result := by
  simp only [Ends, Run.bind_eq_ended_iff]
  constructor
  · rintro ⟨rounds, ⟨error, hinit, rfl⟩ | ⟨calls, later, seed, hinit, hrest, rfl⟩⟩
    · exact .unseeded trace error hinit
    · exact .seeded calls seed later result hinit ((hloop seed later result).mp ⟨rounds, hrest⟩)
  · rintro (⟨_, error, hinit⟩ | ⟨calls, seed, later, _, hinit, hrest⟩)
    · exact ⟨0, .inl ⟨error, hinit, rfl⟩⟩
    · obtain ⟨rounds, hrest⟩ := (hloop seed later result).mpr hrest
      exact ⟨rounds, .inr ⟨calls, later, seed, hinit, hrest, rfl⟩⟩

theorem foldMany_ends_iff {input : Bytes} {trace : List (Event ν)}
    {result : Except Error (Outcome β)} :
    Ends (fun rounds => foldMany rounds inner init combine) input trace result ↔
      Repeats inner init combine foldManyClosing input trace result :=
  bind_ends_iff fun _ _ _ => foldLoop_ends_iff

theorem foldMany1_ends_iff {input : Bytes} {trace : List (Event ν)}
    {result : Except Error (Outcome β)} :
    Ends (fun rounds => foldMany1 rounds inner init combine) input trace result ↔
      Repeats inner init combine foldMany1Closing input trace result :=
  bind_ends_iff fun _ _ _ => loopStep_ends_iff

-- A repetition up to where its parser does not match, with all that is traced before it is closed
inductive Stops (inner : Parser ν α) (init : Run ν β) (combine : β → α → Run ν β) (input : Bytes) :
    List (Event ν) → List (Turn ν α β) → β → Bytes → Prop
  | mk (calls : List (Event ν)) (seed : β) (turns : List (Turn ν α β)) (last : β) (stop : Bytes)
      (own : List (Event ν)) (hinit : init = .ended calls (.ok seed))
      (hturns : Turns inner combine seed input turns last stop)
      (hstop : inner stop = .ended own (.ok .noMatch)) :
      Stops inner init combine input (calls ++ (turns.flatMap Turn.trace ++ own)) turns last stop

-- There is no other way to yield something
theorem repeats_ok_iff {closing : List (Turn ν α β) → β → Bytes → List (Event ν) × Outcome γ}
    {input : Bytes} {trace : List (Event ν)} {outcome : Outcome γ} :
    Repeats inner init combine closing input trace (.ok outcome) ↔
      ∃ earlier turns last stop, Stops inner init combine input earlier turns last stop ∧
        trace = earlier ++ (closing turns last stop).1 ∧
        outcome = (closing turns last stop).2 := by
  constructor
  · rintro (_ | ⟨calls, seed, later, _, hinit, turns, last, stop, ending, _, hturns, hending⟩)
    cases hending with
    | stopped own hstop =>
      exact ⟨_, turns, last, stop, .mk calls seed turns last stop own hinit hturns hstop,
        by simp only [List.append_assoc], rfl⟩
  · rintro ⟨_, turns, last, stop, ⟨calls, seed, _, _, _, own, hinit, hturns, hstop⟩, rfl, rfl⟩
    simp only [List.append_assoc]
    exact .seeded calls seed _ _ hinit (.mk turns last stop _ _ hturns (.stopped own hstop))

-- An error does not depend on how the repetition would have been closed
theorem Repeats.error_congr {δ : Type}
    {closing : List (Turn ν α β) → β → Bytes → List (Event ν) × Outcome γ}
    {other : List (Turn ν α β) → β → Bytes → List (Event ν) × Outcome δ} {input : Bytes}
    {trace : List (Event ν)} {error : Error}
    (h : Repeats inner init combine closing input trace (.error error)) :
    Repeats inner init combine other input trace (.error error) := by
  obtain ⟨_, _, hinit⟩ | ⟨calls, seed, later, _, hinit, turns, last, stop, ending, _, hturns, hending⟩ := h
  · exact .unseeded trace error hinit
  · refine .seeded calls seed _ _ hinit (.mk turns last stop ending _ hturns ?_)
    cases hending with
    | failed own error hfail => exact .failed ending error hfail
    | refused own value tail calls error hmatch hrefuse =>
      exact .refused own value tail calls error hmatch hrefuse

-- A repetition that is closed in another way, with traces that are related where it is closed
theorem Repeats.reclosed
    {closing other : List (Turn ν α β) → β → Bytes → List (Event ν) × Outcome γ} {input : Bytes}
    {trace : List (Event ν)} {result : Except Error (Outcome γ)}
    (related : List (Event ν) → List (Event ν) → Except Error (Outcome γ) → Prop)
    (h : Repeats inner init combine closing input trace result)
    (herror : ∀ trace error, related trace trace (.error error))
    (hclosing : ∀ earlier turns last stop, Stops inner init combine input earlier turns last stop →
      (closing turns last stop).2 = (other turns last stop).2 ∧
      related (earlier ++ (closing turns last stop).1) (earlier ++ (other turns last stop).1)
        (.ok (other turns last stop).2)) :
    ∃ another, related trace another result ∧
      Repeats inner init combine other input another result := by
  cases result with
  | error error => exact ⟨trace, herror trace error, h.error_congr⟩
  | ok outcome =>
    obtain ⟨earlier, turns, last, stop, hstops, rfl, rfl⟩ := repeats_ok_iff.mp h
    obtain ⟨houtcome, hrelated⟩ := hclosing earlier turns last stop hstops
    rw [houtcome]
    exact ⟨_, hrelated, repeats_ok_iff.mpr ⟨earlier, turns, last, stop, hstops, rfl, rfl⟩⟩

theorem Repeats.closing_congr
    {closing other : List (Turn ν α β) → β → Bytes → List (Event ν) × Outcome γ} {input : Bytes}
    {trace : List (Event ν)} {result : Except Error (Outcome γ)}
    (h : Repeats inner init combine closing input trace result)
    (hclosing : ∀ earlier turns last stop, Stops inner init combine input earlier turns last stop →
      closing turns last stop = other turns last stop) :
    Repeats inner init combine other input trace result := by
  have hrelated : ∃ another, trace = another ∧
      Repeats inner init combine other input another result := by
    apply h.reclosed (fun first second _ => first = second) fun _ _ => rfl
    intro earlier turns last stop hstops
    rw [hclosing earlier turns last stop hstops]
    exact ⟨rfl, rfl⟩
  obtain ⟨_, rfl, hother⟩ := hrelated
  exact hother

theorem repeats_congr
    {closing other : List (Turn ν α β) → β → Bytes → List (Event ν) × Outcome γ} {input : Bytes}
    {trace : List (Event ν)} {result : Except Error (Outcome γ)}
    (hclosing : ∀ earlier turns last stop, Stops inner init combine input earlier turns last stop →
      closing turns last stop = other turns last stop) :
    Repeats inner init combine closing input trace result ↔
      Repeats inner init combine other input trace result :=
  ⟨fun h => h.closing_congr hclosing, fun h => h.closing_congr
    fun earlier turns last stop hstops => (hclosing earlier turns last stop hstops).symm⟩

-- Where a fold into a sequence is closed, the sequence is closed after it
def finishing : List (Event ν) × Outcome (Array α) → List (Event ν) × Outcome (List α)
  | (closing, .matched items tail) =>
    (closing ++ [.sequenceFinished items.size], .matched items.toList tail)
  | (closing, .noMatch) => (closing, .noMatch)

theorem finishing_append (earlier closing : List (Event ν)) (outcome : Outcome (Array α)) :
    finishing (earlier ++ closing, outcome) =
      (earlier ++ (finishing (closing, outcome)).1, (finishing (closing, outcome)).2) := by
  cases outcome with
  | matched items tail => simp [finishing]
  | noMatch => rfl

theorem refine_finish_eq_ok_iff {parser : Parser ν (Array α)} {input : Bytes}
    {trace : List (Event ν)} {outcome : Outcome (List α)} :
    parser.refine finish input = .ended trace (.ok outcome) ↔
      ∃ earlier filled, parser input = .ended earlier (.ok filled) ∧
        (trace, outcome) = finishing (earlier, filled) := by
  constructor
  · intro h
    obtain ⟨earlier, later, filled, hrun, hnext, rfl⟩ := Run.bind_eq_ok h
    cases filled with
    | matched items tail =>
      cases hnext
      exact ⟨earlier, _, hrun, rfl⟩
    | noMatch =>
      cases hnext
      exact ⟨earlier, _, hrun, by rw [List.append_nil]; rfl⟩
  · rintro ⟨earlier, filled, hrun, hfinishing⟩
    cases filled with
    | matched items tail =>
      cases hfinishing
      simp [refine, hrun, finish, Run.report]
    | noMatch =>
      cases hfinishing
      simp [refine, hrun]

theorem refine_finish_eq_error_iff {parser : Parser ν (Array α)} {input : Bytes}
    {trace : List (Event ν)} {error : Error} :
    parser.refine finish input = .ended trace (.error error) ↔
      parser input = .ended trace (.error error) := by
  constructor
  · intro h
    rcases Run.bind_eq_ended h with ⟨_, hrun, hresult⟩ | ⟨earlier, later, filled, hrun, hnext, rfl⟩
    · cases hresult
      exact hrun
    · cases filled <;> cases hnext
  · intro hrun
    simp [refine, hrun]

-- A repetition into a storage is a fold that is closed with its sequence
theorem refine_finish_ends_iff {repetition : Nat → Parser ν (Array α)}
    {init : Run ν (Array α)} {combine : Array α → α → Run ν (Array α)}
    {closing : List (Turn ν α (Array α)) → Array α → Bytes → List (Event ν) × Outcome (Array α)}
    {input : Bytes}
    (h : ∀ trace result, Ends repetition input trace result ↔
      Repeats inner init combine closing input trace result)
    {trace : List (Event ν)} {result : Except Error (Outcome (List α))} :
    Ends (fun rounds => (repetition rounds).refine finish) input trace result ↔
      Repeats inner init combine (fun turns last stop => finishing (closing turns last stop)) input
        trace result := by
  cases result with
  | error error =>
    have hends : Ends (fun rounds => (repetition rounds).refine finish) input trace
        (.error error) ↔ Ends repetition input trace (.error error) :=
      exists_congr fun _ => refine_finish_eq_error_iff
    rw [hends, h]
    exact ⟨Repeats.error_congr, Repeats.error_congr⟩
  | ok outcome =>
    rw [repeats_ok_iff]
    constructor
    · rintro ⟨rounds, hrun⟩
      obtain ⟨_, filled, hrun, hfinishing⟩ := refine_finish_eq_ok_iff.mp hrun
      obtain ⟨earlier, turns, last, stop, hstops, rfl, rfl⟩ :=
        repeats_ok_iff.mp ((h _ _).mp ⟨rounds, hrun⟩)
      simp only [finishing_append, Prod.mk.injEq] at hfinishing
      exact ⟨earlier, turns, last, stop, hstops, hfinishing⟩
    · rintro ⟨earlier, turns, last, stop, hstops, rfl, rfl⟩
      obtain ⟨rounds, hrun⟩ := (h _ _).mpr (repeats_ok_iff.mpr
        ⟨earlier, turns, last, stop, hstops, rfl, rfl⟩)
      exact ⟨rounds, refine_finish_eq_ok_iff.mpr ⟨_, _, hrun, by simp only [finishing_append]⟩⟩

-- The values of the turns are the elements of the sequence
theorem Turns.toList_eq {items last : Array α} {input stop : Bytes}
    {turns : List (Turn ν α (Array α))}
    (h : Turns inner storage.push items input turns last stop) :
    last.toList = items.toList ++ turns.map Turn.value := by
  induction h with
  | none => simp
  | next items place turn turns last stop hmatch hcombine hrest ih =>
    rw [ih, Storage.eq_push_of_push hcombine]
    simp

theorem Turns.finishing_foldMany {input stop : Bytes} {turns : List (Turn ν α (Array α))}
    {last : Array α} (h : Turns inner storage.push #[] input turns last stop) :
    finishing (foldManyClosing turns last stop) = manyClosing turns last stop := by
  have hlast : last.toList = turns.map Turn.value := h.toList_eq
  have hsize : last.size = turns.length := by rw [← Array.length_toList, hlast, List.length_map]
  simp only [finishing, foldManyClosing, manyClosing, hlast, hsize, List.singleton_append]

theorem Turns.finishing_foldMany1 {input stop : Bytes} {turns : List (Turn ν α (Array α))}
    {last : Array α} (h : Turns inner storage.push #[] input turns last stop) :
    finishing (foldMany1Closing turns last stop) = many1Closing turns last stop := by
  cases turns with
  | nil => rfl
  | cons first turns =>
    have hlast : last.toList = (first :: turns).map Turn.value := h.toList_eq
    have hsize : last.size = turns.length + 1 := by
      rw [← Array.length_toList, hlast, List.length_map, List.length_cons]
    simp only [finishing, foldMany1Closing, many1Closing, hlast, hsize, List.singleton_append,
      List.map_cons]

theorem many_ends_iff {input : Bytes} {trace : List (Event ν)}
    {result : Except Error (Outcome (List α))} :
    Ends (fun rounds => many rounds storage inner) input trace result ↔
      Repeats inner storage.allocate storage.push manyClosing input trace result := by
  apply (refine_finish_ends_iff fun _ _ => foldMany_ends_iff).trans
  apply repeats_congr
  rintro _ turns last stop ⟨calls, items, _, _, _, own, hinit, hturns, hstop⟩
  obtain rfl := Storage.eq_empty_of_allocate hinit
  exact hturns.finishing_foldMany

theorem many1_ends_iff {input : Bytes} {trace : List (Event ν)}
    {result : Except Error (Outcome (List α))} :
    Ends (fun rounds => many1 rounds storage inner) input trace result ↔
      Repeats inner storage.allocate storage.push many1Closing input trace result := by
  apply (refine_finish_ends_iff fun _ _ => foldMany1_ends_iff).trans
  apply repeats_congr
  rintro _ turns last stop ⟨calls, items, _, _, _, own, hinit, hturns, hstop⟩
  obtain rfl := Storage.eq_empty_of_allocate hinit
  exact hturns.finishing_foldMany1

-- What can be seen of the folds and repetitions. The seed is made first and once. Then come the
-- turns, each with what the parser traces where the turn before has stopped and with one call that
-- takes the value into the accumulator. There is one ending: an error after which there is nothing,
-- or the place where the parser does not match, which is reported with the number of turns. The
-- one-or-more form does not count its first turn, and without one it rejects. A repetition into a
-- storage is the same with the calls of the storage, and where it stops it also reports how many
-- items it yields.
theorem repetition_protocol (inner : Parser ν α) (init : Run ν β) (combine : β → α → Run ν β)
    (storage : Storage α) (input : Bytes) (trace : List (Event ν))
    (folded : Except Error (Outcome β)) (collected : Except Error (Outcome (List α))) :
    (Ends (fun rounds => foldMany rounds inner init combine) input trace folded ↔
      Repeats inner init combine foldManyClosing input trace folded) ∧
    (Ends (fun rounds => foldMany1 rounds inner init combine) input trace folded ↔
      Repeats inner init combine foldMany1Closing input trace folded) ∧
    (Ends (fun rounds => many rounds storage inner) input trace collected ↔
      Repeats inner storage.allocate storage.push manyClosing input trace collected) ∧
    (Ends (fun rounds => many1 rounds storage inner) input trace collected ↔
      Repeats inner storage.allocate storage.push many1Closing input trace collected) :=
  ⟨foldMany_ends_iff, foldMany1_ends_iff, many_ends_iff, many1_ends_iff⟩

-- With a seed and a combining function that note their calls
example : foldMany1 2 (byte 97) (.ended [.note 0] (.ok 0))
    (fun total _ => .ended [.note (total + 1)] (.ok (total + 1))) [97, 97, 98] =
      .ended [.note 0, .note 1, .note 2, .foldStopped 1 [98]] (.ok (.matched 2 [98])) := rfl

end ByteGrammar.Parser
