import ByteGrammar.Parser.Many
import ByteGrammar.Proofs.Mirror.Run
import ByteGrammar.Proofs.Parser.Derived

namespace ByteGrammar

variable {ν μ α β γ δ ζ η : Type} {mirror : Mirror ν μ}

-- The same outcome but for related values and what comes after the tail
inductive Outcome.Moved (more : Bytes) (values : α → β → Prop) : Outcome α → Outcome β → Prop
  | matched (value : α) (other : β) (tail : Bytes) (hvalue : values value other) :
      Moved more values (.matched value tail) (.matched other (tail ++ more))
  | noMatch : Moved more values .noMatch .noMatch

theorem Outcome.Moved.of_eq {values : α → α → Prop} (hvalues : ∀ value, values value value)
    (outcome : Outcome α) : Outcome.Moved [] values outcome outcome := by
  cases outcome with
  | noMatch => exact .noMatch
  | matched value tail =>
    have h : Outcome.Moved [] values (.matched value tail) (.matched value (tail ++ [])) :=
      .matched value value tail (hvalues value)
    rwa [List.append_nil] at h

theorem Outcome.Moved.eq {outcome other : Outcome α} (h : Outcome.Moved [] Eq outcome other) :
    outcome = other := by
  cases h with
  | matched value another tail hvalue => rw [hvalue, List.append_nil]
  | noMatch => rfl

namespace Parser

open ByteGrammar.Run (report_mirrored)

-- The second parser mirrors the first on every input, with more after it
def Mirrored (mirror : Mirror ν μ) (values : α → β → Prop) (first : Parser ν α)
    (second : Parser μ β) : Prop :=
  ∀ input, (first input).Mirrored mirror (Outcome.Moved mirror.more values)
    (second (input ++ mirror.more))

variable {values : α → β → Prop} {results : γ → δ → Prop} {others : ζ → η → Prop}
  {first : Parser ν α} {second : Parser μ β} {input : Bytes}

-- The parsers that read bytes themselves mirror themselves where they do not touch the end of
-- their input, or if there is nothing more behind it

theorem noMatch_mirrored : (do
    Run.report .reachedEnd
    pure .noMatch : Run ν (Outcome α)).Mirrored mirror (Outcome.Moved mirror.more values) (do
    Run.report .reachedEnd
    pure .noMatch : Run μ (Outcome β)) :=
  (report_mirrored (mirror.traces_moved .reachedEnd)).bind fun _ _ _ => .pure .noMatch

theorem literal_mirrored (expected : Bytes)
    (hinput : mirror.more = [] ∨ ¬ (input <+: expected ∧ input ≠ expected)) :
    (literal expected input : Run ν (Outcome Bytes)).Mirrored mirror (Outcome.Moved mirror.more Eq)
      (literal expected (input ++ mirror.more) : Run μ (Outcome Bytes)) := by
  unfold literal
  by_cases hprefix : expected <+: input
  · have hlonger : expected <+: input ++ mirror.more := hprefix.trans (List.prefix_append _ _)
    rw [if_pos hprefix, if_pos hlonger, List.drop_append_of_le_length hprefix.length_le]
    exact .pure (.matched _ _ _ rfl)
  · rw [if_neg hprefix]
    rcases hinput with hmore | hinput
    · have hsame : input ++ mirror.more = input := by rw [hmore, List.append_nil]
      rw [hsame, if_neg hprefix]
      split
      · exact noMatch_mirrored
      · exact .pure .noMatch
    · have hshort : ¬ input <+: expected := fun h =>
        hinput ⟨h, fun heq => hprefix (heq ▸ List.prefix_rfl)⟩
      have hlong : ¬ input ++ mirror.more <+: expected := fun h =>
        hshort ((List.prefix_append _ _).trans h)
      have hlonger : ¬ expected <+: input ++ mirror.more := fun h =>
        (List.prefix_or_prefix_of_prefix h (List.prefix_append _ _)).elim hprefix hshort
      rw [if_neg hshort, if_neg hlonger, if_neg hlong]
      exact .pure .noMatch

theorem satisfyRun_mirrored {test : UInt8 → Run ν Bool} {other : UInt8 → Run μ Bool}
    (htest : ∀ byte, (test byte).Mirrored mirror Eq (other byte))
    (hinput : mirror.more = [] ∨ input ≠ []) :
    (satisfyRun test input).Mirrored mirror (Outcome.Moved mirror.more Eq)
      (satisfyRun other (input ++ mirror.more)) := by
  cases input with
  | nil =>
    have hsame : [] ++ mirror.more = [] := hinput.resolve_right (· rfl)
    rw [hsame]
    exact noMatch_mirrored
  | cons byte tail =>
    apply (htest byte).bind
    rintro passed _ rfl
    cases passed with
    | false => exact .pure .noMatch
    | true => exact .pure (.matched _ _ _ rfl)

theorem anyByte_mirrored (hinput : mirror.more = [] ∨ input ≠ []) :
    (anyByte input : Run ν (Outcome UInt8)).Mirrored mirror (Outcome.Moved mirror.more Eq)
      (anyByte (input ++ mirror.more) : Run μ (Outcome UInt8)) := by
  rw [anyByte_eq_satisfy, anyByte_eq_satisfy]
  exact satisfyRun_mirrored (fun _ => .pure rfl) hinput

theorem byte_mirrored (expected : UInt8) (hinput : mirror.more = [] ∨ input ≠ []) :
    (byte expected input : Run ν (Outcome UInt8)).Mirrored mirror (Outcome.Moved mirror.more Eq)
      (byte expected (input ++ mirror.more) : Run μ (Outcome UInt8)) := by
  rw [byte_eq_satisfy, byte_eq_satisfy]
  exact satisfyRun_mirrored (fun _ => .pure rfl) hinput

theorem atEnd_mirrored (hinput : mirror.more = [] ∨ input ≠ []) :
    (atEnd input : Run ν (Outcome Unit)).Mirrored mirror (Outcome.Moved mirror.more Eq)
      (atEnd (input ++ mirror.more) : Run μ (Outcome Unit)) := by
  rw [atEnd_eq_notFollowedBy, atEnd_eq_notFollowedBy]
  apply (satisfyRun_mirrored (fun _ => .pure rfl) hinput).bind
  intro outcome other houtcome
  cases houtcome with
  | matched => exact .pure .noMatch
  | noMatch => exact .pure (.matched _ _ _ rfl)

-- Each combinator mirrors another of its kind if its parts do

theorem Mirrored.succeed {value : α} {other : β} (h : values value other) :
    (succeed value : Parser ν α).Mirrored mirror values (Parser.succeed other : Parser μ β) :=
  fun input => .pure (.matched value other input h)

theorem Mirrored.andThen {next : α → Parser ν γ} {other : β → Parser μ δ}
    (hfirst : first.Mirrored mirror values second)
    (hnext : ∀ value another, values value another →
      (next value).Mirrored mirror results (other another)) :
    (first.andThen next).Mirrored mirror results (second.andThen other) := by
  intro input
  apply (hfirst input).bind
  intro outcome _ houtcome
  cases houtcome with
  | matched value another tail hvalue => exact hnext value another hvalue tail
  | noMatch => exact .pure .noMatch

theorem Mirrored.orElse {arm : Parser ν α} {other : Parser μ β}
    (hfirst : first.Mirrored mirror values second) (harm : arm.Mirrored mirror values other) :
    (first.orElse arm).Mirrored mirror values (second.orElse other) := by
  intro input
  apply (hfirst input).bind
  intro outcome _ houtcome
  cases houtcome with
  | matched value another tail hvalue => exact .pure (.matched value another tail hvalue)
  | noMatch => exact harm input

theorem refine_mirrored {f : α → Run ν γ} {g : β → Run μ δ}
    (h : (first input).Mirrored mirror (Outcome.Moved mirror.more values)
      (second (input ++ mirror.more)))
    (hf : ∀ value other, values value other → (f value).Mirrored mirror results (g other)) :
    (first.refine f input).Mirrored mirror (Outcome.Moved mirror.more results)
      (second.refine g (input ++ mirror.more)) := by
  apply h.bind
  intro outcome _ houtcome
  cases houtcome with
  | matched value other tail hvalue =>
    apply (hf value other hvalue).bind
    intro result another hresult
    exact .pure (.matched result another tail hresult)
  | noMatch => exact .pure .noMatch

theorem map_mirrored {f : α → γ} {g : β → δ}
    (h : (first input).Mirrored mirror (Outcome.Moved mirror.more values)
      (second (input ++ mirror.more)))
    (hf : ∀ value other, values value other → results (f value) (g other)) :
    (first.map f input).Mirrored mirror (Outcome.Moved mirror.more results)
      (second.map g (input ++ mirror.more)) :=
  refine_mirrored h fun value other hvalue => .pure (hf value other hvalue)

theorem Mirrored.refine {f : α → Run ν γ} {g : β → Run μ δ}
    (h : first.Mirrored mirror values second)
    (hf : ∀ value other, values value other → (f value).Mirrored mirror results (g other)) :
    (first.refine f).Mirrored mirror results (second.refine g) :=
  fun input => refine_mirrored (h input) hf

theorem Mirrored.map {f : α → γ} {g : β → δ} (h : first.Mirrored mirror values second)
    (hf : ∀ value other, values value other → results (f value) (g other)) :
    (first.map f).Mirrored mirror results (second.map g) :=
  fun input => map_mirrored (h input) hf

theorem Mirrored.both {later : Parser ν γ} {other : Parser μ δ}
    (hfirst : first.Mirrored mirror values second) (hlater : later.Mirrored mirror results other) :
    (first.both later).Mirrored mirror
      (fun pair another => values pair.1 another.1 ∧ results pair.2 another.2)
      (second.both other) :=
  hfirst.andThen fun _ _ hvalue => hlater.map fun _ _ hresult => ⟨hvalue, hresult⟩

theorem Mirrored.sequence {parts : List (Parser ν α)} {others : List (Parser μ β)}
    (h : List.Forall₂ (Mirrored mirror values) parts others) :
    (sequence parts).Mirrored mirror (List.Forall₂ values) (Parser.sequence others) := by
  induction h with
  | nil => exact .succeed .nil
  | cons hpart _ ih =>
    exact hpart.andThen fun _ _ hvalue => ih.map fun _ _ hrest => .cons hvalue hrest

theorem Mirrored.choice {arms : List (Parser ν α)} {others : List (Parser μ β)}
    (h : List.Forall₂ (Mirrored mirror values) arms others) :
    (choice arms).Mirrored mirror values (Parser.choice others) := by
  induction h with
  | nil => exact fun _ => .pure .noMatch
  | cons harm _ ih => exact harm.orElse ih

theorem Mirrored.optional (h : first.Mirrored mirror values second) :
    first.optional.Mirrored mirror (Option.Rel values) second.optional := by
  intro input
  apply (h input).bind
  intro outcome _ houtcome
  cases houtcome with
  | matched value other tail hvalue => exact .pure (.matched _ _ tail (.some hvalue))
  | noMatch => exact .pure (.matched _ _ input .none)

theorem Mirrored.notFollowedBy (h : first.Mirrored mirror values second) :
    first.notFollowedBy.Mirrored mirror Eq second.notFollowedBy := by
  intro input
  apply (h input).bind
  intro outcome _ houtcome
  cases houtcome with
  | matched => exact .pure .noMatch
  | noMatch => exact .pure (.matched _ _ input rfl)

theorem Mirrored.followedBy (h : first.Mirrored mirror values second) :
    first.followedBy.Mirrored mirror Eq second.followedBy := by
  intro input
  apply (h input).bind
  intro outcome _ houtcome
  cases houtcome with
  | matched => exact .pure (.matched _ _ input rfl)
  | noMatch => exact .pure .noMatch

theorem Mirrored.between {inner : Parser ν γ} {other : Parser μ δ} {closing : Parser ν ζ}
    {another : Parser μ η} (hopening : first.Mirrored mirror values second)
    (hinner : inner.Mirrored mirror results other)
    (hclosing : closing.Mirrored mirror others another) :
    (first.between inner closing).Mirrored mirror results (second.between other another) :=
  hopening.andThen fun _ _ _ => hinner.andThen fun _ _ hvalue => hclosing.map fun _ _ _ => hvalue

theorem Mirrored.delay (h : first.Mirrored mirror values second) :
    first.delay.Mirrored mirror values second.delay := fun input =>
  (report_mirrored (mirror.traces_moved (.building input))).bind fun _ _ _ => h input

section

variable {init : Run ν γ} {combine : γ → α → Run ν γ} {otherInit : Run μ δ}
  {otherCombine : δ → β → Run μ δ}

theorem Mirrored.foldRounds (h : first.Mirrored mirror values second)
    (hcombine : ∀ accumulator other value another, results accumulator other →
      values value another →
      (combine accumulator value).Mirrored mirror results (otherCombine other another))
    (rounds iterations : Nat) {accumulator : γ} {other : δ} (hstart : results accumulator other)
    (input : Bytes) :
    (foldRounds first combine rounds iterations [] accumulator input).Mirrored mirror
      (fun last another => results last.1 another.1 ∧ another.2 = last.2 ++ mirror.more)
      (Parser.foldRounds second otherCombine rounds iterations [] other
        (input ++ mirror.more)) := by
  induction rounds generalizing iterations accumulator other input with
  | zero => exact fun _ _ h => nomatch h
  | succ rounds ih =>
    rw [foldRounds_succ, foldRounds_succ]
    apply (h input).bind
    intro outcome _ houtcome
    cases houtcome with
    | matched value another tail hvalue =>
      apply (hcombine accumulator other value another hstart hvalue).bind
      intro next otherNext hnext
      exact ih (iterations + 1) hnext tail
    | noMatch =>
      apply (report_mirrored (mirror.traces_moved (.foldStopped iterations input))).bind
      intro _ _ _
      exact .pure ⟨hstart, rfl⟩

theorem Mirrored.foldMany (h : first.Mirrored mirror values second)
    (hinit : init.Mirrored mirror results otherInit)
    (hcombine : ∀ accumulator other value another, results accumulator other →
      values value another →
      (combine accumulator value).Mirrored mirror results (otherCombine other another))
    (rounds : Nat) :
    (foldMany rounds first init combine).Mirrored mirror results
      (Parser.foldMany rounds second otherInit otherCombine) := by
  intro input
  apply hinit.bind
  intro seed other hseed
  apply (h.foldRounds hcombine rounds 0 hseed input).bind
  rintro ⟨total, tail⟩ ⟨another, _⟩ ⟨htotal, rfl⟩
  exact .pure (.matched total another tail htotal)

theorem Mirrored.foldMany1 (h : first.Mirrored mirror values second)
    (hinit : init.Mirrored mirror results otherInit)
    (hcombine : ∀ accumulator other value another, results accumulator other →
      values value another →
      (combine accumulator value).Mirrored mirror results (otherCombine other another))
    (rounds : Nat) :
    (foldMany1 rounds first init combine).Mirrored mirror results
      (Parser.foldMany1 rounds second otherInit otherCombine) := by
  intro input
  apply hinit.bind
  intro seed other hseed
  apply (h input).bind
  intro outcome _ houtcome
  cases houtcome with
  | noMatch =>
    apply (report_mirrored (mirror.traces_moved (.foldRejected input))).bind
    intro _ _ _
    exact .pure .noMatch
  | matched value another rest hvalue =>
    apply (hcombine seed other value another hseed hvalue).bind
    intro start otherStart hstart
    apply (h.foldRounds hcombine rounds 0 hstart rest).bind
    rintro ⟨total, tail⟩ ⟨another, _⟩ ⟨htotal, rfl⟩
    exact .pure (.matched total another tail htotal)

end

-- Two sequences under construction with related elements
def SameItems (values : α → β → Prop) (items : Array α) (others : Array β) : Prop :=
  List.Forall₂ values items.toList others.toList

theorem finish_mirrored {items : Array α} {others : Array β} (h : SameItems values items others) :
    (finish items : Run ν (List α)).Mirrored mirror (List.Forall₂ values)
      (finish others : Run μ (List β)) := by
  have hsize : items.size = others.size := h.length_eq
  unfold finish
  rw [hsize]
  apply (report_mirrored (mirror.traces_moved (.sequenceFinished others.size))).bind
  intro _ _ _
  exact .pure h

section

variable {storage : Storage α} {other : Storage β} {items : Array α} {others : Array β} {value : α}
  {another : β}

-- Two storages that answer alike

theorem allocate_mirrored (hempty : other.empty = storage.empty)
    (hcall : mirror.traces [.allocated storage.empty] [.allocated storage.empty]) :
    storage.allocate.Mirrored mirror (SameItems values) other.allocate := by
  unfold Storage.allocate
  rw [hempty]
  apply (report_mirrored hcall).bind
  intro _ _ _
  cases storage.empty with
  | ok _ => exact .pure .nil
  | error error => exact Run.raise_mirrored _

theorem push_mirrored (hitems : SameItems values items others) (hvalue : values value another)
    (hroom : other.room others another = storage.room items value)
    (hcall : mirror.traces [.pushed items.size (storage.room items value)]
      [.pushed items.size (storage.room items value)])
    (hrefusal : ∀ error, storage.room items value = .error error →
      mirror.traces storage.refusal other.refusal) :
    (storage.push items value).Mirrored mirror (SameItems values) (other.push others another) := by
  have hsize : others.size = items.size := hitems.length_eq.symm
  unfold Storage.push
  rw [hsize, hroom]
  apply (report_mirrored hcall).bind
  intro _ _ _
  cases hanswer : storage.room items value with
  | ok _ =>
    apply Run.Mirrored.pure
    unfold SameItems
    rw [Array.toList_push, Array.toList_push]
    exact List.rel_append hitems (.cons hvalue .nil)
  | error error => exact (Run.raise_mirrored _).after (hrefusal error hanswer)

theorem Mirrored.many (h : first.Mirrored mirror values second)
    (hallocate : storage.allocate.Mirrored mirror (SameItems values) other.allocate)
    (hpush : ∀ items others value another, SameItems values items others → values value another →
      (storage.push items value).Mirrored mirror (SameItems values) (other.push others another))
    (rounds : Nat) :
    (many rounds storage first).Mirrored mirror (List.Forall₂ values)
      (Parser.many rounds other second) :=
  (h.foldMany hallocate hpush rounds).refine fun _ _ => finish_mirrored

theorem Mirrored.many1 (h : first.Mirrored mirror values second)
    (hallocate : storage.allocate.Mirrored mirror (SameItems values) other.allocate)
    (hpush : ∀ items others value another, SameItems values items others → values value another →
      (storage.push items value).Mirrored mirror (SameItems values) (other.push others another))
    (rounds : Nat) :
    (many1 rounds storage first).Mirrored mirror (List.Forall₂ values)
      (Parser.many1 rounds other second) :=
  (h.foldMany1 hallocate hpush rounds).refine fun _ _ => finish_mirrored

end

end Parser

end ByteGrammar
