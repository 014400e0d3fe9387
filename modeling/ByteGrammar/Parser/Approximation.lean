import ByteGrammar.Parser.Many
import ByteGrammar.Run.Approximation

namespace ByteGrammar.Parser

open ByteGrammar.Run

variable {ν α β γ : Type}

def Approximates (first second : Parser ν α) : Prop :=
  ∀ input, (first input).Approximates (second input)

theorem Approximates.refl (parser : Parser ν α) : Approximates parser parser :=
  fun input => Run.Approximates.refl (parser input)

-- Each combinator takes approximations of its parts to an approximation of the whole

theorem Approximates.andThen {first second : Parser ν α} {next other : α → Parser ν β}
    (hfirst : Approximates first second) (hnext : ∀ value, Approximates (next value) (other value)) :
    Approximates (first.andThen next) (second.andThen other) := by
  intro input
  apply (hfirst input).bind
  intro outcome
  cases outcome with
  | matched value tail => exact hnext value tail
  | noMatch => exact .refl _

theorem Approximates.orElse {first second other another : Parser ν α}
    (hfirst : Approximates first second) (hother : Approximates other another) :
    Approximates (first.orElse other) (second.orElse another) := by
  intro input
  apply (hfirst input).bind
  intro outcome
  cases outcome with
  | matched value tail => exact .refl _
  | noMatch => exact hother input

theorem Approximates.refine {first second : Parser ν α} (h : Approximates first second)
    (f : α → Run ν β) : Approximates (first.refine f) (second.refine f) :=
  fun input => (h input).bind fun _ => .refl _

theorem Approximates.map {first second : Parser ν α} (h : Approximates first second)
    (f : α → β) : Approximates (first.map f) (second.map f) := h.refine _

theorem Approximates.both {first second : Parser ν α} {other another : Parser ν β}
    (hfirst : Approximates first second) (hother : Approximates other another) :
    Approximates (first.both other) (second.both another) :=
  hfirst.andThen fun _ => hother.map _

theorem Approximates.sequence (parts : List γ) {first second : γ → Parser ν α}
    (h : ∀ part, Approximates (first part) (second part)) :
    Approximates (Parser.sequence (parts.map first)) (Parser.sequence (parts.map second)) := by
  induction parts with
  | nil => exact .refl _
  | cons part rest ih => exact (h part).andThen fun _ => ih.map _

theorem Approximates.choice (arms : List γ) {first second : γ → Parser ν α}
    (h : ∀ arm, Approximates (first arm) (second arm)) :
    Approximates (Parser.choice (arms.map first)) (Parser.choice (arms.map second)) := by
  induction arms with
  | nil => exact .refl _
  | cons arm rest ih => exact (h arm).orElse ih

theorem Approximates.optional {first second : Parser ν α} (h : Approximates first second) :
    Approximates first.optional second.optional :=
  fun input => (h input).bind fun _ => .refl _

theorem Approximates.notFollowedBy {first second : Parser ν α} (h : Approximates first second) :
    Approximates first.notFollowedBy second.notFollowedBy :=
  fun input => (h input).bind fun _ => .refl _

theorem Approximates.followedBy {first second : Parser ν α} (h : Approximates first second) :
    Approximates first.followedBy second.followedBy :=
  fun input => (h input).bind fun _ => .refl _

theorem Approximates.between {opening opening' : Parser ν α} {inner inner' : Parser ν β}
    {closing closing' : Parser ν γ} (hopening : Approximates opening opening')
    (hinner : Approximates inner inner') (hclosing : Approximates closing closing') :
    Approximates (opening.between inner closing) (opening'.between inner' closing') :=
  hopening.andThen fun _ => hinner.andThen fun _ => hclosing.map _

theorem Approximates.delay {first second : Parser ν α} (h : Approximates first second) :
    Approximates first.delay second.delay :=
  fun input => (Run.Approximates.refl _).bind fun _ => h input

theorem Approximates.foldRounds {first second : Parser ν α} (h : Approximates first second)
    (combine : β → α → Run ν β) {rounds more : Nat} (hrounds : rounds ≤ more)
    (iterations : Nat) (accumulator : β) (input : Bytes) :
    (Parser.foldRounds first combine rounds iterations [] accumulator input).Approximates
      (Parser.foldRounds second combine more iterations [] accumulator input) := by
  induction rounds generalizing more iterations accumulator input with
  | zero => exact .inl rfl
  | succ rounds ih =>
    obtain ⟨more, rfl⟩ : ∃ count, more = count + 1 := ⟨more - 1, by omega⟩
    rw [foldRounds_succ, foldRounds_succ]
    apply (h input).bind
    intro outcome
    cases outcome with
    | noMatch => exact .refl _
    | matched value tail =>
      exact (Run.Approximates.refl _).bind fun _ => ih (by omega) _ _ _

theorem Approximates.foldMany {first second : Parser ν α} (h : Approximates first second)
    (init : Run ν β) (combine : β → α → Run ν β) {rounds more : Nat} (hrounds : rounds ≤ more) :
    Approximates (Parser.foldMany rounds first init combine)
      (Parser.foldMany more second init combine) := by
  intro input
  apply (Run.Approximates.refl init).bind
  intro seed
  exact (h.foldRounds combine hrounds _ _ _).bind fun _ => .refl _

theorem Approximates.foldMany1 {first second : Parser ν α} (h : Approximates first second)
    (init : Run ν β) (combine : β → α → Run ν β) {rounds more : Nat} (hrounds : rounds ≤ more) :
    Approximates (Parser.foldMany1 rounds first init combine)
      (Parser.foldMany1 more second init combine) := by
  intro input
  apply (Run.Approximates.refl init).bind
  intro seed
  apply (h input).bind
  intro outcome
  cases outcome with
  | noMatch => exact .refl _
  | matched value tail =>
    apply (Run.Approximates.refl _).bind
    intro start
    exact (h.foldRounds combine hrounds _ _ _).bind fun _ => .refl _

theorem Approximates.many {first second : Parser ν α} (h : Approximates first second)
    (storage : Storage α) {rounds more : Nat} (hrounds : rounds ≤ more) :
    Approximates (Parser.many rounds storage first) (Parser.many more storage second) :=
  (h.foldMany _ _ hrounds).refine _

theorem Approximates.many1 {first second : Parser ν α} (h : Approximates first second)
    (storage : Storage α) {rounds more : Nat} (hrounds : rounds ≤ more) :
    Approximates (Parser.many1 rounds storage first) (Parser.many1 more storage second) :=
  (h.foldMany1 _ _ hrounds).refine _

end ByteGrammar.Parser
