import ByteGrammar.Parser.Approximation
import ByteGrammar.Proofs.Mirror.Parser
import ByteGrammar.Proofs.Run.Gives

namespace ByteGrammar

variable {ν μ α β γ δ : Type}

-- Nothing is asked of the traces, so that parsers are compared by their results
def Mirror.silent : Mirror ν μ where
  more := []
  excuse _ := False
  traces _ _ := True
  traces_nil := trivial
  traces_append _ _ := trivial
  traces_moved _ := trivial

theorem Run.mirrored_silent_iff {values : α → β → Prop} {first : Run ν α} {second : Run μ β} :
    first.Mirrored .silent values second ↔ ∀ result, first.Gives result →
      ∃ answer, second.Gives answer ∧ SameAnswer values result answer := by
  constructor
  · rintro h result ⟨trace, hfirst⟩
    rcases h trace result hfirst with ⟨_, -, hexcuse⟩ | ⟨other, answer, hsecond, -, hanswer⟩
    · exact False.elim hexcuse
    · exact ⟨answer, ⟨other, hsecond⟩, hanswer⟩
  · intro h trace result hfirst
    obtain ⟨answer, ⟨other, hsecond⟩, hanswer⟩ := h result ⟨trace, hfirst⟩
    exact .inr ⟨other, answer, hsecond, trivial, hanswer⟩

theorem Run.Mirrored.silent_refl {values : α → α → Prop} (hvalues : ∀ value, values value value)
    (run : Run ν α) : run.Mirrored .silent values run :=
  Run.mirrored_silent_iff.mpr fun result h => ⟨result, h, .of_eq hvalues result⟩

-- Two runs that end alike, with related values, or do not end
def Run.Agree (values : α → β → Prop) (first : Run ν α) (second : Run μ β) : Prop :=
  first.Mirrored .silent values second ∧ second.Mirrored .silent (flip values) first

theorem Run.Agree.ended {values : α → β → Prop} {trace : List (Event ν)} {other : List (Event μ)}
    {result : Except Error α} {answer : Except Error β} (h : SameAnswer values result answer) :
    (Run.ended trace result).Agree values (Run.ended other answer) :=
  ⟨.ended trivial h, .ended trivial h.flip⟩

namespace Parser

-- What the first parser gives, so does the second
def Below (first : Parser ν α) (second : Parser μ α) : Prop :=
  ∀ input result, (first input).Gives result → (second input).Gives result

theorem Below.refl (parser : Parser ν α) : parser.Below parser := fun _ _ => id

theorem Below.trans {ξ : Type} {first : Parser ν α} {second : Parser μ α} {third : Parser ξ α}
    (hfirst : first.Below second) (hsecond : second.Below third) : first.Below third :=
  fun input result h => hsecond input result (hfirst input result h)

theorem Below.unfinished (parser : Parser μ α) :
    Below (fun _ => .unfinished : Parser ν α) parser :=
  fun _ result h => absurd h (Run.not_gives_unfinished result)

theorem Approximates.below {first second : Parser ν α} (h : first.Approximates second) :
    first.Below second := by
  intro input result hfirst
  rcases h input with hunfinished | hsame
  · rw [hunfinished] at hfirst
    exact absurd hfirst (Run.not_gives_unfinished result)
  · exact hsame ▸ hfirst

theorem below_iff_mirrored {first : Parser ν α} {second : Parser μ α} :
    first.Below second ↔ first.Mirrored .silent Eq second := by
  have hinput (input : Bytes) : input ++ (Mirror.silent : Mirror ν μ).more = input :=
    List.append_nil input
  constructor
  · intro h input
    rw [Run.mirrored_silent_iff, hinput]
    intro result hfirst
    exact ⟨result, h input result hfirst, .of_eq (.of_eq fun _ => rfl) result⟩
  · intro h input result hfirst
    obtain ⟨answer, hsecond, hanswer⟩ := Run.mirrored_silent_iff.mp (h input) result hfirst
    rw [hinput] at hsecond
    exact (hanswer.imp fun _ _ => Outcome.Moved.eq).eq ▸ hsecond

theorem Below.delay {first : Parser ν α} {second : Parser μ α} (h : first.Below second) :
    first.delay.Below second.delay :=
  below_iff_mirrored.mpr (below_iff_mirrored.mp h).delay

-- Two parsers that end alike on every input, with related values
def Agree (values : α → β → Prop) (first : Parser ν α) (second : Parser μ β) : Prop :=
  first.Mirrored .silent values second ∧ second.Mirrored .silent (flip values) first

theorem flip_eq : flip (Eq : α → α → Prop) = Eq := by
  funext value other
  exact propext eq_comm

theorem agree_iff_below {first : Parser ν α} {second : Parser μ α} :
    first.Agree Eq second ↔ first.Below second ∧ second.Below first := by
  rw [Agree, flip_eq, below_iff_mirrored, below_iff_mirrored]

theorem Agree.refl (parser : Parser ν α) : parser.Agree Eq parser :=
  agree_iff_below.mpr ⟨.refl parser, .refl parser⟩

theorem Agree.of_eq {first second : Parser ν α} (h : first = second) : first.Agree Eq second :=
  h ▸ .refl first

theorem Agree.trans {ξ : Type} {first : Parser ν α} {second : Parser μ α} {third : Parser ξ α}
    (hfirst : first.Agree Eq second) (hsecond : second.Agree Eq third) : first.Agree Eq third := by
  rw [agree_iff_below] at hfirst hsecond ⊢
  exact ⟨hfirst.1.trans hsecond.1, hsecond.2.trans hfirst.2⟩

variable {values : α → β → Prop} {results : γ → δ → Prop} {first : Parser ν α} {second : Parser μ β}

theorem Agree.refine {f : α → Run ν γ} {g : β → Run μ δ} (h : first.Agree values second)
    (hf : ∀ value other, values value other → (f value).Agree results (g other)) :
    (first.refine f).Agree results (second.refine g) :=
  ⟨h.1.refine fun value other hvalue => (hf value other hvalue).1,
    h.2.refine fun other value hvalue => (hf value other hvalue).2⟩

theorem Agree.map {f : α → γ} {g : β → δ} (h : first.Agree values second)
    (hf : ∀ value other, values value other → results (f value) (g other)) :
    (first.map f).Agree results (second.map g) :=
  ⟨h.1.map hf, h.2.map fun other value => hf value other⟩

theorem Agree.orElse {arm : Parser ν α} {other : Parser μ β} (hfirst : first.Agree values second)
    (harm : arm.Agree values other) : (first.orElse arm).Agree values (second.orElse other) :=
  ⟨hfirst.1.orElse harm.1, hfirst.2.orElse harm.2⟩

theorem Agree.notFollowedBy (h : first.Agree values second) :
    first.notFollowedBy.Agree Eq second.notFollowedBy := by
  rw [Agree, flip_eq]
  exact ⟨h.1.notFollowedBy, h.2.notFollowedBy⟩

theorem Agree.satisfyRun {test : UInt8 → Run ν Bool} {other : UInt8 → Run μ Bool}
    (htest : ∀ byte, (test byte).Agree Eq (other byte)) :
    (satisfyRun test).Agree Eq (Parser.satisfyRun other) := by
  simp only [Run.Agree, flip_eq] at htest
  rw [Agree, flip_eq]
  exact ⟨fun _ => satisfyRun_mirrored (fun byte => (htest byte).1) (.inl rfl),
    fun _ => satisfyRun_mirrored (fun byte => (htest byte).2) (.inl rfl)⟩

theorem Agree.delay (h : first.Agree values second) : first.delay.Agree values second.delay :=
  ⟨h.1.delay, h.2.delay⟩

section

variable {init : Run ν γ} {combine : γ → α → Run ν γ} {otherInit : Run μ δ}
  {otherCombine : δ → β → Run μ δ}

theorem Agree.foldMany (h : first.Agree values second) (hinit : init.Agree results otherInit)
    (hcombine : ∀ accumulator other value another, results accumulator other →
      values value another → (combine accumulator value).Agree results (otherCombine other another))
    (rounds : Nat) :
    (foldMany rounds first init combine).Agree results
      (Parser.foldMany rounds second otherInit otherCombine) :=
  ⟨h.1.foldMany hinit.1
      (fun _ _ _ _ hstart hvalue => (hcombine _ _ _ _ hstart hvalue).1) rounds,
    h.2.foldMany hinit.2
      (fun _ _ _ _ hstart hvalue => (hcombine _ _ _ _ hstart hvalue).2) rounds⟩

theorem Agree.foldMany1 (h : first.Agree values second) (hinit : init.Agree results otherInit)
    (hcombine : ∀ accumulator other value another, results accumulator other →
      values value another → (combine accumulator value).Agree results (otherCombine other another))
    (rounds : Nat) :
    (foldMany1 rounds first init combine).Agree results
      (Parser.foldMany1 rounds second otherInit otherCombine) :=
  ⟨h.1.foldMany1 hinit.1
      (fun _ _ _ _ hstart hvalue => (hcombine _ _ _ _ hstart hvalue).1) rounds,
    h.2.foldMany1 hinit.2
      (fun _ _ _ _ hstart hvalue => (hcombine _ _ _ _ hstart hvalue).2) rounds⟩

end

end Parser

end ByteGrammar
