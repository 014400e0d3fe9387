import ByteGrammar.Proofs.Parser.Choice
import ByteGrammar.Proofs.Trace.Nesting

namespace ByteGrammar

-- A primitive leaves a part of its input
def Primitive.LeavesSuffix (given : Primitive) : Prop :=
  ∀ input value tail, given.parse input = .ok (.matched value tail) → tail <:+ input

namespace Grammar

variable {ρ : Type} {rules : ρ → Grammar ρ}

def EntersSuffixes (whole : Bytes) (trace : List (Event (Note ρ))) : Prop :=
  ∀ part place, .note (.entered part place) ∈ trace → place <:+ whole

theorem EntersSuffixes.append {whole : Bytes} {first second : List (Event (Note ρ))}
    (hfirst : EntersSuffixes whole first) (hsecond : EntersSuffixes whole second) :
    EntersSuffixes whole (first ++ second) := by
  intro part place hentry
  rcases List.mem_append.mp hentry with hentry | hentry
  · exact hfirst part place hentry
  · exact hsecond part place hentry

theorem EntersSuffixes.of_no_entry {whole : Bytes} {trace : List (Event (Note ρ))}
    (h : ∀ event ∈ trace, event.entered? = none) : EntersSuffixes whole trace := by
  intro part place hentry
  cases h _ hentry

theorem EntersSuffixes.enter {whole input : Bytes} {grammar : Grammar ρ}
    {inside : List (Event (Note ρ))} (hinput : input <:+ whole)
    (hinside : EntersSuffixes whole inside) :
    EntersSuffixes whole (.note (.entered grammar input) :: inside) := by
  intro part place hentry
  rcases List.mem_cons.mp hentry with hhere | hentry
  · cases hhere
    exact hinput
  · exact hinside part place hentry

def suffixLaw (rules : ρ → Grammar ρ) (whole : Bytes) : TraceLaw rules :=
  .always (· <:+ whole) (EntersSuffixes whole) (fun hinput htail => htail.trans hinput)
    (.of_no_entry (by simp)) .append
    (fun _ hentry => .of_no_entry (List.forall_mem_singleton.mpr hentry))
    (fun hraise => .of_no_entry fun _ => hraise.entered?_eq_none)
    (fun hinput _ => .enter hinput)

-- The alternatives of a choice
def arms? : Grammar ρ → Option (List (Grammar ρ))
  | choice arms => some arms
  | orElse first second => some [first, second]
  | _ => none

theorem layer_of_arms? {grammar : Grammar ρ} {arms : List (Grammar ρ)}
    (h : grammar.arms? = some arms) (rounds : Nat) (part : Grammar ρ → Parser (Note ρ) Value) :
    layer rules rounds part grammar = Parser.choice (arms.map part) := by
  cases grammar with
  | choice _ =>
    cases h
    rfl
  | orElse first second =>
    cases h
    show (part first).orElse (part second) = (part first).orElse ((part second).orElse .never)
    rw [Parser.orElse_never]
  | _ => cases h

-- After its entry, the parse of a choice consists of whole parses of its first arms, each on
-- the very input of the choice
theorem Parses.arms {grammar : Grammar ρ} {arms : List (Grammar ρ)} {place : Bytes}
    {inside : List (Event (Note ρ))} {result : Except Error (Outcome Value)}
    (hparse : Parses rules grammar place (.note (.entered grammar place) :: inside) result)
    (harms : grammar.arms? = some arms) :
    ∃ tried untried runs, arms = tried ++ untried ∧ inside = runs.flatten ∧
      List.Forall₂ (fun arm run => ∃ outcome, Parses rules arm place run outcome) tried runs := by
  obtain ⟨depth, hparse⟩ := hparse
  cases depth with
  | zero => cases hparse
  | succ depth =>
    rw [parser_succ, layer_of_arms? harms] at hparse
    obtain ⟨later, hchoice, htrace⟩ := Run.after_eq_ended hparse
    obtain rfl := (List.cons.inj htrace).2
    obtain ⟨tried, untried, runs, rfl, rfl, hruns⟩ := Parser.choice_trace hchoice
    refine ⟨tried, untried, runs, rfl, rfl, hruns.imp ?_⟩
    rintro arm run ⟨outcome, hrun⟩
    exact ⟨outcome, depth, hrun⟩

-- A match leaves a suffix of the input. All that is entered on the way is entered on such a
-- suffix, whether or not it matches and whatever becomes of what it matches. A choice goes
-- through its arms on its own input.
theorem entered_on_suffix {depth : Nat} {grammar : Grammar ρ} {input : Bytes}
    {trace : List (Event (Note ρ))} {result : Except Error (Outcome Value)}
    (hprimitives : ∀ given, Reaches rules grammar (.primitive given) → given.LeavesSuffix)
    (h : parser rules depth grammar input = .ended trace result) :
    (∀ value tail, result = .ok (.matched value tail) → tail <:+ input) ∧
    (∀ part place, .note (.entered part place) ∈ trace → place <:+ input) ∧
    ∀ earlier part place later arms,
      trace = earlier ++ .note (.entered part place) :: later → part.arms? = some arms →
      ∃ tried untried runs after outcome,
        arms = tried ++ untried ∧ later = runs.flatten ++ after ∧
        Parses rules part place (.note (.entered part place) :: runs.flatten) outcome ∧
        List.Forall₂ (fun arm run => ∃ outcome, Parses rules arm place run outcome) tried runs := by
  have hobeys := parser_obeys (suffixLaw rules input) depth grammar
    (fun given hgiven _ _ _ hplace hparse =>
      (hprimitives given hgiven _ _ _ hparse).trans hplace) input List.suffix_rfl
  rw [h] at hobeys
  refine ⟨?_, ?_, ?_⟩
  · rintro value tail rfl
    exact hobeys.2
  · exact hobeys.holds fun _ => rfl
  · intro earlier part place later arms hsplit harms
    obtain ⟨inside, after, outcome, rfl, hparse⟩ := (parser_nested h).parses_of_entry hsplit
    obtain ⟨tried, untried, runs, rfl, rfl, hruns⟩ := hparse.arms harms
    exact ⟨tried, untried, runs, after, outcome, rfl, rfl, hparse, hruns⟩

-- Parentheses around one byte, or any byte
def bracketing : Unit → Grammar Unit := fun _ =>
  .choice [.between (.byte 40) (.rule ()) (.byte 41), .primitive (.take 1)]

theorem take_leavesSuffix (count : Nat) : (Primitive.take count).LeavesSuffix := by
  intro input value tail h
  simp only [Primitive.take, Except.ok.injEq] at h
  split at h
  · cases h
    exact List.drop_suffix _ _
  · cases h

-- The closing parenthesis is missing, so the first arm is abandoned after it has read all
theorem entered_on_suffix_unclosed :
    ∃ trace value, parser bracketing 8 (.rule ()) [40, 97] =
        .ended trace (.ok (.matched value [97])) ∧
      ([97] : Bytes) <:+ [40, 97] ∧
      (∀ part place, .note (.entered part place) ∈ trace → place <:+ [40, 97]) ∧
      .note (.entered (.primitive (.take 1)) [97]) ∈ trace := by
  have h : parser bracketing 8 (.rule ()) [40, 97] =
    .ended _ (.ok (.matched (.slice [40]) [97])) := rfl
  have hprimitives : ∀ given, Reaches bracketing (.rule ()) (.primitive given) →
      given.LeavesSuffix := by
    intro given hgiven
    have hmem := hgiven.mem_of_closed [.rule (), bracketing (),
      .between (.byte 40) (.rule ()) (.byte 41), .byte 40, .byte 41, .primitive (.take 1)]
      (by simp [bracketing, parts]) (by simp)
    obtain rfl : given = .take 1 := by simpa [bracketing] using hmem
    exact take_leavesSuffix 1
  have hresult := entered_on_suffix hprimitives h
  exact ⟨_, _, h, hresult.1 _ _ rfl, hresult.2.1, by simp⟩

end Grammar

end ByteGrammar
