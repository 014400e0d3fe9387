import ByteGrammar.ByteClass
import ByteGrammar.Proofs.Grammar.Unrolled
import ByteGrammar.Proofs.Trace.Nesting
import Mathlib.Data.List.ProdSigma

namespace ByteGrammar

variable {ρ : Type}

namespace Grammar

-- What a lazy reference builds each time it is run
def built? (rules : ρ → Grammar ρ) : Grammar ρ → Option (Grammar ρ)
  | delay body => some body
  | rule name => some (rules name)
  | _ => none

-- What is reached by building what a reference builds, if that is a reference as well then what
-- this one builds, and so on for some time
inductive LeadsTo (rules : ρ → Grammar ρ) : Grammar ρ → Grammar ρ → Prop
  | refl (grammar : Grammar ρ) : LeadsTo rules grammar grammar
  | build (reference body target : Grammar ρ) (hbuilt : reference.built? rules = some body)
      (hlater : LeadsTo rules body target) : LeadsTo rules reference target

-- The same grammar, where some references have been replaced by what they build. In what has taken
-- their place references may have been replaced again, so that they are unfolded to any level.
inductive Unfolds (rules : ρ → Grammar ρ) : Grammar ρ → Grammar ρ → Prop
  | of_alike (grammar target other : Grammar ρ) (hleads : LeadsTo rules grammar target)
      (halike : Alike (Unfolds rules) Eq Eq target other) : Unfolds rules grammar other

-- A trace, and the same without the entries of unfolded references and what they have reported.
-- Where a reference was unfolded, the second trace enters at once what the first builds there.
inductive UnfoldedTrace (rules : ρ → Grammar ρ) :
    List (Event (Note ρ)) → List (Event (Note ρ)) → Prop
  | nil : UnfoldedTrace rules [] []
  | same (event : Event (Note ρ)) (trace later : List (Event (Note ρ)))
      (hentry : event.entered? = none) (hrest : UnfoldedTrace rules trace later) :
      UnfoldedTrace rules (event :: trace) (event :: later)
  | kept (grammar other : Grammar ρ) (place : Bytes) (trace later : List (Event (Note ρ)))
      (halike : Alike (Unfolds rules) Eq Eq grammar other)
      (hrest : UnfoldedTrace rules trace later) :
      UnfoldedTrace rules (.note (.entered grammar place) :: trace)
        (.note (.entered other place) :: later)
  | unfolded (reference body other : Grammar ρ) (place : Bytes)
      (trace later : List (Event (Note ρ))) (hbuilt : reference.built? rules = some body)
      (hrest : UnfoldedTrace rules (.note (.entered body place) :: trace)
        (.note (.entered other place) :: later)) :
      UnfoldedTrace rules
        (.note (.entered reference place) :: .building place :: .note (.entered body place) :: trace)
        (.note (.entered other place) :: later)

variable {rules others : ρ → Grammar ρ} {grammar other reference body : Grammar ρ} {depth : Nat}
  {input place : Bytes}

theorem Unfolds.of_parts (halike : Alike (Unfolds rules) Eq Eq grammar other) :
    Unfolds rules grammar other := .of_alike _ _ _ (.refl grammar) halike

theorem Unfolds.of_built (hbuilt : reference.built? rules = some body)
    (h : Unfolds rules body other) : Unfolds rules reference other := by
  obtain ⟨_, target, _, hleads, halike⟩ := h
  exact .of_alike _ target _ (.build _ _ _ hbuilt hleads) halike

theorem UnfoldedTrace.append {first second later final : List (Event (Note ρ))}
    (hfirst : UnfoldedTrace rules first second) (hlater : UnfoldedTrace rules later final) :
    UnfoldedTrace rules (first ++ later) (second ++ final) := by
  induction hfirst with
  | nil => exact hlater
  | same event trace other hentry _ ih => exact .same event _ _ hentry ih
  | kept grammar other place trace rest halike _ ih => exact .kept _ _ place _ _ halike ih
  | unfolded reference body other place trace rest hbuilt _ ih =>
    exact .unfolded _ _ _ place _ _ hbuilt ih

theorem UnfoldedTrace.singleton {event : Event (Note ρ)} (hentry : event.entered? = none) :
    UnfoldedTrace rules [event] [event] := .same event [] [] hentry .nil

def unfolding (rules : ρ → Grammar ρ) : Mirror (Note ρ) (Note ρ) where
  more := []
  excuse _ := False
  traces := UnfoldedTrace rules
  traces_nil := .nil
  traces_append := .append
  traces_moved h := by
    cases h <;> try rw [List.append_nil]
    all_goals exact .singleton rfl

def unfoldingLaws (rules : ρ → Grammar ρ) (whole : Grammar ρ) : LayerLaws rules whole :=
  .self (unfolding rules)
    (fun _ hmoved => by cases hmoved <;> exact .singleton rfl)
    (fun _ => .singleton rfl)
    (fun _ _ => .singleton rfl)
    (fun _ => .singleton rfl)
    (fun given input _ _ =>
      consulting_mirrored_self rfl (fun _ => rfl) (fun _ => UnfoldedTrace.singleton rfl) given input)

-- A reference reports that it builds its parser, and then it is what it builds

theorem parser_of_built (hbuilt : reference.built? rules = some body) :
    parser rules (depth + 1) reference input =
      (parser rules depth body input).after
        [.note (.entered reference input), .building input] := by
  rw [parser_succ]
  cases reference with
  | delay inner =>
    cases hbuilt
    exact Run.after_after _ _ _
  | rule name =>
    cases hbuilt
    exact Run.after_after _ _ _
  | _ => cases hbuilt

theorem exists_entry {trace : List (Event (Note ρ))} {result : Except Error (Outcome Value)}
    (h : parser rules depth grammar input = .ended trace result) :
    ∃ inside, trace = .note (.entered grammar input) :: inside := by
  cases depth with
  | zero => cases h
  | succ depth =>
    rw [parser_succ] at h
    obtain ⟨inside, -, htrace⟩ := Run.after_eq_ended h
    exact ⟨inside, htrace⟩

theorem below_parser_of_built {parser' : Parser (Note ρ) Value}
    (hbuilt : reference.built? rules = some body) (h : parser'.Below (parser rules depth body)) :
    parser'.Below (parser rules (depth + 1) reference) := by
  intro input result hgives
  rw [parser_of_built hbuilt, Run.after_gives_iff]
  exact h input result hgives

-- The unfolded grammar does the same within the same depth, since it has fewer references to
-- enter. The induction is on the depth, as rules have bodies of any size.
theorem parser_unfolded (hrules : ∀ name, Unfolds rules (rules name) (others name)) (depth : Nat)
    (h : Unfolds rules grammar other) :
    (parser rules depth grammar).Mirrored (unfolding rules) Eq (parser others depth other) := by
  induction depth generalizing grammar other with
  | zero => exact fun _ _ _ hparse => nomatch hparse
  | succ depth ih =>
    intro input
    have hsame : input ++ (unfolding rules).more = input := List.append_nil input
    obtain ⟨_, target, _, hleads, halike⟩ := h
    cases hleads with
    | refl =>
      have henter : UnfoldedTrace rules [.note (.entered grammar input)]
          [.note (.entered other (input ++ (unfolding rules).more))] := by
        rw [hsame]
        exact .kept _ _ input [] [] halike .nil
      apply (Run.report_mirrored henter).bind
      intro _ _ _
      exact layer_mirrored (unfoldingLaws rules grammar) (.refl grammar) halike
        (fun name _ => hrules name) (fun _ _ _ _ hpart => ih hpart) depth (.inl rfl)
    | build _ body _ hbuilt hlater =>
      intro trace result hparse
      rw [parser_of_built hbuilt] at hparse
      obtain ⟨inside, hinside, rfl⟩ := Run.after_eq_ended hparse
      rcases ih (.of_alike _ _ _ hlater halike) input inside result hinside with
        ⟨_, -, hexcuse⟩ | ⟨later, answer, hother, htraces, hanswer⟩
      · exact False.elim hexcuse
      rw [hsame] at hother ⊢
      obtain ⟨_, rfl⟩ := exists_entry hinside
      obtain ⟨_, rfl⟩ := exists_entry hother
      exact .inr ⟨_, answer, parser_of_le others depth.le_succ other input hother,
        .unfolded _ _ _ input _ _ hbuilt htraces, hanswer⟩

theorem Parses.unfolded {trace : List (Event (Note ρ))} {result : Except Error (Outcome Value)}
    (hrules : ∀ name, Unfolds rules (rules name) (others name)) (h : Unfolds rules grammar other)
    (hparse : Parses rules grammar input trace result) :
    ∃ later, Parses others other input later result ∧ UnfoldedTrace rules trace later := by
  obtain ⟨depth, hparse⟩ := hparse
  rcases parser_unfolded hrules depth h input trace result hparse with
    ⟨_, -, hexcuse⟩ | ⟨later, answer, hother, htraces, hanswer⟩
  · exact False.elim hexcuse
  · obtain rfl : result = answer := (hanswer.imp fun _ _ => Outcome.Moved.eq).eq
    have hinput : parser others depth other (input ++ []) = .ended later result := hother
    rw [List.append_nil] at hinput
    exact ⟨later, ⟨depth, hinput⟩, htraces⟩

-- The other way round more depth is needed, for the references that lead to what was unfolded

theorem exists_below_of_leadsTo {target : Grammar ρ} {parser' : Parser (Note ρ) Value}
    (hleads : LeadsTo rules grammar target) (h : ∃ more, parser'.Below (parser rules more target)) :
    ∃ more, parser'.Below (parser rules more grammar) := by
  induction hleads with
  | refl => exact h
  | build reference body target hbuilt _ ih =>
    obtain ⟨more, hmore⟩ := ih h
    exact ⟨more + 1, below_parser_of_built hbuilt hmore⟩

-- One depth is enough for each part and each part that it stands for
theorem exists_depth_of_pairs {related : Grammar ρ → Grammar ρ → Prop}
    {first : Grammar ρ → Parser (Note ρ) Value}
    (h : ∀ part another, related part another →
      ∃ more, (first part).Below (parser rules more another))
    (depth : Nat) (parts targets : List (Grammar ρ)) :
    ∃ more, depth ≤ more ∧ ∀ part another, part ∈ parts → another ∈ targets →
      related part another → (first part).Below (parser rules more another) := by
  have hmono (pair : Grammar ρ × Grammar ρ) (less more : Nat) (hless : less ≤ more)
      (hpair : related pair.1 pair.2 → (first pair.1).Below (parser rules less pair.2))
      (hrelated : related pair.1 pair.2) : (first pair.1).Below (parser rules more pair.2) :=
    below_parser_of_le hless (hpair hrelated)
  have hsome (pair : Grammar ρ × Grammar ρ) (_ : pair ∈ parts ×ˢ targets) :
      ∃ more, related pair.1 pair.2 → (first pair.1).Below (parser rules more pair.2) := by
    by_cases hrelated : related pair.1 pair.2
    · obtain ⟨more, hmore⟩ := h pair.1 pair.2 hrelated
      exact ⟨more, fun _ => hmore⟩
    · exact ⟨0, fun hpair => absurd hpair hrelated⟩
  obtain ⟨more, hdepth, hpairs⟩ := exists_common_depth hmono depth hsome
  refine ⟨more, hdepth, fun part another hpart hanother => ?_⟩
  exact hpairs (part, another) (List.mem_product.mpr ⟨hpart, hanother⟩)

theorem unfolded_below (hrules : ∀ name, Unfolds rules (rules name) (others name)) (depth : Nat)
    (h : Unfolds rules grammar other) :
    ∃ more, (parser others depth other).Below (parser rules more grammar) := by
  induction depth generalizing grammar other with
  | zero => exact ⟨0, .unfinished _⟩
  | succ depth ih =>
    obtain ⟨_, target, _, hleads, halike⟩ := h
    apply exists_below_of_leadsTo hleads
    have hparts (part another : Grammar ρ) (hunfolds : flip (Unfolds rules) part another) :
        ∃ more, (parser others depth part).Below (parser rules more another) := ih hunfolds
    obtain ⟨more, hdepth, hmore⟩ :=
      exists_depth_of_pairs hparts depth (other.parts others) (target.parts rules)
    have hflip := halike.flip
    rw [Parser.flip_eq, Parser.flip_eq] at hflip
    have hlayer : (layer others depth (parser others depth) other).Below
        (layer rules more (parser rules more) target) :=
      layer_below_of_alike hflip (fun name _ => hrules name) hmore hdepth
    have hother : (parser others (depth + 1) other).Below
        (layer rules more (parser rules more) target) :=
      (Parser.agree_iff_below.mp (parser_agree_layer other)).1.trans hlayer
    exact ⟨more + 1, hother.trans (Parser.agree_iff_below.mp (parser_agree_layer target)).2⟩

-- What a reference builds is parsed right after it has reported that it builds it
theorem Parses.of_built {inside : List (Event (Note ρ))} {result : Except Error (Outcome Value)}
    (hbuilt : reference.built? rules = some body)
    (h : Parses rules reference place (.note (.entered reference place) :: inside) result) :
    ∃ rest, inside = .building place :: rest ∧ Parses rules body place rest result := by
  obtain ⟨depth, h⟩ := h
  cases depth with
  | zero => cases h
  | succ depth =>
    rw [parser_of_built hbuilt] at h
    obtain ⟨rest, hrest, htrace⟩ := Run.after_eq_ended h
    exact ⟨rest, (List.cons.inj htrace).2, depth, hrest⟩

-- It makes no difference whether a reference is there or what it builds. Where references are
-- unfolded, in a grammar and in its rules and to any level, a parse ends if and only if it has
-- ended before, with the same result. What is missing in its trace is what the unfolded references
-- have reported. Each of the others reports once that it builds its parser, and where, before this
-- parser does anything.
theorem unfolding_keeps_parses (hrules : ∀ name, Unfolds rules (rules name) (others name))
    (h : Unfolds rules grammar other) (input : Bytes) :
    (∀ result, (∃ trace, Parses rules grammar input trace result) ↔
      ∃ later, Parses others other input later result) ∧
    (∀ trace result later answer, Parses rules grammar input trace result →
      Parses others other input later answer → UnfoldedTrace rules trace later) ∧
    ∀ later answer earlier reference place rest body, Parses others other input later answer →
      later = earlier ++ .note (.entered reference place) :: rest →
      reference.built? others = some body →
      ∃ inside after result, rest = .building place :: (inside ++ after) ∧
        Parses others body place inside result := by
  refine ⟨fun result => ⟨?_, ?_⟩, ?_, ?_⟩
  · rintro ⟨trace, hparse⟩
    obtain ⟨later, hlater, -⟩ := hparse.unfolded hrules h
    exact ⟨later, hlater⟩
  · rintro ⟨later, depth, hlater⟩
    obtain ⟨more, hbelow⟩ := unfolded_below hrules depth h
    obtain ⟨trace, hparse⟩ := hbelow input result ⟨later, hlater⟩
    exact ⟨trace, more, hparse⟩
  · intro trace result later answer hparse hlater
    obtain ⟨other, hother, htraces⟩ := hparse.unfolded hrules h
    obtain ⟨rfl, -⟩ := hother.unique hlater
    exact htraces
  · rintro later answer earlier reference place rest body ⟨depth, hlater⟩ hsplit hbuilt
    obtain ⟨inside, after, result, rfl, hparse⟩ := (parser_nested hlater).parses_of_entry hsplit
    obtain ⟨rest, rfl, hbody⟩ := hparse.of_built hbuilt
    exact ⟨rest, after, result, rfl, hbody⟩

-- Under `true` digits and parentheses around any number of these, which are under `false`
def nested : Bool → Grammar Bool
  | true => .choice [.between (.byte 40) (.rule false) (.byte 41), .satisfy ByteClass.isDigit]
  | false => .many .heap (.rule true)

-- The same with only one rule that refers to itself
def unnested : Bool → Grammar Bool
  | true =>
    .choice [.between (.byte 40) (.many .heap (.rule true)) (.byte 41), .satisfy ByteClass.isDigit]
  | false => .many .heap (.rule true)

theorem nested_unfolds (name : Bool) : Unfolds nested (nested name) (unnested name) := by
  have hmany : Unfolds nested (.many .heap (.rule true)) (.many .heap (.rule true)) :=
    .of_parts (.many _ _ _ _ rfl (.of_parts (.rule true)))
  cases name with
  | false => exact hmany
  | true =>
    have hbetween : Unfolds nested (.between (.byte 40) (.rule false) (.byte 41))
        (.between (.byte 40) (.many .heap (.rule true)) (.byte 41)) :=
      .of_parts (.between _ _ _ _ _ _ (.of_parts (.byte 40)) (.of_built rfl hmany)
        (.of_parts (.byte 41)))
    exact .of_parts (.choice _ _ (.cons hbetween (.cons (.of_parts (.satisfy _)) .nil)))

-- "(1)", where the first two references are unfolded, one of them in what the other builds
theorem unfolding_keeps_parses_nested :
    ∃ trace value later, Parses nested (.rule true) [40, 49, 41] trace (.ok (.matched value [])) ∧
      Parses unnested (unnested true) [40, 49, 41] later (.ok (.matched value [])) ∧
      UnfoldedTrace nested trace later := by
  have h : parser nested 12 (.rule true) [40, 49, 41] = .ended _ (.ok (.matched _ [])) := rfl
  have hunfolds : Unfolds nested (.rule true) (unnested true) := .of_built rfl (nested_unfolds true)
  obtain ⟨hresults, htraces, -⟩ := unfolding_keeps_parses nested_unfolds hunfolds [40, 49, 41]
  obtain ⟨later, hlater⟩ := (hresults _).mp ⟨_, 12, h⟩
  exact ⟨_, _, later, ⟨12, h⟩, hlater, htraces _ _ _ _ ⟨12, h⟩ hlater⟩

end Grammar

end ByteGrammar
