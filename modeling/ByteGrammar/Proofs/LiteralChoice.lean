import ByteGrammar.Proofs.Parser.Matches

namespace ByteGrammar.Parser

variable {ν : Type} {literals : List Bytes} {input : Bytes}

-- An ordered choice of literals
def oneOf (literals : List Bytes) : Parser ν Bytes := choice (literals.map literal)

-- The first of the literals that an input starts with
def firstLiteral? (literals : List Bytes) (input : Bytes) : Option Bytes :=
  literals.find? fun expected => expected <+: input

-- What is read if that literal is taken off the input
def literalOutcome (input : Bytes) : Option Bytes → Outcome Bytes
  | some expected => .matched expected (input.drop expected.length)
  | none => .noMatch

-- The first literal stands before any other place of the second one
def Precedes (first second : Bytes) (literals : List Bytes) : Prop :=
  ∃ before after, literals = before ++ first :: after ∧ second ∉ before

theorem literal_gives_iff {expected : Bytes} {result : Except Error (Outcome Bytes)} :
    ((literal expected : Parser ν Bytes) input).Gives result ↔
      result = .ok (if expected <+: input then .matched expected (input.drop expected.length)
        else .noMatch) := by
  unfold literal
  by_cases hfits : expected <+: input
  · simp [hfits, eq_comm]
  · by_cases hshort : input <+: expected <;> simp [hfits, hshort, Run.report, eq_comm]

-- The choice reads the first literal that fits, by induction on the list
theorem oneOf_gives_iff {result : Except Error (Outcome Bytes)} :
    ((oneOf literals : Parser ν Bytes) input).Gives result ↔
      result = .ok (literalOutcome input (firstLiteral? literals input)) := by
  induction literals with
  | nil => simp [oneOf, choice, never, firstLiteral?, literalOutcome, eq_comm]
  | cons expected rest ih =>
    have hcons : (oneOf (expected :: rest) : Parser ν Bytes) =
      (literal expected).orElse (oneOf rest) := rfl
    rw [hcons, orElse_gives_iff, literal_gives_iff, literal_gives_iff, ih]
    by_cases hfits : expected <+: input
    · have hfirst : firstLiteral? (expected :: rest) input = some expected := by
        simp [firstLiteral?, hfits]
      simp only [hfirst, hfits, if_true, literalOutcome, Except.ok.injEq, reduceCtorEq, false_and,
        or_false]
      exact and_iff_left_of_imp fun h => h ▸ by simp
    · have hfirst : firstLiteral? (expected :: rest) input = firstLiteral? rest input := by
        simp [firstLiteral?, hfits]
      simp only [hfirst, hfits, if_false, true_and]
      exact or_iff_right fun h => h.2 h.1

-- The first literal that fits

theorem firstLiteral?_eq_some_iff {expected : Bytes} :
    firstLiteral? literals input = some expected ↔
      expected <+: input ∧ ∃ before after, literals = before ++ expected :: after ∧
        ∀ earlier ∈ before, ¬ earlier <+: input := by
  simp [firstLiteral?, List.find?_eq_some_iff_append]

theorem firstLiteral?_eq_none_iff :
    firstLiteral? literals input = none ↔ ∀ expected ∈ literals, ¬ expected <+: input := by
  simp [firstLiteral?]

theorem oneOf_matched_iff {value tail : Bytes} :
    ((oneOf literals : Parser ν Bytes) input).Gives (.ok (.matched value tail)) ↔
      input = value ++ tail ∧ ∃ before after, literals = before ++ value :: after ∧
        ∀ earlier ∈ before, ¬ earlier <+: input := by
  have hfirst : Except.ok (.matched value tail) =
      (.ok (literalOutcome input (firstLiteral? literals input)) : Except Error (Outcome Bytes)) ↔
      firstLiteral? literals input = some value ∧ input.drop value.length = tail := by
    cases firstLiteral? literals input with
    | none => simp [literalOutcome]
    | some expected =>
      simp only [literalOutcome, Except.ok.injEq, Outcome.matched.injEq, Option.some.injEq]
      constructor
      · rintro ⟨rfl, rfl⟩
        exact ⟨rfl, rfl⟩
      · rintro ⟨rfl, rfl⟩
        exact ⟨rfl, rfl⟩
  rw [oneOf_gives_iff, hfirst, firstLiteral?_eq_some_iff]
  constructor
  · rintro ⟨⟨⟨rest, rfl⟩, hlist⟩, rfl⟩
    rw [List.drop_left]
    exact ⟨rfl, hlist⟩
  · rintro ⟨rfl, hlist⟩
    exact ⟨⟨List.prefix_append value tail, hlist⟩, List.drop_left⟩

theorem oneOf_noMatch_iff :
    ((oneOf literals : Parser ν Bytes) input).Gives (.ok .noMatch) ↔
      ∀ expected ∈ literals, ¬ expected <+: input := by
  rw [oneOf_gives_iff, ← firstLiteral?_eq_none_iff]
  cases firstLiteral? literals input <;> simp [literalOutcome]

theorem oneOf_answers : (oneOf literals : Parser ν Bytes).Answers input :=
  ⟨_, oneOf_gives_iff.mpr rfl⟩

-- A literal does nothing behind one that it starts with
theorem firstLiteral?_without_shadowed {before after : List Bytes} {shadowed : Bytes}
    (h : ∃ earlier ∈ before, earlier <+: shadowed) (input : Bytes) :
    firstLiteral? (before ++ after) input = firstLiteral? (before ++ shadowed :: after) input := by
  unfold firstLiteral?
  rw [List.find?_append, List.find?_append]
  by_cases hfits : shadowed <+: input
  · obtain ⟨earlier, hmem, hearlier⟩ := h
    have hbefore : (before.find? fun expected => expected <+: input).isSome :=
      List.find?_isSome.mpr ⟨earlier, hmem, by simpa using hearlier.trans hfits⟩
    obtain ⟨first, hfirst⟩ := Option.isSome_iff_exists.mp hbefore
    rw [hfirst, Option.some_or, Option.some_or]
  · rw [List.find?_cons_of_neg (by simpa using hfits)]

-- A literal is the first to fit if no other one that fits stands before it
theorem firstLiteral?_of_unrivalled {expected : Bytes} {before after : List Bytes}
    (hfits : expected <+: input)
    (hbefore : ∀ earlier ∈ before, earlier <+: input → earlier = expected) :
    firstLiteral? (before ++ expected :: after) input = some expected := by
  unfold firstLiteral?
  rw [List.find?_append, List.find?_cons_of_pos (by simpa using hfits)]
  cases hearlier : before.find? fun expected => expected <+: input with
  | none => rfl
  | some earlier =>
    have hfirst : earlier <+: input := by simpa using List.find?_some hearlier
    rw [hbefore earlier (List.mem_of_find?_eq_some hearlier) hfirst, Option.some_or]

-- Where no literal starts with another one, only one of them can fit, wherever it stands
theorem firstLiteral?_perm {other : List Bytes}
    (hfree : ∀ first ∈ literals, ∀ second ∈ literals, first <+: second → first = second)
    (hperm : other.Perm literals) (input : Bytes) :
    firstLiteral? other input = firstLiteral? literals input := by
  cases hfirst : firstLiteral? literals input with
  | none =>
    rw [firstLiteral?_eq_none_iff] at hfirst ⊢
    exact fun expected hmem => hfirst expected (hperm.mem_iff.mp hmem)
  | some first =>
    have hmem : first ∈ literals := List.mem_of_find?_eq_some hfirst
    have hfits : first <+: input := (firstLiteral?_eq_some_iff.mp hfirst).1
    obtain ⟨before, after, rfl⟩ := List.append_of_mem (hperm.mem_iff.mpr hmem)
    apply firstLiteral?_of_unrivalled hfits
    intro earlier hearlier hrival
    have hrivalmem : earlier ∈ literals := hperm.mem_iff.mp (List.mem_append_left _ hearlier)
    rcases List.prefix_or_prefix_of_prefix hrival hfits with h | h
    · exact hfree earlier hrivalmem first hmem h
    · exact (hfree first hmem earlier hrivalmem h).symm

-- Of two literals that fit, where no other one does, the one that comes first is read
theorem firstLiteral?_of_precedes {first second : Bytes} (hfits : first <+: input)
    (hothers : ∀ other ∈ literals, other <+: input → other = first ∨ other = second)
    (hprecedes : Precedes first second literals) :
    firstLiteral? literals input = some first := by
  obtain ⟨before, after, rfl, hsecond⟩ := hprecedes
  apply firstLiteral?_of_unrivalled hfits
  intro earlier hearlier hrival
  rcases hothers earlier (List.mem_append_left _ hearlier) hrival with rfl | rfl
  · rfl
  · exact absurd hearlier hsecond

-- An ordered choice of literals reads the first one that the input starts with, and does not match
-- if there is none. So a literal that comes behind one that it starts with may be left out. Where
-- no literal starts with another one the order makes no difference. Where one does, and starts
-- with no third one, it is cut short if it comes after the shorter one, and only then.
theorem literal_choice_order (literals : List Bytes) :
    (∀ input value tail,
      ((oneOf literals : Parser ν Bytes) input).Gives (.ok (.matched value tail)) ↔
        input = value ++ tail ∧ ∃ before after, literals = before ++ value :: after ∧
          ∀ earlier ∈ before, ¬ earlier <+: input) ∧
    (∀ input, ((oneOf literals : Parser ν Bytes) input).Gives (.ok .noMatch) ↔
      ∀ expected ∈ literals, ¬ expected <+: input) ∧
    (∀ input, ∃ outcome, ((oneOf literals : Parser ν Bytes) input).Gives (.ok outcome)) ∧
    (∀ before shadowed after, literals = before ++ shadowed :: after →
      (∃ earlier ∈ before, earlier <+: shadowed) → ∀ input result,
        ((oneOf (before ++ after) : Parser ν Bytes) input).Gives result ↔
          ((oneOf literals : Parser ν Bytes) input).Gives result) ∧
    ((∀ first ∈ literals, ∀ second ∈ literals, first <+: second → first = second) →
      ∀ other, other.Perm literals → ∀ input result,
        ((oneOf other : Parser ν Bytes) input).Gives result ↔
          ((oneOf literals : Parser ν Bytes) input).Gives result) ∧
    ∀ shorter ∈ literals, ∀ longer ∈ literals, shorter <+: longer → shorter ≠ longer →
      (∀ other ∈ literals, other <+: longer → other = shorter ∨ other = longer) →
      ∀ shorterFirst longerFirst, shorterFirst.Perm literals → longerFirst.Perm literals →
        Precedes shorter longer shorterFirst → Precedes longer shorter longerFirst →
        ((oneOf shorterFirst : Parser ν Bytes) longer).Gives
          (.ok (.matched shorter (longer.drop shorter.length))) ∧
        ((oneOf longerFirst : Parser ν Bytes) longer).Gives (.ok (.matched longer [])) ∧
        ∀ result, ((oneOf shorterFirst : Parser ν Bytes) longer).Gives result →
          ¬ ((oneOf longerFirst : Parser ν Bytes) longer).Gives result := by
  refine ⟨fun _ _ _ => oneOf_matched_iff, fun _ => oneOf_noMatch_iff, fun _ => oneOf_answers, ?_,
    ?_, ?_⟩
  · rintro before shadowed after rfl hshadowed input result
    rw [oneOf_gives_iff, oneOf_gives_iff, firstLiteral?_without_shadowed hshadowed]
  · intro hfree other hperm input result
    rw [oneOf_gives_iff, oneOf_gives_iff, firstLiteral?_perm hfree hperm]
  · intro shorter _ longer _ hprefix hne hothers shorterFirst longerFirst hshorterPerm hlongerPerm
      hshorterFirst hlongerFirst
    have hshort : firstLiteral? shorterFirst longer = some shorter :=
      firstLiteral?_of_precedes hprefix
        (fun other hmem => hothers other (hshorterPerm.mem_iff.mp hmem)) hshorterFirst
    have hlong : firstLiteral? longerFirst longer = some longer :=
      firstLiteral?_of_precedes List.prefix_rfl
        (fun other hmem hfits => (hothers other (hlongerPerm.mem_iff.mp hmem) hfits).symm)
        hlongerFirst
    simp only [oneOf_gives_iff, hshort, hlong, literalOutcome, List.drop_length]
    refine ⟨trivial, trivial, ?_⟩
    rintro _ rfl hsame
    exact hne (Outcome.matched.inj (Except.ok.inj hsame)).1

-- "in" and "int": the longer one is left out behind the shorter one, and the order matters on it.
-- "in" and "if": it does not.
theorem literal_choice_order_keywords :
    (∃ earlier ∈ ([[105, 110]] : List Bytes), earlier <+: [105, 110, 116]) ∧
    (∀ input result, ((oneOf [[105, 110], [105, 102]] : Parser Unit Bytes) input).Gives result ↔
      ((oneOf [[105, 110], [105, 110, 116], [105, 102]] : Parser Unit Bytes) input).Gives result) ∧
    List.Perm ([[105, 102], [105, 110]] : List Bytes) [[105, 110], [105, 102]] ∧
    (∀ input result, ((oneOf [[105, 102], [105, 110]] : Parser Unit Bytes) input).Gives result ↔
      ((oneOf [[105, 110], [105, 102]] : Parser Unit Bytes) input).Gives result) ∧
    ((oneOf [[105, 110], [105, 110, 116]] : Parser Unit Bytes) [105, 110, 116]).Gives
      (.ok (.matched [105, 110] [116])) ∧
    ((oneOf [[105, 110, 116], [105, 110]] : Parser Unit Bytes) [105, 110, 116]).Gives
      (.ok (.matched [105, 110, 116] [])) := by
  have hshadowed := (literal_choice_order (ν := Unit)
    [[105, 110], [105, 110, 116], [105, 102]]).2.2.2.1 [[105, 110]] [105, 110, 116] [[105, 102]] rfl
  have hfree := (literal_choice_order (ν := Unit) [[105, 110], [105, 102]]).2.2.2.2.1 (by decide)
  have hkeywords := (literal_choice_order (ν := Unit) [[105, 110], [105, 110, 116]]).2.2.2.2.2
    [105, 110] (by decide) [105, 110, 116] (by decide) (by decide) (by decide) (by decide)
    [[105, 110], [105, 110, 116]] [[105, 110, 116], [105, 110]] (by decide) (by decide)
    ⟨[], [[105, 110, 116]], rfl, nofun⟩ ⟨[], [[105, 110]], rfl, nofun⟩
  exact ⟨by decide, hshadowed (by decide), by decide, hfree _ (by decide), hkeywords.1,
    hkeywords.2.1⟩

end ByteGrammar.Parser
