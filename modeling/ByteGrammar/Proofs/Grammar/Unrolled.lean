import ByteGrammar.Grammar.Depth
import ByteGrammar.Proofs.Mirror.Grammar
import ByteGrammar.Proofs.Mirror.Silent

namespace ByteGrammar.Grammar

variable {ρ : Type} {rules : ρ → Grammar ρ} {rounds more depth : Nat} {grammar : Grammar ρ}
  {first second : Grammar ρ → Parser (Note ρ) Value}

-- A layer runs the parts of its grammar and no others
theorem layer_congr (h : ∀ part ∈ grammar.parts rules, first part = second part) :
    layer rules rounds first grammar = layer rules rounds second grammar := by
  cases grammar with
  | sequence parts | choice parts =>
    have hmap : parts.map first = parts.map second := List.map_congr_left h
    simp only [layer, hmap]
  | _ => simp_all [layer, parts]

theorem consulting_silent (given : Primitive) (input : Bytes) :
    (consulting given input : Run (Note ρ) (Outcome Value)).Mirrored .silent (Outcome.Moved [] Eq)
      (consulting given (input ++ []) : Run (Note ρ) (Outcome Value)) := by
  rw [List.append_nil]
  exact .silent_refl (.of_eq fun _ => rfl) _

-- What layers give that have the same head, whatever they trace
def silentLaws (rules : ρ → Grammar ρ) (whole : Grammar ρ) : LayerLaws rules whole :=
  .self .silent (fun _ _ => trivial) (fun _ => trivial) (fun _ _ => trivial) (fun _ => trivial)
    (fun given input _ _ => consulting_silent given input)

theorem layer_below_of_alike {others : ρ → Grammar ρ} {other : Grammar ρ}
    {related : Grammar ρ → Grammar ρ → Prop} (halike : Alike related Eq Eq grammar other)
    (hrule : ∀ name, grammar = rule name → related (rules name) (others name))
    (hparts : ∀ part another, part ∈ grammar.parts rules → another ∈ other.parts others →
      related part another → (first part).Below (second another)) (hrounds : rounds ≤ more) :
    (layer rules rounds first grammar).Below (layer others more second other) := by
  have hmirrored : (layer rules rounds first grammar).Mirrored .silent Eq
      (layer others rounds second other) := by
    intro input
    apply layer_mirrored (silentLaws rules grammar) (.refl grammar) halike hrule _ rounds
      (.inl rfl)
    intro part another hpart hanother hrelated
    exact Parser.below_iff_mirrored.mp (hparts part another hpart hanother hrelated)
  have hmore := layer_approximates others hrounds (fun part => .refl (second part)) other
  exact (Parser.below_iff_mirrored.mpr hmirrored).trans hmore.below

theorem layer_below (hparts : ∀ part ∈ grammar.parts rules, (first part).Below (second part))
    (hrounds : rounds ≤ more) :
    (layer rules rounds first grammar).Below (layer rules more second grammar) := by
  apply layer_below_of_alike (.of_eq grammar) (fun _ _ => rfl) _ hrounds
  rintro part _ hpart - rfl
  exact hparts part hpart

theorem layer_agree (h : ∀ part ∈ grammar.parts rules, (first part).Agree Eq (second part)) :
    (layer rules rounds first grammar).Agree Eq (layer rules rounds second grammar) := by
  have hbelow := fun part hpart => Parser.agree_iff_below.mp (h part hpart)
  exact Parser.agree_iff_below.mpr ⟨layer_below (fun part hpart => (hbelow part hpart).1) le_rfl,
    layer_below (fun part hpart => (hbelow part hpart).2) le_rfl⟩

-- The parser of a grammar where only its rules use up the depth, and where nothing is noted of
-- what is entered
noncomputable def unrolled (rules : ρ → Grammar ρ) : Nat → Grammar ρ → Parser (Note ρ) Value
  | 0, rule _ => fun _ => .unfinished
  | depth + 1, rule name => (unrolled rules depth (rules name)).delay
  | depth, grammar =>
    layer rules depth
      (fun part => if _ : sizeOf part < sizeOf grammar then unrolled rules depth part else
        fun _ => .unfinished)
      grammar
termination_by depth grammar => (depth, sizeOf grammar)

theorem unrolled_eq_layer (hrule : ∀ name, grammar ≠ rule name) :
    unrolled rules depth grammar = layer rules depth (unrolled rules depth) grammar := by
  rw [unrolled]
  · apply layer_congr
    intro part hpart
    rw [dif_pos (sizeOf_lt_of_mem_parts hrule hpart)]
  · exact fun name _ hname => hrule name hname
  · exact fun _ name _ hname => hrule name hname

theorem parser_agree_layer (grammar : Grammar ρ) :
    (parser rules (depth + 1) grammar).Agree Eq
      (layer rules depth (parser rules depth) grammar) := by
  have hgives (input : Bytes) (result : Except Error (Outcome Value)) :
      (parser rules (depth + 1) grammar input).Gives result ↔
        (layer rules depth (parser rules depth) grammar input).Gives result := by
    rw [parser_succ, Run.after_gives_iff]
  exact Parser.agree_iff_below.mpr
    ⟨fun input result => (hgives input result).mp, fun input result => (hgives input result).mpr⟩

theorem parser_below_unrolled (grammar : Grammar ρ) (hdepth : depth ≤ more) :
    (parser rules depth grammar).Below (unrolled rules more grammar) := by
  induction depth generalizing more grammar with
  | zero => exact .unfinished _
  | succ depth ih =>
    obtain ⟨more, rfl⟩ : ∃ count, more = count + 1 := ⟨more - 1, by omega⟩
    apply (Parser.agree_iff_below.mp (parser_agree_layer grammar)).1.trans
    by_cases hrule : ∃ name, grammar = rule name
    · obtain ⟨name, rfl⟩ := hrule
      rw [unrolled]
      exact (ih (rules name) (by omega)).delay
    · rw [unrolled_eq_layer (not_exists.mp hrule)]
      exact layer_below (fun part _ => ih part (by omega)) (by omega)

-- Finitely many conditions that each hold from some depth on hold together from one depth on
theorem exists_common_depth {γ : Type} {holds : γ → Nat → Prop}
    (hmono : ∀ item depth more, depth ≤ more → holds item depth → holds item more) (depth : Nat)
    {items : List γ} (h : ∀ item ∈ items, ∃ more, holds item more) :
    ∃ more, depth ≤ more ∧ ∀ item ∈ items, holds item more := by
  induction items with
  | nil => exact ⟨depth, le_rfl, by simp⟩
  | cons item rest ih =>
    obtain ⟨more, hmore⟩ := h item List.mem_cons_self
    obtain ⟨others, hdepth, hothers⟩ :=
      ih fun other hother => h other (List.mem_cons_of_mem _ hother)
    refine ⟨max more others, by omega, ?_⟩
    intro other hother
    rcases List.mem_cons.mp hother with rfl | hother
    · exact hmono other more _ (Nat.le_max_left more others) hmore
    · exact hmono other others _ (Nat.le_max_right more others) (hothers other hother)

theorem below_parser_of_le {parser' : Parser (Note ρ) Value} (hdepth : depth ≤ more)
    (h : parser'.Below (parser rules depth grammar)) :
    parser'.Below (parser rules more grammar) :=
  h.trans (parser_approximates rules hdepth grammar).below

theorem unrolled_below_of_references
    (hreferences : ∀ name, ∃ more,
      (unrolled rules depth (rule name)).Below (parser rules more (rule name)))
    (grammar : Grammar ρ) :
    ∃ more, (unrolled rules depth grammar).Below (parser rules more grammar) := by
  induction grammar using parts_induction rules with
  | reference name => exact hreferences name
  | whole grammar hrule ih =>
    have hmono (part : Grammar ρ) (less more : Nat) (hless : less ≤ more)
        (hpart : (unrolled rules depth part).Below (parser rules less part)) :
        (unrolled rules depth part).Below (parser rules more part) := below_parser_of_le hless hpart
    obtain ⟨more, hdepth, hparts⟩ := exists_common_depth hmono depth ih
    have hlayer := layer_below hparts hdepth
    refine ⟨more + 1, ?_⟩
    rw [unrolled_eq_layer hrule]
    exact hlayer.trans (Parser.agree_iff_below.mp (parser_agree_layer grammar)).2

theorem unrolled_below_limit (depth : Nat) (grammar : Grammar ρ) :
    ∃ more, (unrolled rules depth grammar).Below (parser rules more grammar) := by
  induction depth generalizing grammar with
  | zero =>
    apply unrolled_below_of_references
    intro name
    refine ⟨0, ?_⟩
    rw [unrolled]
    exact .unfinished _
  | succ depth ih =>
    apply unrolled_below_of_references
    intro name
    obtain ⟨more, hbelow⟩ := ih (rules name)
    refine ⟨more + 1, ?_⟩
    rw [unrolled]
    exact hbelow.delay.trans (Parser.agree_iff_below.mp (parser_agree_layer (rule name))).2

-- The two readings find the same results
theorem parses_iff_unrolled {input : Bytes} {result : Except Error (Outcome Value)} :
    (∃ trace, Parses rules grammar input trace result) ↔
      ∃ depth, (unrolled rules depth grammar input).Gives result := by
  constructor
  · rintro ⟨trace, depth, hparser⟩
    exact ⟨depth, parser_below_unrolled grammar le_rfl input result ⟨trace, hparser⟩⟩
  · rintro ⟨depth, hunrolled⟩
    obtain ⟨more, hbelow⟩ := unrolled_below_limit depth grammar
    obtain ⟨trace, hparser⟩ := hbelow input result hunrolled
    exact ⟨trace, more, hparser⟩

end ByteGrammar.Grammar
