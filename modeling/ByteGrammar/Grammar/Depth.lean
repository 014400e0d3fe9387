import ByteGrammar.Grammar.Parse
import ByteGrammar.Parser.Approximation

namespace ByteGrammar.Grammar

variable {ρ : Type}

theorem layer_approximates (rules : ρ → Grammar ρ) {rounds more : Nat} (hrounds : rounds ≤ more)
    {part other : Grammar ρ → Parser (Note ρ) Value}
    (h : ∀ grammar, (part grammar).Approximates (other grammar)) (grammar : Grammar ρ) :
    (layer rules rounds part grammar).Approximates (layer rules more other grammar) := by
  cases grammar with
  | literal expected => exact .refl _
  | anyByte => exact .refl _
  | byte expected => exact .refl _
  | satisfy test => exact .refl _
  | atEnd => exact .refl _
  | sequence parts => exact (Parser.Approximates.sequence parts h).map _
  | both first second => exact ((h first).both (h second)).map _
  | choice arms => exact Parser.Approximates.choice arms h
  | orElse first second => exact (h first).orElse (h second)
  | map label f body => exact (h body).refine _
  | refine label f body => exact (h body).refine _
  | optional body => exact (h body).optional.map _
  | notFollowedBy body => exact (h body).notFollowedBy.map _
  | followedBy body => exact (h body).followedBy.map _
  | between opening body closing => exact (h opening).between (h body) (h closing)
  | foldMany init combine body => exact (h body).foldMany _ _ hrounds
  | foldMany1 init combine body => exact (h body).foldMany1 _ _ hrounds
  | many storage body => exact ((h body).many storage hrounds).map _
  | many1 storage body => exact ((h body).many1 storage hrounds).map _
  | delay body => exact (h body).delay
  | rule name => exact (h (rules name)).delay
  | group body => exact h body
  | probe label body => exact h body
  | primitive given => exact .refl _

theorem parser_approximates (rules : ρ → Grammar ρ) {depth more : Nat} (hdepth : depth ≤ more)
    (grammar : Grammar ρ) :
    (parser rules depth grammar).Approximates (parser rules more grammar) := by
  induction depth generalizing more grammar with
  | zero => exact fun _ => .inl rfl
  | succ depth ih =>
    obtain ⟨more, rfl⟩ : ∃ count, more = count + 1 := ⟨more - 1, by omega⟩
    intro input
    apply (Run.Approximates.refl _).bind
    intro _
    exact layer_approximates rules (by omega) (fun part => ih (by omega) part) grammar input

-- A parse that ends within some depth ends the same way within any greater one
theorem parser_of_le (rules : ρ → Grammar ρ) {depth more : Nat} (hdepth : depth ≤ more)
    (grammar : Grammar ρ) (input : Bytes) {trace : List (Event (Note ρ))}
    {result : Except Error (Outcome Value)}
    (h : parser rules depth grammar input = .ended trace result) :
    parser rules more grammar input = .ended trace result := by
  have happrox := parser_approximates rules hdepth grammar input
  rw [h] at happrox
  exact happrox.eq_of_ended

-- A parse ends, within some depth
def Parses (rules : ρ → Grammar ρ) (grammar : Grammar ρ) (input : Bytes)
    (trace : List (Event (Note ρ))) (result : Except Error (Outcome Value)) : Prop :=
  ∃ depth, parser rules depth grammar input = .ended trace result

theorem Parses.unique {grammar : Grammar ρ} {input : Bytes} {trace other : List (Event (Note ρ))}
    {result otherResult : Except Error (Outcome Value)}
    (h : Parses rules grammar input trace result)
    (hother : Parses rules grammar input other otherResult) :
    trace = other ∧ result = otherResult := by
  obtain ⟨depth, h⟩ := h
  obtain ⟨more, hother⟩ := hother
  have hfirst := parser_of_le rules (Nat.le_max_left depth more) grammar input h
  have hsecond := parser_of_le rules (Nat.le_max_right depth more) grammar input hother
  rw [hfirst] at hsecond
  cases hsecond
  exact ⟨rfl, rfl⟩

end ByteGrammar.Grammar
