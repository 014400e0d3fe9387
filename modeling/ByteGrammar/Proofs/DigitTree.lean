import ByteGrammar.Format.DigitTree
import ByteGrammar.Parser.Approximation
import ByteGrammar.Proofs.Parser.Choice
import ByteGrammar.Proofs.Parser.Matches

namespace ByteGrammar.Format.DigitTree

open ByteGrammar.Parser

variable {ν : Type}

def digitByte (digit : Fin 10) : UInt8 := UInt8.ofNat (48 + digit.val)

mutual

-- The bytes that a value may be written with
inductive Encodes : DigitTree → Bytes → Prop
  | number (digit : Fin 10) : Encodes (number digit) [digitByte digit]
  | list (items : List DigitTree) (body : Bytes) (hitems : EncodesItems items body) :
      Encodes (list items) (opening :: body ++ [closing])

-- The items of a list one after the other, each with or without a comma behind it
inductive EncodesItems : List DigitTree → Bytes → Prop
  | nil : EncodesItems [] []
  | cons (item : DigitTree) (code separator : Bytes) (rest : List DigitTree) (body : Bytes)
      (hitem : Encodes item code) (hseparator : separator = [] ∨ separator = [comma])
      (hrest : EncodesItems rest body) :
      EncodesItems (item :: rest) (code ++ separator ++ body)

end

theorem isDigit_digitByte (digit : Fin 10) : ByteClass.isDigit (digitByte digit) := by
  decide +revert

theorem digitOf_digitByte (digit : Fin 10) : digitOf (digitByte digit) = digit := by
  decide +revert

theorem digitByte_digitOf {byte : UInt8} (h : ByteClass.isDigit byte) :
    digitByte (digitOf byte) = byte := by
  simp only [ByteClass.isDigit, Bool.and_eq_true, decide_eq_true_eq, UInt8.le_iff_toNat_le] at h
  have hlow : 48 ≤ byte.toNat := h.1
  have hhigh : byte.toNat ≤ 57 := h.2
  apply UInt8.toNat_inj.mp
  simp only [digitByte, digitOf, Fin.ofNat, UInt8.toNat_ofNat']
  omega

-- An encoding starts with a digit or with a bracket
theorem Encodes.exists_first {value : DigitTree} {code : Bytes} (h : Encodes value code) :
    ∃ first rest, code = first :: rest ∧ first ≠ comma := by
  cases h with
  | number digit => exact ⟨_, _, rfl, by decide +revert⟩
  | list items body hitems => exact ⟨_, _, rfl, by decide⟩

-- What follows an item without a comma is no comma
theorem EncodesItems.head_ne_comma {items : List DigitTree} {body : Bytes}
    (h : EncodesItems items body) (tail : Bytes) :
    (body ++ closing :: tail).head? ≠ some comma := by
  cases h with
  | nil => simp [closing, comma]
  | cons item code separator rest body hitem hseparator hrest =>
    obtain ⟨first, rest, rfl, hfirst⟩ := hitem.exists_first
    simpa using hfirst

-- One level of the grammar, in terms of the level below

def item (bound : Nat) : Parser ν DigitTree :=
  (both (delay (within bound)) (optional (byte comma))).map Prod.fst

theorem within_succ (bound : Nat) :
    (within (bound + 1) : Parser ν DigitTree) =
      ((satisfy ByteClass.isDigit).map fun byte => number (digitOf byte)).orElse
        ((between (byte opening) (many bound .heap (item bound)) (byte closing)).map list) :=
  congrArg (Parser.orElse _) (orElse_never _)

-- A comma behind an item is always taken
theorem item_matched_iff {bound : Nat} {input tail : Bytes} {value : DigitTree} :
    ((item bound : Parser ν DigitTree) input).Gives (.ok (.matched value tail)) ↔
      ∃ rest, ((within bound : Parser ν DigitTree) input).Gives (.ok (.matched value rest)) ∧
        (rest = comma :: tail ∨ rest.head? ≠ some comma ∧ tail = rest) := by
  simp only [item, both, map_matched_iff, andThen_matched_iff, delay_gives_iff,
    optional_matched_iff, byte_matched_iff, byte_noMatch_iff]
  constructor
  · rintro ⟨_, ⟨value, rest, hvalue, separator, hseparator, rfl⟩, rfl⟩
    rcases hseparator with ⟨_, ⟨hcomma, -⟩, -⟩ | ⟨hnone, -, htail⟩
    · exact ⟨rest, hvalue, .inl hcomma⟩
    · exact ⟨rest, hvalue, .inr ⟨hnone, htail⟩⟩
  · rintro ⟨rest, hvalue, hcomma | ⟨hnone, htail⟩⟩
    · exact ⟨(value, some comma), ⟨_, rest, hvalue, _, .inl ⟨_, ⟨hcomma, rfl⟩, rfl⟩, rfl⟩, rfl⟩
    · exact ⟨(value, none), ⟨_, rest, hvalue, _, .inr ⟨hnone, rfl, htail⟩, rfl⟩, rfl⟩

-- A value is a digit, or the items between two brackets, after which there is no further item
theorem within_succ_matched_iff {bound : Nat} {input tail : Bytes} {value : DigitTree} :
    ((within (bound + 1) : Parser ν DigitTree) input).Gives (.ok (.matched value tail)) ↔
      (∃ first, input = first :: tail ∧ ByteClass.isDigit first ∧
        value = number (digitOf first)) ∨
      ∃ rest items, input = opening :: rest ∧ value = list items ∧ items.length < bound ∧
        Rounds (item bound : Parser ν DigitTree) rest items (closing :: tail) ∧
        ((item bound : Parser ν DigitTree) (closing :: tail)).Gives (.ok .noMatch) := by
  rw [within_succ, orElse_matched_iff]
  simp only [between, map_matched_iff, andThen_matched_iff, byte_matched_iff, satisfy_matched_iff,
    many_heap_matched_iff]
  constructor
  · rintro (⟨first, ⟨hinput, hdigit⟩, rfl⟩ | ⟨-, items, ⟨_, rest, ⟨hinput, -⟩, hrest⟩, rfl⟩)
    · exact .inl ⟨first, hinput, hdigit, rfl⟩
    · obtain ⟨_, last, ⟨hlength, hitems, hstop⟩, _, ⟨rfl, -⟩, rfl⟩ := hrest
      exact .inr ⟨rest, _, hinput, rfl, hlength, hitems, hstop⟩
  · rintro (⟨first, hinput, hdigit, rfl⟩ | ⟨rest, items, rfl, rfl, hlength, hitems, hstop⟩)
    · exact .inl ⟨first, ⟨hinput, hdigit⟩, rfl⟩
    · exact .inr ⟨⟨_, rfl⟩, items, ⟨_, rest, ⟨rfl, rfl⟩, items, _, ⟨hlength, hitems, hstop⟩, _,
        ⟨rfl, rfl⟩, rfl⟩, rfl⟩

-- What is matched has been written with the bytes in front of the tail

theorem encodesItems_of_rounds {bound : Nat} {input last : Bytes} {values : List DigitTree}
    (hitem : ∀ {input tail : Bytes} {value : DigitTree},
      ((within bound : Parser ν DigitTree) input).Gives (.ok (.matched value tail)) →
      ∃ code, Encodes value code ∧ input = code ++ tail)
    (h : Rounds (item bound : Parser ν DigitTree) input values last) :
    ∃ body, EncodesItems values body ∧ input = body ++ last := by
  induction h with
  | none input => exact ⟨[], .nil, rfl⟩
  | next input value tail values last hmatch hrest ih =>
    obtain ⟨rest, hvalue, hcomma⟩ := item_matched_iff.mp hmatch
    obtain ⟨code, hcode, rfl⟩ := hitem hvalue
    obtain ⟨body, hbody, rfl⟩ := ih
    rcases hcomma with rfl | ⟨-, rfl⟩
    · exact ⟨code ++ [comma] ++ body, .cons value code [comma] values body hcode (.inr rfl) hbody,
        by simp⟩
    · exact ⟨code ++ [] ++ body, .cons value code [] values body hcode (.inl rfl) hbody, by simp⟩

theorem encodes_of_within {bound : Nat} {input tail : Bytes} {value : DigitTree}
    (h : ((within bound : Parser ν DigitTree) input).Gives (.ok (.matched value tail))) :
    ∃ code, Encodes value code ∧ input = code ++ tail := by
  induction bound generalizing input tail value with
  | zero => exact absurd h (Run.not_gives_unfinished _)
  | succ bound ih =>
    rcases within_succ_matched_iff.mp h with
      ⟨first, rfl, hdigit, rfl⟩ | ⟨rest, items, rfl, rfl, -, hitems, -⟩
    · exact ⟨[first], by simpa only [digitByte_digitOf hdigit] using Encodes.number (digitOf first),
        rfl⟩
    · obtain ⟨body, hbody, rfl⟩ := encodesItems_of_rounds ih hitems
      exact ⟨opening :: body ++ [closing], .list items body hbody, by simp⟩

-- A value takes at least the byte it starts with
theorem within_takes (bound : Nat) : (within bound : Parser ν DigitTree).Takes 1 := by
  intro input value tail hmatch
  obtain ⟨code, hcode, rfl⟩ := encodes_of_within hmatch
  obtain ⟨first, rest, rfl, -⟩ := hcode.exists_first
  simp only [List.length_append, List.length_cons]
  omega

theorem item_takes (bound : Nat) : (item bound : Parser ν DigitTree).Takes 1 :=
  ((within_takes bound).delay.both ((byte_takes comma).mono (Nat.zero_le 1)).optional).map _

-- What a value has been written with is matched as that value, whatever follows. The induction is
-- on the bound, which is at least the length of the code, since values and their items are given
-- by one mutual definition; within a list it is on the items.

theorem rounds_of_encodesItems {bound : Nat} {items : List DigitTree} {body : Bytes}
    (hitem : ∀ {value : DigitTree} {code : Bytes}, Encodes value code → code.length ≤ bound →
      ∀ tail, ((within bound : Parser ν DigitTree) (code ++ tail)).Gives
        (.ok (.matched value tail)))
    (h : EncodesItems items body) (hbody : body.length ≤ bound) (tail : Bytes) :
    Rounds (item bound : Parser ν DigitTree) (body ++ closing :: tail) items
      (closing :: tail) := by
  induction items generalizing body with
  | nil =>
    cases h
    exact .none _
  | cons value rest ih =>
    cases h with
    | cons _ code separator _ body hcode hseparator hrest =>
      simp only [List.length_append] at hbody
      have hmatch := hitem hcode (by omega) (separator ++ (body ++ closing :: tail))
      rw [← List.append_assoc, ← List.append_assoc] at hmatch
      refine .next _ value (body ++ closing :: tail) rest _ ?_ (ih hrest (by omega))
      refine item_matched_iff.mpr ⟨separator ++ (body ++ closing :: tail), ?_, ?_⟩
      · simpa using hmatch
      · rcases hseparator with rfl | rfl
        · exact .inr ⟨hrest.head_ne_comma tail, rfl⟩
        · exact .inl rfl

-- No item starts with the bracket that ends a list
theorem item_closing (bound : Nat) (tail : Bytes) :
    ((item (bound + 1) : Parser ν DigitTree) (closing :: tail)).Gives (.ok .noMatch) :=
  ⟨_, rfl⟩

theorem within_of_encodes {bound : Nat} {value : DigitTree} {code : Bytes}
    (h : Encodes value code) (hcode : code.length ≤ bound) (tail : Bytes) :
    ((within bound : Parser ν DigitTree) (code ++ tail)).Gives (.ok (.matched value tail)) := by
  induction bound generalizing value code tail with
  | zero =>
    obtain ⟨first, rest, rfl, -⟩ := h.exists_first
    simp at hcode
  | succ bound ih =>
    rw [within_succ_matched_iff]
    cases h with
    | number digit =>
      exact .inl ⟨digitByte digit, rfl, isDigit_digitByte digit, by rw [digitOf_digitByte]⟩
    | list items body hitems =>
      have hbody : body.length + 1 ≤ bound := by simpa using hcode
      have hrounds := rounds_of_encodesItems ih hitems (by omega) tail
      have hlength := hrounds.length_add_le (item_takes bound)
      obtain ⟨bound, rfl⟩ : ∃ less, bound = less + 1 := ⟨bound - 1, by omega⟩
      simp only [List.length_append, List.length_cons] at hlength
      exact .inr ⟨body ++ closing :: tail, items, by simp, rfl, by omega, hrounds,
        item_closing bound tail⟩

-- A bound beyond the length of the input is enough for the parse to end, and then there is no error

theorem within_answers {bound : Nat} {input : Bytes} (h : input.length < bound) :
    (within bound : Parser ν DigitTree).Answers input := by
  induction bound generalizing input with
  | zero => omega
  | succ bound ih =>
    have hitem : ∀ place : Bytes, place.length < bound →
        (item bound : Parser ν DigitTree).Answers place := by
      intro place hplace
      have hvalue : (delay (within bound) : Parser ν DigitTree).Answers place := by
        obtain ⟨outcome, hrun⟩ := ih hplace
        exact ⟨outcome, delay_gives_iff.mpr hrun⟩
      exact (hvalue.andThen fun _ tail _ => (byte_answers comma tail).optional.map _).map _
    have hlist : ((byte opening).between (many bound .heap (item bound)) (byte closing) :
        Parser ν (List DigitTree)).Answers input := by
      refine (byte_answers opening input).andThen fun _ rest hopening => ?_
      have hrest := byte_takes opening input _ rest hopening
      have hitems := Answers.many_heap (fun place hplace => hitem place (by omega))
        (item_takes bound) (show rest.length < bound by omega)
      exact hitems.andThen fun _ last _ => (byte_answers closing last).map _
    rw [within_succ]
    exact ((satisfy_answers _ input).map _).orElse (hlist.map _)

theorem parser_answers (input : Bytes) : (parser : Parser ν DigitTree).Answers input := by
  obtain ⟨outcome, hrun⟩ : (within (input.length + 2) : Parser ν DigitTree).Answers input :=
    within_answers (by omega)
  exact ⟨outcome, hrun⟩

-- The bound decides whether a parse comes to an end, and nothing else
theorem within_approximates {bound more : Nat} (h : bound ≤ more) :
    Approximates (within bound : Parser ν DigitTree) (within more) := by
  induction bound generalizing more with
  | zero => exact fun _ => .inl rfl
  | succ bound ih =>
    obtain ⟨more, rfl⟩ : ∃ less, more = less + 1 := ⟨more - 1, by omega⟩
    have hitem : Approximates (item bound : Parser ν DigitTree) (item more) :=
      ((ih (Nat.le_of_succ_le_succ h)).delay.both (.refl _)).map _
    rw [within_succ, within_succ]
    exact (Approximates.refl _).orElse
      (((Approximates.refl _).between (hitem.many _ (Nat.le_of_succ_le_succ h)) (.refl _)).map _)

theorem parser_eq_within (input : Bytes) (more : Nat) :
    (parser : Parser ν DigitTree) input = within (input.length + 2 + more) input := by
  obtain ⟨outcome, trace, hrun⟩ := parser_answers (ν := ν) input
  have hmore : ((parser : Parser ν DigitTree) input).Approximates
      (within (input.length + 2 + more) input) :=
    within_approximates (Nat.le_add_right _ more) input
  rw [hrun] at hmore ⊢
  exact hmore.eq_of_ended.symm

-- The parser reads exactly what a value may be written with. It matches a value if the input
-- starts with an encoding of it, and leaves what is behind it. It does not match if the input
-- starts with no encoding at all. It always ends, never with an error, and would do the same if it
-- were given more room.
theorem parser_reads_encodings (input : Bytes) :
    (∀ value tail, ((parser : Parser ν DigitTree) input).Gives (.ok (.matched value tail)) ↔
      ∃ code, Encodes value code ∧ input = code ++ tail) ∧
    (((parser : Parser ν DigitTree) input).Gives (.ok .noMatch) ↔
      ¬ ∃ value code, Encodes value code ∧ code <+: input) ∧
    (∃ trace outcome, (parser : Parser ν DigitTree) input = .ended trace (.ok outcome)) ∧
    ∀ more, (parser : Parser ν DigitTree) input = within (input.length + 2 + more) input := by
  have hcomplete : ∀ value code tail, Encodes value code → input = code ++ tail →
      ((parser : Parser ν DigitTree) input).Gives (.ok (.matched value tail)) := by
    rintro value code tail hcode rfl
    exact within_of_encodes hcode (by simp only [List.length_append]; omega) tail
  obtain ⟨outcome, trace, hrun⟩ := parser_answers (ν := ν) input
  refine ⟨fun value tail => ⟨encodes_of_within, ?_⟩, ⟨?_, ?_⟩, ⟨trace, outcome, hrun⟩,
    parser_eq_within input⟩
  · rintro ⟨code, hcode, hinput⟩
    exact hcomplete value code tail hcode hinput
  · rintro hnone ⟨value, code, hcode, tail, hinput⟩
    cases hnone.unique (hcomplete value code tail hcode hinput.symm)
  · intro hnone
    cases outcome with
    | noMatch => exact ⟨trace, hrun⟩
    | matched value tail =>
      obtain ⟨code, hcode, hinput⟩ := encodes_of_within ⟨trace, hrun⟩
      exact absurd ⟨value, code, hcode, tail, hinput.symm⟩ hnone

-- "[1,[]]x"
example : ((parser : Parser Unit DigitTree) [91, 49, 44, 91, 93, 93, 120]).Gives
    (.ok (.matched (list [number 1, list []]) [120])) := ⟨_, rfl⟩

end ByteGrammar.Format.DigitTree
