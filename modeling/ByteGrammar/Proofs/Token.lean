import ByteGrammar.Format.Token
import ByteGrammar.Parser.Approximation
import ByteGrammar.Proofs.Parser.Derived
import ByteGrammar.Proofs.Parser.Matches
import ByteGrammar.Proofs.Parser.Successive
import Mathlib.Tactic.SplitIfs

namespace ByteGrammar.Format.Token

open ByteGrammar.Parser

variable {ν : Type} {input tail : Bytes} {token : Token}

-- The bytes of a token
def text : Token → Bytes
  | word text => text
  | arrow text => text

-- What is read before a word is checked: an arrow, or the longest word
def reading (input : Bytes) : Outcome Token :=
  if arrowText <+: input then .matched (.arrow arrowText) (input.drop arrowText.length)
  else if input.head?.any ByteClass.isAlpha then
    .matched (.word (input.takeWhile ByteClass.isAlnum)) (input.dropWhile ByteClass.isAlnum)
  else .noMatch

theorem isAlnum_of_isAlpha {byte : UInt8} (h : ByteClass.isAlpha byte) :
    ByteClass.isAlnum byte := by
  simp [ByteClass.isAlnum, h]

theorem exists_letter (h : input.head?.any ByteClass.isAlpha) :
    ∃ first rest, input = first :: rest ∧ ByteClass.isAlpha first := by
  cases input with
  | nil => cases h
  | cons first rest => exact ⟨first, rest, rfl, by simpa using h⟩

theorem letters_matched {first : UInt8} {rest : Bytes} (hfirst : ByteClass.isAlpha first) :
    ((letters : Parser ν Token) (first :: rest)).Gives
      (.ok (.matched (.word ((first :: rest).takeWhile ByteClass.isAlnum))
        ((first :: rest).dropWhile ByteClass.isAlnum))) := by
  have halnum := isAlnum_of_isAlpha hfirst
  rw [List.takeWhile_cons_of_pos halnum, List.dropWhile_cons_of_pos halnum]
  have hrest : ((roundPerByte fun rounds => many rounds .heap (satisfy ByteClass.isAlnum) :
      Parser ν Bytes) rest).Gives
      (.ok (.matched (rest.takeWhile ByteClass.isAlnum) (rest.dropWhile ByteClass.isAlnum))) :=
    many_heap_satisfy_gives rest.length.lt_succ_self
  refine map_matched_iff.mpr ⟨(first, rest.takeWhile ByteClass.isAlnum), ?_, rfl⟩
  exact both_matched_iff.mpr ⟨rest, satisfy_matched_iff.mpr ⟨rfl, hfirst⟩, hrest⟩

theorem letters_noMatch (h : ¬ input.head?.any ByteClass.isAlpha) :
    ((letters : Parser ν Token) input).Gives (.ok .noMatch) := by
  refine refine_noMatch_iff.mpr (andThen_noMatch_of_noMatch (satisfy_noMatch_iff.mpr ?_))
  intro first hfirst
  simpa [hfirst] using h

theorem tokenChoice_gives (input : Bytes) :
    ((choice [(literal arrowText).map arrow, letters] : Parser ν Token) input).Gives
      (.ok (reading input)) := by
  rw [← orElse_eq_choice, orElse_gives_iff, reading]
  split_ifs with harrow halpha
  · obtain ⟨tail, rfl⟩ := harrow
    rw [List.drop_left]
    exact .inl ⟨map_matched_iff.mpr ⟨arrowText, literal_matched_iff.mpr ⟨rfl, rfl⟩, rfl⟩, nofun⟩
  · obtain ⟨first, rest, rfl, hfirst⟩ := exists_letter halpha
    exact .inr ⟨refine_noMatch_iff.mpr (literal_noMatch_iff.mpr harrow), letters_matched hfirst⟩
  · exact .inr ⟨refine_noMatch_iff.mpr (literal_noMatch_iff.mpr harrow), letters_noMatch halpha⟩

-- The check is made on what is read, and changes nothing else

theorem parser_of_matched {read : Token} (h : reading input = .matched read tail)
    (hcheck : checkReserved read = .ok token) :
    ((parser : Parser ν Token) input).Gives (.ok (.matched token tail)) :=
  refine_matched_iff.mpr ⟨read, h ▸ tokenChoice_gives input, by simp [hcheck, Run.ofExcept, Run.pure]⟩

theorem parser_of_reserved {read : Token} {error : Error} (h : reading input = .matched read tail)
    (hcheck : checkReserved read = .error error) :
    ((parser : Parser ν Token) input).Gives (.error error) :=
  refine_error_of_matched (h ▸ tokenChoice_gives input) (by simp [hcheck, Run.ofExcept, Run.raise])

theorem parser_of_noMatch (h : reading input = .noMatch) :
    ((parser : Parser ν Token) input).Gives (.ok .noMatch) :=
  refine_noMatch_iff.mpr (h ▸ tokenChoice_gives input)

theorem checkReserved_cases (read : Token) :
    checkReserved read = .ok read ∨ checkReserved read = .error reservedWord := by
  cases read with
  | word text =>
    by_cases h : text = reservedText
    · exact .inr (if_pos h)
    · exact .inl (if_neg h)
  | arrow text => exact .inl rfl

-- A token is taken off the input byte by byte, and is never empty

theorem reading_text (h : reading input = .matched token tail) :
    token.text ++ tail = input ∧ token.text ≠ [] := by
  unfold reading at h
  split_ifs at h with harrow halpha
  · obtain ⟨rest, rfl⟩ := harrow
    cases h
    exact ⟨by rw [List.drop_left]; rfl, nofun⟩
  · cases h
    refine ⟨List.takeWhile_append_dropWhile, ?_⟩
    obtain ⟨first, rest, rfl, hfirst⟩ := exists_letter halpha
    rw [text, List.takeWhile_cons_of_pos (isAlnum_of_isAlpha hfirst)]
    nofun

theorem parser_text (h : ((parser : Parser ν Token) input).Gives (.ok (.matched token tail))) :
    token.text ++ tail = input ∧ token.text ≠ [] := by
  obtain ⟨read, hread, hcheck⟩ := refine_matched_iff.mp h
  have hreading := Except.ok.inj ((tokenChoice_gives input).unique hread)
  rcases checkReserved_cases read with hok | herror
  · rw [hok] at hcheck
    cases Run.ended_gives_iff.mp hcheck
    exact reading_text hreading
  · rw [herror] at hcheck
    cases Run.ended_gives_iff.mp hcheck

theorem parser_takes : (parser : Parser ν Token).Takes 1 := by
  intro input token tail h
  obtain ⟨rfl, hne⟩ := parser_text h
  have hlength := List.length_pos_of_ne_nil hne
  rw [List.length_append]
  omega

-- Tokens in a row are all that lies between the input and the last tail
theorem rounds_text {tokens : List Token}
    (h : Rounds (parser : Parser ν Token) input tokens tail) :
    tokens.flatMap text ++ tail = input := by
  induction h with
  | none input => rfl
  | next input token rest tokens tail hmatch hrest ih =>
    rw [List.flatMap_cons, List.append_assoc, ih]
    exact (parser_text hmatch).1

-- The last parse does not match, or finds the reserved word
theorem parser_stops
    (h : ∀ token tail, ¬ ((parser : Parser ν Token) input).Gives (.ok (.matched token tail))) :
    ((parser : Parser ν Token) input).Gives (.ok .noMatch) ∨
      ((parser : Parser ν Token) input).Gives (.error reservedWord) := by
  cases hreading : reading input with
  | noMatch => exact .inl (parser_of_noMatch hreading)
  | matched read tail =>
    rcases checkReserved_cases read with hok | herror
    · exact absurd (parser_of_matched hreading hok) (h read tail)
    · exact .inr (parser_of_reserved hreading herror)

-- The same with more rounds in the loop
def parserWith (more : Nat) : Parser ν Token :=
  (choice [(literal arrowText).map arrow,
    (both (satisfy ByteClass.isAlpha)
      (roundPerByte fun rounds => many (rounds + more) .heap (satisfy ByteClass.isAlnum))).map
        fun text => word (text.1 :: text.2)]).refine fun token =>
    Run.ofExcept (checkReserved token)

theorem exists_parser_gives (input : Bytes) :
    ∃ result, ((parser : Parser ν Token) input).Gives result := by
  by_cases h : ∃ token tail, ((parser : Parser ν Token) input).Gives (.ok (.matched token tail))
  · obtain ⟨token, tail, hmatch⟩ := h
    exact ⟨_, hmatch⟩
  · rcases parser_stops fun token tail hmatch => h ⟨token, tail, hmatch⟩ with hstop | hstop
    · exact ⟨_, hstop⟩
    · exact ⟨_, hstop⟩

theorem parserWith_eq (more : Nat) (input : Bytes) :
    (parserWith more : Parser ν Token) input = parser input := by
  have hloop : Approximates
      (roundPerByte fun rounds => many rounds .heap (satisfy ByteClass.isAlnum) : Parser ν Bytes)
      (roundPerByte fun rounds => many (rounds + more) .heap (satisfy ByteClass.isAlnum)) :=
    fun place =>
      (Approximates.refl (satisfy ByteClass.isAlnum)).many .heap (Nat.le_add_right _ more) place
  have hword := ((Approximates.refl (satisfy ByteClass.isAlpha)).both hloop).map
    fun text => word (text.1 :: text.2)
  have harms := (Approximates.refl ((literal arrowText).map arrow)).orElse
    (hword.orElse (.refl never))
  have happroximates : ((parser : Parser ν Token) input).Approximates (parserWith more input) :=
    (harms.refine fun token => Run.ofExcept (checkReserved token)) input
  obtain ⟨result, hresult⟩ := exists_parser_gives (ν := ν) input
  exact happroximates.eq_of_gives hresult

-- With a word in front, the check of the whole word decides
theorem parser_of_word (harrow : ¬ arrowText <+: input)
    (halpha : input.head?.any ByteClass.isAlpha) :
    (∀ error, ((parser : Parser ν Token) input).Gives (.error error) ↔
      input.takeWhile ByteClass.isAlnum = reservedText ∧ error = .custom "reserved word" []) ∧
    (input.takeWhile ByteClass.isAlnum ≠ reservedText →
      ((parser : Parser ν Token) input).Gives (.ok (.matched
        (.word (input.takeWhile ByteClass.isAlnum)) (input.dropWhile ByteClass.isAlnum)))) := by
  have hreading : reading input = .matched (.word (input.takeWhile ByteClass.isAlnum))
      (input.dropWhile ByteClass.isAlnum) := by rw [reading, if_neg harrow, if_pos halpha]
  by_cases hword : input.takeWhile ByteClass.isAlnum = reservedText
  · have hreserved := parser_of_reserved (ν := ν) hreading (if_pos hword)
    refine ⟨fun error => ⟨fun h => ⟨hword, ?_⟩, ?_⟩, fun hne => absurd hword hne⟩
    · cases h.unique hreserved
      rfl
    · rintro ⟨-, rfl⟩
      exact hreserved
  · have hmatched := parser_of_matched (ν := ν) hreading (if_neg hword)
    refine ⟨fun error => ⟨fun h => ?_, fun h => absurd h.1 hword⟩, fun _ => hmatched⟩
    cases h.unique hmatched

-- What is read from an input: an arrow, or else the longest word of letters and digits that starts
-- with a letter, unless the whole word is the reserved one, or else nothing. After a word there is
-- no letter or digit left. Any number of tokens that are parsed one after the other, each from
-- the tail of the one before it, are together with the last tail the input. Sooner or later
-- nothing matches or the reserved word comes up, and until then each parse shows one token. More
-- rounds make no difference.
theorem tokens_cut_input (input : Bytes) :
    (arrowText <+: input → ((parser : Parser ν Token) input).Gives
      (.ok (.matched (.arrow arrowText) (input.drop arrowText.length)))) ∧
    (¬ arrowText <+: input → ∀ first rest, input = first :: rest → ByteClass.isAlpha first →
      (∀ error, ((parser : Parser ν Token) input).Gives (.error error) ↔
        input.takeWhile ByteClass.isAlnum = reservedText ∧ error = .custom "reserved word" []) ∧
      (input.takeWhile ByteClass.isAlnum ≠ reservedText →
        ((parser : Parser ν Token) input).Gives (.ok (.matched
          (.word (input.takeWhile ByteClass.isAlnum)) (input.dropWhile ByteClass.isAlnum)))) ∧
      ∀ next, (input.dropWhile ByteClass.isAlnum).head? = some next →
        ByteClass.isAlnum next = false) ∧
    (¬ arrowText <+: input →
      (∀ first rest, input = first :: rest → ByteClass.isAlpha first = false) →
        ((parser : Parser ν Token) input).Gives (.ok .noMatch)) ∧
    (∀ tokens tail, Rounds (parser : Parser ν Token) input tokens tail →
      tokens.flatMap text ++ tail = input) ∧
    (∃ tokens tail runs, Rounds (parser : Parser ν Token) input tokens tail ∧
      (((parser : Parser ν Token) tail).Gives (.ok .noMatch) ∨
        ((parser : Parser ν Token) tail).Gives (.error (.custom "reserved word" []))) ∧
      List.Forall₂ (fun run token => ∃ rest, run.Gives (.ok (.matched token rest))) runs tokens ∧
      ∀ limit, successive (parser : Parser ν Token) limit input =
        (runs ++ [parser tail]).take limit) ∧
    ∀ more, (parserWith more : Parser ν Token) input = parser input := by
  refine ⟨?_, ?_, ?_, fun _ _ => rounds_text, ?_, fun more => parserWith_eq more input⟩
  · intro harrow
    exact parser_of_matched (by rw [reading, if_pos harrow]) rfl
  · rintro harrow first rest rfl halpha
    obtain ⟨hreserved, hword⟩ := parser_of_word (ν := ν) harrow (by simpa using halpha)
    refine ⟨hreserved, hword, fun next hnext => ?_⟩
    have hstop := List.head?_dropWhile_not ByteClass.isAlnum (first :: rest)
    rwa [hnext] at hstop
  · intro harrow halpha
    apply parser_of_noMatch
    rw [reading, if_neg harrow, if_neg]
    cases input with
    | nil => nofun
    | cons first rest => simp [halpha first rest rfl]
  · obtain ⟨tokens, tail, hrounds, hlast⟩ := exists_last_round (ν := ν) parser_takes input
    obtain ⟨runs, hruns, hlimit⟩ := exists_runs_of_rounds hrounds hlast
    exact ⟨tokens, tail, runs, hrounds, parser_stops hlast, hruns, hlimit⟩

-- "->y", "panic!", "panics", "1", and two tokens in "x1->-"
theorem tokens_cut_input_arrow :
    arrowText <+: [45, 62, 121] ∧
    ((parser : Parser Unit Token) [45, 62, 121]).Gives (.ok (.matched (.arrow arrowText) [121])) ∧
    ((parser : Parser Unit Token) [112, 97, 110, 105, 99, 33]).Gives
      (.error (.custom "reserved word" [])) ∧
    ((parser : Parser Unit Token) [112, 97, 110, 105, 99, 115]).Gives
      (.ok (.matched (.word [112, 97, 110, 105, 99, 115]) [])) ∧
    ((parser : Parser Unit Token) [49]).Gives (.ok .noMatch) ∧
    Rounds (parser : Parser Unit Token) [120, 49, 45, 62, 45] [.word [120, 49], .arrow arrowText]
      [45] ∧
    [.word [120, 49], .arrow arrowText].flatMap text ++ [45] = ([120, 49, 45, 62, 45] : Bytes) := by
  have harrow : ((parser : Parser Unit Token) [45, 62, 45]).Gives
      (.ok (.matched (.arrow arrowText) [45])) :=
    (tokens_cut_input (ν := Unit) [45, 62, 45]).1 (by decide)
  have hword : ((parser : Parser Unit Token) [120, 49, 45, 62, 45]).Gives
      (.ok (.matched (.word [120, 49]) [45, 62, 45])) :=
    ((tokens_cut_input (ν := Unit) [120, 49, 45, 62, 45]).2.1 (by decide) _ _ rfl
      (by decide)).2.1 (by decide)
  have hrounds := Rounds.next _ _ _ _ _ hword (.next _ _ _ _ _ harrow (.none _))
  refine ⟨by decide, (tokens_cut_input (ν := Unit) [45, 62, 121]).1 (by decide), ?_, ?_, ?_,
    hrounds, (tokens_cut_input (ν := Unit) _).2.2.2.1 _ _ hrounds⟩
  · exact (((tokens_cut_input (ν := Unit) [112, 97, 110, 105, 99, 33]).2.1 (by decide) _ _ rfl
      (by decide)).1 _).mpr ⟨by decide, rfl⟩
  · exact ((tokens_cut_input (ν := Unit) [112, 97, 110, 105, 99, 115]).2.1 (by decide) _ _ rfl
      (by decide)).2.1 (by decide)
  · refine (tokens_cut_input (ν := Unit) [49]).2.2.1 (by decide) fun first rest h => ?_
    cases h
    decide

end ByteGrammar.Format.Token
