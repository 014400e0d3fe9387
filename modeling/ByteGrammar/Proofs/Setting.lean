import ByteGrammar.Format.Setting
import ByteGrammar.Proofs.Decimal
import ByteGrammar.Proofs.Repetition.Limit

namespace ByteGrammar

namespace Parser

variable {ν : Type} {test : UInt8 → Bool} {input : Bytes}

theorem matchesInARow_satisfy_iff {count : Nat} :
    MatchesInARow (satisfy test : Parser ν UInt8) count input ↔
      count ≤ (input.takeWhile test).length := by
  simp only [MatchesInARow, rounds_satisfy_iff]
  constructor
  · rintro ⟨values, last, rfl, rfl, hpassed⟩
    rw [List.takeWhile_append_of_pos hpassed, List.length_append]
    omega
  · intro hcount
    refine ⟨(input.takeWhile test).take count, (input.takeWhile test).drop count ++
      input.dropWhile test, by simpa using hcount, ?_, ?_⟩
    · rw [← List.append_assoc, List.take_append_drop, List.takeWhile_append_dropWhile]
    · intro value hvalue
      exact List.all_eq_true.mp List.all_takeWhile value (List.mem_of_mem_take hvalue)

end Parser

namespace Format.Setting

open ByteGrammar.Parser

variable {ν : Type} {input tail : Bytes} {setting : Setting} {error : Error}

-- A setting as it is written, with these digits for its number
def written (setting : Setting) (digits : Bytes) : Bytes :=
  setting.key ++ equals :: (setting.sign.toList ++ digits)

theorem written_append (setting : Setting) (digits tail : Bytes) :
    setting.written digits ++ tail =
      setting.key ++ equals :: (setting.sign.toList ++ (digits ++ tail)) := by
  simp [written]

-- What a key and a sign may be
structure WellNamed (key : Bytes) (sign : Option UInt8) : Prop where
  key_ne_nil : key ≠ []
  key_length_le : key.length ≤ longestKey
  key_isLower : ∀ letter ∈ key, ByteClass.isLower letter
  sign_isSign : ∀ byte ∈ sign, isSign byte

-- Digits with this number
structure Denotes (digits : Bytes) (value : Int) : Prop where
  ne_nil : digits ≠ []
  isDigit : ∀ digit ∈ digits, ByteClass.isDigit digit
  number_eq : value = Format.number digits

theorem Denotes.leadingDigits_ne_nil {digits : Bytes} {value : Int} (h : Denotes digits value)
    (tail : Bytes) : leadingDigits (digits ++ tail) ≠ [] := by
  rw [leadingDigits_append h.isDigit]
  exact List.append_ne_nil_of_left_ne_nil h.ne_nil _

-- What may follow a setting
def closed (tail : Bytes) : Bool := tail.head?.all (· = semicolon)

-- The key is all the letters in front, or there are too many of them

theorem keyText_gives (input : Bytes) :
    ((keyText : Parser ν Bytes) input).Gives
      (if longestKey < (input.takeWhile ByteClass.isLower).length then
        .error (.storage (.limitExceeded longestKey))
      else .ok (if input.takeWhile ByteClass.isLower = [] then .noMatch
        else .matched (input.takeWhile ByteClass.isLower) (input.dropWhile ByteClass.isLower))) := by
  have hlength := (List.takeWhile_sublist (l := input) ByteClass.isLower).length_le
  rw [keyText, roundPerByte]
  by_cases hlong : longestKey < (input.takeWhile ByteClass.isLower).length
  · rw [if_pos hlong]
    exact many1_bounded_gives (matchesInARow_satisfy_iff.mpr hlong) (by omega)
  · have hfew : ¬ MatchesInARow (satisfy ByteClass.isLower : Parser ν UInt8) (longestKey + 1)
        input := fun hmatches => hlong (matchesInARow_satisfy_iff.mp hmatches)
    rw [if_neg hlong, many1_bounded_eq_heap hfew]
    exact many1_heap_satisfy_gives (Nat.le_succ input.length)

theorem keyText_matched_iff {key : Bytes} :
    ((keyText : Parser ν Bytes) input).Gives (.ok (.matched key tail)) ↔
      key ≠ [] ∧ key.length ≤ longestKey ∧ key = input.takeWhile ByteClass.isLower ∧
        tail = input.dropWhile ByteClass.isLower := by
  rw [(keyText_gives input).gives_iff]
  constructor
  · intro h
    split_ifs at h with hlong hempty <;> cases h
    exact ⟨hempty, not_lt.mp hlong, rfl, rfl⟩
  · rintro ⟨hne, hlength, rfl, rfl⟩
    rw [if_neg (not_lt.mpr hlength), if_neg hne]

theorem keyText_error_iff :
    ((keyText : Parser ν Bytes) input).Gives (.error error) ↔
      longestKey < (input.takeWhile ByteClass.isLower).length ∧
        error = .storage (.limitExceeded longestKey) := by
  rw [(keyText_gives input).gives_iff]
  split_ifs with hlong <;> simp [hlong]

-- The rest of a setting, each part by itself

theorem sign_matched_iff {sign : Option UInt8} :
    ((optional (satisfy isSign) : Parser ν (Option UInt8)) input).Gives (.ok (.matched sign tail)) ↔
      input = sign.toList ++ tail ∧ (∀ byte ∈ sign, isSign byte) ∧
        (sign = none → ∀ first, tail.head? = some first → isSign first = false) := by
  rw [optional_matched_iff]
  simp only [satisfy_matched_iff, satisfy_noMatch_iff]
  cases sign with
  | none =>
    constructor
    · rintro (⟨_, -, ⟨⟩⟩ | ⟨hnone, -, rfl⟩)
      exact ⟨rfl, nofun, fun _ => hnone⟩
    · rintro ⟨rfl, -, hnone⟩
      exact .inr ⟨hnone rfl, rfl, rfl⟩
  | some byte => simp

theorem closing_gives_iff {result : Except Error (Outcome Unit)} :
    ((choice [followedBy (byte semicolon), atEnd] : Parser ν Unit) input).Gives result ↔
      result = .ok (if closed input then .matched () input else .noMatch) := by
  cases input with
  | nil => simp [closed, choice, orElse, followedBy, byte, atEnd, Run.report, eq_comm]
  | cons first rest =>
    by_cases hfirst : first = semicolon <;>
      simp [closed, choice, orElse, followedBy, byte, atEnd, never, hfirst, eq_comm]

-- A digit is neither a sign nor the end of a setting

theorem not_isSign_of_isDigit {byte : UInt8} (h : ByteClass.isDigit byte) :
    isSign byte = false := by
  rw [isSign, Bool.or_eq_false_iff, decide_eq_false_iff_not, decide_eq_false_iff_not]
  constructor <;> rintro rfl <;> exact absurd h (by decide)

theorem closed_stops (h : closed tail) :
    ∀ first, tail.head? = some first → ByteClass.isDigit first = false := by
  intro first hfirst
  rw [closed, hfirst, Option.all_some, decide_eq_true_eq] at h
  rw [h]
  rfl

-- What stands in front of a number is a key and a sign. The key ends at the sign of equality, which
-- is no letter, and where digits follow, no sign is left in front of them.
theorem front_iff {key rest : Bytes} {sign : Option UInt8} (hdigits : leadingDigits rest ≠ []) :
    (∃ place, ((keyText : Parser ν Bytes) input).Gives (.ok (.matched key place)) ∧
      ∃ code more, ((byte equals : Parser ν UInt8) place).Gives (.ok (.matched code more)) ∧
        ((optional (satisfy isSign) : Parser ν (Option UInt8)) more).Gives
          (.ok (.matched sign rest))) ↔
      WellNamed key sign ∧ input = key ++ equals :: (sign.toList ++ rest) := by
  simp only [keyText_matched_iff, byte_matched_iff, sign_matched_iff]
  constructor
  · rintro ⟨place, ⟨hne, hlength, hkey, hplace⟩, _, _, ⟨rfl, -⟩, rfl, hsign, -⟩
    have hlower : ∀ letter ∈ key, ByteClass.isLower letter :=
      hkey ▸ List.all_eq_true.mp List.all_takeWhile
    refine ⟨⟨hne, hlength, hlower, hsign⟩, ?_⟩
    rw [hplace, hkey, List.takeWhile_append_dropWhile]
  · rintro ⟨⟨hne, hlength, hlower, hsign⟩, rfl⟩
    have htaken : (equals :: (sign.toList ++ rest)).takeWhile ByteClass.isLower = [] := rfl
    refine ⟨equals :: (sign.toList ++ rest), ⟨hne, hlength, ?_, ?_⟩, equals, _, ⟨rfl, rfl⟩, rfl,
      hsign, fun _ => ?_⟩
    · rw [List.takeWhile_append_of_pos hlower, htaken, List.append_nil]
    · rw [List.dropWhile_append_of_pos hlower]
      rfl
    · obtain ⟨first, others, rfl, hfirst⟩ := exists_first_of_takeWhile hdigits
      rintro _ ⟨⟩
      exact not_isSign_of_isDigit hfirst

theorem greatestNumber_le : ((255 : Nat) : Int) ≤ Word.greatest := by decide

theorem decimal_setting_matched_iff {value : Int} :
    ((decimal greatestNumber : Parser ν Int) input).Gives (.ok (.matched value tail)) ↔
      Denotes (leadingDigits input) value ∧ value ≤ greatestNumber ∧
        input = leadingDigits input ++ tail := by
  rw [greatestNumber, ← Nat.cast_ofNat, decimal_matched_iff greatestNumber_le]
  constructor
  · rintro ⟨hne, hvalue, rfl, hinput⟩
    exact ⟨⟨hne, isDigit_of_mem_leadingDigits input, rfl⟩, Int.ofNat_le.mpr hvalue, hinput⟩
  · rintro ⟨⟨hne, -, rfl⟩, hvalue, hinput⟩
    exact ⟨hne, Int.ofNat_le.mp hvalue, rfl, hinput⟩

theorem decimal_setting_error_iff :
    ((decimal greatestNumber : Parser ν Int) input).Gives (.error error) ↔
      greatestNumber < Format.number (leadingDigits input) ∧ error = Decimal.outOfRange := by
  rw [greatestNumber, ← Nat.cast_ofNat, decimal_error_iff greatestNumber_le, Nat.cast_lt]

-- A setting is read off its key, its sign and its digits, and nothing else is read as one
theorem parser_matched_iff :
    ((parser : Parser ν Setting) input).Gives (.ok (.matched setting tail)) ↔
      WellNamed setting.key setting.sign ∧ setting.number ≤ greatestNumber ∧ closed tail ∧
        ∃ digits, Denotes digits setting.number ∧ input = setting.written digits ++ tail := by
  simp only [parser, andThen_matched_iff, map_matched_iff, decimal_setting_matched_iff,
    closing_gives_iff]
  constructor
  · rintro ⟨key, place, hkey, code, more, hcode, sign, rest, hsign, number, last,
      ⟨hdenotes, hnumber, hrest⟩, _, hclosing, rfl⟩
    split_ifs at hclosing with hclosed <;> cases hclosing
    obtain ⟨hnamed, hinput⟩ :=
      (front_iff hdenotes.ne_nil).mp ⟨place, hkey, code, more, hcode, hsign⟩
    refine ⟨hnamed, hnumber, hclosed, leadingDigits rest, hdenotes, ?_⟩
    rw [written_append, ← hrest]
    exact hinput
  · rintro ⟨hnamed, hnumber, hclosed, digits, hdenotes, rfl⟩
    obtain ⟨place, hkey, code, more, hcode, hsign⟩ :=
      (front_iff (hdenotes.leadingDigits_ne_nil tail)).mpr
        ⟨hnamed, setting.written_append digits tail⟩
    refine ⟨_, place, hkey, code, more, hcode, _, _, hsign, setting.number, tail, ?_, (), ?_, rfl⟩
    · rw [leadingDigits_append_of_stop hdenotes.isDigit (closed_stops hclosed)]
      exact ⟨hdenotes, hnumber, rfl⟩
    · rw [if_pos hclosed]

-- There is an error if a key is too long, or a number too large, and for no other reason
theorem parser_error_iff :
    ((parser : Parser ν Setting) input).Gives (.error error) ↔
      (longestKey < (input.takeWhile ByteClass.isLower).length ∧
        error = .storage (.limitExceeded longestKey)) ∨
      error = Decimal.outOfRange ∧ ∃ (setting : Setting) (digits tail : Bytes),
        WellNamed setting.key setting.sign ∧ greatestNumber < setting.number ∧
          Denotes digits setting.number ∧ input = setting.written digits ++ tail := by
  have hequals (place : Bytes) : ¬ ((byte equals : Parser ν UInt8) place).Gives (.error error) :=
    (byte_answers equals place).not_gives_error error
  have hsigns (place : Bytes) :
      ¬ ((optional (satisfy isSign) : Parser ν (Option UInt8)) place).Gives (.error error) :=
    (satisfy_answers isSign place).optional.not_gives_error error
  have hclosing (place : Bytes) (key : Bytes) (sign : Option UInt8) (number : Int) :
      ¬ (((choice [followedBy (byte semicolon), atEnd] : Parser ν Unit).map
        fun _ => (⟨key, sign, number⟩ : Setting)) place).Gives (.error error) :=
    (Answers.map ⟨_, closing_gives_iff.mpr rfl⟩ _).not_gives_error error
  simp only [parser, andThen_error_iff, keyText_error_iff, hequals, hsigns, hclosing,
    decimal_setting_error_iff, false_or, and_false, exists_false, or_false]
  apply or_congr_right
  constructor
  · rintro ⟨key, place, hkey, code, more, hcode, sign, rest, hsign, hnumber, rfl⟩
    have hdigits : leadingDigits rest ≠ [] := by
      intro hnone
      rw [hnone] at hnumber
      exact absurd hnumber (by decide)
    obtain ⟨hnamed, hinput⟩ := (front_iff hdigits).mp ⟨place, hkey, code, more, hcode, hsign⟩
    refine ⟨rfl, ⟨key, sign, Format.number (leadingDigits rest)⟩, leadingDigits rest,
      rest.dropWhile ByteClass.isDigit, hnamed, hnumber,
      ⟨hdigits, isDigit_of_mem_leadingDigits rest, rfl⟩, ?_⟩
    have hrest : rest = leadingDigits rest ++ rest.dropWhile ByteClass.isDigit :=
      eq_leadingDigits_append_iff.mpr rfl
    rw [written_append, ← hrest]
    exact hinput
  · rintro ⟨rfl, setting, digits, tail, hnamed, hnumber, hdenotes, rfl⟩
    obtain ⟨place, hkey, code, more, hcode, hsign⟩ :=
      (front_iff (hdenotes.leadingDigits_ne_nil tail)).mpr
        ⟨hnamed, setting.written_append digits tail⟩
    refine ⟨_, place, hkey, code, more, hcode, _, _, hsign, ?_, rfl⟩
    calc greatestNumber < setting.number := hnumber
      _ = Format.number digits := hdenotes.number_eq
      _ ≤ Format.number (leadingDigits (digits ++ tail)) :=
        Int.ofNat_le.mpr (number_le_leadingDigits hdenotes.isDigit tail)

theorem parser_ends (input : Bytes) :
    ∃ result, ((parser : Parser ν Setting) input).Gives result := by
  refine exists_andThen_gives ⟨_, keyText_gives input⟩ fun key place _ => ?_
  obtain ⟨outcome, hequals⟩ := byte_answers (ν := ν) equals place
  refine exists_andThen_gives ⟨_, hequals⟩ fun code more _ => ?_
  obtain ⟨outcome, hsign⟩ := (satisfy_answers (ν := ν) isSign more).optional
  refine exists_andThen_gives ⟨_, hsign⟩ fun sign rest _ => ?_
  refine exists_andThen_gives ⟨_, (decimal_gives_iff greatestNumber_le rest).mpr rfl⟩
    fun number last _ => ?_
  obtain ⟨outcome, hclosing⟩ := Answers.map ⟨_, closing_gives_iff.mpr rfl⟩ fun _ =>
    (⟨key, sign, number⟩ : Setting)
  exact ⟨_, hclosing⟩

-- Every parse ends, and what it matches is what is written: a short key, a sign or none, and digits
-- that end where the setting is closed, however many zeros they start with. Only a key that is too
-- long and a number that is too large are errors. The length of the key is held against its limit
-- before anything after the key is looked at, and the number before what follows it.
theorem settings_read_as_written (input : Bytes) :
    (∀ setting tail, ((parser : Parser ν Setting) input).Gives (.ok (.matched setting tail)) ↔
      WellNamed setting.key setting.sign ∧ setting.number ≤ greatestNumber ∧ closed tail ∧
        ∃ digits, Denotes digits setting.number ∧ input = setting.written digits ++ tail) ∧
    (∀ error, ((parser : Parser ν Setting) input).Gives (.error error) ↔
      (longestKey < (input.takeWhile ByteClass.isLower).length ∧
        error = .storage (.limitExceeded longestKey)) ∨
      error = Decimal.outOfRange ∧ ∃ (setting : Setting) (digits tail : Bytes),
        WellNamed setting.key setting.sign ∧ greatestNumber < setting.number ∧
          Denotes digits setting.number ∧ input = setting.written digits ++ tail) ∧
    ∃ result, ((parser : Parser ν Setting) input).Gives result :=
  ⟨fun _ _ => parser_matched_iff, fun _ => parser_error_iff, parser_ends input⟩

-- A setting with its number as it is printed reads back
theorem parser_reads_printed {value : Nat} (hnamed : WellNamed setting.key setting.sign)
    (hnumber : setting.number = value) (hvalue : setting.number ≤ greatestNumber)
    (hclosed : closed tail) :
    ((parser : Parser ν Setting) (setting.written (printed value) ++ tail)).Gives
      (.ok (.matched setting tail)) := by
  have hdenotes : Denotes (printed value) setting.number :=
    ⟨printed_ne_nil value, isDigit_of_mem_printed value, by rw [number_printed, hnumber]⟩
  exact parser_matched_iff.mpr ⟨hnamed, hvalue, hclosed, _, hdenotes, rfl⟩

-- "ab=+12;", "abcde=1" and "a=256"
example :
    ((parser : Parser Unit Setting) [97, 98, 61, 43, 49, 50, 59]).Gives
      (.ok (.matched ⟨[97, 98], some 43, 12⟩ [59])) ∧
    ((parser : Parser Unit Setting) [97, 98, 99, 100, 101, 61, 49]).Gives
      (.error (.storage (.limitExceeded 4))) ∧
    ((parser : Parser Unit Setting) [97, 61, 50, 53, 54]).Gives (.error Decimal.outOfRange) :=
  ⟨⟨_, rfl⟩, ⟨_, rfl⟩, ⟨_, rfl⟩⟩

end Format.Setting

end ByteGrammar
