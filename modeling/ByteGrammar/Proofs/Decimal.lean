import ByteGrammar.Format.Decimal
import ByteGrammar.Proofs.Parser.Matches
import Mathlib.Data.List.Induction
import Mathlib.Data.Nat.Digits.Defs

namespace ByteGrammar.Format

open ByteGrammar.Parser

variable {ν : Type}

-- The number that digits stand for, however many there are. The last of them counts least.
def number (digits : Bytes) : Nat :=
  Nat.ofDigits 10 (digits.reverse.map fun digit => digit.toNat - 48)

-- All the digits that an input starts with
def leadingDigits (input : Bytes) : Bytes := input.takeWhile ByteClass.isDigit

-- A number as it is printed
def printed (value : Nat) : Bytes := (toString value).toList.map Char.toUInt8

theorem isDigit_iff {byte : UInt8} :
    ByteClass.isDigit byte ↔ 48 ≤ byte.toNat ∧ byte.toNat ≤ 57 := by
  simp [ByteClass.isDigit, UInt8.le_iff_toNat_le]

theorem number_append_digit (digits : Bytes) (digit : UInt8) :
    number (digits ++ [digit]) = number digits * 10 + (digit.toNat - 48) := by
  simp only [number, List.reverse_append, List.reverse_singleton, List.singleton_append,
    List.map_cons, Nat.ofDigits_cons]
  omega

-- More digits on the right never make a number smaller
theorem number_le_append (digits more : Bytes) : number digits ≤ number (digits ++ more) := by
  induction more using List.reverseRecOn with
  | nil => rw [List.append_nil]
  | append_singleton more digit ih =>
    rw [← List.append_assoc, number_append_digit]
    omega

-- What is printed, from the last digit on

theorem printed_of_lt {value : Nat} (h : value < 10) : printed value = [UInt8.ofNat (48 + value)] := by
  have hdigits : (toString value).toList = [value.digitChar] := by
    rw [Nat.toString_eq_repr, Nat.toList_repr, Nat.toDigits_of_lt_base h]
  rw [printed, hdigits, List.map_singleton, ← Nat.toNat_digitChar_of_lt_ten h]
  rfl

theorem printed_of_le {value : Nat} (h : 10 ≤ value) :
    printed value = printed (value / 10) ++ printed (value % 10) := by
  have hdigits : (toString value).toList = (toString (value / 10)).toList ++
      (toString (value % 10)).toList := by
    simp only [Nat.toString_eq_repr, Nat.toList_repr]
    rw [Nat.toDigits_of_base_le (by decide) h,
      Nat.toDigits_of_lt_base (Nat.mod_lt value (by decide))]
  simp only [printed, hdigits, List.map_append]

theorem isDigit_of_mem_printed (value : Nat) : ∀ digit ∈ printed value, ByteClass.isDigit digit := by
  induction value using Nat.strong_induction_on with
  | _ value ih =>
    by_cases h : value < 10
    · rw [printed_of_lt h, List.forall_mem_singleton, isDigit_iff, UInt8.toNat_ofNat']
      omega
    · rw [printed_of_le (by omega), List.forall_mem_append]
      exact ⟨ih _ (by omega), ih _ (by omega)⟩

theorem number_printed (value : Nat) : number (printed value) = value := by
  induction value using Nat.strong_induction_on with
  | _ value ih =>
    by_cases h : value < 10
    · rw [printed_of_lt h, number]
      simp
      omega
    · have hlast : value % 10 < 10 := Nat.mod_lt value (by decide)
      rw [printed_of_le (by omega), printed_of_lt hlast, number_append_digit, ih _ (by omega),
        UInt8.toNat_ofNat']
      omega

theorem printed_ne_nil (value : Nat) : printed value ≠ [] := by
  by_cases h : value < 10
  · rw [printed_of_lt h]
    nofun
  · have hlast : value % 10 < 10 := Nat.mod_lt value (by decide)
    rw [printed_of_le (by omega), printed_of_lt hlast]
    exact List.append_ne_nil_of_right_ne_nil _ nofun

-- Appending is exact where it does not fail
theorem append?_eq_some_iff {limit value code next : Int} :
    Decimal.append? limit value code = some next ↔
      (Word.least ≤ value * 10 ∧ value * 10 ≤ Word.greatest) ∧
      (Word.least ≤ code - 48 ∧ code - 48 ≤ Word.greatest) ∧
      (Word.least ≤ next ∧ next ≤ Word.greatest) ∧
      next = value * 10 + (code - 48) ∧ next ≤ limit := by
  simp only [Decimal.append?, bind, Option.bind_eq_some_iff, Word.checked?_eq_some_iff,
    Option.ite_none_right_eq_some, Option.some.injEq]
  constructor
  · rintro ⟨_, ⟨rfl, htens⟩, _, ⟨rfl, hdigit⟩, _, ⟨rfl, hnext⟩, hlimit, rfl⟩
    exact ⟨htens, hdigit, hnext, rfl, hlimit⟩
  · rintro ⟨htens, hdigit, hnext, rfl, hlimit⟩
    exact ⟨_, ⟨rfl, htens⟩, _, ⟨rfl, hdigit⟩, _, ⟨rfl, hnext⟩, hlimit, rfl⟩

-- What a row of digits in front of an input is read as, if none is also a number
def exactReading (limit : Nat) (input : Bytes) : Except Error (Outcome Int) :=
  if number (leadingDigits input) ≤ limit then
    .ok (.matched (number (leadingDigits input)) (input.dropWhile ByteClass.isDigit))
  else .error Decimal.outOfRange

theorem number_nil : number [] = 0 := rfl

theorem leadingDigits_eq_nil_iff {input : Bytes} :
    leadingDigits input = [] ↔
      ∀ first, input.head? = some first → ByteClass.isDigit first = false :=
  takeWhile_eq_nil_iff_head?

theorem leadingDigits_append {digits : Bytes} (hdigits : ∀ digit ∈ digits, ByteClass.isDigit digit)
    (tail : Bytes) : leadingDigits (digits ++ tail) = digits ++ leadingDigits tail :=
  List.takeWhile_append_of_pos hdigits

-- Digits are the leading ones if none follows
theorem leadingDigits_append_of_stop {digits tail : Bytes}
    (hdigits : ∀ digit ∈ digits, ByteClass.isDigit digit)
    (htail : ∀ first, tail.head? = some first → ByteClass.isDigit first = false) :
    leadingDigits (digits ++ tail) = digits := by
  rw [leadingDigits_append hdigits, leadingDigits_eq_nil_iff.mpr htail, List.append_nil]

theorem isDigit_of_mem_leadingDigits (input : Bytes) :
    ∀ digit ∈ leadingDigits input, ByteClass.isDigit digit :=
  List.all_eq_true.mp List.all_takeWhile

-- More digits may follow those of a number, which do not make it smaller
theorem number_le_leadingDigits {digits : Bytes}
    (hdigits : ∀ digit ∈ digits, ByteClass.isDigit digit) (tail : Bytes) :
    number digits ≤ number (leadingDigits (digits ++ tail)) := by
  rw [leadingDigits_append hdigits]
  exact number_le_append digits _

theorem decimal_gives_iff_of_no_digit {limit : Int} {input : Bytes} (h : leadingDigits input = [])
    {result : Except Error (Outcome Int)} :
    ((decimal limit : Parser ν Int) input).Gives result ↔ result = .ok .noMatch := by
  have hstop : ((decimalDigit : Parser ν UInt8) input).Gives (.ok .noMatch) :=
    satisfy_noMatch_iff.mpr (leadingDigits_eq_nil_iff.mp h)
  obtain ⟨own, hstop⟩ := hstop
  simp [decimal, roundPerByte, foldMany1, hstop, Run.report, eq_comm]

theorem eq_leadingDigits_append_iff {input tail : Bytes} :
    input = leadingDigits input ++ tail ↔ tail = input.dropWhile ByteClass.isDigit := by
  have hinput : leadingDigits input ++ input.dropWhile ByteClass.isDigit = input :=
    List.takeWhile_append_dropWhile
  constructor
  · intro h
    exact List.append_cancel_left (h.symm.trans hinput.symm)
  · rintro rfl
    exact hinput.symm

theorem foldMany_decimal_ne_unfinished (limit : Int) {input : Bytes} {rounds : Nat}
    (hrounds : input.length < rounds) :
    (foldMany rounds decimalDigit (pure 0) (decimalStep limit) input : Run ν (Outcome Int)) ≠
      .unfinished := by
  have hseed : (pure 0 : Run ν Int) ≠ .unfinished := nofun
  apply Run.bind_ne_unfinished hseed
  intro seed _
  apply Run.bind_ne_unfinished
  · exact foldRounds_ne_unfinished (satisfy_ne_unfinished _) (decimalStep_ne_unfinished limit)
      (fun _ _ _ => satisfy_shorter) hrounds
  · exact fun _ _ => nofun

section Exact

variable {limit : Nat} (hlimit : (limit : Int) ≤ Word.greatest)
include hlimit

-- One more digit. Where a step does not fit in 64 bits, the number is above the limit.
theorem append_eq {value : Nat} (hvalue : value ≤ limit) {digit : UInt8}
    (hdigit : ByteClass.isDigit digit) :
    Decimal.append limit value digit.toNat =
      if value * 10 + (digit.toNat - 48) ≤ limit then
        .ok ((value * 10 + (digit.toNat - 48) : Nat) : Int)
      else .error Decimal.outOfRange := by
  obtain ⟨hlow, hhigh⟩ := isDigit_iff.mp hdigit
  unfold Word.greatest at hlimit
  have hsome {next : Int} : Decimal.append? limit value digit.toNat = some next ↔
      next = (value * 10 + (digit.toNat - 48) : Nat) ∧ value * 10 + (digit.toNat - 48) ≤ limit := by
    rw [append?_eq_some_iff]
    unfold Word.least Word.greatest
    omega
  unfold Decimal.append
  split_ifs with hfits
  · rw [hsome.mpr ⟨rfl, hfits⟩]
  · have hnone : Decimal.append? limit value digit.toNat = none :=
      Option.eq_none_iff_forall_not_mem.mpr fun next hnext => hfits (hsome.mp hnext).2
    rw [hnone]

theorem decimalStep_gives_ok_iff {value : Nat} (hvalue : value ≤ limit) {digit : UInt8}
    (hdigit : ByteClass.isDigit digit) {next : Int} :
    (decimalStep limit value digit : Run ν Int).Gives (.ok next) ↔
      value * 10 + (digit.toNat - 48) ≤ limit ∧
        next = (value * 10 + (digit.toNat - 48) : Nat) := by
  rw [decimalStep, append_eq hlimit hvalue hdigit]
  split_ifs with hfits <;> simp [Run.ofExcept, Run.pure, Run.raise, hfits, eq_comm]

theorem decimalStep_gives_error_iff {value : Nat} (hvalue : value ≤ limit) {digit : UInt8}
    (hdigit : ByteClass.isDigit digit) {error : Error} :
    (decimalStep limit value digit : Run ν Int).Gives (.error error) ↔
      limit < value * 10 + (digit.toNat - 48) ∧ error = Decimal.outOfRange := by
  rw [decimalStep, append_eq hlimit hvalue hdigit, ← not_le]
  split_ifs with hfits <;> simp [Run.ofExcept, Run.pure, Run.raise, hfits, eq_comm]

-- Every accumulator is the exact number of the digits so far, by induction on the last of them. A
-- number within the limit has only had such accumulators.
theorem foldlM_decimalStep_gives_ok_iff {digits : Bytes}
    (hdigits : ∀ digit ∈ digits, ByteClass.isDigit digit) {total : Int} :
    (digits.foldlM (decimalStep limit) 0 : Run ν Int).Gives (.ok total) ↔
      number digits ≤ limit ∧ total = number digits := by
  induction digits using List.reverseRecOn generalizing total with
  | nil => simp [number, eq_comm]
  | append_singleton digits digit ih =>
    rw [List.forall_mem_append, List.forall_mem_singleton] at hdigits
    obtain ⟨hdigits, hdigit⟩ := hdigits
    rw [List.foldlM_append, Run.bind_gives_ok_iff, number_append_digit]
    simp only [ih hdigits, List.foldlM_cons, List.foldlM_nil, bind_pure]
    constructor
    · rintro ⟨_, ⟨hvalue, rfl⟩, hstep⟩
      exact (decimalStep_gives_ok_iff hlimit hvalue hdigit).mp hstep
    · rintro ⟨hnumber, rfl⟩
      have hvalue : number digits ≤ limit := by omega
      exact ⟨_, ⟨hvalue, rfl⟩, (decimalStep_gives_ok_iff hlimit hvalue hdigit).mpr ⟨hnumber, rfl⟩⟩

-- The accumulators of the loop itself are those of the digits it has gone over
theorem held_eq_number {digits place : Bytes} {input : Bytes} {held : Int}
    (hrounds : Rounds (decimalDigit : Parser ν UInt8) input digits place)
    (hheld : (digits.foldlM (decimalStep limit) 0 : Run ν Int).Gives (.ok held)) :
    number digits ≤ limit ∧ held = number digits :=
  (foldlM_decimalStep_gives_ok_iff hlimit (rounds_satisfy_iff.mp hrounds).2).mp hheld

-- A round fails only where the digit in front makes the number too large
theorem roundFails_decimalStep {digits place : Bytes} {input : Bytes} {held : Int} {error : Error}
    (hrounds : Rounds (decimalDigit : Parser ν UInt8) input digits place)
    (hheld : (digits.foldlM (decimalStep limit) 0 : Run ν Int).Gives (.ok held))
    (hfails : RoundFails (decimalDigit : Parser ν UInt8) (decimalStep limit) held place error) :
    limit < number (leadingDigits input) ∧ error = Decimal.outOfRange := by
  obtain ⟨hvalue, rfl⟩ := held_eq_number hlimit hrounds hheld
  obtain ⟨rfl, hdigits⟩ := rounds_satisfy_iff.mp hrounds
  rcases hfails with hnever | ⟨digit, tail, hmatch, hstep⟩
  · obtain ⟨outcome, hanswer⟩ := satisfy_answers (ν := ν) ByteClass.isDigit place
    cases hanswer.unique hnever
  · obtain ⟨rfl, hdigit⟩ := satisfy_matched_iff.mp hmatch
    obtain ⟨hlarge, rfl⟩ := (decimalStep_gives_error_iff hlimit hvalue hdigit).mp hstep
    refine ⟨?_, rfl⟩
    have hpassed : ∀ passed ∈ digits ++ [digit], ByteClass.isDigit passed :=
      List.forall_mem_append.mpr ⟨hdigits, List.forall_mem_singleton.mpr hdigit⟩
    calc limit < number (digits ++ [digit]) := by rwa [number_append_digit]
      _ ≤ number (leadingDigits (digits ++ [digit] ++ tail)) := number_le_leadingDigits hpassed tail
      _ = number (leadingDigits (digits ++ digit :: tail)) := by
        rw [List.append_assoc, List.singleton_append]

theorem foldMany_decimal_gives (input : Bytes) {rounds : Nat} (hrounds : input.length < rounds) :
    (foldMany rounds decimalDigit (pure 0) (decimalStep limit) input : Run ν (Outcome Int)).Gives
      (exactReading limit input) := by
  obtain ⟨result, hresult⟩ := Run.exists_gives_of_ne_unfinished
    (foldMany_decimal_ne_unfinished (ν := ν) limit hrounds)
  suffices result = exactReading limit input by rwa [← this]
  match result with
  | .ok (.matched total tail) =>
    obtain ⟨_, hseed, hloop⟩ := foldMany_gives_ok_iff.mp hresult
    cases Run.ended_gives_iff.mp hseed
    obtain ⟨digits, -, hdigits, hstop, htotal⟩ := foldRounds_gives_ok_iff.mp hloop
    obtain ⟨hnumber, rfl⟩ := held_eq_number hlimit hdigits htotal
    obtain ⟨rfl, rfl⟩ := rounds_satisfy_stop_iff.mp ⟨hdigits, hstop⟩
    exact (if_pos hnumber).symm
  | .ok .noMatch => exact absurd ⟨rounds, hresult⟩ not_folds_noMatch
  | .error error =>
    rcases foldMany_gives_error_iff.mp hresult with hseed | ⟨_, hseed, hloop⟩
    · cases Run.ended_gives_iff.mp hseed
    · cases Run.ended_gives_iff.mp hseed
      obtain ⟨digits, place, held, -, hdigits, hheld, hfails⟩ := foldRounds_gives_error_iff.mp hloop
      obtain ⟨hlarge, rfl⟩ := roundFails_decimalStep hlimit hdigits hheld hfails
      exact (if_neg (not_le.mpr hlarge)).symm

-- With digits in front, the two forms are alike, and without any, one of them reads zero

theorem decimalOrZero_gives_iff (input : Bytes) {result : Except Error (Outcome Int)} :
    ((decimalOrZero limit : Parser ν Int) input).Gives result ↔ result = exactReading limit input := by
  have hexact := foldMany_decimal_gives (ν := ν) hlimit input input.length.lt_succ_self
  exact hexact.gives_iff

theorem decimal_gives_iff_of_digit {first : UInt8} {rest : Bytes}
    (hfirst : ByteClass.isDigit first) {result : Except Error (Outcome Int)} :
    ((decimal limit : Parser ν Int) (first :: rest)).Gives result ↔
      result = exactReading limit (first :: rest) := by
  have hmatch : ((decimalDigit : Parser ν UInt8) (first :: rest)).Gives
      (.ok (.matched first rest)) := satisfy_matched_iff.mpr ⟨rfl, hfirst⟩
  have hexact := foldMany_decimal_gives (ν := ν) hlimit (first :: rest)
    (Nat.lt_succ_of_lt (Nat.lt_succ_self _))
  rw [decimal, roundPerByte, foldMany1_gives_iff_of_match hmatch]
  exact hexact.gives_iff

theorem decimal_gives_iff (input : Bytes) {result : Except Error (Outcome Int)} :
    ((decimal limit : Parser ν Int) input).Gives result ↔
      result = if leadingDigits input = [] then .ok .noMatch else exactReading limit input := by
  split_ifs with hempty
  · exact decimal_gives_iff_of_no_digit hempty
  · obtain ⟨first, rest, rfl, hfirst⟩ := exists_first_of_takeWhile hempty
    exact decimal_gives_iff_of_digit hlimit hfirst

theorem decimal_noMatch_iff (input : Bytes) :
    ((decimal limit : Parser ν Int) input).Gives (.ok .noMatch) ↔ leadingDigits input = [] := by
  rw [decimal_gives_iff hlimit, exactReading]
  split_ifs with hempty hnumber <;> simp [hempty]

theorem decimal_error_iff (input : Bytes) {error : Error} :
    ((decimal limit : Parser ν Int) input).Gives (.error error) ↔
      limit < number (leadingDigits input) ∧ error = Decimal.outOfRange := by
  rw [decimal_gives_iff hlimit, exactReading]
  split_ifs with hempty hnumber
  · simp [hempty, number_nil]
  · simp [hnumber]
  · simp [not_le.mp hnumber]

theorem decimal_matched_iff (input : Bytes) {total : Int} {tail : Bytes} :
    ((decimal limit : Parser ν Int) input).Gives (.ok (.matched total tail)) ↔
      leadingDigits input ≠ [] ∧ number (leadingDigits input) ≤ limit ∧
        total = number (leadingDigits input) ∧ input = leadingDigits input ++ tail := by
  rw [decimal_gives_iff hlimit, exactReading, eq_leadingDigits_append_iff]
  split_ifs with hempty hnumber
  · simp [hempty]
  · simp [hempty, hnumber]
  · simp [hnumber]

-- There are enough rounds: with more of them the parse is the same

theorem decimal_eq_more (input : Bytes) (more : Nat) :
    foldMany1 (input.length + 1 + more) decimalDigit (pure 0) (decimalStep limit) input =
      (decimal limit : Parser ν Int) input := by
  have happroximates := (Approximates.refl (decimalDigit : Parser ν UInt8)).foldMany1 (pure 0)
    (decimalStep limit) (Nat.le_add_right (input.length + 1) more) input
  exact happroximates.eq_of_gives ((decimal_gives_iff hlimit input).mpr rfl)

theorem decimalOrZero_eq_more (input : Bytes) (more : Nat) :
    foldMany (input.length + 1 + more) decimalDigit (pure 0) (decimalStep limit) input =
      (decimalOrZero limit : Parser ν Int) input := by
  have happroximates := (Approximates.refl (decimalDigit : Parser ν UInt8)).foldMany (pure 0)
    (decimalStep limit) (Nat.le_add_right (input.length + 1) more) input
  exact happroximates.eq_of_gives ((decimalOrZero_gives_iff hlimit input).mpr rfl)

theorem decimal_reads_printed {value : Nat} (hvalue : value ≤ limit) {tail : Bytes}
    (htail : ∀ first, tail.head? = some first → ByteClass.isDigit first = false) :
    ((decimal limit : Parser ν Int) (printed value ++ tail)).Gives
      (.ok (.matched value tail)) := by
  have hleading := leadingDigits_append_of_stop (isDigit_of_mem_printed value) htail
  have hrest : tail = (printed value ++ tail).dropWhile ByteClass.isDigit :=
    eq_leadingDigits_append_iff.mp (by rw [hleading])
  rw [decimal_gives_iff hlimit, hleading, if_neg (printed_ne_nil value), exactReading, hleading,
    number_printed, if_pos hvalue, ← hrest]

end Exact

-- A number is read exactly, however long it is and however many zeros it starts with, or it is
-- an error because it is above the limit. No accumulator on the way is anything but the number of
-- the digits so far, and none is above the limit. Without digits one form does not match and the
-- other reads zero; apart from that they agree. So what is printed reads back, if it is not above
-- the limit and no digit follows. More rounds make no difference.
theorem decimal_is_exact {limit : Nat} (hlimit : (limit : Int) ≤ Word.greatest) (input : Bytes) :
    (((decimal limit : Parser ν Int) input).Gives (.ok .noMatch) ↔ leadingDigits input = []) ∧
    (∀ error, ((decimal limit : Parser ν Int) input).Gives (.error error) ↔
      limit < number (leadingDigits input) ∧ error = .custom "number out of range" []) ∧
    (∀ total tail, ((decimal limit : Parser ν Int) input).Gives (.ok (.matched total tail)) ↔
      leadingDigits input ≠ [] ∧ number (leadingDigits input) ≤ limit ∧
        total = number (leadingDigits input) ∧ input = leadingDigits input ++ tail) ∧
    (leadingDigits input = [] →
      ((decimalOrZero limit : Parser ν Int) input).Gives (.ok (.matched 0 input))) ∧
    (leadingDigits input ≠ [] → ∀ result,
      ((decimalOrZero limit : Parser ν Int) input).Gives result ↔
        ((decimal limit : Parser ν Int) input).Gives result) ∧
    (∀ value ≤ limit, ∀ tail,
      (∀ first, tail.head? = some first → ByteClass.isDigit first = false) →
        ((decimal limit : Parser ν Int) (printed value ++ tail)).Gives
          (.ok (.matched value tail))) ∧
    (∀ digits place held, Rounds (decimalDigit : Parser ν UInt8) input digits place →
      (digits.foldlM (decimalStep limit) 0 : Run ν Int).Gives (.ok held) →
        number digits ≤ limit ∧ held = number digits) ∧
    ∀ more,
      foldMany1 (input.length + 1 + more) decimalDigit (pure 0) (decimalStep limit) input =
        (decimal limit : Parser ν Int) input ∧
      foldMany (input.length + 1 + more) decimalDigit (pure 0) (decimalStep limit) input =
        (decimalOrZero limit : Parser ν Int) input := by
  refine ⟨decimal_noMatch_iff hlimit input, fun _ => decimal_error_iff hlimit input,
    fun _ _ => decimal_matched_iff hlimit input, ?_, ?_,
    fun _ hvalue _ => decimal_reads_printed hlimit hvalue, fun _ _ _ => held_eq_number hlimit,
    fun more => ⟨decimal_eq_more hlimit input more, decimalOrZero_eq_more hlimit input more⟩⟩
  · intro hempty
    have hrest : input = input.dropWhile ByteClass.isDigit :=
      eq_leadingDigits_append_iff.mp (by rw [hempty, List.nil_append])
    rw [decimalOrZero_gives_iff hlimit, exactReading, hempty, number_nil, if_pos (Nat.zero_le limit),
      ← hrest]
    rfl
  · intro hempty result
    rw [decimal_gives_iff hlimit, decimalOrZero_gives_iff hlimit, if_neg hempty]

-- "007x" and "256" where numbers are at most 255, with the accumulator for "25", and both sides of
-- the greatest number of 64 bits
theorem decimal_is_exact_limits :
    ((255 : Nat) : Int) ≤ Word.greatest ∧ ((9223372036854775807 : Nat) : Int) ≤ Word.greatest ∧
    ((decimal (255 : Nat) : Parser Unit Int) [48, 48, 55, 120]).Gives (.ok (.matched 7 [120])) ∧
    ((decimal (255 : Nat) : Parser Unit Int) [50, 53, 54]).Gives
      (.error (.custom "number out of range" [])) ∧
    (([50, 53] : Bytes).foldlM (decimalStep (255 : Nat)) 0 : Run Unit Int).Gives (.ok 25) ∧
    number [50, 53] ≤ 255 ∧ (25 : Int) = number [50, 53] ∧
    ((decimal (9223372036854775807 : Nat) : Parser Unit Int)
        (printed 9223372036854775807 ++ [44])).Gives
      (.ok (.matched (9223372036854775807 : Nat) [44])) ∧
    ((decimal (9223372036854775807 : Nat) : Parser Unit Int) (printed 9223372036854775808)).Gives
      (.error (.custom "number out of range" [])) := by
  have hsmall : ((255 : Nat) : Int) ≤ Word.greatest := by decide
  have hgreat : ((9223372036854775807 : Nat) : Int) ≤ Word.greatest := by decide
  have hzeros := decimal_is_exact (ν := Unit) hsmall [48, 48, 55, 120]
  have hlarge := decimal_is_exact (ν := Unit) hsmall [50, 53, 54]
  have hborder := decimal_is_exact (ν := Unit) hgreat (printed 9223372036854775808)
  have hrounds : Rounds (decimalDigit : Parser Unit UInt8) [50, 53, 54] [50, 53] [54] :=
    rounds_satisfy_iff.mpr ⟨rfl, List.all_eq_true.mp (by decide)⟩
  have hheld : (([50, 53] : Bytes).foldlM (decimalStep (255 : Nat)) 0 : Run Unit Int).Gives
      (.ok 25) := ⟨_, rfl⟩
  have hcomma : ∀ first, ([44] : Bytes).head? = some first → ByteClass.isDigit first = false := by
    rintro _ ⟨⟩
    decide
  have hdigits : leadingDigits (printed 9223372036854775808) = printed 9223372036854775808 := by
    have h : leadingDigits (printed 9223372036854775808 ++ []) = printed 9223372036854775808 :=
      leadingDigits_append_of_stop (isDigit_of_mem_printed 9223372036854775808) nofun
    rwa [List.append_nil] at h
  refine ⟨hsmall, hgreat, (hzeros.2.2.1 _ _).mpr (by decide), (hlarge.2.1 _).mpr (by decide), hheld,
    (hlarge.2.2.2.2.2.2.1 _ _ _ hrounds hheld).1, (hlarge.2.2.2.2.2.2.1 _ _ _ hrounds hheld).2,
    hborder.2.2.2.2.2.1 _ (Nat.le_refl _) _ hcomma, (hborder.2.1 _).mpr ⟨?_, rfl⟩⟩
  rw [hdigits, number_printed]
  decide

end ByteGrammar.Format
