import AudioKernel.Lib.Numeral
import AudioKernel.Print.Model

/-! The text of an integer conversion: it can be read back, and it has the width of its field but for one case. -/
namespace AudioKernel.Print
open Lib

namespace Printer

variable (p : Printer) (chs chs' : List UInt8)

def blank : Printer := ⟨[], 0, 0, fun _ => 0⟩

theorem puts_append : p.puts (chs ++ chs') = (p.puts chs).puts chs' := List.foldl_append

@[simp] theorem puts_nil : p.puts [] = p := rfl

@[simp] theorem puts_buffer : (p.puts chs).buffer = p.buffer ++ chs := by
  induction chs generalizing p with
  | nil => exact (List.append_nil _).symm
  | cons ch chs ih =>
    change ((p.outch ch).puts chs).buffer = _
    rw [ih]
    change p.buffer ++ [ch] ++ chs = _
    rw [List.append_assoc, List.singleton_append]

@[simp] theorem puts_mem : (p.puts chs).mem = p.mem := by
  induction chs generalizing p with
  | nil => rfl
  | cons ch chs ih => exact ih (p.outch ch)

@[simp] theorem puts_args : (p.puts chs).args = p.args := by
  induction chs generalizing p with
  | nil => rfl
  | cons ch chs ih => exact ih (p.outch ch)

end Printer

variable {value : BitVec 32} {base : ℕ} {min max : ℤ} {flags : Flags} {caps : Bool} {u d : ℕ} {p : Printer}

/-- The bases that `dopr` converts to. -/
def Base (base : ℕ) : Prop := base = 8 ∨ base = 10 ∨ base = 16

theorem Base.one_lt (h : Base base) : 1 < base := by
  rcases h with rfl | rfl | rfl <;> decide

theorem Base.le (h : Base base) : 8 ≤ base ∧ base ≤ 16 := by
  rcases h with rfl | rfl | rfl <;> decide

def symbol (caps : Bool) (d : ℕ) : UInt8 := (digits caps).getD d 0

/-- `uvalue`: what the digits stand for. -/
def magnitude (value : BitVec 32) (flags : Flags) : ℕ :=
  (if !flags.unsigned ∧ value.toInt < 0 then -value else value).toNat

/-- The digits that are put, the highest first. -/
def digitText (value : BitVec 32) (base : ℕ) (flags : Flags) : List UInt8 :=
  numeral (symbol flags.up) base (magnitude value flags)

theorem convert_eq (hbase : 1 < base) {room : ℕ} (hroom : 0 < room) (hu : u < base ^ room) :
    convert caps base room u = (numeral (symbol caps) base u).reverse := by
  induction room generalizing u with
  | zero => omega
  | succ room ih =>
    have hdigits (hne : u ≠ 0) : Nat.digits base u = u % base :: Nat.digits base (u / base) :=
      Nat.digits_def' hbase (Nat.pos_of_ne_zero hne)
    rw [convert]
    by_cases hquot : u / base = 0
    · rw [if_pos hquot]
      by_cases hu : u = 0
      · subst hu
        rw [numeral, if_pos rfl, List.reverse_singleton, Nat.zero_mod]
        rfl
      · rw [numeral, if_neg hu, hdigits hu, hquot, List.reverse_reverse, Nat.digits_zero]
        rfl
    · have hne : u ≠ 0 := by
        rintro rfl
        exact hquot (Nat.zero_div base)
      have hlt : u / base < base ^ room := by
        rw [Nat.div_lt_iff_lt_mul (by omega), ← Nat.pow_succ]
        exact hu
      have hroom' : 0 < room := by
        by_contra hzero
        obtain rfl : room = 0 := by omega
        exact hquot (Nat.lt_one_iff.mp hlt)
      rw [if_neg hquot, ih hroom' hlt, numeral, if_neg hquot, numeral, if_neg hne, hdigits hne]
      rw [List.reverse_reverse, List.reverse_reverse, List.map_cons]
      rfl

theorem digitText_length (value : BitVec 32) (flags : Flags) (hbase : Base base) : (digitText value base flags).length ≤ 11 := by
  have hlt : magnitude value flags < 8 ^ 11 := Nat.lt_of_lt_of_le (BitVec.isLt _) (by decide)
  refine numeral_length_le hbase.one_lt (by decide) (Nat.lt_of_lt_of_le hlt ?_)
  exact Nat.pow_le_pow_left hbase.le.1 11

/-- How much a pad is to be: the difference, unless it is negative. -/
def padlen (n : ℤ) : ℤ := if int32 n < 0 then 0 else int32 n

/-- The number of spaces that the field would need. -/
def spare (place sign : ℕ) (min max : ℤ) : ℤ := padlen (min - Max.max (Max.max max 0) place - sign)

def zeros (place sign : ℕ) (min max : ℤ) (flags : Flags) : ℤ :=
  if flags.zero then Max.max (padlen (Max.max max 0 - place)) (spare place sign min max)
  else padlen (Max.max max 0 - place)

def spaces (place sign : ℕ) (min max : ℤ) (flags : Flags) : ℤ := if flags.zero then 0 else spare place sign min max

def intText (value : BitVec 32) (base : ℕ) (min max : ℤ) (flags : Flags) : List UInt8 :=
  let text := digitText value base flags
  let sign := (signvalue value flags).toList
  let space := List.replicate (spaces text.length sign.length min max flags).toNat ' '.toUInt8
  (if flags.minus then [] else space) ++ sign ++
    List.replicate (zeros text.length sign.length min max flags).toNat '0'.toUInt8 ++ text ++
    (if flags.minus then space else [])

theorem padlen_nonneg (n : ℤ) : 0 ≤ padlen n := by
  unfold padlen
  split_ifs <;> omega

theorem fmtint_eq (hbase : Base base) : fmtint value base min max flags p = p.puts (intText value base min max flags) := by
  have hlen := digitText_length value flags hbase
  have hu : magnitude value flags < base ^ 20 := by
    refine Nat.lt_of_lt_of_le (Nat.lt_of_lt_of_le (BitVec.isLt _) (by decide : 2 ^ 32 ≤ 8 ^ 20)) ?_
    exact Nat.pow_le_pow_left hbase.le.1 20
  have hconvert : convert flags.up base 20 (magnitude value flags) = (digitText value base flags).reverse :=
    convert_eq hbase.one_lt (by decide) hu
  have hnot : ¬ (digitText value base flags).length = 20 := by omega
  have hmax : (if max < 0 then 0 else max) = Max.max max 0 := by split_ifs <;> omega
  have hlarger (a b : ℤ) : (if a ≥ b then a else b) = Max.max a b := by split_ifs <;> omega
  rw [magnitude] at hconvert
  simp only [fmtint, hconvert, List.length_reverse, if_neg hnot, Int.toNat_natCast, Printer.pad, ← Printer.puts_append,
    hmax, hlarger]
  rw [List.take_of_length_le (by rw [List.length_reverse]), List.reverse_reverse]
  refine congrArg p.puts ?_
  rw [intText]
  have hspace : 0 ≤ spaces (digitText value base flags).length (signvalue value flags).toList.length min max flags := by
    rw [spaces]
    split_ifs
    · exact Int.le_refl 0
    · exact padlen_nonneg _
  change List.replicate (if flags.minus then -spaces _ _ min max flags else spaces _ _ min max flags).toNat _ ++ _ ++
    List.replicate (zeros _ _ min max flags).toNat _ ++ _ ++
    List.replicate (-(if flags.minus then -spaces _ _ min max flags else spaces _ _ min max flags)).toNat _ = _
  generalize spaces _ _ min max flags = s at hspace ⊢
  cases flags.minus with
  | false =>
    have hright : (-s).toNat = 0 := Int.toNat_of_nonpos (by omega)
    simp only [Bool.false_eq_true, if_false, hright, List.replicate_zero]
  | true =>
    have hleft : (-s).toNat = 0 := Int.toNat_of_nonpos (by omega)
    simp only [if_true, Int.neg_neg, hleft, List.replicate_zero]

/-! Reading the text back. -/

def digitValue (ch : UInt8) : Option ℕ :=
  if '0'.toUInt8 ≤ ch ∧ ch ≤ '9'.toUInt8 then some (ch.toNat - '0'.toNat)
  else if 'a'.toUInt8 ≤ ch ∧ ch ≤ 'f'.toUInt8 then some (ch.toNat - 'a'.toNat + 10)
  else if 'A'.toUInt8 ≤ ch ∧ ch ≤ 'F'.toUInt8 then some (ch.toNat - 'A'.toNat + 10)
  else none

/-- The number that a text begins with, behind spaces and a sign. -/
def readInt (base : ℕ) : List UInt8 → ℤ
  | [] => 0
  | ch :: s =>
    if ch = ' '.toUInt8 then readInt base s
    else if ch = '-'.toUInt8 then -(readNumeral digitValue base 0 s).1
    else if ch = '+'.toUInt8 then (readNumeral digitValue base 0 s).1
    else (readNumeral digitValue base 0 (ch :: s)).1

def denoted (value : BitVec 32) (flags : Flags) : ℤ := if flags.unsigned then value.toNat else value.toInt

theorem digitValue_symbol (caps : Bool) {d : ℕ} (hd : d < 16) : digitValue (symbol caps d) = some d := by
  cases caps <;> interval_cases d <;> decide

theorem readInt_spaces (base k : ℕ) (s : List UInt8) :
    readInt base (List.replicate k ' '.toUInt8 ++ s) = readInt base s := by
  induction k with
  | zero => rfl
  | succ k ih => rw [List.replicate_succ, List.cons_append, readInt, if_pos rfl, ih]

theorem readInt_digit {ch : UInt8} {s : List UInt8} (h : digitValue ch ≠ none) :
    readInt base (ch :: s) = (readNumeral digitValue base 0 (ch :: s)).1 := by
  have hne (other : UInt8) (hother : digitValue other = none) : ch ≠ other := by
    rintro rfl
    exact h hother
  rw [readInt, if_neg (hne _ (by decide)), if_neg (hne _ (by decide)), if_neg (hne _ (by decide))]

/-- A negative number, and one that is not. -/
theorem denoted_eq (value : BitVec 32) (flags : Flags) :
    denoted value flags =
      if !flags.unsigned ∧ value.toInt < 0 then -(magnitude value flags : ℤ) else magnitude value flags := by
  have htoInt := BitVec.toInt_eq_toNat_cond value
  have hneg := BitVec.toNat_neg value
  have hlt := value.isLt
  rw [denoted, magnitude]
  cases hunsigned : flags.unsigned with
  | true => simp
  | false =>
    by_cases hvalue : value.toInt < 0
    · simp only [Bool.not_false, true_and, hvalue, if_true, Bool.false_eq_true, if_false]
      rw [hneg]
      omega
    · simp only [Bool.not_false, true_and, hvalue, Bool.false_eq_true, if_false]
      omega

theorem readNumeral_text (value : BitVec 32) (flags : Flags) (hbase : Base base) (z k : ℕ) :
    (readNumeral digitValue base 0
      (List.replicate z '0'.toUInt8 ++ digitText value base flags ++ List.replicate k ' '.toUInt8)).1 =
      magnitude value flags := by
  rw [List.append_assoc, readNumeral_zeros (by decide), digitText, readNumeral_numeral hbase.one_lt]
  · intro d hd
    exact digitValue_symbol _ (Nat.lt_of_lt_of_le hd hbase.le.2)
  · intro ch hch
    cases k with
    | zero => cases hch
    | succ k =>
      obtain rfl : ' '.toUInt8 = ch := Option.some.inj hch
      decide

/-- A number without a sign begins with a digit. -/
theorem readInt_text (hbase : Base base) (z k : ℕ) :
    readInt base (List.replicate z '0'.toUInt8 ++ digitText value base flags ++ List.replicate k ' '.toUInt8) =
      magnitude value flags := by
  rw [← readNumeral_text value flags hbase z k]
  have hne : List.replicate z '0'.toUInt8 ++ digitText value base flags ++ List.replicate k ' '.toUInt8 ≠ [] :=
    List.append_ne_nil_of_left_ne_nil (List.append_ne_nil_of_right_ne_nil _ (numeral_ne_nil _ _ _)) _
  obtain ⟨ch, s, hs⟩ := List.exists_cons_of_ne_nil hne
  rw [hs]
  refine readInt_digit ?_
  have hmem : ch ∈ List.replicate z '0'.toUInt8 ++ digitText value base flags := by
    have hnil : List.replicate z '0'.toUInt8 ++ digitText value base flags ≠ [] :=
      List.append_ne_nil_of_right_ne_nil _ (numeral_ne_nil _ _ _)
    obtain ⟨ch', s', hs'⟩ := List.exists_cons_of_ne_nil hnil
    rw [hs', List.cons_append, List.cons.injEq] at hs
    rw [hs', ← hs.1]
    exact List.mem_cons_self
  rcases List.mem_append.mp hmem with hzero | hdigit
  · rw [List.eq_of_mem_replicate hzero]
    decide
  · obtain ⟨d, hd, rfl⟩ := mem_numeral hbase.one_lt hdigit
    rw [digitValue_symbol _ (Nat.lt_of_lt_of_le hd hbase.le.2)]
    exact Option.some_ne_none _

/-- On one of its sides the number has no spaces. -/
theorem intText_shape (value : BitVec 32) (base : ℕ) (min max : ℤ) (flags : Flags) :
    ∃ a z b, intText value base min max flags = List.replicate a ' '.toUInt8 ++ ((signvalue value flags).toList ++
      (List.replicate z '0'.toUInt8 ++ digitText value base flags ++ List.replicate b ' '.toUInt8)) := by
  let space := (spaces (digitText value base flags).length (signvalue value flags).toList.length min max flags).toNat
  let filler := (zeros (digitText value base flags).length (signvalue value flags).toList.length min max flags).toNat
  rw [intText]
  cases flags.minus with
  | false =>
    refine ⟨space, filler, 0, ?_⟩
    simp only [Bool.false_eq_true, if_false, List.append_nil, List.replicate_zero, List.append_assoc]
    rfl
  | true =>
    refine ⟨0, filler, space, ?_⟩
    simp only [if_true, List.nil_append, List.replicate_zero, List.append_assoc]
    rfl

/-- Whatever the flags, the width and the precision are, the number can be read from its text. -/
theorem readInt_intText (hbase : Base base) : readInt base (intText value base min max flags) = denoted value flags := by
  obtain ⟨a, z, b, hshape⟩ := intText_shape value base min max flags
  have hnumeral := readNumeral_text value flags hbase z b
  rw [hshape, readInt_spaces, denoted_eq, signvalue]
  cases hunsigned : flags.unsigned with
  | true =>
    simp only [if_true, Option.toList_none, List.nil_append, Bool.not_true, Bool.false_eq_true, false_and, if_false]
    exact readInt_text hbase z b
  | false =>
    simp only [Bool.false_eq_true, if_false, Bool.not_false, true_and]
    by_cases hneg : value.toInt < 0
    · simp only [if_pos hneg, Option.toList_some, List.singleton_append]
      rw [readInt, if_neg (by decide), if_pos rfl, hnumeral]
    · simp only [if_neg hneg]
      cases flags.plus with
      | true =>
        simp only [if_true, Option.toList_some, List.singleton_append]
        rw [readInt, if_neg (by decide), if_neg (by decide), if_pos rfl, hnumeral]
      | false =>
        cases flags.space with
        | true =>
          simp only [Bool.false_eq_true, if_false, if_true, Option.toList_some, List.singleton_append]
          rw [readInt, if_pos rfl]
          exact readInt_text hbase z b
        | false =>
          simp only [Bool.false_eq_true, if_false, Option.toList_none, List.nil_append]
          exact readInt_text hbase z b

/-! The width. -/

/-- The field is too narrow: zeros fill it, but they are counted from the precision and not from the digits. -/
def Short (place sign : ℕ) (min max : ℤ) (flags : Flags) : Prop :=
  flags.zero = true ∧ place < max ∧ sign + max < min

instance (place sign : ℕ) : Decidable (Short place sign min max flags) := inferInstanceAs (Decidable (_ ∧ _))

theorem padlen_eq {n : ℤ} (hlo : -2 ^ 31 ≤ n) (hhi : n < 2 ^ 31) : padlen n = Max.max n 0 := by
  unfold padlen
  rw [int32_eq hlo hhi]
  split_ifs <;> omega

theorem signvalue_length_le (value : BitVec 32) (flags : Flags) : (signvalue value flags).toList.length ≤ 1 := by
  cases signvalue value flags with
  | none => exact Nat.zero_le 1
  | some => exact Nat.le_refl 1

theorem intText_length (value : BitVec 32) (base : ℕ) (min max : ℤ) (flags : Flags) :
    (intText value base min max flags).length =
      (spaces (digitText value base flags).length (signvalue value flags).toList.length min max flags).toNat +
      (signvalue value flags).toList.length +
      (zeros (digitText value base flags).length (signvalue value flags).toList.length min max flags).toNat +
      (digitText value base flags).length := by
  rw [intText]
  cases flags.minus <;>
    simp only [Bool.false_eq_true, if_false, if_true, List.length_append, List.length_replicate, List.length_nil] <;>
    omega

theorem short_iff {place sign : ℕ} :
    Short place sign min max flags ↔
      flags.zero = true ∧ (place : ℤ) < Max.max max place ∧ sign + Max.max max place < min := by
  unfold Short
  constructor
  · rintro ⟨hzero, hlt, hwide⟩
    rw [max_eq_left (Int.le_of_lt hlt)]
    exact ⟨hzero, hlt, hwide⟩
  · rintro ⟨hzero, hlt, hwide⟩
    have hmax : (place : ℤ) < max := by
      by_contra hle
      rw [max_eq_right (Int.not_lt.mp hle)] at hlt
      exact Int.lt_irrefl _ hlt
    rw [max_eq_left (Int.le_of_lt hmax)] at hwide
    exact ⟨hzero, hmax, hwide⟩

/-- The text is as long as its field is wide, or as it has to be, unless the field is `Short`. -/
theorem intText_length_iff (value : BitVec 32) (flags : Flags) (hbase : Base base) (hmin : 0 ≤ min) (hmin' : min < 2 ^ 31)
    (hmax : max < 2 ^ 31) :
    ((intText value base min max flags).length : ℤ) = Max.max min
        ((signvalue value flags).toList.length + Max.max max (digitText value base flags).length) ↔
      ¬ Short (digitText value base flags).length (signvalue value flags).toList.length min max flags := by
  have hplace : (digitText value base flags).length ≤ 11 := digitText_length value flags hbase
  have hpos : 0 < (digitText value base flags).length := List.length_pos_iff.mpr (numeral_ne_nil _ _ _)
  have hsign : (signvalue value flags).toList.length ≤ 1 := signvalue_length_le value flags
  rw [intText_length, short_iff]
  generalize (digitText value base flags).length = place at hplace hpos ⊢
  generalize (signvalue value flags).toList.length = sign at hsign ⊢
  -- the digits with the zeros of the precision
  have hnumber : Max.max (Max.max max 0) (place : ℤ) = Max.max max place := by omega
  have hle : (place : ℤ) ≤ Max.max max place := le_max_right _ _
  have hlt : Max.max max (place : ℤ) < 2 ^ 31 := by omega
  have hzeros : Max.max (Max.max max 0 - (place : ℤ)) 0 = Max.max max place - place := by omega
  have hprec : padlen (Max.max max 0 - place) = Max.max max place - place := by
    rw [padlen_eq (by omega) (by omega), hzeros]
  have hspare : spare place sign min max = Max.max (min - Max.max max place - sign) 0 := by
    rw [spare, hnumber, padlen_eq (by omega) (by omega)]
  rw [spaces, zeros, hprec, hspare]
  generalize Max.max max (place : ℤ) = number at hle hlt ⊢
  cases flags.zero with
  | false =>
    simp only [Bool.false_eq_true, if_false, false_and, not_false_iff, iff_true]
    omega
  | true =>
    simp only [if_true, true_and]
    omega

/-! `fmtint` itself. -/

/-- Whatever the flags, the width and the precision are, the text that `fmtint` puts is read as the number that it has
been given. -/
theorem fmtint_reads_back (hbase : Base base) (value : BitVec 32) (min max : ℤ) (flags : Flags) (p : Printer) :
    ∃ text, fmtint value base min max flags p = p.puts text ∧ readInt base text = denoted value flags :=
  ⟨intText value base min max flags, fmtint_eq hbase, readInt_intText hbase⟩

theorem fmtint_reads_back_negative : ∃ text, fmtint (BitVec.ofInt 32 (-42)) 10 8 4 {} .blank = Printer.blank.puts text ∧
    readInt 10 text = -42 :=
  fmtint_reads_back (.inr (.inl rfl)) (BitVec.ofInt 32 (-42)) 8 4 {} .blank

/-- The characters put are as many as the field is wide, or as sign, precision and digits need; but too few just when
zeros fill a field for a precision that is larger than the number of digits. -/
theorem fmtint_width_iff (hbase : Base base) (value : BitVec 32) (flags : Flags) (hmin : 0 ≤ min) (hmin' : min < 2 ^ 31)
    (hmax : max < 2 ^ 31) (p : Printer) :
    ((fmtint value base min max flags p).buffer.length : ℤ) - p.buffer.length = Max.max min
        ((signvalue value flags).toList.length + Max.max max (digitText value base flags).length) ↔
      ¬ (flags.zero = true ∧ (digitText value base flags).length < max ∧
        (signvalue value flags).toList.length + max < min) := by
  have hlength := intText_length_iff value flags hbase hmin hmin' hmax
  rw [fmtint_eq hbase, Printer.puts_buffer, List.length_append, Nat.cast_add, Int.add_comm, Int.add_sub_cancel]
  exact hlength

/-- `%010.5d` of 42 is three characters short. -/
theorem fmtint_width_short :
    ¬ ((fmtint 42 10 10 5 { zero := true } .blank).buffer.length : ℤ) - Printer.blank.buffer.length = Max.max (10 : ℤ)
      ((signvalue 42 { zero := true }).toList.length + Max.max (5 : ℤ) (digitText 42 10 { zero := true }).length) := by
  rw [fmtint_width_iff (.inr (.inl rfl)) 42 { zero := true } (by decide) (by decide) (by decide) .blank]
  decide

end AudioKernel.Print
