import Mathlib.Data.Nat.Digits.Lemmas

/-! Positional numerals over any symbols: how they are written, and how they are read from the front of a text. -/
namespace AudioKernel.Lib

variable {α : Type*} {digit : α → Option ℕ} {symbol : ℕ → α} {base acc n k : ℕ} {s rest : List α}

/-- The numeral of a number, the highest digit first. -/
def numeral (symbol : ℕ → α) (base n : ℕ) : List α :=
  if n = 0 then [symbol 0] else ((Nat.digits base n).map symbol).reverse

/-- Reads digits as long as there are any: the number so far, and what follows the digits. -/
def readNumeral (digit : α → Option ℕ) (base : ℕ) : ℕ → List α → ℕ × List α
  | acc, [] => (acc, [])
  | acc, ch :: s =>
    match digit ch with
    | some d => readNumeral digit base (base * acc + d) s
    | none => (acc, ch :: s)

def NoDigit (digit : α → Option ℕ) (s : List α) : Prop := ∀ ch ∈ s.head?, digit ch = none

theorem readNumeral_noDigit (h : NoDigit digit s) : readNumeral digit base acc s = (acc, s) := by
  cases s with
  | nil => rfl
  | cons ch s =>
    have hch : digit ch = none := h ch rfl
    rw [readNumeral, hch]

theorem readNumeral_digit {ch : α} {d : ℕ} (h : digit ch = some d) :
    readNumeral digit base acc (ch :: s) = readNumeral digit base (base * acc + d) s := by
  rw [readNumeral, h]

/-- Digits that are read in turn are taken up from the highest on. -/
theorem readNumeral_map {ds : List ℕ} (hds : ∀ d ∈ ds, digit (symbol d) = some d) :
    readNumeral digit base acc (ds.map symbol ++ rest) =
      readNumeral digit base (ds.foldl (fun acc d => base * acc + d) acc) rest := by
  induction ds generalizing acc with
  | nil => rfl
  | cons d ds ih =>
    rw [List.forall_mem_cons] at hds
    rw [List.map_cons, List.cons_append, readNumeral_digit hds.1, ih hds.2, List.foldl_cons]

theorem foldl_reverse_digits (base acc : ℕ) (ds : List ℕ) :
    ds.reverse.foldl (fun acc d => base * acc + d) acc = base ^ ds.length * acc + Nat.ofDigits base ds := by
  induction ds with
  | nil => simp
  | cons d ds ih =>
    rw [List.reverse_cons, List.foldl_append, ih, List.foldl_cons, List.foldl_nil, Nat.ofDigits_cons,
      List.length_cons, Nat.pow_succ', Nat.mul_add, Nat.mul_assoc]
    omega

theorem numeral_ne_nil (symbol : ℕ → α) (base n : ℕ) : numeral symbol base n ≠ [] := by
  rw [numeral]
  split_ifs with hn
  · exact List.cons_ne_nil _ _
  · rw [ne_eq, List.reverse_eq_nil_iff, List.map_eq_nil_iff, Nat.digits_eq_nil_iff_eq_zero]
    exact hn

/-- A numeral is read back, whatever comes behind it, as long as that is not a digit. -/
theorem readNumeral_numeral (hbase : 1 < base) (hdigit : ∀ d < base, digit (symbol d) = some d)
    (hrest : NoDigit digit rest) : readNumeral digit base 0 (numeral symbol base n ++ rest) = (n, rest) := by
  rw [numeral]
  split_ifs with hn
  · have hzero := hdigit 0 (Nat.zero_lt_of_lt hbase)
    rw [List.singleton_append, readNumeral_digit hzero, readNumeral_noDigit hrest, hn]
    rfl
  · have hall : ∀ d ∈ (Nat.digits base n).reverse, digit (symbol d) = some d := by
      intro d hd
      exact hdigit d (Nat.digits_lt_base hbase (List.mem_reverse.mp hd))
    rw [← List.map_reverse, readNumeral_map hall, foldl_reverse_digits, Nat.ofDigits_digits, Nat.mul_zero, Nat.zero_add,
      readNumeral_noDigit hrest]

/-- Zeros before a numeral do not count. -/
theorem readNumeral_zeros {zero : α} (hzero : digit zero = some 0) :
    readNumeral digit base 0 (List.replicate k zero ++ s) = readNumeral digit base 0 s := by
  induction k with
  | zero => rfl
  | succ k ih => rw [List.replicate_succ, List.cons_append, readNumeral_digit hzero, Nat.mul_zero, Nat.add_zero, ih]

theorem numeral_length_le (hbase : 1 < base) (hk : 0 < k) (hn : n < base ^ k) : (numeral symbol base n).length ≤ k := by
  rw [numeral]
  split_ifs
  · exact hk
  · rw [List.length_reverse, List.length_map]
    exact (Nat.digits_length_le_iff hbase n).mpr hn

/-- The first digit, with which no shorter number would do. -/
theorem head_numeral_ne (hbase : 1 < base) (hn : n ≠ 0) (hinj : ∀ d < base, symbol d = symbol 0 → d = 0) :
    (numeral symbol base n).head? ≠ some (symbol 0) := by
  rw [numeral, if_neg hn, List.head?_reverse, List.getLast?_map]
  have hnil : Nat.digits base n ≠ [] := Nat.digits_ne_nil_iff_ne_zero.mpr hn
  rw [List.getLast?_eq_some_getLast hnil, Option.map_some]
  intro heq
  have hlt := Nat.digits_lt_base hbase (List.getLast_mem hnil)
  have hzero := hinj _ hlt (Option.some.inj heq)
  exact Nat.getLast_digit_ne_zero base hn hzero

theorem mem_numeral {ch : α} (hbase : 1 < base) (h : ch ∈ numeral symbol base n) : ∃ d < base, ch = symbol d := by
  rw [numeral] at h
  split_ifs at h
  · exact ⟨0, Nat.zero_lt_of_lt hbase, List.mem_singleton.mp h⟩
  · rw [List.mem_reverse, List.mem_map] at h
    obtain ⟨d, hd, rfl⟩ := h
    exact ⟨d, Nat.digits_lt_base hbase hd, rfl⟩

end AudioKernel.Lib
