import AudioKernel.Print.Format
import AudioKernel.Print.Integer

/-! Formats are read back as they are written, so that what is written is what is printed. -/
namespace AudioKernel.Print
open Lib

/-- A character with another meaning behind `%` than that of a conversion, or one that cannot stand there. -/
def Special (ch : UInt8) : Prop :=
  ch = 0 ∨ setFlag {} ch ≠ none ∨ isdigit ch = true ∨ ch = '*'.toUInt8 ∨ ch = '.'.toUInt8 ∨ modifier ch ≠ none ∨
    ch = 'w'.toUInt8

instance (ch : UInt8) : Decidable (Special ch) := inferInstanceAs (Decidable (_ ∨ _))

/-- A conversion that can be written so: numbers that fit in an `int`, an argument in place of a number, and no flag that
only a conversion sets. -/
structure Directive.Valid (d : Directive) : Prop where
  up : d.flags.up = false
  unsigned : d.flags.unsigned = false
  min_nonneg : 0 ≤ d.min
  min_lt : d.min < 2 ^ 31
  minArg : d.minArg = true → d.min = 0
  max_ge : -1 ≤ d.max
  max_lt : d.max < 2 ^ 31
  maxArg : d.maxArg = true → d.max = -1
  conv : ¬ Special d.conv

def Piece.Valid : Piece → Prop
  | .text ch => ch ≠ 0 ∧ ch ≠ '%'.toUInt8
  | .directive d => d.Valid

def optional (b : Bool) (ch : UInt8) : List UInt8 := if b then [ch] else []

def Flags.spell (f : Flags) : List UInt8 :=
  optional f.minus '-'.toUInt8 ++ (optional f.plus '+'.toUInt8 ++ (optional f.space ' '.toUInt8 ++
    (optional f.num '#'.toUInt8 ++ optional f.zero '0'.toUInt8)))

def decimal (n : ℤ) : List UInt8 := numeral (symbol false) 10 n.toNat

def CFlags.spell : CFlags → List UInt8
  | none => []
  | short => ['h'.toUInt8]
  | long => ['l'.toUInt8]
  | ldouble => ['L'.toUInt8]

def Directive.widthText (d : Directive) : List UInt8 :=
  if d.minArg then ['*'.toUInt8] else if d.min = 0 then [] else decimal d.min

def Directive.precisionText (d : Directive) : List UInt8 :=
  if d.maxArg then ['.'.toUInt8, '*'.toUInt8] else if d.max = -1 then [] else '.'.toUInt8 :: decimal d.max

def Directive.spell (d : Directive) : List UInt8 :=
  '%'.toUInt8 :: (d.flags.spell ++ (d.widthText ++ (d.precisionText ++ (d.cflags.spell ++ [d.conv]))))

def Piece.spell : Piece → List UInt8
  | .text ch => [ch]
  | .directive d => d.spell

variable {flags flags' : Flags} {ch : UInt8} {s rest : List UInt8} {d : Directive} {b : Bool} {acc : ℕ} {n : ℤ}

/-! The flags. -/

theorem setFlag_eq_none_iff : setFlag flags ch = none ↔ setFlag {} ch = none := by
  unfold setFlag
  split_ifs <;> simp

theorem readFlags_stop (h : ∀ ch ∈ s.head?, setFlag {} ch = none) : readFlags flags s = (flags, s) := by
  cases s with
  | nil => rfl
  | cons ch s =>
    have hch : setFlag flags ch = none := setFlag_eq_none_iff.mpr (h ch rfl)
    simp only [readFlags, hch]

theorem readFlags_optional (flags' : Flags) (hset : b = true → setFlag flags ch = some flags') (hclear : b = false → flags' = flags) :
    readFlags flags (optional b ch ++ s) = readFlags flags' s := by
  cases b with
  | false =>
    rw [hclear rfl]
    rfl
  | true => simp only [optional, if_true, List.singleton_append, readFlags, hset rfl]

theorem readFlags_spell (hup : flags.up = false) (hunsigned : flags.unsigned = false)
    (h : ∀ ch ∈ s.head?, setFlag {} ch = none) : readFlags {} (flags.spell ++ s) = (flags, s) := by
  obtain ⟨minus, plus, space, num, zero, up, unsigned⟩ := flags
  obtain rfl : up = false := hup
  obtain rfl : unsigned = false := hunsigned
  rw [Flags.spell]
  simp only [List.append_assoc]
  rw [readFlags_optional { minus } (by rintro rfl; rfl) (by rintro rfl; rfl),
    readFlags_optional { minus, plus } (by rintro rfl; rfl) (by rintro rfl; rfl),
    readFlags_optional { minus, plus, space } (by rintro rfl; rfl) (by rintro rfl; rfl),
    readFlags_optional { minus, plus, space, num } (by rintro rfl; rfl) (by rintro rfl; rfl),
    readFlags_optional { minus, plus, space, num, zero } (by rintro rfl; rfl) (by rintro rfl; rfl),
    readFlags_stop h]

/-! The numbers. -/

def decimalDigit (ch : UInt8) : Option ℕ := if isdigit ch then some (ch.toNat - '0'.toNat) else none

theorem decimalDigit_symbol {k : ℕ} (hk : k < 10) : decimalDigit (symbol false k) = some k := by
  interval_cases k <;> decide

theorem charToInt_eq (h : isdigit ch = true) : charToInt ch = (ch.toNat - '0'.toNat : ℕ) := by
  have hle : '0'.toUInt8 ≤ ch := by
    rw [isdigit, Bool.and_eq_true] at h
    exact of_decide_eq_true h.1
  have hnat : '0'.toNat ≤ ch.toNat := UInt8.le_iff_toNat_le.mp hle
  rw [charToInt, Int.ofNat_sub hnat]

theorem int32_digit (x d : ℤ) : int32 (10 * int32 x + d) = int32 (10 * x + d) := by
  unfold int32
  rw [← Int.bmod_add_bmod, Int.mul_bmod_bmod, Int.bmod_add_bmod]

/-- The width is read as a number; the arithmetic wraps. -/
theorem readMin_eq (acc : ℕ) (s : List UInt8) :
    readMin (int32 acc) s = (int32 (readNumeral decimalDigit 10 acc s).1, (readNumeral decimalDigit 10 acc s).2) := by
  induction s generalizing acc with
  | nil => rfl
  | cons ch s ih =>
    rw [readMin]
    by_cases hdigit : isdigit ch = true
    · have hvalue : decimalDigit ch = some (ch.toNat - '0'.toNat) := if_pos hdigit
      have hint : int32 (10 * int32 acc + charToInt ch) = int32 (10 * acc + (ch.toNat - '0'.toNat) : ℕ) := by
        rw [charToInt_eq hdigit, int32_digit, Nat.cast_add, Nat.cast_mul]
        rfl
      rw [if_pos hdigit, readNumeral_digit hvalue, hint, ih]
    · have hvalue : decimalDigit ch = none := if_neg hdigit
      rw [if_neg hdigit, readNumeral, hvalue]

theorem readNumeral_ge (acc : ℕ) (s : List UInt8) : acc ≤ (readNumeral decimalDigit 10 acc s).1 := by
  induction s generalizing acc with
  | nil => exact Nat.le_refl _
  | cons ch s ih =>
    rw [readNumeral]
    cases decimalDigit ch with
    | none => exact Nat.le_refl _
    | some k => exact Nat.le_trans (by omega) (ih _)

/-- So is the precision, if it fits: otherwise it would start again where it gets negative. -/
theorem readMax_eq (acc : ℕ) (s : List UInt8) (h : (readNumeral decimalDigit 10 acc s).1 < 2 ^ 31) :
    readMax acc s = (((readNumeral decimalDigit 10 acc s).1 : ℤ), (readNumeral decimalDigit 10 acc s).2) := by
  induction s generalizing acc with
  | nil => rfl
  | cons ch s ih =>
    rw [readMax]
    by_cases hdigit : isdigit ch = true
    · have hvalue : decimalDigit ch = some (ch.toNat - '0'.toNat) := if_pos hdigit
      rw [readNumeral_digit hvalue] at h ⊢
      have hle := readNumeral_ge (10 * acc + (ch.toNat - '0'.toNat)) s
      have hint : int32 (10 * (if (acc : ℤ) < 0 then (0 : ℤ) else (acc : ℤ)) + charToInt ch) =
          (10 * acc + (ch.toNat - '0'.toNat) : ℕ) := by
        rw [if_neg (Int.not_lt.mpr (Int.natCast_nonneg acc)), charToInt_eq hdigit, int32_eq]
        · push_cast
          rfl
        · omega
        · omega
      rw [if_pos hdigit, hint, ih _ h]
    · have hvalue : decimalDigit ch = none := if_neg hdigit
      rw [if_neg hdigit, readNumeral, hvalue]

def NoNumber (s : List UInt8) : Prop := ∀ ch ∈ s.head?, isdigit ch = false

theorem NoNumber.noDigit (h : NoNumber s) : NoDigit decimalDigit s :=
  fun ch hch => if_neg (by rw [h ch hch]; exact Bool.false_ne_true)

theorem readNumeral_decimal (n : ℤ) (h : NoNumber s) :
    readNumeral decimalDigit 10 0 (decimal n ++ s) = (n.toNat, s) :=
  readNumeral_numeral (by decide) (fun _ => decimalDigit_symbol) h.noDigit

theorem int32_zero : int32 (0 : ℕ) = 0 := int32_eq (by decide) (by decide)

theorem readMin_decimal (hlo : 0 ≤ n) (hhi : n < 2 ^ 31) (h : NoNumber s) : readMin 0 (decimal n ++ s) = (n, s) := by
  have hread := readMin_eq 0 (decimal n ++ s)
  rwa [readNumeral_decimal n h, Int.toNat_of_nonneg hlo, int32_eq (by omega) hhi, int32_zero] at hread

theorem readMin_none (h : NoNumber s) : readMin 0 s = (0, s) := by
  have hread := readMin_eq 0 s
  rwa [readNumeral_noDigit h.noDigit, int32_zero] at hread

theorem readMax_decimal (hlo : 0 ≤ n) (hhi : n < 2 ^ 31) (h : NoNumber s) :
    readMax (-1) (decimal n ++ s) = (n, s) := by
  -- the first digit turns the `-1` into a zero
  have hstart : readMax (-1) (decimal n ++ s) = readMax (0 : ℕ) (decimal n ++ s) := by
    obtain ⟨ch, tail, hcons⟩ := List.exists_cons_of_ne_nil (numeral_ne_nil (symbol false) 10 n.toNat)
    have hmem : ch ∈ decimal n := by
      rw [decimal, hcons]
      exact List.mem_cons_self
    obtain ⟨k, hk, rfl⟩ := mem_numeral (by decide) hmem
    have hdigit : isdigit (symbol false k) = true := by
      have hvalue := decimalDigit_symbol hk
      rw [decimalDigit] at hvalue
      by_contra hnot
      rw [if_neg hnot] at hvalue
      cases hvalue
    rw [decimal, hcons, List.cons_append, readMax, if_pos hdigit, readMax, if_pos hdigit]
    rfl
  have hvalue := readNumeral_decimal n h
  rw [hstart, readMax_eq, hvalue, Int.toNat_of_nonneg hlo]
  rw [hvalue]
  omega

/-! The parts of a conversion, each with what follows it. -/

theorem readMax_none (h : NoNumber s) : readMax (-1) s = (-1, s) := by
  cases s with
  | nil => rfl
  | cons ch s =>
    have hch : isdigit ch = false := h ch rfl
    rw [readMax, if_neg (by rw [hch]; exact Bool.false_ne_true)]

theorem readStar_none (h : ∀ ch ∈ s.head?, ch ≠ '*'.toUInt8) : readStar s = (false, s) := by
  cases s with
  | nil => rfl
  | cons ch s => exact if_neg (h ch rfl)

theorem readDot_none (h : ∀ ch ∈ s.head?, ch ≠ '.'.toUInt8) : readDot s = (false, s) := by
  cases s with
  | nil => rfl
  | cons ch s => exact if_neg (h ch rfl)

theorem readStar_star (s : List UInt8) : readStar ('*'.toUInt8 :: s) = (true, s) := by rw [readStar, if_pos rfl]

theorem readDot_dot (s : List UInt8) : readDot ('.'.toUInt8 :: s) = (true, s) := by rw [readDot, if_pos rfl]

/-- What follows a number that may be missing. -/
structure Follows (s : List UInt8) : Prop where
  number : NoNumber s
  star : ∀ ch ∈ s.head?, ch ≠ '*'.toUInt8

theorem readWidth (hd : d.Valid) (h : Follows s) :
    (readMin 0 (d.widthText ++ s)).1 = d.min ∧ readStar (readMin 0 (d.widthText ++ s)).2 = (d.minArg, s) := by
  rw [Directive.widthText]
  by_cases harg : d.minArg = true
  · rw [if_pos harg, harg, hd.minArg harg]
    have hnone : NoNumber ('*'.toUInt8 :: s) := by
      intro ch hch
      obtain rfl := Option.some.inj hch
      decide
    rw [List.singleton_append, readMin_none hnone]
    exact ⟨rfl, readStar_star s⟩
  · rw [if_neg harg, Bool.eq_false_iff.mpr harg]
    by_cases hmin : d.min = 0
    · rw [if_pos hmin, hmin, List.nil_append, readMin_none h.number]
      exact ⟨rfl, readStar_none h.star⟩
    · rw [if_neg hmin, readMin_decimal hd.min_nonneg hd.min_lt h.number]
      exact ⟨rfl, readStar_none h.star⟩

theorem readPrecision_spell (hd : d.Valid) (h : Follows s) (hdot : ∀ ch ∈ s.head?, ch ≠ '.'.toUInt8) :
    readPrecision (d.precisionText ++ s) = ((d.max, d.maxArg), s) := by
  rw [Directive.precisionText, readPrecision]
  by_cases harg : d.maxArg = true
  · rw [if_pos harg, harg, hd.maxArg harg]
    have hnone : NoNumber ('*'.toUInt8 :: s) := by
      intro ch hch
      obtain rfl := Option.some.inj hch
      decide
    rw [List.cons_append, List.singleton_append, readDot_dot, if_pos rfl, readMax_none hnone]
    dsimp only
    rw [readStar_star]
  · rw [if_neg harg, Bool.eq_false_iff.mpr harg]
    by_cases hmax : d.max = -1
    · rw [if_pos hmax, hmax, List.nil_append, readDot_none hdot, if_neg Bool.false_ne_true]
    · rw [if_neg hmax]
      have hge := hd.max_ge
      rw [List.cons_append, readDot_dot, if_pos rfl, readMax_decimal (by omega) hd.max_lt h.number]
      dsimp only
      rw [readStar_none h.star]

theorem readModifier_spell (cflags : CFlags) (h : ∀ ch ∈ s.head?, modifier ch = none) :
    readModifier (cflags.spell ++ s) = (cflags, s) := by
  cases cflags with
  | none =>
    cases s with
    | nil => rfl
    | cons ch s =>
      have hch : modifier ch = none := h ch rfl
      rw [CFlags.spell, List.nil_append, readModifier, hch]
  | short => rfl
  | long => rfl
  | ldouble => rfl

/-! What a conversion goes on with behind its flags, its width and its precision. -/

variable {P : UInt8 → Prop}

theorem head_tail (hh : P 'h'.toUInt8) (hl : P 'l'.toUInt8) (hL : P 'L'.toUInt8) (hconv : P d.conv)
    (rest : List UInt8) : ∀ ch ∈ (d.cflags.spell ++ d.conv :: rest).head?, P ch := by
  intro ch hch
  cases hcflags : d.cflags with
  | none =>
    rw [hcflags] at hch
    obtain rfl := Option.some.inj hch
    exact hconv
  | short =>
    rw [hcflags] at hch
    obtain rfl := Option.some.inj hch
    exact hh
  | long =>
    rw [hcflags] at hch
    obtain rfl := Option.some.inj hch
    exact hl
  | ldouble =>
    rw [hcflags] at hch
    obtain rfl := Option.some.inj hch
    exact hL

theorem head_precision (hdot : P '.'.toUInt8) (hs : ∀ ch ∈ s.head?, P ch) :
    ∀ ch ∈ (d.precisionText ++ s).head?, P ch := by
  intro ch hch
  rw [Directive.precisionText] at hch
  split_ifs at hch
  · obtain rfl := Option.some.inj hch
    exact hdot
  · exact hs ch hch
  · obtain rfl := Option.some.inj hch
    exact hdot

/-- The width does not begin like a flag. -/
theorem head_width (hd : d.Valid) (hs : ∀ ch ∈ s.head?, setFlag {} ch = none) :
    ∀ ch ∈ (d.widthText ++ s).head?, setFlag {} ch = none := by
  intro ch hch
  rw [Directive.widthText] at hch
  split_ifs at hch with harg hmin
  · obtain rfl := Option.some.inj hch
    decide
  · exact hs ch hch
  · have hne : d.min.toNat ≠ 0 := by
      have hnonneg := hd.min_nonneg
      omega
    rw [decimal, List.head?_append_of_ne_nil _ (numeral_ne_nil _ _ _)] at hch
    have hzero : (numeral (symbol false) 10 d.min.toNat).head? ≠ some (symbol false 0) :=
      head_numeral_ne (by decide) hne (by decide)
    obtain ⟨k, hk, rfl⟩ := mem_numeral (by decide) (List.mem_of_mem_head? hch)
    have hk0 : k ≠ 0 := by
      rintro rfl
      exact hzero hch
    interval_cases k
    · exact absurd rfl hk0
    all_goals decide

theorem not_special (h : ¬ Special ch) :
    setFlag {} ch = none ∧ isdigit ch = false ∧ ch ≠ '*'.toUInt8 ∧ ch ≠ '.'.toUInt8 ∧ modifier ch = none ∧
      ch ≠ 'w'.toUInt8 := by
  simp only [Special, not_or, not_not] at h
  obtain ⟨-, hflag, hdigit, hstar, hdot, hmod, hw⟩ := h
  exact ⟨hflag, Bool.eq_false_iff.mpr hdigit, hstar, hdot, hmod, hw⟩

theorem readDirective_spell (hd : d.Valid) (rest : List UInt8) :
    readDirective (d.flags.spell ++ (d.widthText ++ (d.precisionText ++ (d.cflags.spell ++ d.conv :: rest)))) =
      some (d, rest) := by
  obtain ⟨hflag, hdigit, hstar, hdot, hmod, -⟩ := not_special hd.conv
  have hflag' := head_tail (P := fun ch => setFlag {} ch = none) (by decide) (by decide) (by decide) hflag rest
  have hdigit' := head_tail (P := fun ch => isdigit ch = false) (by decide) (by decide) (by decide) hdigit rest
  have hstar' := head_tail (P := fun ch => ch ≠ '*'.toUInt8) (by decide) (by decide) (by decide) hstar rest
  have hdot' := head_tail (P := fun ch => ch ≠ '.'.toUInt8) (by decide) (by decide) (by decide) hdot rest
  have hconv : ∀ ch ∈ (d.conv :: rest).head?, modifier ch = none := by
    intro ch hch
    obtain rfl := Option.some.inj hch
    exact hmod
  have hwidth := readWidth hd ⟨head_precision (d := d) (by decide) hdigit', head_precision (by decide) hstar'⟩
  have hflags := readFlags_spell hd.up hd.unsigned (head_width hd (head_precision (d := d) (by decide) hflag'))
  rw [readDirective]
  simp only [hflags, hwidth.1, hwidth.2, readPrecision_spell hd ⟨hdigit', hstar'⟩ hdot',
    readModifier_spell d.cflags hconv, readConv]

/-- A format is taken apart into the pieces that it has been put together from. -/
theorem parseWith_spell {pieces : List Piece} (h : ∀ piece ∈ pieces, piece.Valid) {fuel : ℕ}
    (hfuel : (pieces.flatMap Piece.spell).length ≤ fuel) :
    parseWith fuel (pieces.flatMap Piece.spell) = (pieces, .complete) := by
  induction pieces generalizing fuel with
  | nil => cases fuel <;> rfl
  | cons piece pieces ih =>
    rw [List.forall_mem_cons] at h
    rw [List.flatMap_cons, List.length_append] at hfuel
    rw [List.flatMap_cons]
    cases piece with
    | text ch =>
      change 1 + _ ≤ fuel at hfuel
      obtain ⟨fuel, rfl⟩ := Nat.exists_eq_add_of_le' (Nat.le_of_add_right_le hfuel)
      change parseWith (fuel + 1) (ch :: pieces.flatMap Piece.spell) = _
      rw [Call.parseWith_text h.1.2, ih h.2 (by omega)]
    | directive d =>
      have hd : d.Valid := h.1
      have hlen : 1 ≤ d.spell.length := Nat.succ_le_of_lt (List.length_pos_of_ne_nil (List.cons_ne_nil _ _))
      change d.spell.length + _ ≤ fuel at hfuel
      obtain ⟨fuel, rfl⟩ := Nat.exists_eq_add_of_le' (Nat.le_trans hlen (Nat.le_of_add_right_le hfuel))
      have hread := readDirective_spell hd (pieces.flatMap Piece.spell)
      have hspell : d.spell ++ pieces.flatMap Piece.spell = '%'.toUInt8 :: (d.flags.spell ++ (d.widthText ++
          (d.precisionText ++ (d.cflags.spell ++ d.conv :: pieces.flatMap Piece.spell)))) := by
        simp only [Directive.spell, List.cons_append, List.append_assoc, List.nil_append]
      change parseWith (fuel + 1) (d.spell ++ pieces.flatMap Piece.spell) = _
      rw [hspell, Call.parseWith_directive hread (not_special hd.conv).2.2.2.2.2, ih h.2 (by omega)]

theorem parse_spell {pieces : List Piece} (h : ∀ piece ∈ pieces, piece.Valid) :
    parse (pieces.flatMap Piece.spell) = (pieces, .complete) := parseWith_spell h (Nat.le_refl _)

/-- A format that is written out of pieces prints these pieces in turn, and is read no further than to its NUL. -/
theorem dopr_spell {c : Call} {pieces : List Piece} (h : ∀ piece ∈ pieces, piece.Valid)
    (hs : c.Text 0 (pieces.flatMap Piece.spell)) (buffer : List UInt8) (mem : ℕ → UInt8) :
    (∃ n, ∀ fuel, n ≤ fuel → c.dopr fuel buffer mem =
      some ((c.print pieces ⟨buffer, 0, 0, mem⟩).map fun r => (r.2.buffer, r.2.mem))) ∧
    ∀ d, Turns Call.isDone c.body (c.start buffer mem) d → d.next ≤ (pieces.flatMap Piece.spell).length + 1 := by
  have hparse := parse_spell h
  have hnot : ¬ c.Overruns (pieces.flatMap Piece.spell) ⟨buffer, 0, 0, mem⟩ := by
    rintro ⟨hover, -⟩
    rw [hparse] at hover
    cases hover
  constructor
  · obtain ⟨n, hn⟩ := Call.dopr_eq_print hs hnot
    rw [hparse] at hn
    exact ⟨n, hn⟩
  · intro d hd
    by_contra hlt
    exact hnot ((Call.reads_beyond_iff hs).mp ⟨d, hd, Nat.lt_of_not_le hlt⟩)

/-- `x%-5d`, from its pieces. -/
def leftField : List Piece :=
  [.text 'x'.toUInt8, .directive ⟨{ minus := true }, 5, false, -1, false, .none, 'd'.toUInt8⟩]

theorem dopr_spell_leftField :
    (∃ n, ∀ fuel, n ≤ fuel →
      (Call.plain 1000 "x%-5d" 42).dopr fuel [] (fun _ => 0) = some (.ok (Call.characters "x42   ", fun _ => 0))) ∧
    ∀ d, Turns Call.isDone (Call.plain 1000 "x%-5d" 42).body ((Call.plain 1000 "x%-5d" 42).start [] fun _ => 0) d →
      d.next ≤ 6 := by
  have hvalid : ∀ piece ∈ leftField, piece.Valid := by
    intro piece hpiece
    rcases List.mem_pair.mp hpiece with rfl | rfl
    · exact ⟨by decide, by decide⟩
    · constructor <;> decide
  have hspell : leftField.flatMap Piece.spell = Call.characters "x%-5d" := by decide
  have htext : (Call.plain 1000 "x%-5d" 42).Text 0 (leftField.flatMap Piece.spell) := by
    rw [hspell]
    exact Call.text_literal (by decide)
  have hprint : ((Call.plain 1000 "x%-5d" 42).print leftField ⟨[], 0, 0, fun _ => 0⟩).map
      (fun r => (r.2.buffer, r.2.mem)) = .ok (Call.characters "x42   ", fun _ => 0) := rfl
  have hlength : (leftField.flatMap Piece.spell).length + 1 = 6 := by rw [hspell]; rfl
  rw [← hprint, ← hlength]
  exact dopr_spell hvalid htext [] fun _ => 0

end AudioKernel.Print
