import AudioKernel.Print.Model
import Mathlib.Tactic.Common

/-! The grammar of formats, which `dopr` goes through with a machine: what is printed is the text of the pieces, and what
is read ends with the NUL, unless that is the character that `%w` drops. -/
namespace AudioKernel.Print
open Lib

/-- A conversion as it is written in a format. -/
structure Directive where
  flags : Flags
  min : ℤ
  minArg : Bool
  max : ℤ
  maxArg : Bool
  cflags : CFlags
  conv : UInt8
  deriving DecidableEq

inductive Piece
  | text (ch : UInt8)
  | directive (d : Directive)
  deriving DecidableEq

/-- How a format ends: behind a piece, within a conversion, or with a `%w` that has no character to drop. -/
inductive Ending
  | complete
  | cut
  | overrun
  deriving DecidableEq

def readFlags : Flags → List UInt8 → Flags × List UInt8
  | flags, [] => (flags, [])
  | flags, ch :: s =>
    match setFlag flags ch with
    | some flags => readFlags flags s
    | none => (flags, ch :: s)

def readMin : ℤ → List UInt8 → ℤ × List UInt8
  | min, [] => (min, [])
  | min, ch :: s => if isdigit ch then readMin (int32 (10 * min + charToInt ch)) s else (min, ch :: s)

def readMax : ℤ → List UInt8 → ℤ × List UInt8
  | max, [] => (max, [])
  | max, ch :: s =>
    if isdigit ch then readMax (int32 (10 * (if max < 0 then 0 else max) + charToInt ch)) s else (max, ch :: s)

def readStar : List UInt8 → Bool × List UInt8
  | [] => (false, [])
  | ch :: s => if ch = '*'.toUInt8 then (true, s) else (false, ch :: s)

def readDot : List UInt8 → Bool × List UInt8
  | [] => (false, [])
  | ch :: s => if ch = '.'.toUInt8 then (true, s) else (false, ch :: s)

/-- The precision: `-1` and no argument, if there is none. -/
def readPrecision (s : List UInt8) : (ℤ × Bool) × List UInt8 :=
  if (readDot s).1 then
    let max := readMax (-1) (readDot s).2
    ((max.1, (readStar max.2).1), (readStar max.2).2)
  else ((-1, false), (readDot s).2)

def readModifier : List UInt8 → CFlags × List UInt8
  | [] => (.none, [])
  | ch :: s =>
    match modifier ch with
    | some cflags => (cflags, s)
    | none => (.none, ch :: s)

def readConv (d : UInt8 → Directive) : List UInt8 → Option (Directive × List UInt8)
  | [] => none
  | conv :: rest => some (d conv, rest)

/-- What stands behind a `%`: a conversion, if there is its character. -/
def readDirective (s : List UInt8) : Option (Directive × List UInt8) :=
  let flags := readFlags {} s
  let min := readMin 0 flags.2
  let minArg := readStar min.2
  let max := readPrecision minArg.2
  let mod := readModifier max.2
  readConv (⟨flags.1, min.1, minArg.1, max.1.1, max.1.2, mod.1, ·⟩) mod.2

/-- The pieces of a format, for as many turns as there are characters. -/
def parseWith : ℕ → List UInt8 → List Piece × Ending
  | 0, _ => ([], .complete)
  | _, [] => ([], .complete)
  | n + 1, ch :: s =>
    if ch = '%'.toUInt8 then
      match readDirective s with
      | none => ([], .cut)
      | some (d, rest) =>
        if d.conv = 'w'.toUInt8 then
          match rest with
          | [] => ([.directive d], .overrun)
          | _ :: rest => (.directive d :: (parseWith n rest).1, (parseWith n rest).2)
        else (.directive d :: (parseWith n rest).1, (parseWith n rest).2)
    else (.text ch :: (parseWith n s).1, (parseWith n s).2)

def parse (s : List UInt8) : List Piece × Ending := parseWith s.length s

namespace Call

variable (c : Call)

/-- A width or a precision, that may stand in the list of arguments. -/
def count (arg : Bool) (n : ℤ) (p : Printer) : ℤ × Printer := if arg then ((c.vaArg p).toInt, took p 1) else (n, p)

def printPiece : Piece → Printer → Except Stop Printer
  | .text ch, p => .ok (p.outch ch)
  | .directive d, p =>
    let min := c.count d.minArg d.min p
    let max := c.count d.maxArg d.max min.2
    c.conversion d.conv d.cflags d.flags min.1 max.1 max.2

/-- Prints the pieces in turn, and gives those that are not reached because `maxlen` characters have been put. -/
def print : List Piece → Printer → Except Stop (List Piece × Printer)
  | [], p => .ok ([], p)
  | piece :: pieces, p => if c.maxlen ≤ p.currlen then .ok (piece :: pieces, p) else do print pieces (← c.printPiece piece p)

/-- The format from `i` on is `s`, with the NUL behind it. -/
def Text (c : Call) : ℕ → List UInt8 → Prop
  | i, [] => c.format i = 0
  | i, ch :: s => c.format i = ch ∧ ch ≠ 0 ∧ Text c (i + 1) s

/-- The machine with the character `i` of the format before it. -/
def reading (i : ℕ) (d : Dopr) : Dopr := { d with ch := c.format i, next := i + 1 }

/-- The machine goes from `s` to what is left of it. Where nothing is left it may be in another state than `d'`. -/
structure Passes (i : ℕ) (s : List UInt8) (d : Dopr) (j : ℕ) (rest : List UInt8) (d' : Dopr) : Prop where
  le : i ≤ j
  length : j + rest.length = i + s.length
  text : c.Text j rest
  turns : ∃ e, Turns isDone c.body (c.reading i d) (c.reading j e) ∧ e.out = d'.out ∧ (rest ≠ [] → e = d')
  nil : s = [] → d'.out = d.out

variable {c} {i j k : ℕ} {s s' rest : List UInt8} {d d' d'' : Dopr} {ch : UInt8}

theorem Passes.stop (hs : c.Text i []) (hout : d'.out = d.out) : c.Passes i [] d i [] d' :=
  ⟨Nat.le_refl i, rfl, hs, ⟨d, .refl, hout.symm, fun h => absurd rfl h⟩, fun _ => hout⟩

theorem Passes.trans (h : c.Passes i s d j s' d') (h' : c.Passes j s' d' k rest d'') : c.Passes i s d k rest d'' := by
  obtain ⟨e, hturns, hout, heq⟩ := h.turns
  obtain ⟨e', hturns', hout', heq'⟩ := h'.turns
  have hlength := h.length
  have hlength' := h'.length
  have hle' := h'.le
  refine ⟨Nat.le_trans h.le h'.le, by omega, h'.text, ?_, ?_⟩
  · by_cases hs' : s' = []
    · -- nothing is left to go through
      subst hs'
      rw [List.length_nil] at hlength'
      obtain rfl : k = j := by omega
      have hrest : rest = [] := List.eq_nil_of_length_eq_zero (by omega)
      exact ⟨e, hturns, hout.trans (h'.nil rfl).symm, fun hne => absurd hrest hne⟩
    · rw [heq hs'] at hturns
      exact ⟨e', hturns.trans hturns', hout', heq'⟩
  · intro hs
    subst hs
    have hle := h.le
    rw [List.length_nil] at hlength
    have hs' : s' = [] := List.eq_nil_of_length_eq_zero (by omega)
    exact (h'.nil hs').trans (h.nil rfl)

/-- Where the loop goes on. -/
theorem body_reading (hs : c.Text i (ch :: s)) (hlt : d.out.currlen < c.maxlen) : c.body (c.reading i d) = c.turn (c.reading i d) := by
  have hnot : ¬ ((c.reading i d).ch = 0 ∨ c.maxlen ≤ (c.reading i d).out.currlen) := by
    rintro (hzero | hle)
    · exact hs.2.1 (hs.1.symm.trans hzero)
    · exact absurd hle (not_le_of_gt hlt)
  rw [body, if_neg hnot]

theorem turn_reading (hs : c.Text i (ch :: s)) (hlt : d.out.currlen < c.maxlen) (hstate : d.state ≠ .done)
    (h : c.turn (c.reading i d) = .ok d') : Turn isDone c.body (c.reading i d) d' :=
  ⟨decide_eq_false hstate, (body_reading hs hlt).trans h⟩

/-- A turn that takes a character. -/
theorem Passes.take (hs : c.Text i (ch :: s)) (hlt : d.out.currlen < c.maxlen) (hstate : d.state ≠ .done)
    (h : c.turn (c.reading i d) = .ok (c.reading (i + 1) d')) : c.Passes i (ch :: s) d (i + 1) s d' where
  le := Nat.le_succ i
  length := by rw [List.length_cons]; omega
  text := hs.2.2
  turns := ⟨d', .single (turn_reading hs hlt hstate h), rfl, fun _ => rfl⟩
  nil := fun h => absurd h (List.cons_ne_nil ch s)

/-- A turn that leaves the character for the next state. -/
theorem Passes.leave (hs : c.Text i (ch :: s)) (hlt : d.out.currlen < c.maxlen) (hstate : d.state ≠ .done)
    (h : c.turn (c.reading i d) = .ok (c.reading i d')) : c.Passes i (ch :: s) d i (ch :: s) d' where
  le := Nat.le_refl i
  length := rfl
  text := hs
  turns := ⟨d', .single (turn_reading hs hlt hstate h), rfl, fun _ => rfl⟩
  nil := fun h => absurd h (List.cons_ne_nil ch s)

/-! The states in turn. -/

theorem passes_flags (hs : c.Text i s) (hlt : d.out.currlen < c.maxlen) (hstate : d.state = .flags) :
    ∃ j, c.Passes i s d j (readFlags d.flags s).2 { d with state := .min, flags := (readFlags d.flags s).1 } := by
  induction s generalizing i d with
  | nil => exact ⟨i, .stop hs rfl⟩
  | cons ch s ih =>
    have hne : d.state ≠ .done := by rw [hstate]; exact State.noConfusion
    obtain ⟨rfl, -, hrest⟩ := id hs
    cases hflag : setFlag d.flags (c.format i) with
    | some flags =>
      have hturn : c.turn (c.reading i d) = .ok (c.reading (i + 1) { d with flags }) := by
        simp only [turn, reading, hstate, hflag]
        rfl
      obtain ⟨j, hpass⟩ := ih (d := { d with flags }) hrest hlt hstate
      simp only [readFlags, hflag]
      exact ⟨j, (Passes.take hs hlt hne hturn).trans hpass⟩
    | none =>
      have hturn : c.turn (c.reading i d) = .ok (c.reading i { d with state := .min }) := by
        simp only [turn, reading, hstate, hflag]
      simp only [readFlags, hflag]
      exact ⟨i, .leave hs hlt hne hturn⟩

/-- Where the digits of the width end, an argument may stand. -/
theorem passes_min (hs : c.Text i s) (hlt : d.out.currlen < c.maxlen) (hstate : d.state = .min) :
    ∃ j, c.Passes i s d j (readStar (readMin d.min s).2).2 { d with
      state := .dot
      min := (c.count (readStar (readMin d.min s).2).1 (readMin d.min s).1 d.out).1
      out := (c.count (readStar (readMin d.min s).2).1 (readMin d.min s).1 d.out).2 } := by
  induction s generalizing i d with
  | nil => exact ⟨i, .stop hs rfl⟩
  | cons ch s ih =>
    have hne : d.state ≠ .done := by rw [hstate]; exact State.noConfusion
    obtain ⟨rfl, -, hrest⟩ := id hs
    rw [readMin]
    by_cases hdigit : isdigit (c.format i) = true
    · rw [if_pos hdigit]
      have hturn : c.turn (c.reading i d) =
          .ok (c.reading (i + 1) { d with min := int32 (10 * d.min + charToInt (c.format i)) }) := by
        simp only [turn, reading, hstate, if_pos hdigit]
        rfl
      obtain ⟨j, hpass⟩ := ih (d := { d with min := int32 (10 * d.min + charToInt (c.format i)) }) hrest hlt hstate
      exact ⟨j, (Passes.take hs hlt hne hturn).trans hpass⟩
    · rw [if_neg hdigit, readStar]
      by_cases hstar : c.format i = '*'.toUInt8
      · rw [if_pos hstar]
        refine ⟨i + 1, .take hs hlt hne ?_⟩
        simp only [turn, reading, hstate, if_neg hdigit, if_pos hstar]
        rfl
      · rw [if_neg hstar]
        refine ⟨i, .leave hs hlt hne ?_⟩
        simp only [turn, reading, hstate, if_neg hdigit, if_neg hstar]
        rfl

theorem passes_max (hs : c.Text i s) (hlt : d.out.currlen < c.maxlen) (hstate : d.state = .max) :
    ∃ j, c.Passes i s d j (readStar (readMax d.max s).2).2 { d with
      state := .mod
      max := (c.count (readStar (readMax d.max s).2).1 (readMax d.max s).1 d.out).1
      out := (c.count (readStar (readMax d.max s).2).1 (readMax d.max s).1 d.out).2 } := by
  induction s generalizing i d with
  | nil => exact ⟨i, .stop hs rfl⟩
  | cons ch s ih =>
    have hne : d.state ≠ .done := by rw [hstate]; exact State.noConfusion
    obtain ⟨rfl, -, hrest⟩ := id hs
    rw [readMax]
    by_cases hdigit : isdigit (c.format i) = true
    · rw [if_pos hdigit]
      let max := int32 (10 * (if d.max < 0 then 0 else d.max) + charToInt (c.format i))
      have hturn : c.turn (c.reading i d) = .ok (c.reading (i + 1) { d with max }) := by
        simp only [turn, reading, hstate, if_pos hdigit]
        rfl
      obtain ⟨j, hpass⟩ := ih (d := { d with max }) hrest hlt hstate
      exact ⟨j, (Passes.take hs hlt hne hturn).trans hpass⟩
    · rw [if_neg hdigit, readStar]
      by_cases hstar : c.format i = '*'.toUInt8
      · rw [if_pos hstar]
        refine ⟨i + 1, .take hs hlt hne ?_⟩
        simp only [turn, reading, hstate, if_neg hdigit, if_pos hstar]
        rfl
      · rw [if_neg hstar]
        refine ⟨i, .leave hs hlt hne ?_⟩
        simp only [turn, reading, hstate, if_neg hdigit, if_neg hstar]
        rfl

theorem passes_dot (hs : c.Text i s) (hlt : d.out.currlen < c.maxlen) (hstate : d.state = .dot) (hmax : d.max = -1) :
    ∃ j, c.Passes i s d j (readPrecision s).2 { d with
      state := .mod
      max := (c.count (readPrecision s).1.2 (readPrecision s).1.1 d.out).1
      out := (c.count (readPrecision s).1.2 (readPrecision s).1.1 d.out).2 } := by
  cases s with
  | nil => exact ⟨i, .stop hs rfl⟩
  | cons ch s =>
    have hne : d.state ≠ .done := by rw [hstate]; exact State.noConfusion
    obtain ⟨rfl, -, hrest⟩ := id hs
    rw [readPrecision, readDot]
    by_cases hdot : c.format i = '.'.toUInt8
    · rw [if_pos hdot, if_pos rfl, ← hmax]
      have hturn : c.turn (c.reading i d) = .ok (c.reading (i + 1) { d with state := .max }) := by
        simp only [turn, reading, hstate, if_pos hdot]
        rfl
      obtain ⟨j, hpass⟩ := passes_max (d := { d with state := .max }) hrest hlt rfl
      exact ⟨j, (Passes.take hs hlt hne hturn).trans hpass⟩
    · rw [if_neg hdot, if_neg Bool.false_ne_true]
      refine ⟨i, .leave hs hlt hne ?_⟩
      simp only [turn, reading, hstate, if_neg hdot]
      rw [← hmax]
      rfl

theorem passes_mod (hs : c.Text i s) (hlt : d.out.currlen < c.maxlen) (hstate : d.state = .mod)
    (hcflags : d.cflags = .none) :
    ∃ j, c.Passes i s d j (readModifier s).2 { d with state := .conv, cflags := (readModifier s).1 } := by
  cases s with
  | nil => exact ⟨i, .stop hs rfl⟩
  | cons ch s =>
    have hne : d.state ≠ .done := by rw [hstate]; exact State.noConfusion
    obtain ⟨rfl, -, hrest⟩ := id hs
    cases hmod : modifier (c.format i) with
    | some cflags =>
      simp only [readModifier, hmod]
      refine ⟨i + 1, .take hs hlt hne ?_⟩
      simp only [turn, reading, hstate, hmod]
      rfl
    | none =>
      simp only [readModifier, hmod]
      refine ⟨i, .leave hs hlt hne ?_⟩
      simp only [turn, reading, hstate, hmod]
      rw [← hcflags]

/-- The locals between two pieces, but for the character. -/
def ready (p : Printer) : Dopr where
  state := .default
  ch := 0
  next := 0
  flags := {}
  cflags := .none
  min := 0
  max := -1
  out := p

/-- The locals when a conversion is carried out. -/
def converting (c : Call) (dir : Directive) (p : Printer) : Dopr where
  state := .conv
  ch := 0
  next := 0
  flags := dir.flags
  cflags := dir.cflags
  min := (c.count dir.minArg dir.min p).1
  max := (c.count dir.maxArg dir.max (c.count dir.minArg dir.min p).2).1
  out := (c.count dir.maxArg dir.max (c.count dir.minArg dir.min p).2).2

variable {p q : Printer} {dir : Directive}

theorem count_currlen (arg : Bool) (n : ℤ) (p : Printer) : (c.count arg n p).2.currlen = p.currlen := by
  cases arg <;> rfl

theorem count_buffer (arg : Bool) (n : ℤ) (p : Printer) : (c.count arg n p).2.buffer = p.buffer := by
  cases arg <;> rfl

theorem count_mem (arg : Bool) (n : ℤ) (p : Printer) : (c.count arg n p).2.mem = p.mem := by
  cases arg <;> rfl

/-- All the states of a conversion, up to its character. -/
theorem passes_directive (hs : c.Text i s) (hlt : p.currlen < c.maxlen) :
    ∃ j e, i ≤ j ∧ Turns isDone c.body (c.reading i { ready p with state := .flags }) (c.reading j e) ∧
      e.out.buffer = p.buffer ∧ e.out.mem = p.mem ∧
      ((readDirective s = none ∧ j = i + s.length ∧ c.format j = 0) ∨
        ∃ dir rest, readDirective s = some (dir, rest) ∧ e = converting c dir p ∧ c.Text j (dir.conv :: rest) ∧
          j + (rest.length + 1) = i + s.length) := by
  let flags := readFlags {} s
  let min := readMin 0 flags.2
  let star := readStar min.2
  let prec := readPrecision star.2
  let mod := readModifier prec.2
  let width := c.count star.1 min.1 p
  let max := c.count prec.1.2 prec.1.1 width.2
  have hwidth : width.2.currlen < c.maxlen := by rwa [count_currlen]
  have hmax : max.2.currlen < c.maxlen := by rwa [count_currlen]
  obtain ⟨j₁, h₁⟩ := passes_flags (d := { ready p with state := .flags }) hs hlt rfl
  obtain ⟨j₂, h₂⟩ := passes_min (d := { ready p with state := .min, flags := flags.1 }) h₁.text hlt rfl
  obtain ⟨j₃, h₃⟩ := passes_dot
    (d := { ready width.2 with state := .dot, flags := flags.1, min := width.1 }) h₂.text hwidth rfl rfl
  obtain ⟨j₄, h₄⟩ := passes_mod
    (d := { ready max.2 with state := .mod, flags := flags.1, min := width.1, max := max.1 }) h₃.text hmax rfl rfl
  have hpass := ((h₁.trans h₂).trans h₃).trans h₄
  obtain ⟨e, hturns, hout, heq⟩ := hpass.turns
  change e.out = max.2 at hout
  refine ⟨j₄, e, hpass.le, hturns, ?_, ?_, ?_⟩
  · rw [hout, count_buffer, count_buffer]
  · rw [hout, count_mem, count_mem]
  have hlength := hpass.length
  have htext := hpass.text
  change j₄ + mod.2.length = _ at hlength
  change c.Text j₄ mod.2 at htext
  cases hrest : mod.2 with
  | nil =>
    rw [hrest] at hlength htext
    left
    refine ⟨?_, hlength, htext⟩
    change readConv _ mod.2 = none
    rw [hrest, readConv]
  | cons conv rest =>
    rw [hrest] at hlength htext
    right
    refine ⟨⟨flags.1, min.1, star.1, prec.1.1, prec.1.2, mod.1, conv⟩, rest, ?_, ?_, htext, hlength⟩
    · change readConv _ mod.2 = _
      rw [hrest, readConv]
    · exact heq (by change mod.2 ≠ []; rw [hrest]; exact List.cons_ne_nil conv rest)

/-- Where a run of the machine from `d` ends, for a format whose NUL is at `n`, when `r` is what its pieces print. -/
def Outcome (c : Call) (n : ℕ) (ending : Ending) (d : Dopr) : Except Stop (List Piece × Printer) → Prop
  | .error e => ∃ d', Turns isDone c.body d d' ∧ isDone d' = false ∧ c.body d' = .error e ∧ d'.next ≤ n + 1
  | .ok r =>
    if ending = .overrun ∧ r.1 = [] then ∃ d', Turns isDone c.body d d' ∧ n + 1 < d'.next
    else ∃ d', Turns isDone c.body d d' ∧ isDone d' = true ∧ d'.next ≤ n + 1 ∧ d'.out.buffer = r.2.buffer ∧
      d'.out.mem = r.2.mem

variable {n : ℕ} {ending : Ending} {r : Except Stop (List Piece × Printer)} {pieces : List Piece}

theorem Outcome.after (h : Turns isDone c.body d d') (h' : Outcome c n ending d' r) : Outcome c n ending d r := by
  cases r with
  | error e =>
    obtain ⟨u, hu, hrest⟩ := h'
    exact ⟨u, h.trans hu, hrest⟩
  | ok r =>
    rw [Outcome] at h' ⊢
    split_ifs at h' ⊢
    · obtain ⟨u, hu, hrest⟩ := h'
      exact ⟨u, h.trans hu, hrest⟩
    · obtain ⟨u, hu, hrest⟩ := h'
      exact ⟨u, h.trans hu, hrest⟩

/-- The loop ends at the NUL, or when enough has been put. -/
theorem Outcome.finish (hend : c.format i = 0 ∨ c.maxlen ≤ d.out.currlen) (hi : i ≤ n)
    (hbuffer : d.out.buffer = p.buffer) (hmem : d.out.mem = p.mem) (hnot : ¬ (ending = .overrun ∧ pieces = [])) :
    Outcome c n ending (c.reading i d) (.ok (pieces, p)) := by
  rw [Outcome, if_neg hnot]
  have hbody : c.body (c.reading i d) = .ok { c.reading i d with state := .done } := by
    have hif : (c.reading i d).ch = 0 ∨ c.maxlen ≤ (c.reading i d).out.currlen := hend
    rw [body, if_pos hif]
    rfl
  have hle : i + 1 ≤ n + 1 := Nat.succ_le_succ hi
  by_cases hstate : d.state = .done
  · exact ⟨c.reading i d, .refl, decide_eq_true hstate, hle, hbuffer, hmem⟩
  · exact ⟨_, .single ⟨decide_eq_false hstate, hbody⟩, rfl, hle, hbuffer, hmem⟩

theorem print_full (h : c.maxlen ≤ p.currlen) (pieces : List Piece) : c.print pieces p = .ok (pieces, p) := by
  cases pieces with
  | nil => rfl
  | cons piece pieces => rw [print, if_pos h]

theorem print_cons (h : p.currlen < c.maxlen) (piece : Piece) (pieces : List Piece) :
    c.print (piece :: pieces) p = c.printPiece piece p >>= c.print pieces := by
  rw [print, if_neg (not_le_of_gt h)]

/-- What comes behind the pieces that are read from the front of a format. -/
theorem parseWith_text {fuel : ℕ} (hch : ch ≠ '%'.toUInt8) :
    parseWith (fuel + 1) (ch :: s) = (.text ch :: (parseWith fuel s).1, (parseWith fuel s).2) := by
  rw [parseWith, if_neg hch]

theorem parseWith_cut {fuel : ℕ} (h : readDirective s = none) :
    parseWith (fuel + 1) ('%'.toUInt8 :: s) = ([], .cut) := by
  rw [parseWith, if_pos rfl, h]

theorem parseWith_directive {fuel : ℕ} (h : readDirective s = some (dir, rest)) (hconv : dir.conv ≠ 'w'.toUInt8) :
    parseWith (fuel + 1) ('%'.toUInt8 :: s) =
      (.directive dir :: (parseWith fuel rest).1, (parseWith fuel rest).2) := by
  rw [parseWith, if_pos rfl, h]
  exact if_neg hconv

theorem parseWith_dropped {fuel : ℕ} (h : readDirective s = some (dir, ch :: rest)) (hconv : dir.conv = 'w'.toUInt8) :
    parseWith (fuel + 1) ('%'.toUInt8 :: s) =
      (.directive dir :: (parseWith fuel rest).1, (parseWith fuel rest).2) := by
  rw [parseWith, if_pos rfl, h]
  exact if_pos hconv

theorem parseWith_overrun {fuel : ℕ} (h : readDirective s = some (dir, [])) (hconv : dir.conv = 'w'.toUInt8) :
    parseWith (fuel + 1) ('%'.toUInt8 :: s) = ([.directive dir], .overrun) := by
  rw [parseWith, if_pos rfl, h]
  exact if_pos hconv

/-- A format that ends with a dangling `%w` has that for its last piece. -/
theorem parseWith_ne_nil {fuel : ℕ} (h : (parseWith fuel s).2 = .overrun) : (parseWith fuel s).1 ≠ [] := by
  fun_cases parseWith fuel s <;> simp_all [parseWith]

/-- The turn that carries a conversion out. -/
theorem turn_conv (hs : c.Text j (dir.conv :: rest)) (hlt : p.currlen < c.maxlen) :
    c.body (c.reading j (converting c dir p)) = c.printPiece (.directive dir) p >>= fun q =>
      .ok (c.reading (if dir.conv = 'w'.toUInt8 then j + 2 else j + 1) (ready q)) := by
  have hcurrlen : (converting c dir p).out.currlen < c.maxlen := by
    change (c.count _ _ (c.count _ _ p).2).2.currlen < c.maxlen
    rwa [count_currlen, count_currlen]
  have hch : (c.reading j (converting c dir p)).ch = dir.conv := hs.1
  rw [body_reading hs hcurrlen]
  change (c.conversion (c.reading j (converting c dir p)).ch _ _ _ _ _ >>= fun out => pure _) = _
  rw [hch]
  refine bind_congr fun q => ?_
  split_ifs <;> rfl

theorem turn_text (hs : c.Text i (ch :: s)) (hlt : p.currlen < c.maxlen) (hch : ch ≠ '%'.toUInt8) :
    Turn isDone c.body (c.reading i (ready p)) (c.reading (i + 1) (ready (p.outch ch))) := by
  refine turn_reading hs hlt State.noConfusion ?_
  obtain ⟨rfl, -, -⟩ := id hs
  exact if_neg hch

theorem turn_percent (hs : c.Text i ('%'.toUInt8 :: s)) (hlt : p.currlen < c.maxlen) :
    Turn isDone c.body (c.reading i (ready p)) (c.reading (i + 1) { ready p with state := .flags }) := by
  refine turn_reading hs hlt State.noConfusion ?_
  exact if_pos hs.1

/-- From between two pieces on, the machine prints what the rest of the format says. -/
theorem outcome (fuel : ℕ) (hs : c.Text i s) (hfuel : s.length ≤ fuel) :
    Outcome c (i + s.length) (parseWith fuel s).2 (c.reading i (ready p)) (c.print (parseWith fuel s).1 p) := by
  induction fuel generalizing i s p with
  | zero =>
    obtain rfl : s = [] := List.eq_nil_of_length_eq_zero (by omega)
    exact .finish (.inl hs) (Nat.le_refl i) rfl rfl fun h => Ending.noConfusion h.1
  | succ fuel ih =>
    by_cases hlt : p.currlen < c.maxlen
    case neg =>
      rw [print_full (le_of_not_gt hlt)]
      exact .finish (.inr (le_of_not_gt hlt)) (Nat.le_add_right i _) rfl rfl
        fun h => parseWith_ne_nil h.1 h.2
    cases s with
    | nil => exact .finish (.inl hs) (Nat.le_refl i) rfl rfl fun h => Ending.noConfusion h.1
    | cons ch s =>
      rw [List.length_cons] at hfuel
      by_cases hch : ch = '%'.toUInt8
      case neg =>
        rw [parseWith_text hch, print_cons hlt]
        refine .after (.single (turn_text hs hlt hch)) ?_
        rw [List.length_cons, ← Nat.add_assoc, Nat.add_right_comm]
        exact ih hs.2.2 (by omega)
      subst hch
      refine .after (.single (turn_percent hs hlt)) ?_
      obtain ⟨j, e, hij, hturns, hbuffer, hmem, hread⟩ := passes_directive hs.2.2 hlt
      refine .after hturns ?_
      rcases hread with ⟨hnone, hj, hnul⟩ | ⟨dir, rest, hsome, rfl, htext, hj⟩
      · rw [parseWith_cut hnone, List.length_cons]
        exact .finish (.inl hnul) (by omega) hbuffer hmem fun h => Ending.noConfusion h.1
      · have hstep := turn_conv htext hlt
        have hdone : isDone (c.reading j (converting c dir p)) = false := rfl
        have hjle : j + 1 ≤ i + (s.length + 1) + 1 := by omega
        rw [List.length_cons]
        cases hpiece : c.printPiece (.directive dir) p with
        | error e =>
          rw [hpiece] at hstep
          have herror : ∀ ps, c.print (.directive dir :: ps) p = .error e := by
            intro ps
            rw [print_cons hlt, hpiece]
            rfl
          have hpieces : ∃ ps, (parseWith (fuel + 1) ('%'.toUInt8 :: s)).1 = .directive dir :: ps := by
            by_cases hconv : dir.conv = 'w'.toUInt8
            · cases rest with
              | nil => exact ⟨_, congrArg Prod.fst (parseWith_overrun hsome hconv)⟩
              | cons => exact ⟨_, congrArg Prod.fst (parseWith_dropped hsome hconv)⟩
            · exact ⟨_, congrArg Prod.fst (parseWith_directive hsome hconv)⟩
          obtain ⟨ps, hps⟩ := hpieces
          rw [hps, herror]
          exact ⟨_, .refl, hdone, hstep, hjle⟩
        | ok q =>
          rw [hpiece] at hstep
          have hnext (ps : List Piece) : c.print (.directive dir :: ps) p = c.print ps q := by
            rw [print_cons hlt, hpiece]
            rfl
          refine .after (.single ⟨hdone, hstep⟩) ?_
          by_cases hconv : dir.conv = 'w'.toUInt8
          · rw [if_pos hconv]
            cases rest with
            | nil =>
              rw [parseWith_overrun hsome hconv, hnext]
              rw [List.length_nil] at hj
              refine ⟨_, .refl, ?_⟩
              change i + (s.length + 1) + 1 < j + 2 + 1
              omega
            | cons drop rest =>
              rw [List.length_cons] at hj
              rw [parseWith_dropped hsome hconv, hnext]
              have hend : i + (s.length + 1) = j + 2 + rest.length := by omega
              rw [hend]
              exact ih htext.2.2.2.2 (by omega)
          · rw [if_neg hconv, parseWith_directive hsome hconv, hnext]
            have hend : i + (s.length + 1) = j + 1 + rest.length := by omega
            rw [hend]
            exact ih htext.2.2 (by omega)

/-- The whole format is gone through, and its last conversion is a `%w` without a character to drop. -/
def Overruns (c : Call) (s : List UInt8) (p : Printer) : Prop :=
  (parse s).2 = .overrun ∧ ∃ q, c.print (parse s).1 p = .ok ([], q)

variable {buffer : List UInt8} {mem : ℕ → UInt8}

theorem outcome_start (buffer : List UInt8) (mem : ℕ → UInt8) (hs : c.Text 0 s) :
    Outcome c s.length (parse s).2 (c.start buffer mem) (c.print (parse s).1 ⟨buffer, 0, 0, mem⟩) := by
  have hrun := outcome (p := ⟨buffer, 0, 0, mem⟩) s.length hs (Nat.le_refl _)
  rwa [Nat.zero_add] at hrun

theorem not_overruns {r : List Piece × Printer} (hprint : c.print (parse s).1 p = .ok r) (hnot : ¬ Overruns c s p) :
    ¬ ((parse s).2 = .overrun ∧ r.1 = []) := by
  rintro ⟨hover, hnil⟩
  refine hnot ⟨hover, r.2, ?_⟩
  rw [hprint, ← hnil]

/-- The machine agrees with the grammar: with enough fuel, `dopr` returns what the pieces of the format print one after
the other, up to the first that finds `maxlen` characters counted. -/
theorem dopr_eq_print (hs : c.Text 0 s) (hnot : ¬ Overruns c s ⟨buffer, 0, 0, mem⟩) :
    ∃ n, ∀ fuel, n ≤ fuel → c.dopr fuel buffer mem =
      some ((c.print (parse s).1 ⟨buffer, 0, 0, mem⟩).map fun r => (r.2.buffer, r.2.mem)) := by
  have hrun := outcome_start buffer mem hs
  cases hprint : c.print (parse s).1 ⟨buffer, 0, 0, mem⟩ with
  | error e =>
    rw [hprint] at hrun
    obtain ⟨d, hturns, hdone, hbody, -⟩ := hrun
    obtain ⟨n, hn⟩ := Turns.stops hturns hdone hbody
    exact ⟨n, fun fuel hle => by rw [dopr, hn fuel hle]; rfl⟩
  | ok r =>
    rw [hprint, Outcome, if_neg (not_overruns hprint hnot)] at hrun
    obtain ⟨d, hturns, hdone, -, hbuffer, hmem⟩ := hrun
    obtain ⟨n, hn⟩ := Turns.returns hturns hdone
    refine ⟨n, fun fuel hle => ?_⟩
    rw [dopr, hn fuel hle]
    change some (Except.ok (d.out.buffer, d.out.mem)) = _
    rw [hbuffer, hmem]
    rfl

def literal (maxlen : ℤ) (s : List UInt8) (args : ℕ → BitVec 32)
    (fmtfp : List (BitVec 32) → ℤ → ℤ → Flags → List UInt8) : Call :=
  ⟨maxlen, fun i => s.getD i 0, args, fmtfp⟩

theorem text_literal {maxlen : ℤ} {args : ℕ → BitVec 32} {fmtfp : List (BitVec 32) → ℤ → ℤ → Flags → List UInt8}
    (h : 0 ∉ s) : (literal maxlen s args fmtfp).Text 0 s := by
  have hdrop (k : ℕ) : ∀ i, s.length = i + k → (literal maxlen s args fmtfp).Text i (s.drop i) := by
    induction k with
    | zero =>
      intro i hi
      rw [List.drop_of_length_le (by omega)]
      exact List.getD_eq_default _ _ (by omega)
    | succ k ih =>
      intro i hi
      rw [List.drop_eq_getElem_cons (by omega)]
      refine ⟨List.getD_eq_getElem _ _ _, ?_, ih (i + 1) (by omega)⟩
      intro hzero
      exact h (hzero ▸ List.getElem_mem (by omega))
  exact hdrop s.length 0 (Nat.zero_add _).symm

def characters (text : String) : List UInt8 := text.toList.map Char.toUInt8

/-- A call with the same argument again and again, and no floating point number. -/
def plain (maxlen : ℤ) (text : String) (arg : BitVec 32) : Call :=
  literal maxlen (characters text) (fun _ => arg) fun _ _ _ _ => []

theorem dopr_eq_print_number : ∃ n, ∀ fuel, n ≤ fuel →
    (plain 1000 "n=%d" 42).dopr fuel [] (fun _ => 0) = some (.ok (characters "n=42", fun _ => 0)) := by
  have hprint : ((plain 1000 "n=%d" 42).print (parse (characters "n=%d")).1 ⟨[], 0, 0, fun _ => 0⟩).map
      (fun r => (r.2.buffer, r.2.mem)) = .ok (characters "n=42", fun _ => 0) := rfl
  rw [← hprint]
  exact dopr_eq_print (text_literal (by decide)) fun h => absurd h.1 (by decide)

theorem turn_next (h : c.turn d = .ok d') : d.next ≤ d'.next := by
  cases hstate : d.state with
  | default =>
    simp only [turn, hstate] at h
    split_ifs at h <;> cases h <;> exact Nat.le_succ _
  | flags =>
    simp only [turn, hstate] at h
    split at h <;> cases h
    · exact Nat.le_succ _
    · exact Nat.le_refl _
  | min =>
    simp only [turn, hstate] at h
    split_ifs at h <;> cases h
    · exact Nat.le_succ _
    · exact Nat.le_succ _
    · exact Nat.le_refl _
  | dot =>
    simp only [turn, hstate] at h
    split_ifs at h <;> cases h
    · exact Nat.le_succ _
    · exact Nat.le_refl _
  | max =>
    simp only [turn, hstate] at h
    split_ifs at h <;> cases h
    · exact Nat.le_succ _
    · exact Nat.le_succ _
    · exact Nat.le_succ _
    · exact Nat.le_refl _
  | mod =>
    simp only [turn, hstate] at h
    split at h <;> cases h
    · exact Nat.le_succ _
    · exact Nat.le_refl _
  | conv =>
    simp only [turn, hstate] at h
    obtain ⟨out, -, h⟩ := bind_eq_ok h
    cases h
    split_ifs
    · exact Nat.le_add_right d.next 2
    · exact Nat.le_succ d.next
  | done =>
    simp only [turn, hstate] at h
    cases h
    exact Nat.le_refl _

theorem next_le (h : Turn isDone c.body d d') : d.next ≤ d'.next := by
  have hturn := h.2
  rw [body] at hturn
  split_ifs at hturn
  · exact turn_next (d := { d with state := .done }) hturn
  · exact turn_next hturn

/-- A character behind the NUL is read just when the format is gone through and ends with `%w`. -/
theorem reads_beyond_iff (hs : c.Text 0 s) :
    (∃ d, Turns isDone c.body (c.start buffer mem) d ∧ s.length + 1 < d.next) ↔ Overruns c s ⟨buffer, 0, 0, mem⟩ := by
  have hrun := outcome_start buffer mem hs
  constructor
  · rintro ⟨d, hd, hlt⟩
    by_contra hnot
    cases hprint : c.print (parse s).1 ⟨buffer, 0, 0, mem⟩ with
    | error e =>
      rw [hprint] at hrun
      obtain ⟨u, hturns, hdone, hbody, hle⟩ := hrun
      have hlast := Turns.before_last hturns (not_turn_of_error hbody) hd
      exact absurd (Turns.mono (fun _ _ => next_le) hlast) (by omega)
    | ok r =>
      rw [hprint, Outcome, if_neg (not_overruns hprint hnot)] at hrun
      obtain ⟨u, hturns, hdone, hle, -⟩ := hrun
      have hlast := Turns.before_last hturns (not_turn_of_done hdone) hd
      exact absurd (Turns.mono (fun _ _ => next_le) hlast) (by omega)
  · rintro ⟨hover, q, hprint⟩
    rw [hprint, Outcome, if_pos ⟨hover, rfl⟩] at hrun
    exact hrun

/-- `abc%w`, which is gone through or not. -/
theorem reads_beyond_w :
    (∃ d, Turns isDone (plain 4 "abc%w" 0).body ((plain 4 "abc%w" 0).start [] fun _ => 0) d ∧ 6 < d.next) ∧
      ¬ ∃ d, Turns isDone (plain 3 "abc%w" 0).body ((plain 3 "abc%w" 0).start [] fun _ => 0) d ∧ 6 < d.next := by
  have htext (maxlen : ℤ) : (plain maxlen "abc%w" 0).Text 0 (characters "abc%w") := text_literal (by decide)
  constructor
  · exact (reads_beyond_iff (htext 4)).mpr ⟨by decide, _, rfl⟩
  · intro hread
    obtain ⟨-, q, hprint⟩ := (reads_beyond_iff (htext 3)).mp hread
    cases hprint

end Call

end AudioKernel.Print
