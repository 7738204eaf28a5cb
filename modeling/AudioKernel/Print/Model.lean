import AudioKernel.Exec.Model
import AudioKernel.Lib.WhileLoop
import AudioKernel.Sync.Barrier

/-! `K::vsnprintf` of `snprintf.cc`, which `printf.c` of the programs repeats: the conversions, and the machine `dopr` that
reads the format character by character. -/
namespace AudioKernel.Print
open Lib

/-- The bits `DP_F_MINUS` to `DP_F_UNSIGNED`. -/
structure Flags where
  minus : Bool := false
  plus : Bool := false
  space : Bool := false
  num : Bool := false
  zero : Bool := false
  up : Bool := false
  unsigned : Bool := false
  deriving DecidableEq

/-- `cflags`: nothing, or one of `DP_C_SHORT`, `DP_C_LONG` and `DP_C_LDOUBLE`. -/
inductive CFlags
  | none
  | short
  | long
  | ldouble
  deriving DecidableEq

/-- What a conversion changes: the characters that have been put, their number, which is a `long`, the number of words
taken from the `va_list`, and memory, by `%n`. -/
structure Printer where
  buffer : List UInt8
  currlen : ℤ
  args : ℕ
  mem : ℕ → UInt8

/-- What a call of `dopr` is given. The words of the `va_list` and the characters of the format are taken not to be those
that `%n` stores to. `fmtfp` is the text of a floating point number, in `double` or `long double` words. -/
structure Call where
  maxlen : ℤ
  format : ℕ → UInt8
  args : ℕ → BitVec 32
  fmtfp : List (BitVec 32) → ℤ → ℤ → Flags → List UInt8

namespace Printer

variable (p : Printer)

def outch (ch : UInt8) : Printer := { p with buffer := p.buffer ++ [ch], currlen := int32 (p.currlen + 1) }

def puts (chs : List UInt8) : Printer := chs.foldl outch p

/-- `while (n > 0) { dopr_outch(ch); --n; }` -/
def pad (ch : UInt8) (n : ℤ) : Printer := p.puts (List.replicate n.toNat ch)

end Printer

def isdigit (ch : UInt8) : Bool := '0'.toUInt8 ≤ ch && ch ≤ '9'.toUInt8

def charToInt (ch : UInt8) : ℤ := (ch.toNat : ℤ) - '0'.toNat

def digits (caps : Bool) : List UInt8 :=
  (if caps then "0123456789ABCDEF" else "0123456789abcdef").toList.map Char.toUInt8

/-- The `do` loop that fills `convert`, with the digits in the order in which they come, the lowest first. -/
def convert (caps : Bool) (base : ℕ) : ℕ → ℕ → List UInt8
  | 0, _ => []
  | room + 1, uvalue =>
    (digits caps).getD (uvalue % base) 0 ::
      if uvalue / base = 0 then [] else convert caps base room (uvalue / base)

def signvalue (value : BitVec 32) (flags : Flags) : Option UInt8 :=
  if flags.unsigned then none
  else if value.toInt < 0 then some '-'.toUInt8
  else if flags.plus then some '+'.toUInt8
  else if flags.space then some ' '.toUInt8
  else none

def fmtint (value : BitVec 32) (base : ℕ) (min max : ℤ) (flags : Flags) (p : Printer) : Printer :=
  let max := if max < 0 then 0 else max
  let sign := signvalue value flags
  let uvalue := if !flags.unsigned ∧ value.toInt < 0 then -value else value
  let chars := convert flags.up base 20 uvalue.toNat
  let place : ℤ := if chars.length = 20 then 19 else chars.length
  let zpadlen := int32 (max - place)
  let spadlen := int32 (min - (if max ≥ place then max else place) - sign.toList.length)
  let zpadlen := if zpadlen < 0 then 0 else zpadlen
  let spadlen := if spadlen < 0 then 0 else spadlen
  let zpadlen := if flags.zero then (if zpadlen ≥ spadlen then zpadlen else spadlen) else zpadlen
  let spadlen := if flags.zero then 0 else spadlen
  let spadlen := if flags.minus then -spadlen else spadlen
  let p := p.pad ' '.toUInt8 spadlen
  let p := p.puts sign.toList
  let p := p.pad '0'.toUInt8 zpadlen
  let p := p.puts (chars.take place.toNat).reverse
  p.pad ' '.toUInt8 (-spadlen)

/-- One of the loops of `fmtstr`, with the characters that it has to put: it ends before that when `cnt` reaches `max`. -/
def upTo (max : ℤ) : List UInt8 → ℤ × Printer → ℤ × Printer
  | [], s => s
  | ch :: chs, s => if s.1 < max then upTo max chs (s.1 + 1, s.2.outch ch) else s

def fmtstr (value : ℕ) (flags : Flags) (min max : ℤ) (p : Printer) : Except Stop Printer := do
  let value ← if value = 0 then pure ("<NULL>".toList.map Char.toUInt8) else stringAt p.mem value
  let padlen := int32 (min - int32 value.length)
  let padlen := if padlen < 0 then 0 else padlen
  let padlen := if flags.minus then -padlen else padlen
  let s := upTo max (List.replicate padlen.toNat ' '.toUInt8) (0, p)
  let s := upTo max value s
  let s := upTo max (List.replicate (-padlen).toNat ' '.toUInt8) s
  return s.2

namespace Call

variable (c : Call)

/-- `va_arg` of an `int`, a `long`, their unsigned counterparts or a pointer. -/
def vaArg (p : Printer) : BitVec 32 := c.args p.args

/-- The words of a `double` or a `long double`. -/
def vaWords (cflags : CFlags) (p : Printer) : List (BitVec 32) :=
  (List.range (if cflags = .ldouble then 3 else 2)).map fun i => c.args (p.args + i)

def took (p : Printer) (words : ℕ) : Printer := { p with args := p.args + words }

/-- `%n`: the characters counted so far, in two or four bytes. -/
def storeCount (cflags : CFlags) (p : Printer) : Printer :=
  let bytes := fun i => UInt8.ofNat ((BitVec.ofInt 32 p.currlen).toNat / 256 ^ i)
  { p with mem := Stores.apply p.mem (.consecutive (c.vaArg p).toNat bytes (if cflags = .short then 2 else 4)) }

/-- The `switch` of `DP_S_CONV`, but for `%w`. On this machine an `int` is as wide as a `long`, so that the modifier makes
no difference to what an integer conversion takes. -/
def conversion (ch : UInt8) (cflags : CFlags) (flags : Flags) (min max : ℤ) (p : Printer) : Except Stop Printer :=
  if ch = 'd'.toUInt8 ∨ ch = 'i'.toUInt8 then
    .ok (fmtint (c.vaArg p) 10 min max flags (took p 1))
  else if ch = 'o'.toUInt8 then
    .ok (fmtint (c.vaArg p) 8 min max { flags with unsigned := true } (took p 1))
  else if ch = 'u'.toUInt8 then
    .ok (fmtint (c.vaArg p) 10 min max { flags with unsigned := true } (took p 1))
  else if ch = 'X'.toUInt8 then
    .ok (fmtint (c.vaArg p) 16 min max { flags with up := true, unsigned := true } (took p 1))
  else if ch = 'x'.toUInt8 then
    .ok (fmtint (c.vaArg p) 16 min max { flags with unsigned := true } (took p 1))
  else if ch = 'f'.toUInt8 then
    let words := c.vaWords cflags p
    .ok ((took p words.length).puts (c.fmtfp words min max flags))
  else if ch = 'E'.toUInt8 ∨ ch = 'e'.toUInt8 ∨ ch = 'G'.toUInt8 ∨ ch = 'g'.toUInt8 then
    .ok (took p (c.vaWords cflags p).length)
  else if ch = 'c'.toUInt8 then
    .ok ((took p 1).outch (UInt8.ofNat (c.vaArg p).toNat))
  else if ch = 's'.toUInt8 then
    fmtstr (c.vaArg p).toNat flags min (if max < 0 then c.maxlen else max) (took p 1)
  else if ch = 'p'.toUInt8 then
    .ok (fmtint (c.vaArg p) 16 min max flags (took p 1))
  else if ch = 'n'.toUInt8 then
    .ok (took (c.storeCount cflags p) 1)
  else if ch = '%'.toUInt8 then
    .ok (p.outch ch)
  else
    .ok p

end Call

/-- The states `DP_S_DEFAULT` to `DP_S_DONE`. -/
inductive State
  | default
  | flags
  | min
  | dot
  | max
  | mod
  | conv
  | done
  deriving DecidableEq

/-- The locals of `dopr`. `next` is the number of characters that have been read from the format. -/
structure Dopr where
  state : State
  ch : UInt8
  next : ℕ
  flags : Flags
  cflags : CFlags
  min : ℤ
  max : ℤ
  out : Printer

def setFlag (flags : Flags) (ch : UInt8) : Option Flags :=
  if ch = '-'.toUInt8 then some { flags with minus := true }
  else if ch = '+'.toUInt8 then some { flags with plus := true }
  else if ch = ' '.toUInt8 then some { flags with space := true }
  else if ch = '#'.toUInt8 then some { flags with num := true }
  else if ch = '0'.toUInt8 then some { flags with zero := true }
  else none

def modifier (ch : UInt8) : Option CFlags :=
  if ch = 'h'.toUInt8 then some .short
  else if ch = 'l'.toUInt8 then some .long
  else if ch = 'L'.toUInt8 then some .ldouble
  else none

namespace Call

variable (c : Call)

/-- `ch = *format++` -/
def fetch (d : Dopr) : Dopr := { d with ch := c.format d.next, next := d.next + 1 }

/-- `max = va_arg(args, int)` and the like: the value, and what is left of the list. -/
def starred (d : Dopr) : ℤ × Printer := ((c.vaArg d.out).toInt, took d.out 1)

/-- The `switch` over the states. -/
def turn (d : Dopr) : Except Stop Dopr :=
  match d.state with
  | .default =>
    if d.ch = '%'.toUInt8 then .ok (c.fetch { d with state := .flags })
    else .ok (c.fetch { d with out := d.out.outch d.ch })
  | .flags =>
    match setFlag d.flags d.ch with
    | some flags => .ok (c.fetch { d with flags })
    | none => .ok { d with state := .min }
  | .min =>
    if isdigit d.ch then .ok (c.fetch { d with min := int32 (10 * d.min + charToInt d.ch) })
    else if d.ch = '*'.toUInt8 then
      .ok (c.fetch { d with min := (c.starred d).1, out := (c.starred d).2, state := .dot })
    else .ok { d with state := .dot }
  | .dot =>
    if d.ch = '.'.toUInt8 then .ok (c.fetch { d with state := .max })
    else .ok { d with state := .mod }
  | .max =>
    if isdigit d.ch then
      .ok (c.fetch { d with max := int32 (10 * (if d.max < 0 then 0 else d.max) + charToInt d.ch) })
    else if d.ch = '*'.toUInt8 then
      .ok (c.fetch { d with max := (c.starred d).1, out := (c.starred d).2, state := .mod })
    else .ok { d with state := .mod }
  | .mod =>
    match modifier d.ch with
    | some cflags => .ok (c.fetch { d with cflags, state := .conv })
    | none => .ok { d with state := .conv }
  | .conv => do
    let out ← c.conversion d.ch d.cflags d.flags d.min d.max d.out
    -- `%w` is not supported: the character behind it is dropped
    let d := if d.ch = 'w'.toUInt8 then c.fetch d else d
    return { c.fetch d with out, state := .default, flags := {}, cflags := .none, min := 0, max := -1 }
  | .done => .ok d

def body (d : Dopr) : Except Stop Dopr :=
  c.turn (if d.ch = 0 ∨ c.maxlen ≤ d.out.currlen then { d with state := .done } else d)

def isDone (d : Dopr) : Bool := d.state = .done

/-- The locals when the loop is reached, in a call that finds the stream and memory so. -/
def start (buffer : List UInt8) (mem : ℕ → UInt8) : Dopr where
  state := .default
  ch := c.format 0
  next := 1
  flags := {}
  cflags := .none
  min := 0
  max := -1
  out := ⟨buffer, 0, 0, mem⟩

/-- `dopr`: what has been put after all, and memory. -/
def dopr (fuel : ℕ) (buffer : List UInt8) (mem : ℕ → UInt8) : Option (Except Stop (List UInt8 × (ℕ → UInt8))) :=
  (whileLoop isDone c.body fuel (c.start buffer mem)).map (Except.map fun d => (d.out.buffer, d.out.mem))

end Call

end AudioKernel.Print
