import AudioKernel.Lib.Ring
import AudioKernel.Sync.BoundedBuffer

/-! The values that go through a bounded buffer: none is lost, none is overwritten, and they come out in order. -/
namespace AudioKernel
open Lib

variable {T V : Type}

namespace BufferPc

/-- Between the first and the last change that `put` or `get` makes to the buffer. -/
def busy : BufferPc V → Bool
  | putCount _ | getHead _ | getCount _ => true
  | _ => false

theorem busy_eq_false {p : BufferPc V} (hp : p.permits .lock = 0) : p.busy = false := by
  cases p <;> first | rfl | cases hp

theorem wake_asleep {p : BufferPc V} {k : BufferSem} (hp : p.asleep? = some k) :
    p.busy = false ∧ p.wake.asleep? = none ∧ p.wake.busy = false := by
  cases p <;> first | exact ⟨rfl, rfl, rfl⟩ | cases hp

theorem permits_wake {p : BufferPc V} {k : BufferSem} (hp : p.asleep? = some k) (j : BufferSem) :
    permits j p.wake = permits j p + if j = k then 1 else 0 := by
  cases p <;> simp only [asleep?, Option.some.injEq, reduceCtorEq] at hp <;> subst hp <;> cases j <;> rfl

end BufferPc

namespace BufferState

/-- What the cells hold while a thread is about to go on from `p`, when `xs` are the values that are counted as put and
not as got. -/
def Fits (N : ℕ) (s : BufferState T V) (xs : List V) : BufferPc V → Prop
  | .putCount t => Holds N s.data s.undelivered s.head (xs ++ [t])
  | .getHead out => ∃ ys, xs = out :: ys ∧ Holds N s.data s.undelivered ((s.head + 1) % N) ys
  | .getCount out => ∃ ys, xs = out :: ys ∧ Holds N s.data s.undelivered s.head ys
  | _ => True

/-- The values `xs` are in the buffer. -/
structure Contents (N : ℕ) (s : BufferState T V) (xs : List V) : Prop where
  order : s.puts = s.gets ++ xs
  length : xs.length = s.n
  calm : (∀ me, (s.calls.pc me).busy = false) → Holds N s.data s.undelivered s.head xs
  fits : ∀ me, Fits N s xs (s.calls.pc me)

/-- The permits of `nEmpty` are the cells that are free, or that a thread has claimed to put a value there; those of
`nFull` are the values that are counted. -/
structure Inv [Fintype T] (N : ℕ) (s : BufferState T V) : Prop where
  queued : s.calls.Queued BufferPc.asleep?
  nEmpty : s.calls.total BufferPc.permits .nEmpty + s.n = N
  nFull : s.calls.total BufferPc.permits .nFull = s.n
  lock : s.calls.total BufferPc.permits .lock = 1
  head_lt : s.head < N
  contents : ∃ xs, Contents N s xs

theorem Fits.of_calm {N : ℕ} {s : BufferState T V} {xs : List V} {p : BufferPc V} (hp : p.busy = false) :
    Fits N s xs p := by
  cases p <;> trivial

/-- Program points that are not busy say nothing about the cells. -/
theorem Contents.of_calls {N : ℕ} {s : BufferState T V} {xs : List V} (h : Contents N s xs)
    {c : SemProgram BufferSem T (BufferPc V)}
    (hpc : ∀ u, c.pc u = s.calls.pc u ∨ (s.calls.pc u).busy = false ∧ (c.pc u).busy = false) :
    Contents N { s with calls := c } xs := by
  constructor
  case order => exact h.order
  case length => exact h.length
  case calm =>
    intro hcalm
    apply h.calm
    intro u
    rcases hpc u with hsame | ⟨hbusy, -⟩
    · rw [← hsame]
      exact hcalm u
    · exact hbusy
  case fits =>
    intro u
    show Fits N { s with calls := c } xs (c.pc u)
    rcases hpc u with hsame | ⟨-, hbusy⟩
    · have hfits := h.fits u
      rw [hsame]
      cases hu : s.calls.pc u <;> rw [hu] at hfits <;> exact hfits
    · exact .of_calm hbusy

/-- The computation in 32 bits does not wrap. -/
theorem tail_eq {N : ℕ} {s : BufferState T V} {xs : List V} (hN' : N ≤ 2 ^ 31) (hlength : xs.length = s.n) (hroom : s.n < N)
    (hholds : Holds N s.data s.undelivered s.head xs) : s.tail N = (s.head + xs.length) % N := by
  have hhead := hholds.head_lt
  have hlt : s.head + s.n < 2 ^ 32 := by omega
  rw [tail, Nat.mod_eq_of_lt hlt, hlength]

namespace Inv

variable [Fintype T] {N : ℕ} {s s' : BufferState T V} {me : T} {p q : BufferPc V}

theorem new [DecidableEq T] (hN : 1 ≤ N) (data : ℕ → V) : Inv N (BufferState.new N data : BufferState T V) := by
  constructor
  case queued => exact ⟨by rintro (_ | _ | _) <;> exact List.nodup_nil, by
    rintro (_ | _ | _) u <;> simp [BufferState.new, BufferPc.asleep?]⟩
  case nEmpty => simp [BufferState.new, SemProgram.total, BufferPc.permits]
  case nFull => simp [BufferState.new, SemProgram.total, BufferPc.permits]
  case lock => simp [BufferState.new, SemProgram.total, BufferPc.permits]
  case head_lt => exact hN
  case contents => exact ⟨[], rfl, rfl, fun _ => .empty hN data, fun _ => trivial⟩

theorem permits_le (h : Inv N s) (hN : 1 ≤ N) (k : BufferSem) : s.calls.total BufferPc.permits k ≤ N := by
  have hempty := h.nEmpty
  cases k with
  | nEmpty => omega
  | nFull =>
    rw [h.nFull]
    omega
  | lock =>
    rw [h.lock]
    exact hN

theorem n_le (h : Inv N s) : s.n ≤ N := by
  have hempty := h.nEmpty
  omega

/-- `put` has claimed a free cell before it stores. -/
theorem room (h : Inv N s) (ht : s.calls.pc me = p) (hp : p.permits .nEmpty = 1) : s.n < N := by
  have hle := SemProgram.le_total (s := s.calls) (w := BufferPc.permits) (j := .nEmpty) (t := me)
  have hempty := h.nEmpty
  rw [ht, hp] at hle
  omega

/-- `get` has claimed a value before it loads. -/
theorem counted (h : Inv N s) (ht : s.calls.pc me = p) (hp : p.permits .nFull = 1) : 0 < s.n := by
  have hle := SemProgram.le_total (s := s.calls) (w := BufferPc.permits) (j := .nFull) (t := me)
  rw [ht, hp, h.nFull] at hle
  exact hle

/-- A step between two program points that are not busy, or a call of `down` or `up`. -/
theorem of_calls (h : Inv N s) {c : SemProgram BufferSem T (BufferPc V)} (hqueued : c.Queued BufferPc.asleep?)
    (htotal : ∀ k, c.total BufferPc.permits k = s.calls.total BufferPc.permits k)
    (hpc : ∀ u, c.pc u = s.calls.pc u ∨ (s.calls.pc u).busy = false ∧ (c.pc u).busy = false) :
    Inv N { s with calls := c } := by
  obtain ⟨xs, hxs⟩ := h.contents
  refine ⟨hqueued, ?_, ?_, ?_, h.head_lt, xs, hxs.of_calls hpc⟩
  · rw [htotal]
    exact h.nEmpty
  · rw [htotal]
    exact h.nFull
  · rw [htotal]
    exact h.lock

/-- Nobody is inside `put` or `get` while the lock is free. -/
theorem calm (h : Inv N s) (hfree : 0 < (s.calls.sem .lock).count) (me : T) : (s.calls.pc me).busy = false := by
  have hlock := h.lock
  apply BufferPc.busy_eq_false
  have hsum : (s.calls.pc me).permits .lock ≤ ∑ u, (s.calls.pc u).permits .lock := le_sum (f := BufferPc.permits .lock)
  unfold SemProgram.total at hlock
  omega

theorem contents_prefix (h : Inv N s) : s.gets <+: s.puts := by
  obtain ⟨xs, hxs⟩ := h.contents
  exact ⟨xs, hxs.order.symm⟩

variable [DecidableEq T]

/-- At most one thread has the lock. -/
theorem alone (h : Inv N s) (hme : (s.calls.pc me).permits .lock = 1) {u : T} (hu : u ≠ me) :
    (s.calls.pc u).busy = false := by
  have hle := SemProgram.pair_le_total (s := s.calls) (w := BufferPc.permits) (j := .lock) hu
  rw [h.lock] at hle
  exact BufferPc.busy_eq_false (by omega)

theorem call (h : Inv N s) (ht : s.calls.pc me = .out) (hq : q.asleep? = none) (hbusy : q.busy = false)
    (hpermits : ∀ k, q.permits k = 0) : Inv N (s.setPc me q) := by
  apply h.of_calls
  case hqueued => exact h.queued.setPc (by rw [ht]; rfl) hq
  case htotal =>
    intro k
    have htotal := SemProgram.total_setPc (s := s.calls) (w := BufferPc.permits) (j := k) (t := me) (q := q)
    have hout : BufferPc.permits k (.out : BufferPc V) = 0 := by cases k <;> rfl
    rw [ht, hpermits, hout] at htotal
    omega
  case hpc =>
    intro u
    by_cases hu : u = me
    · right
      rw [hu, ht]
      have hself : (s.calls.setPc me q).pc me = q := Function.update_self ..
      exact ⟨rfl, by rw [hself]; exact hbusy⟩
    · exact .inl (Function.update_of_ne hu ..)

theorem down {k : BufferSem} {got blocked : BufferPc V} (h : Inv N s) (ht : s.calls.pc me = p)
    (hasleep : p.asleep? = none ∧ got.asleep? = none ∧ blocked.asleep? = some k)
    (hbusy : p.busy = false ∧ got.busy = false ∧ blocked.busy = false)
    (hgot : ∀ j, got.permits j = p.permits j + if j = k then 1 else 0)
    (hblocked : ∀ j, blocked.permits j = p.permits j) : Inv N (s.down k me got blocked) := by
  apply h.of_calls
  case hqueued => exact h.queued.down (by rw [ht]; exact hasleep.1) hasleep.2.1 hasleep.2.2
  case htotal =>
    intro j
    apply SemProgram.total_down <;> intro j <;> rw [ht]
    · exact hgot j
    · exact hblocked j
  case hpc =>
    intro u
    by_cases hu : u = me
    · right
      rw [hu, ht]
      rcases SemProgram.down_self s.calls k me got blocked with ⟨-, hself⟩ | ⟨-, hself⟩
      · exact ⟨hbusy.1, by rw [hself]; exact hbusy.2.1⟩
      · exact ⟨hbusy.1, by rw [hself]; exact hbusy.2.2⟩
    · exact .inl (SemProgram.down_other hu)

theorem up {k : BufferSem} (h : Inv N s) (hN : 1 ≤ N) (hN' : N ≤ 2 ^ 31) (ht : s.calls.pc me = p)
    (hasleep : p.asleep? = none ∧ q.asleep? = none) (hbusy : p.busy = false ∧ q.busy = false)
    (hq : ∀ j, p.permits j = q.permits j + if j = k then 1 else 0) : Inv N (s.up k me q) := by
  have hme : (s.calls.pc me).asleep? = none := by rw [ht]; exact hasleep.1
  apply h.of_calls
  case hqueued => exact h.queued.up hme hasleep.2 fun p hp => (BufferPc.wake_asleep hp).2.1
  case htotal =>
    intro j
    apply SemProgram.total_up h.queued hme
    · intro j
      rw [ht]
      exact hq j
    · exact fun p hp j => BufferPc.permits_wake hp j
    · have hle := h.permits_le hN k
      unfold SemProgram.total at hle
      omega
  case hpc =>
    intro u
    by_cases hu : u = me
    · right
      rw [hu, ht, h.queued.up_self hme]
      exact hbusy
    · rcases h.queued.up_other (k := k) (q := q) BufferPc.wake hu with hsame | ⟨hasleep, hwoken⟩
      · exact .inl hsame
      · right
        rw [hwoken]
        have hwake := BufferPc.wake_asleep hasleep
        exact ⟨hwake.1, hwake.2.2⟩

/-- A step inside the critical section, where the buffer is left to this thread. -/
theorem inside (h : Inv N s) (ht : s.calls.pc me = p) (hcalls : s'.calls = s.calls.setPc me q)
    (hp : p.permits .lock = 1 ∧ p.asleep? = none) (hq : q.permits .lock = 1 ∧ q.asleep? = none)
    (hempty : q.permits .nEmpty + s'.n = p.permits .nEmpty + s.n)
    (hfull : q.permits .nFull + s.n = p.permits .nFull + s'.n)
    (hhead : s'.head < N)
    (hcontents : ∃ xs, s'.puts = s'.gets ++ xs ∧ xs.length = s'.n ∧
      (q.busy = false → Holds N s'.data s'.undelivered s'.head xs) ∧ Fits N s' xs q) : Inv N s' := by
  have htotal := fun k => SemProgram.total_setPc (s := s.calls) (w := BufferPc.permits) (j := k) (t := me) (q := q)
  have hself : s'.calls.pc me = q := by
    rw [hcalls]
    exact Function.update_self ..
  have hothers : ∀ u, u ≠ me → (s'.calls.pc u).busy = false := by
    intro u hu
    have hsame : s'.calls.pc u = s.calls.pc u := by
      rw [hcalls]
      exact Function.update_of_ne hu ..
    rw [hsame]
    exact h.alone (by rw [ht]; exact hp.1) hu
  constructor
  case queued =>
    rw [hcalls]
    exact h.queued.setPc (by rw [ht]; exact hp.2) hq.2
  case nEmpty =>
    have hsum := htotal .nEmpty
    have hold := h.nEmpty
    rw [ht] at hsum
    rw [hcalls]
    omega
  case nFull =>
    have hsum := htotal .nFull
    have hold := h.nFull
    rw [ht] at hsum
    rw [hcalls]
    omega
  case lock =>
    have hsum := htotal .lock
    rw [ht, hp.1, hq.1, h.lock] at hsum
    rw [hcalls]
    omega
  case head_lt => exact hhead
  case contents =>
    obtain ⟨xs, horder, hlength, hcalm, hfits⟩ := hcontents
    refine ⟨xs, horder, hlength, fun hall => hcalm ?_, fun u => ?_⟩
    · rw [← hself]
      exact hall me
    · by_cases hu : u = me
      · rw [hu, hself]
        exact hfits
      · exact .of_calm (hothers u hu)

/-- The buffer is as counted when the thread with the lock has not started to change it. -/
theorem holds (h : Inv N s) (ht : s.calls.pc me = p) (hp : p.permits .lock = 1) (hbusy : p.busy = false) :
    ∃ xs, s.puts = s.gets ++ xs ∧ xs.length = s.n ∧ Holds N s.data s.undelivered s.head xs := by
  obtain ⟨xs, hxs⟩ := h.contents
  refine ⟨xs, hxs.order, hxs.length, hxs.calm fun u => ?_⟩
  by_cases hu : u = me
  · rw [hu, ht]
    exact hbusy
  · exact h.alone (by rw [ht]; exact hp) hu

theorem putStore {t : V} (h : Inv N s) (hN' : N ≤ 2 ^ 31) (ht : s.calls.pc me = .putStore t) :
    Inv N (s.stepThread N me) := by
  obtain ⟨xs, horder, hlength, hholds⟩ := h.holds ht rfl rfl
  have hroom := h.room ht rfl
  have htail := tail_eq hN' hlength hroom hholds
  simp only [stepThread, ht]
  apply h.inside (q := .putCount t) ht rfl ⟨rfl, rfl⟩ ⟨rfl, rfl⟩
  case hempty => rfl
  case hfull => rfl
  case hhead => exact h.head_lt
  case hcontents =>
    refine ⟨xs, horder, hlength, (by simp [BufferPc.busy]), ?_⟩
    unfold Fits
    rw [htail]
    exact hholds.push (by omega)

theorem putCount {t : V} (h : Inv N s) (hN' : N ≤ 2 ^ 31) (ht : s.calls.pc me = .putCount t) :
    Inv N (s.stepThread N me) := by
  obtain ⟨xs, hxs⟩ := h.contents
  have hroom := h.room ht rfl
  have hlength := hxs.length
  have hn : (s.n + 1) % 2 ^ 32 = s.n + 1 := Nat.mod_eq_of_lt (by omega)
  have hfits := hxs.fits me
  rw [ht] at hfits
  simp only [stepThread, ht, hn]
  apply h.inside (q := .putUnlock) ht rfl ⟨rfl, rfl⟩ ⟨rfl, rfl⟩
  case hempty => exact (Nat.zero_add _).trans (Nat.add_comm ..)
  case hfull => exact (Nat.add_comm ..).trans (Nat.zero_add _).symm
  case hhead => exact h.head_lt
  case hcontents =>
    refine ⟨xs ++ [t], ?_, ?_, fun _ => hfits, trivial⟩
    · show s.puts ++ [t] = s.gets ++ (xs ++ [t])
      rw [hxs.order, List.append_assoc]
    · rw [List.length_append, hlength]
      rfl

theorem getLoad (h : Inv N s) (ht : s.calls.pc me = .getLoad) : Inv N (s.stepThread N me) := by
  obtain ⟨xs, horder, hlength, hholds⟩ := h.holds ht rfl rfl
  have hpos := h.counted ht rfl
  cases xs with
  | nil =>
    rw [← hlength] at hpos
    exact absurd hpos (Nat.lt_irrefl 0)
  | cons out ys =>
    simp only [stepThread, ht, hholds.head_data]
    apply h.inside (q := .getHead out) ht rfl ⟨rfl, rfl⟩ ⟨rfl, rfl⟩
    case hempty => rfl
    case hfull => rfl
    case hhead => exact h.head_lt
    case hcontents => exact ⟨out :: ys, horder, hlength, (by simp [BufferPc.busy]), ys, rfl, hholds.pop⟩

theorem getHead {out : V} (h : Inv N s) (hN' : N ≤ 2 ^ 31) (ht : s.calls.pc me = .getHead out) :
    Inv N (s.stepThread N me) := by
  obtain ⟨xs, hxs⟩ := h.contents
  have hfits := hxs.fits me
  have hlt := h.head_lt
  have hhead : (s.head + 1) % 2 ^ 32 = s.head + 1 := Nat.mod_eq_of_lt (by omega)
  rw [ht] at hfits
  simp only [stepThread, ht, hhead]
  apply h.inside (q := .getCount out) ht rfl ⟨rfl, rfl⟩ ⟨rfl, rfl⟩
  case hempty => rfl
  case hfull => rfl
  case hhead => exact Nat.mod_lt _ (Nat.zero_lt_of_lt hlt)
  case hcontents => exact ⟨xs, hxs.order, hxs.length, (by simp [BufferPc.busy]), hfits⟩

theorem getCount {out : V} (h : Inv N s) (hN' : N ≤ 2 ^ 31) (ht : s.calls.pc me = .getCount out) :
    Inv N (s.stepThread N me) := by
  obtain ⟨xs, hxs⟩ := h.contents
  have hpos := h.counted ht rfl
  have hle := h.n_le
  have hn : (s.n + 2 ^ 32 - 1) % 2 ^ 32 = s.n - 1 := by omega
  have hfits := hxs.fits me
  rw [ht] at hfits
  obtain ⟨ys, rfl, hholds⟩ := hfits
  have hlength : ys.length + 1 = s.n := hxs.length
  simp only [stepThread, ht, hn]
  apply h.inside (q := .getUnlock out) ht rfl ⟨rfl, rfl⟩ ⟨rfl, rfl⟩
  case hempty =>
    show 1 + (s.n - 1) = 0 + s.n
    omega
  case hfull =>
    show 0 + s.n = 1 + (s.n - 1)
    omega
  case hhead => exact h.head_lt
  case hcontents =>
    refine ⟨ys, ?_, ?_, fun _ => hholds, trivial⟩
    · show s.puts = s.gets ++ [out] ++ ys
      rw [hxs.order, List.append_assoc]
      rfl
    · show ys.length = s.n - 1
      omega

theorem stepThread (h : Inv N s) (hN : 1 ≤ N) (hN' : N ≤ 2 ^ 31) (he : s.enabled (.step me : BufferAct T V) = true) :
    Inv N (s.stepThread N me) := by
  cases ht : s.calls.pc me with
  | out | putEmptyAsleep t | putLockAsleep t | getFullAsleep | getLockAsleep =>
    simp [enabled, ht, BufferPc.asleep?] at he
  | putEmpty t =>
    simp only [BufferState.stepThread, ht]
    exact h.down ht ⟨rfl, rfl, rfl⟩ ⟨rfl, rfl, rfl⟩ (by rintro (_ | _ | _) <;> rfl) (by rintro (_ | _ | _) <;> rfl)
  | putLock t =>
    simp only [BufferState.stepThread, ht]
    exact h.down ht ⟨rfl, rfl, rfl⟩ ⟨rfl, rfl, rfl⟩ (by rintro (_ | _ | _) <;> rfl) (by rintro (_ | _ | _) <;> rfl)
  | putStore t => exact h.putStore hN' ht
  | putCount t => exact h.putCount hN' ht
  | putUnlock =>
    simp only [BufferState.stepThread, ht]
    exact h.up hN hN' ht ⟨rfl, rfl⟩ ⟨rfl, rfl⟩ (by rintro (_ | _ | _) <;> rfl)
  | putFull =>
    simp only [BufferState.stepThread, ht]
    exact h.up hN hN' ht ⟨rfl, rfl⟩ ⟨rfl, rfl⟩ (by rintro (_ | _ | _) <;> rfl)
  | getFull =>
    simp only [BufferState.stepThread, ht]
    exact h.down ht ⟨rfl, rfl, rfl⟩ ⟨rfl, rfl, rfl⟩ (by rintro (_ | _ | _) <;> rfl) (by rintro (_ | _ | _) <;> rfl)
  | getLock =>
    simp only [BufferState.stepThread, ht]
    exact h.down ht ⟨rfl, rfl, rfl⟩ ⟨rfl, rfl, rfl⟩ (by rintro (_ | _ | _) <;> rfl) (by rintro (_ | _ | _) <;> rfl)
  | getLoad => exact h.getLoad ht
  | getHead out => exact h.getHead hN' ht
  | getCount out => exact h.getCount hN' ht
  | getUnlock out =>
    simp only [BufferState.stepThread, ht]
    exact h.up hN hN' ht ⟨rfl, rfl⟩ ⟨rfl, rfl⟩ (by rintro (_ | _ | _) <;> rfl)
  | getEmpty out =>
    simp only [BufferState.stepThread, ht]
    exact h.up hN hN' ht ⟨rfl, rfl⟩ ⟨rfl, rfl⟩ (by rintro (_ | _ | _) <;> rfl)

theorem next (h : Inv N s) (hN : 1 ≤ N) (hN' : N ≤ 2 ^ 31) {a : BufferAct T V} (he : s.enabled a = true) :
    Inv N (s.next N a) := by
  cases a with
  | put me t =>
    have ht : s.calls.pc me = .out := by cases hpc : s.calls.pc me <;> simp [enabled, hpc] at he ⊢
    exact h.call ht rfl rfl (by rintro (_ | _ | _) <;> rfl)
  | get me =>
    have ht : s.calls.pc me = .out := by cases hpc : s.calls.pc me <;> simp [enabled, hpc] at he ⊢
    exact h.call ht rfl rfl (by rintro (_ | _ | _) <;> rfl)
  | step me => exact h.stepThread hN hN' he

theorem reachable {data : ℕ → V} (hN : 1 ≤ N) (hN' : N ≤ 2 ^ 31) (h : (bufferMachine T N data).Reachable s) :
    Inv N s := by
  apply h.invariant
  · intro s hs
    change s = .new N data at hs
    rw [hs]
    exact .new hN data
  · exact fun s a hi he => hi.next hN hN' he

end Inv

/-- A buffer is a queue: while the lock is free, the cells from `head` on hold what has been put and not yet got; no store
hits a value that nobody has read, and no load a cell that has not been filled; values come out in the order they go in. -/
theorem buffer_fifo [Fintype T] [DecidableEq T] (N : ℕ) (data : ℕ → V) (hN : 1 ≤ N) (hN' : N ≤ 2 ^ 31)
    (s : BufferState T V) (h : (bufferMachine T N data).Reachable s) :
    (0 < (s.calls.sem .lock).count → s.n ≤ N ∧ s.head < N ∧ ∃ xs, s.puts = s.gets ++ xs ∧ xs.length = s.n ∧
      ∀ (i : ℕ) (hi : i < xs.length), s.data ((s.head + i) % N) = xs[i]) ∧
    (∀ me t, s.calls.pc me = .putStore t → s.tail N < N ∧ s.undelivered (s.tail N) = false) ∧
    (∀ me, s.calls.pc me = .getLoad → s.head < N ∧ s.undelivered s.head = true) ∧
    s.gets <+: s.puts := by
  have hinv : Inv N s := .reachable hN hN' h
  refine ⟨fun hfree => ?_, fun me t hme => ?_, fun me hme => ?_, hinv.contents_prefix⟩
  · obtain ⟨xs, hxs⟩ := hinv.contents
    have hholds := hxs.calm (hinv.calm hfree)
    exact ⟨hinv.n_le, hholds.head_lt, xs, hxs.order, hxs.length, hholds.data⟩
  · obtain ⟨xs, -, hlength, hholds⟩ := hinv.holds hme rfl rfl
    have hroom := hinv.room hme rfl
    have htail := tail_eq hN' hlength hroom hholds
    rw [htail]
    exact ⟨Nat.mod_lt _ hN, hholds.free (by omega)⟩
  · obtain ⟨xs, -, hlength, hholds⟩ := hinv.holds hme rfl rfl
    have hpos := hinv.counted hme rfl
    cases xs with
    | nil =>
      rw [← hlength] at hpos
      exact absurd hpos (Nat.lt_irrefl 0)
    | cons out ys => exact ⟨hholds.head_lt, hholds.head_used⟩

/-- Two threads put into a buffer of one cell; the second waits until a third has got the first value. -/
def oneCell : List (BufferAct (Option Bool) ℕ) :=
  [.put (some false) 5, .put (some true) 7, .step (some false), .step (some true)] ++
    List.replicate 5 (.step (some false)) ++ .get none :: List.replicate 7 (.step none) ++
    List.replicate 4 (.step (some true))

theorem oneCell_fifo : ∃ s : BufferState (Option Bool) ℕ, (bufferMachine (Option Bool) 1 fun _ => 0).Reachable s ∧
    s.gets = [5] ∧ s.gets <+: s.puts ∧ s.n ≤ 1 ∧ s.head < 1 := by
  have hrun : ∃ s, (bufferMachine (Option Bool) 1 fun _ => 0).Run (.new 1 fun _ => 0) oneCell s ∧
      decide (s.gets = [5] ∧ s.puts = [5, 7] ∧ 0 < (s.calls.sem .lock).count) = true :=
    Machine.exists_run_of_replay (by decide)
  obtain ⟨s, hs, hcheck⟩ := hrun
  obtain ⟨hgets, -, hfree⟩ := of_decide_eq_true hcheck
  have hreach := hs.reachable (.init rfl)
  obtain ⟨hlock, -, -, hprefix⟩ := buffer_fifo 1 (fun _ => 0) (by decide) (by decide) s hreach
  exact ⟨s, hreach, hgets, hprefix, (hlock hfree).1, (hlock hfree).2.1⟩

end BufferState
end AudioKernel
