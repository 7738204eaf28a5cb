import AudioKernel.Sync.AtomicCalls

/-! `Future::set` and `Future::get`: one call of `set` and any number of calls of `get`. -/
namespace AudioKernel
open Lib

variable {T V : Type}

/-- Where a thread is in `set` or `get`. It is `asleep` in the `down` of `get`. -/
inductive FuturePc
  | out
  | setAssert
  | setWrite
  | setReady
  | setUp
  | getTest
  | getDown
  | asleep
  | getUp
  | getRead
  | failed
  deriving DecidableEq

namespace FuturePc

def asleep? : FuturePc → Option Unit
  | asleep => some ()
  | _ => none

def setting : FuturePc → Bool
  | setAssert | setWrite | setReady | setUp => true
  | _ => false

/-- The thread that has called `set` brings the permit that `get` passes on. -/
def permits (_ : Unit) : FuturePc → ℕ
  | setAssert | setWrite | setReady | setUp | getUp => 1
  | _ => 0

end FuturePc

/-- A future with its semaphore `go`, and the threads that use it. Recorded are who has called `set`, whether `t` has been
written and `set` has returned, and what the calls of `get` have returned. -/
structure FutureState (T V : Type) where
  go : SemProgram Unit T FuturePc
  isReady : Bool
  t : V
  setter : Option T
  written : Bool
  setDone : Bool
  results : List V

/-- A thread calls `set` or `get`, or takes its next step in it. -/
inductive FutureAct (T : Type)
  | set (me : T)
  | get (me : T)
  | step (me : T)

namespace FutureState

variable [DecidableEq T] (v : V) (s : FutureState T V)

def setPc (me : T) (q : FuturePc) : FutureState T V := { s with go := s.go.setPc me q }

def up (me : T) (q : FuturePc) : FutureState T V := { s with go := s.go.up () me q fun _ => .getUp }

def stepThread (me : T) : FutureState T V :=
  match s.go.pc me with
  | .out | .asleep | .failed => s
  | .setAssert => if s.isReady then s.setPc me .failed else s.setPc me .setWrite
  | .setWrite => { s.setPc me .setReady with t := v, written := true }
  | .setReady => { s.setPc me .setUp with isReady := true }
  | .setUp => { s.up me .out with setDone := true }
  | .getTest => if !s.isReady then s.setPc me .getDown else s.setPc me .getRead
  | .getDown => { s with go := s.go.down () me .getUp .asleep }
  | .getUp => s.up me .getRead
  | .getRead => { s.setPc me .out with results := s.results ++ [s.t] }

def enabled : FutureAct T → Bool
  | .set me => s.go.pc me = .out ∧ s.setter.isNone
  | .get me => s.go.pc me = .out
  | .step me => s.go.pc me ≠ .out ∧ s.go.pc me ≠ .asleep ∧ s.go.pc me ≠ .failed

def next : FutureAct T → FutureState T V
  | .set me => { s.setPc me .setAssert with setter := some me }
  | .get me => s.setPc me .getTest
  | .step me => s.stepThread v me

end FutureState

/-- `Future()`, with `t()`. -/
def FutureState.new (t : V) : FutureState T V where
  go := ⟨fun _ => ⟨0, false, []⟩, fun _ => .out⟩
  isReady := false
  t := t
  setter := none
  written := false
  setDone := false
  results := []

def futureMachine (T : Type) [DecidableEq T] (v t : V) : Machine (FutureState T V) (FutureAct T) where
  init s := s = .new t
  enabled s a := s.enabled a = true
  next s a := s.next v a

instance [DecidableEq T] (v t : V) (s : FutureState T V) (a : FutureAct T) :
    Decidable ((futureMachine T v t).enabled s a) :=
  inferInstanceAs (Decidable (_ = true))

namespace FutureState

/-- `t` has been written before anyone can read it. -/
structure Inv [Fintype T] (v : V) (s : FutureState T V) : Prop where
  queued : s.go.Queued FuturePc.asleep?
  permits : s.go.total FuturePc.permits () = if s.setter.isSome then 1 else 0
  setting : ∀ me, (s.go.pc me).setting = true → s.setter = some me ∧ s.setDone = false
  set_called : s.setDone = true → s.setter.isSome = true
  not_ready : ∀ me, s.go.pc me = .setAssert ∨ s.go.pc me = .setWrite ∨ s.go.pc me = .setReady → s.isReady = false
  not_called : s.setter = none → s.isReady = false
  written : ∀ me, s.go.pc me = .setReady ∨ s.go.pc me = .setUp ∨ s.go.pc me = .getUp ∨ s.go.pc me = .getRead →
    s.written = true
  ready : s.isReady = true → s.written = true
  posted : 0 < (s.go.sem ()).count → s.written = true
  value : s.written = true → s.t = v
  results : ∀ r ∈ s.results, r = v
  unfailed : ∀ me, s.go.pc me ≠ .failed

namespace Inv

variable [Fintype T] {v : V} {s s' : FutureState T V} {me : T} {q : FuturePc}

theorem new (t : V) : Inv v (FutureState.new t : FutureState T V) := by
  constructor
  case queued => exact ⟨fun _ => List.nodup_nil, fun _ _ => by simp [FutureState.new, FuturePc.asleep?]⟩
  case permits => simp [FutureState.new, SemProgram.total, FuturePc.permits]
  case setting => simp [FutureState.new, FuturePc.setting]
  case set_called => simp [FutureState.new]
  case not_ready => simp [FutureState.new]
  case not_called => exact fun _ => rfl
  case written => simp [FutureState.new]
  case ready => simp [FutureState.new]
  case posted => simp [FutureState.new]
  case value => simp [FutureState.new]
  case results => simp [FutureState.new]
  case unfailed => simp [FutureState.new]

/-- Only one thread calls `set`. -/
theorem not_setting (h : Inv v s) (hme : (s.go.pc me).setting = true) {u : T} (hu : u ≠ me) :
    (s.go.pc u).setting = false := by
  cases hpc : (s.go.pc u).setting with
  | false => rfl
  | true =>
    have hsetter := (h.setting u hpc).1.symm.trans (h.setting me hme).1
    exact absurd (Option.some.inj hsetter) hu

variable [DecidableEq T]

/-- A step of `me`, which may wake another thread. -/
theorem of_step (h : Inv v s) (me : T) (q : FuturePc) (hqueued : s'.go.Queued FuturePc.asleep?)
    (htotal : s'.go.total FuturePc.permits () = if s'.setter.isSome then 1 else 0) (hself : s'.go.pc me = q)
    (hothers : ∀ u, u ≠ me → s'.go.pc u = s.go.pc u ∨ s'.go.pc u = .getUp ∧ s'.written = true)
    (hset : (s'.setter = s.setter ∧ s'.setDone = s.setDone ∧ s'.isReady = s.isReady) ∨
      ∀ u, u ≠ me → (s.go.pc u).setting = false)
    (hsetting : q.setting = true → s'.setter = some me ∧ s'.setDone = false)
    (hcalled : s'.setDone = true → s'.setter.isSome = true)
    (hnot : q = .setAssert ∨ q = .setWrite ∨ q = .setReady → s'.isReady = false)
    (hnone : s'.setter = none → s'.isReady = false)
    (hwritten : q = .setReady ∨ q = .setUp ∨ q = .getUp ∨ q = .getRead → s'.written = true)
    (hmono : s.written = true → s'.written = true) (hready : s'.isReady = true → s'.written = true)
    (hposted : 0 < (s'.go.sem ()).count → s'.written = true) (hvalue : s'.written = true → s'.t = v)
    (hresults : ∀ r ∈ s'.results, r = v) (hfailed : q ≠ .failed) : Inv v s' := by
  constructor
  case queued => exact hqueued
  case permits => exact htotal
  case setting =>
    intro u hu
    by_cases hum : u = me
    · rw [hum, hself] at hu
      rw [hum]
      exact hsetting hu
    · rcases hothers u hum with hsame | ⟨hwoken, -⟩
      · rw [hsame] at hu
        rcases hset with ⟨hsetter, hdone, -⟩ | hquiet
        · rw [hsetter, hdone]
          exact h.setting u hu
        · rw [hquiet u hum] at hu
          cases hu
      · rw [hwoken] at hu
        cases hu
  case set_called => exact hcalled
  case not_ready =>
    intro u hu
    by_cases hum : u = me
    · rw [hum, hself] at hu
      exact hnot hu
    · rcases hothers u hum with hsame | ⟨hwoken, -⟩
      · rw [hsame] at hu
        rcases hset with ⟨-, -, hready'⟩ | hquiet
        · rw [hready']
          exact h.not_ready u hu
        · have hsetting' := hquiet u hum
          rcases hu with hu | hu | hu <;> rw [hu] at hsetting' <;> cases hsetting'
      · rw [hwoken] at hu
        simp at hu
  case not_called => exact hnone
  case written =>
    intro u hu
    by_cases hum : u = me
    · rw [hum, hself] at hu
      exact hwritten hu
    · rcases hothers u hum with hsame | ⟨-, hw⟩
      · rw [hsame] at hu
        exact hmono (h.written u hu)
      · exact hw
  case ready => exact hready
  case posted => exact hposted
  case value => exact hvalue
  case results => exact hresults
  case unfailed =>
    intro u
    by_cases hum : u = me
    · rw [hum, hself]
      exact hfailed
    · rcases hothers u hum with hsame | ⟨hwoken, -⟩
      · rw [hsame]
        exact h.unfailed u
      · rw [hwoken]
        simp

/-- A step of `me` that leaves the semaphore alone and keeps the permits that it has. -/
theorem of_setPc {p : FuturePc} (h : Inv v s) (ht : s.go.pc me = p) (hgo : s'.go = s.go.setPc me q)
    (hp : p.asleep? = none) (hq : q.asleep? = none) (hpermits : q.permits () = p.permits ())
    (hset : (s'.setter = s.setter ∧ s'.setDone = s.setDone ∧ s'.isReady = s.isReady) ∨
      p.setting = true ∧ s'.setter = s.setter ∧ s'.setDone = s.setDone)
    (hsetting : q.setting = true → p.setting = true)
    (hnot : q = .setAssert ∨ q = .setWrite ∨ q = .setReady → s'.isReady = false)
    (hwritten : q = .setReady ∨ q = .setUp ∨ q = .getUp ∨ q = .getRead → s'.written = true)
    (hmono : s.written = true → s'.written = true) (hready : s'.isReady = true → s'.written = true)
    (hvalue : s'.written = true → s'.t = v) (hresults : ∀ r ∈ s'.results, r = v) (hfailed : q ≠ .failed) :
    Inv v s' := by
  have hsame : s'.setter = s.setter ∧ s'.setDone = s.setDone := by
    rcases hset with ⟨hsetter, hdone, -⟩ | ⟨-, hsetter, hdone⟩ <;> exact ⟨hsetter, hdone⟩
  obtain ⟨hsetter, hdone⟩ := hsame
  have hsem : s'.go.sem () = s.go.sem () := by rw [hgo]; rfl
  apply h.of_step me q
  case hqueued =>
    rw [hgo]
    exact h.queued.setPc (by rw [ht, hp]) hq
  case htotal =>
    have htotal := SemProgram.total_setPc (s := s.go) (w := FuturePc.permits) (j := ()) (t := me) (q := q)
    rw [ht, hpermits] at htotal
    rw [hgo, hsetter, ← h.permits]
    omega
  case hself =>
    rw [hgo]
    exact Function.update_self ..
  case hothers =>
    intro u hu
    rw [hgo]
    exact .inl (Function.update_of_ne hu ..)
  case hset =>
    rcases hset with hset | ⟨hp', -⟩
    · exact .inl hset
    · exact .inr fun u hu => h.not_setting (by rw [ht, hp']) hu
  case hsetting =>
    intro hq'
    rw [hsetter, hdone]
    exact h.setting me (by rw [ht]; exact hsetting hq')
  case hcalled =>
    rw [hdone, hsetter]
    exact h.set_called
  case hnot => exact hnot
  case hnone =>
    intro hnone
    rcases hset with ⟨-, -, hsame⟩ | ⟨hp', -⟩
    · rw [hsame]
      exact h.not_called (hsetter.symm.trans hnone)
    · have hsome := (h.setting me (by rw [ht, hp'])).1
      rw [← hsetter, hnone] at hsome
      cases hsome
  case hwritten => exact hwritten
  case hmono => exact hmono
  case hready => exact hready
  case hposted =>
    rw [hsem]
    exact fun hpos => hmono (h.posted hpos)
  case hvalue => exact hvalue
  case hresults => exact hresults
  case hfailed => exact hfailed

omit [DecidableEq T] in
/-- The count is 0 or 1. -/
theorem count_le (h : Inv v s) : (s.go.sem ()).count ≤ 1 := by
  have htotal := h.permits
  unfold SemProgram.total at htotal
  split_ifs at htotal <;> omega

/-- `me` calls `up` with the permit that it has. -/
theorem up {p : FuturePc} (h : Inv v s) (ht : s.go.pc me = p) (hgo : s'.go = s.go.up () me q fun _ => .getUp)
    (hp : p = .setUp ∨ p = .getUp) (hq : q = .out ∨ q = .getRead)
    (hsame : s'.isReady = s.isReady ∧ s'.t = s.t ∧ s'.setter = s.setter ∧ s'.written = s.written ∧
      s'.results = s.results)
    (hdone : s'.setDone = s.setDone ∨ p.setting = true) : Inv v s' := by
  obtain ⟨hready, hvalue, hsetter, hw, hresults⟩ := hsame
  have hwritten : s.written = true := h.written me (by rw [ht]; tauto)
  have hawake : (s.go.pc me).asleep? = none := by rcases hp with hp | hp <;> rw [ht, hp] <;> rfl
  have hone : p.permits () = 1 := by rcases hp with hp | hp <;> rw [hp] <;> rfl
  have hq' : q.asleep? = none ∧ q.permits () = 0 ∧ q.setting = false ∧ q ≠ .failed := by
    rcases hq with hq | hq <;> rw [hq] <;> simp [FuturePc.asleep?, FuturePc.permits, FuturePc.setting]
  apply h.of_step me q
  case hqueued =>
    rw [hgo]
    exact h.queued.up hawake hq'.1 fun _ _ => rfl
  case htotal =>
    rw [hgo, hsetter, ← h.permits]
    apply SemProgram.total_up h.queued hawake
    · intro j
      rw [ht, hone, hq'.2.1]
      rfl
    · intro p' hp' j
      have hasleep : p' = .asleep := by cases p' <;> first | rfl | cases hp'
      rw [hasleep]
      rfl
    · have hle := h.count_le
      omega
  case hself =>
    rw [hgo]
    exact h.queued.up_self hawake
  case hothers =>
    intro u hu
    rw [hgo, hw]
    rcases h.queued.up_other (k := ()) (q := q) (fun _ => .getUp) hu with hsame | ⟨-, hwoken⟩
    · exact .inl hsame
    · exact .inr ⟨hwoken, hwritten⟩
  case hset =>
    rcases hdone with hdone | hsetting
    · exact .inl ⟨hsetter, hdone, hready⟩
    · exact .inr fun u hu => h.not_setting (by rw [ht, hsetting]) hu
  case hsetting =>
    intro hsetting
    rw [hq'.2.2.1] at hsetting
    cases hsetting
  case hcalled =>
    intro hdone'
    rw [hsetter]
    rcases hdone with hdone | hsetting
    · exact h.set_called (by rw [← hdone, hdone'])
    · rw [(h.setting me (by rw [ht, hsetting])).1]
      rfl
  case hnot => rcases hq with hq | hq <;> rw [hq] <;> simp
  case hnone =>
    rw [hsetter, hready]
    exact h.not_called
  case hwritten => exact fun _ => hw.trans hwritten
  case hmono => exact fun _ => hw.trans hwritten
  case hready => exact fun _ => hw.trans hwritten
  case hposted => exact fun _ => hw.trans hwritten
  case hvalue =>
    rw [hvalue, hw]
    exact h.value
  case hresults =>
    rw [hresults]
    exact h.results
  case hfailed => exact hq'.2.2.2

theorem set (h : Inv v s) (ht : s.go.pc me = .out) (hnone : s.setter = none) : Inv v (s.next v (.set me)) := by
  have hquiet : ∀ u, (s.go.pc u).setting = false := by
    intro u
    cases hu : (s.go.pc u).setting with
    | false => rfl
    | true =>
      have hsome := (h.setting u hu).1
      rw [hnone] at hsome
      cases hsome
  have hready := h.not_called hnone
  have hdone : s.setDone = false := by
    cases hd : s.setDone with
    | false => rfl
    | true =>
      have hcalled := h.set_called hd
      rw [hnone] at hcalled
      cases hcalled
  apply h.of_step me .setAssert
  case hqueued => exact h.queued.setPc (by rw [ht]; rfl) rfl
  case htotal =>
    have htotal := SemProgram.total_setPc (s := s.go) (w := FuturePc.permits) (j := ()) (t := me) (q := .setAssert)
    have hzero := h.permits
    rw [hnone] at hzero
    rw [ht, hzero] at htotal
    exact htotal
  case hself => exact Function.update_self ..
  case hothers => exact fun u hu => .inl (Function.update_of_ne hu ..)
  case hset => exact .inr fun u _ => hquiet u
  case hsetting => exact fun _ => ⟨rfl, hdone⟩
  case hcalled => exact fun _ => rfl
  case hnot => exact fun _ => hready
  case hnone => exact fun _ => hready
  case hwritten => simp
  case hmono => exact id
  case hready => exact h.ready
  case hposted => exact h.posted
  case hvalue => exact h.value
  case hresults => exact h.results
  case hfailed => simp

theorem getDown (h : Inv v s) (ht : s.go.pc me = .getDown) :
    Inv v { s with go := s.go.down () me .getUp .asleep } := by
  obtain ⟨q, hq⟩ : ∃ q, (s.go.down () me .getUp .asleep).pc me = q := ⟨_, rfl⟩
  have hself : 0 < (s.go.sem ()).count ∧ q = .getUp ∨ q = .asleep := by
    rcases SemProgram.down_self s.go () me .getUp .asleep with
      ⟨hpos, hpc⟩ | ⟨-, hpc⟩
    · exact .inl ⟨hpos, hq.symm.trans hpc⟩
    · exact .inr (hq.symm.trans hpc)
  apply h.of_step me q
  case hqueued => exact h.queued.down (by rw [ht]; rfl) rfl rfl
  case htotal =>
    show (s.go.down () me .getUp .asleep).total FuturePc.permits () = if s.setter.isSome then 1 else 0
    rw [← h.permits]
    apply SemProgram.total_down <;> intro j <;> rw [ht] <;> rfl
  case hself => exact hq
  case hothers => exact fun u hu => .inl (SemProgram.down_other hu)
  case hset => exact .inl ⟨rfl, rfl, rfl⟩
  case hsetting => rcases hself with ⟨-, hq'⟩ | hq' <;> rw [hq'] <;> simp [FuturePc.setting]
  case hcalled => exact h.set_called
  case hnot => rcases hself with ⟨-, hq'⟩ | hq' <;> rw [hq'] <;> simp
  case hnone => exact h.not_called
  case hwritten =>
    rcases hself with ⟨hpos, -⟩ | hq'
    · exact fun _ => h.posted hpos
    · rw [hq']
      simp
  case hmono => exact id
  case hready => exact h.ready
  case hposted =>
    intro hpos
    show s.written = true
    rcases SemProgram.down_cases s.go () me .getUp .asleep with
      ⟨x, hx, hdown⟩ | ⟨-, hdown⟩
    · exact h.posted (by have hcount := (Semaphore.tryDown_some hx).1; omega)
    · rw [hdown] at hpos
      exact h.posted hpos
  case hvalue => exact h.value
  case hresults => exact h.results
  case hfailed => rcases hself with ⟨-, hq'⟩ | hq' <;> rw [hq'] <;> simp

theorem stepThread (h : Inv v s) (he : s.enabled (.step me) = true) : Inv v (s.stepThread v me) := by
  cases ht : s.go.pc me with
  | out | asleep | failed => simp [enabled, ht] at he
  | setAssert =>
    have hready := h.not_ready me (.inl ht)
    simp only [FutureState.stepThread, ht, hready]
    exact h.of_setPc (q := .setWrite) ht rfl rfl rfl rfl (.inl ⟨rfl, rfl, rfl⟩) (fun _ => rfl) (fun _ => hready)
      (by simp) id h.ready h.value h.results (by simp)
  | setWrite =>
    have hready := h.not_ready me (.inr (.inl ht))
    simp only [FutureState.stepThread, ht]
    exact h.of_setPc (q := .setReady) ht rfl rfl rfl rfl (.inl ⟨rfl, rfl, rfl⟩) (fun _ => rfl) (fun _ => hready)
      (fun _ => rfl) (fun _ => rfl) (fun _ => rfl) (fun _ => rfl) h.results (by simp)
  | setReady =>
    have hwritten := h.written me (.inl ht)
    simp only [FutureState.stepThread, ht]
    exact h.of_setPc (q := .setUp) ht rfl rfl rfl rfl (.inr ⟨rfl, rfl, rfl⟩) (fun _ => rfl) (by simp)
      (fun _ => hwritten) id (fun _ => hwritten) h.value h.results (by simp)
  | setUp =>
    simp only [FutureState.stepThread, ht]
    exact h.up ht rfl (.inl rfl) (.inl rfl) ⟨rfl, rfl, rfl, rfl, rfl⟩ (.inr rfl)
  | getTest =>
    simp only [FutureState.stepThread, ht]
    cases hready : s.isReady with
    | false =>
      exact h.of_setPc (q := .getDown) ht rfl rfl rfl rfl (.inl ⟨rfl, rfl, rfl⟩) (by simp [FuturePc.setting]) (by simp)
        (by simp) id h.ready h.value h.results (by simp)
    | true =>
      exact h.of_setPc (q := .getRead) ht rfl rfl rfl rfl (.inl ⟨rfl, rfl, rfl⟩) (by simp [FuturePc.setting]) (by simp)
        (fun _ => h.ready hready) id h.ready h.value h.results (by simp)
  | getDown =>
    simp only [FutureState.stepThread, ht]
    exact h.getDown ht
  | getUp =>
    simp only [FutureState.stepThread, ht]
    exact h.up ht rfl (.inr rfl) (.inr rfl) ⟨rfl, rfl, rfl, rfl, rfl⟩ (.inl rfl)
  | getRead =>
    have hvalue := h.value (h.written me (.inr (.inr (.inr ht))))
    have hresults : ∀ r ∈ s.results ++ [s.t], r = v := by
      intro r hr
      rcases List.mem_append.mp hr with hr | hr
      · exact h.results r hr
      · rw [List.mem_singleton.mp hr, hvalue]
    simp only [FutureState.stepThread, ht]
    exact h.of_setPc (q := .out) ht rfl rfl rfl rfl (.inl ⟨rfl, rfl, rfl⟩) (by simp [FuturePc.setting]) (by simp)
      (by simp) id h.ready h.value hresults (by simp)

theorem next (h : Inv v s) {a : FutureAct T} (he : s.enabled a = true) : Inv v (s.next v a) := by
  cases a with
  | set me =>
    have he' : s.go.pc me = .out ∧ s.setter.isNone = true := by simpa [enabled] using he
    exact h.set he'.1 (Option.isNone_iff_eq_none.mp he'.2)
  | get me =>
    have ht : s.go.pc me = .out := by simpa [enabled] using he
    exact h.of_setPc (q := .getTest) ht rfl rfl rfl rfl (.inl ⟨rfl, rfl, rfl⟩) (by simp [FuturePc.setting]) (by simp)
      (by simp) id h.ready h.value h.results (by simp)
  | step me => exact h.stepThread he

theorem reachable {t : V} (h : (futureMachine T v t).Reachable s) : Inv v s := by
  apply h.invariant
  · intro s hs
    change s = .new t at hs
    rw [hs]
    exact .new t
  · exact fun s a hi he => hi.next he

omit [DecidableEq T] in
/-- Once `set` has returned, the one permit is in the semaphore or with a thread that passes it on. -/
theorem turnstile (h : Inv v s) (hdone : s.setDone = true) (hcount : (s.go.sem ()).count = 0) :
    ∃ u, s.go.pc u = .getUp := by
  have htotal := h.permits
  rw [if_pos (h.set_called hdone), SemProgram.total, hcount, Nat.zero_add] at htotal
  obtain ⟨u, hu⟩ := exists_of_sum_ne_zero (by rw [htotal]; exact Nat.one_ne_zero)
  have hsetting : (s.go.pc u).setting = false := by
    cases hs : (s.go.pc u).setting with
    | false => rfl
    | true =>
      have hnot := (h.setting u hs).2
      rw [hdone] at hnot
      cases hnot
  refine ⟨u, ?_⟩
  cases hpc : s.go.pc u <;> simp [hpc, FuturePc.permits, FuturePc.setting] at hu hsetting ⊢

end Inv

variable [DecidableEq T] [Fintype T]

/-- Every `get` returns the value of the one `set`; nobody reads `t` before it has been written; the assertion holds; and
once `set` has returned, a thread waits for `go` only while there is a permit or another thread passes one on. -/
theorem future_delivers (v t : V) (s : FutureState T V) (h : (futureMachine T v t).Reachable s) :
    (∀ r ∈ s.results, r = v) ∧ (∀ me, s.go.pc me = .getRead → s.written = true ∧ s.t = v) ∧
    (∀ me, s.go.pc me ≠ .failed) ∧
    (s.setDone = true → ∀ me ∈ (s.go.sem ()).waiting, (s.go.sem ()).count = 0 → ∃ u, u ≠ me ∧ s.go.pc u = .getUp) := by
  have hinv : Inv v s := Inv.reachable h
  refine ⟨hinv.results, ?_, hinv.unfailed, ?_⟩
  · intro me hme
    have hwritten := hinv.written me (.inr (.inr (.inr hme)))
    exact ⟨hwritten, hinv.value hwritten⟩
  · intro hdone me hme hcount
    obtain ⟨u, hu⟩ := hinv.turnstile hdone hcount
    have hasleep := (hinv.queued.mem_iff () me).mp hme
    refine ⟨u, ?_, hu⟩
    intro hum
    rw [← hum, hu] at hasleep
    cases hasleep

/-- Two threads wait before `set`; one of them has been handed the permit when `set` returns. -/
def earlyReaders : List (FutureAct (Option Bool)) :=
  [.get (some false), .step (some false), .step (some false), .get (some true), .step (some true), .step (some true),
    .set none, .step none, .step none, .step none, .step none]

theorem earlyReaders_delivered : ∃ s : FutureState (Option Bool) ℕ, (futureMachine (Option Bool) 7 0).Reachable s ∧
    (s.go.sem ()).waiting = [some true] ∧ ∃ u, u ≠ some true ∧ s.go.pc u = .getUp := by
  have hrun : ∃ s, (futureMachine (Option Bool) 7 0).Run (.new 0) earlyReaders s ∧
      decide (s.setDone = true ∧ (s.go.sem ()).waiting = [some true] ∧ (s.go.sem ()).count = 0) = true :=
    Machine.exists_run_of_replay (by decide)
  obtain ⟨s, hs, hcheck⟩ := hrun
  obtain ⟨hdone, hwaiting, hcount⟩ := of_decide_eq_true hcheck
  have hreach := hs.reachable (.init rfl)
  refine ⟨s, hreach, hwaiting, ?_⟩
  exact (future_delivers 7 0 s hreach).2.2.2 hdone (some true)
    (by rw [hwaiting]; exact List.mem_singleton_self _) hcount

end FutureState
end AudioKernel
