import AudioKernel.Print.Format
import AudioKernel.Sync.Guarded

/-! `Debug::vprintf` by any number of threads: the characters go to the serial port one by one, under an
`InterruptSafeLock`. `Debug::panic`, which takes the lock away from its owner, is left out. -/
namespace AudioKernel
open Lib SafeLockPc

variable {T : Type}

/-- The lock, what each thread has still to put, and the characters that the port has been given. Recorded are the text
of a thread's call, all of its calls, and the texts that have been put, with the threads. -/
structure Console (T : Type) where
  lock : SafeLockState T
  todo : T → List UInt8
  port : List UInt8
  text : T → List UInt8
  calls : T → List (List UInt8)
  printed : List (T × List UInt8)

/-- A thread sets its interrupt flag, calls `vprintf`, goes on in `lock` or `unlock`, puts a character, or calls
`unlock`. -/
inductive ConsoleAct (T : Type)
  | setFlag (t : T) (on : Bool)
  | vprintf (t : T) (text : List UInt8)
  | step (t : T)
  | put (t : T)
  | unlock (t : T)

/-- What `K::vsnprintf` puts for some format and arguments. -/
def Printable (text : List UInt8) : Prop :=
  ∃ (c : Print.Call) (fuel : ℕ) (mem mem' : ℕ → UInt8), c.maxlen = 1000 ∧ c.dopr fuel [] mem = some (.ok (text, mem'))

namespace Console

variable [DecidableEq T] (s : Console T)

def enabled : ConsoleAct T → Prop
  | .setFlag t on => s.lock.enabled (.setFlag t on) = true
  | .vprintf t text => s.lock.enabled (.lock t) = true ∧ Printable text
  | .step t => s.lock.enabled (.step t) = true
  | .put t => s.lock.pc t = .critical ∧ s.todo t ≠ []
  | .unlock t => s.lock.pc t = .critical ∧ s.todo t = []

def next : ConsoleAct T → Console T
  | .setFlag t on => { s with lock := s.lock.next (.setFlag t on) }
  | .vprintf t text => { s with
      lock := s.lock.next (.lock t)
      todo := Function.update s.todo t text
      text := Function.update s.text t text
      calls := Function.update s.calls t (s.calls t ++ [text]) }
  | .step t => { s with lock := s.lock.next (.step t) }
  | .put t => { s with
      port := s.port ++ (s.todo t).take 1
      todo := Function.update s.todo t (s.todo t).tail }
  | .unlock t => { s with
      lock := s.lock.next (.unlock t)
      printed := s.printed ++ [(t, s.text t)] }

/-- Nothing has been printed, and nobody is in `vprintf`. -/
def Fresh : Prop := s.lock.Fresh ∧ s.port = [] ∧ s.printed = [] ∧ ∀ t, s.calls t = []

def printedBy (t : T) : List (List UInt8) := (s.printed.filter fun m => m.1 = t).map Prod.snd

def all : List UInt8 := s.printed.flatMap Prod.snd

end Console

def consoleMachine (T : Type) [DecidableEq T] : Machine (Console T) (ConsoleAct T) where
  init := Console.Fresh
  enabled := Console.enabled
  next := Console.next

namespace Console

def putting : Guarded (List UInt8) (List UInt8) (List UInt8) where
  start text := text
  done todo := todo.isEmpty
  step _ todo port := (todo.tail, port ++ todo.take 1)
  own _ _ := False

/-- The console as threads that put their texts under the lock. -/
def guarded (s : Console T) : GuardedState T (List UInt8) (List UInt8) (List UInt8) where
  lock := s.lock
  request := s.text
  frame := s.todo
  shared := s.port
  finished := s.printed.map fun m => (m.1, m.2, [])

/-- The port has been given whole texts, and of the thread in the critical section the beginning of its text. -/
theorem putting_keeps : putting.Keeps (T := T) (fun cs port => port = cs.flatMap fun c => c.2.1)
    fun cs text todo port => ∃ part, text = part ++ todo ∧ port = (cs.flatMap fun c => c.2.1) ++ part where
  start _ text _ hport := ⟨[], rfl, by rw [List.append_nil]; exact hport⟩
  step := by
    intro cs text todo port hinside hdone
    obtain ⟨part, htext, hport⟩ := hinside
    cases todo with
    | nil => cases hdone
    | cons ch todo =>
      refine ⟨part ++ [ch], ?_, ?_⟩
      · rw [htext, List.append_assoc]
        rfl
      · change port ++ [ch] = _
        rw [hport, List.append_assoc]
  own_quiet _ _ _ _ h := h.elim
  own_inside _ _ _ _ _ _ h := h.elim
  done := by
    intro cs t text todo port hinside hdone
    obtain ⟨part, htext, hport⟩ := hinside
    rw [List.isEmpty_iff.mp hdone, List.append_nil] at htext
    rw [hport, List.flatMap_append, List.flatMap_singleton, htext]

theorem guarded_all (s : Console T) : ((guarded s).finished.flatMap fun c => c.2.1) = s.all := by
  change (s.printed.map fun m => (m.1, m.2, [])).flatMap _ = _
  rw [List.flatMap_map]
  rfl

variable [DecidableEq T] {s : Console T} {t u : T}

theorem guarded_reachable (h : (consoleMachine T).Reachable s) : (putting.machine (· = [])).Reachable (guarded s) := by
  apply h.refines (N := putting.machine (· = [])) (I := fun _ => True) guarded
  · exact fun _ _ => trivial
  · intro s hs
    obtain ⟨hlock, hport, hprinted, -⟩ := hs
    refine ⟨hlock, hport, ?_⟩
    change s.printed.map _ = []
    rw [hprinted, List.map_nil]
  · intro s a _ he
    cases a with
    | setFlag t on => exact .inr ⟨.setFlag t on, he, rfl⟩
    | vprintf t text => exact .inr ⟨.call t text, he.1, rfl⟩
    | step t => exact .inr ⟨.lockStep t, he, rfl⟩
    | put t => exact .inr ⟨.work t, ⟨he.1, by simpa [putting, guarded] using he.2⟩, rfl⟩
    | unlock t =>
      have hfinished : (guarded (s.next (.unlock t))).finished = (guarded s).finished ++ [(t, s.text t, s.todo t)] := by
        change (s.printed ++ [(t, s.text t)]).map _ = _
        rw [List.map_append, he.2]
        rfl
      refine .inr ⟨.unlock t, ⟨he.1, by simpa [putting, guarded] using he.2⟩, ?_⟩
      change guarded (s.next (.unlock t)) = { guarded s with
        lock := s.lock.next (.unlock t)
        finished := (guarded s).finished ++ [(t, s.text t, s.todo t)] }
      rw [← hfinished]
      rfl

/-- A thread's calls are those whose texts have been put, and the one that it is in. -/
def Counted (s : Console T) : Prop := ∀ t, s.calls t = s.printedBy t ++ if (s.lock.pc t).pending then [s.text t] else []

theorem counted_fresh (h : s.Fresh) : Counted s := by
  obtain ⟨⟨-, -, hout⟩, -, hprinted, hcalls⟩ := h
  intro t
  rw [hcalls t, printedBy, hprinted, hout t]
  rfl

/-- A thread in `lock` stays pending, and one in `unlock` does not become so. -/
theorem pending_step {l : SafeLockState T} (he : l.enabled (.step t) = true) (u : T) :
    ((l.stepThread t).pc u).pending = (l.pc u).pending := by
  obtain ⟨hothers, hpc⟩ := SafeLockState.step_pc he
  by_cases hut : u = t
  · subst hut
    rcases hpc with ⟨hw, hw'⟩ | ⟨⟨was, hstore⟩, hc⟩ | ⟨hp, hp'⟩
    · rw [(waiting_ne hw).2, (waiting_ne hw').2]
    · rw [hstore, hc]
      rfl
    · rw [hp, hp']
  · rw [hothers u hut]

theorem counted_unlock (h : Counted s) (hcritical : s.lock.pc t = .critical) : Counted (s.next (.unlock t)) := by
  intro u
  have hcalls := h u
  change s.calls u = ((s.printed ++ [(t, s.text t)]).filter fun m => m.1 = u).map Prod.snd ++
    if (Function.update s.lock.pc t .unlockRead u).pending then [s.text u] else []
  rw [List.filter_append, List.map_append]
  by_cases hut : u = t
  · subst hut
    rw [Function.update_self, hcalls, hcritical, List.append_assoc]
    simp [SafeLockPc.pending, SafeLockPc.waiting, printedBy]
  · rw [Function.update_of_ne hut, hcalls]
    simp [printedBy, Ne.symm hut]

theorem counted_vprintf (h : Counted s) {text : List UInt8} (hout : s.lock.pc t = .out) :
    Counted (s.next (.vprintf t text)) := by
  intro u
  have hcalls := h u
  change Function.update s.calls t (s.calls t ++ [text]) u = s.printedBy u ++
    if (Function.update s.lock.pc t .lockRead u).pending then [Function.update s.text t text u] else []
  by_cases hut : u = t
  · subst hut
    rw [Function.update_self, Function.update_self, Function.update_self, hcalls, hout]
    simp [SafeLockPc.pending, SafeLockPc.waiting]
  · rw [Function.update_of_ne hut, Function.update_of_ne hut, Function.update_of_ne hut]
    exact hcalls

theorem counted_reachable (h : (consoleMachine T).Reachable s) : Counted s := by
  apply h.invariant
  · exact fun s hs => counted_fresh hs
  · intro s a hs he
    cases a with
    | setFlag t on => exact hs
    | vprintf t text => exact counted_vprintf hs (by simpa [SafeLockState.enabled] using he.1)
    | step t =>
      intro u
      change s.calls u = s.printedBy u ++ if ((s.lock.stepThread t).pc u).pending then [s.text u] else []
      rw [pending_step he u]
      exact hs u
    | put t => exact hs
    | unlock t => exact counted_unlock hs he.1

/-- However the threads are interleaved, the port is given whole texts, one after the other, and of at most one more text
a beginning; and each thread's texts are put in the order of its calls, once each, but for the call that it is in. -/
theorem texts_whole (h : (consoleMachine T).Reachable s) :
    (∃ part, s.port = s.all ++ part ∧ (part = [] ∨ ∃ t, s.lock.pc t = .critical ∧ part <+: s.text t)) ∧
    ∀ t, s.calls t = s.printedBy t ++ if (s.lock.pc t).pending then [s.text t] else [] := by
  have hinv := Guarded.inv_reachable putting_keeps (fun _ hport => hport) (guarded_reachable h)
  refine ⟨?_, counted_reachable h⟩
  by_cases hc : ∃ t, s.lock.pc t = .critical
  · obtain ⟨t, ht⟩ := hc
    obtain ⟨part, htext, hport⟩ := hinv.critical t ht
    rw [guarded_all] at hport
    exact ⟨part, hport, .inr ⟨t, ht, s.todo t, htext.symm⟩⟩
  · rw [not_exists] at hc
    have hport := hinv.quiet hc
    rw [guarded_all] at hport
    exact ⟨[], by rw [List.append_nil]; exact hport, .inl rfl⟩

theorem printable_a : Printable (Print.Call.characters "a") :=
  ⟨.plain 1000 "a" 0, 3, fun _ => 0, fun _ => 0, rfl, rfl⟩

/-- Thread `true` has come to the lock while `false` has put its only character. -/
theorem texts_whole_two : ∃ s, (consoleMachine Bool).Reachable s ∧ s.port = Print.Call.characters "a" ∧
    (∃ part, s.port = s.all ++ part ∧ (part = [] ∨ ∃ t, s.lock.pc t = .critical ∧ part <+: s.text t)) ∧
    s.calls true = s.printedBy true ++ if (s.lock.pc true).pending then [s.text true] else [] := by
  have h₀ : (consoleMachine Bool).Reachable
      ⟨⟨false, false, fun _ => false, fun _ => .out, fun _ => false⟩, fun _ => [], [], fun _ => [], fun _ => [], []⟩ :=
    .init ⟨⟨rfl, rfl, fun _ => rfl⟩, rfl, rfl, fun _ => rfl⟩
  have h₁ := h₀.step (a := ConsoleAct.vprintf false (Print.Call.characters "a")) ⟨rfl, printable_a⟩
  have h₂ := h₁.step (a := ConsoleAct.step false) rfl
  have h₃ := h₂.step (a := ConsoleAct.step false) rfl
  have h₄ := h₃.step (a := ConsoleAct.step false) rfl
  have h₅ := h₄.step (a := ConsoleAct.vprintf true (Print.Call.characters "a")) ⟨rfl, printable_a⟩
  have h₆ := h₅.step (a := ConsoleAct.put false) ⟨rfl, List.cons_ne_nil _ _⟩
  obtain ⟨hport, hcalls⟩ := texts_whole h₆
  exact ⟨_, h₆, rfl, hport, hcalls true⟩

end Console
end AudioKernel
