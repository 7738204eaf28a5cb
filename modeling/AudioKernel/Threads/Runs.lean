import AudioKernel.Threads.Block

/-! Where the threads are in every reachable state of the scheduler, and when a thread can be preempted. -/
namespace AudioKernel
open Lib

namespace Sched

variable {s s' : Sched} {cores c : ℕ}

/-- At the start the idle threads are on their cores, and all other threads are in `readyQ`. -/
theorem Booted.tcbs (h : s.Booted) (i : Place) : s.tcbs i = match i with
    | .core c => [.idle c]
    | .ready => (List.range s.created).map .thread
    | _ => [] := by
  obtain ⟨hcore, hcalls, -, hidle, hbase, hready, hzombies, -, hsem, hcond⟩ := h
  cases i with
  | core c =>
    obtain ⟨hstack, -, hpending⟩ := hcore c
    simp [Sched.tcbs, Cpu.onCore, Cpu.incoming, Cpu.outgoing, hstack, hpending, hcalls]
  | ready => exact hready
  | sem i => exact (hsem i).1
  | cond k => exact (hcond k).1
  | handed u =>
    change (s.base u).handed?.toList = []
    cases u with
    | idle k => rw [hidle k]; rfl
    | thread t => rw [hbase t]; rfl
  | zombies => exact hzombies
  | reaped u =>
    change (s.base u).reaped?.toList = []
    cases u with
    | idle k => rw [hidle k]; rfl
    | thread t => rw [hbase t]; rfl

theorem Booted.contents (h : s.Booted) (i : Place) : s.contents i = if i = .ready then List.range s.created else [] := by
  rw [Sched.contents, h.tcbs]
  cases i with
  | ready =>
    rw [if_pos rfl, threads, List.filterMap_map]
    exact List.filterMap_some
  | core | sem | cond | handed | zombies | reaped => rfl

theorem Booted.control (h : s.Booted) : Control s.cpu := by
  have hcore_tcbs (c : ℕ) : s.cpu.onCore c = [.idle c] := h.tcbs (.core c)
  obtain ⟨hcore, hcalls, -⟩ := h
  constructor
  case core =>
    intro c
    obtain ⟨hstack, hactive, hpending⟩ := hcore c
    constructor
    · intro _
      rw [hcalls]
      exact hactive.trans hstack.symm
    · intro cb me hp
      rw [hpending] at hp
      cases hp
  case suspended =>
    intro t _
    rw [hcalls]
    trivial
  case tails => simp [hcalls]
  case idle_core =>
    intro c k hk
    rw [hcore_tcbs c] at hk
    cases List.mem_singleton.mp hk
    rfl
  case idle_calls => simp [hcalls]
  case idle_pending =>
    intro c cb k hp
    rw [(hcore c).2.2] at hp
    cases hp

theorem booted_inv (h : s.Booted) : Inv s := by
  obtain ⟨-, -, -, hidle, -, -, -, hdeleted, -, -⟩ := id h
  constructor
  case control => exact h.control
  case idle_places =>
    intro i k hi hk
    rw [h.tcbs] at hk
    cases i with
    | core c => cases hi
    | ready => simp at hk
    | sem | cond | handed | zombies | reaped => cases hk
  case idle_base => exact hidle
  case deleted_lt => simp [hdeleted]
  case placed =>
    refine ⟨fun _ => .ready, ?_, ?_⟩
    · intro i x
      rw [h.contents i]
      unfold Live
      by_cases hi : i = .ready
      · simp [hi, hdeleted]
      · simp [hi, Ne.symm hi]
    · intro i
      rw [h.contents i]
      split_ifs
      · exact List.nodup_range
      · exact List.nodup_nil

theorem reachable_inv (h : (schedMachine cores).Reachable s) : Inv s := by
  apply h.invariant
  · intro s hs
    exact booted_inv hs
  · intro s a hi he
    exact (hi.sound he.2).inv

/-- Every thread is at one place, once; the idle threads stay in their stop loops, on their own cores. -/
structure OnePlace (s : Sched) : Prop where
  place : ∀ t, s.Live t → ∃! i, .thread t ∈ s.tcbs i
  live : ∀ t i, .thread t ∈ s.tcbs i → s.Live t
  once : ∀ i, (s.contents i).Nodup
  active_apart : ∀ c c', s.cpu.active c = s.cpu.active c' → c = c'
  idle_place : ∀ k i, .idle k ∈ s.tcbs i → i = .core k
  idle_stops : ∀ k, s.base (.idle k) = .stopping ∧ ∀ call ∈ s.cpu.calls (.idle k), call.IdleOk

/-- A thread enters a queue only when it is in none, and is deleted only when it is on no core. -/
structure StepSafe (s s' : Sched) : Prop where
  link_free : ∀ t j, j.isQueue = true → .thread t ∉ s.tcbs j → .thread t ∈ s'.tcbs j →
    ∀ i, i.isQueue = true → .thread t ∉ s.tcbs i
  deleted_off_core : ∀ t, s.Live t → ¬ s'.Live t →
    (∃ u, s.base u = .reaping (.thread t)) ∧ ∀ c, .thread t ∉ s.cpu.onCore c ∧ s.cpu.active c ≠ .thread t

namespace Inv

/-- `activeThreads` names the thread that runs on the core, or the one that it is about to switch to. -/
theorem active_onCore (h : Inv s) (c : ℕ) : s.cpu.active c ∈ s.cpu.onCore c := by
  have hself := Control.stack_onCore s.cpu c
  cases hp : s.cpu.pending c with
  | some x =>
    rw [((h.control.core c).switching x.1 x.2 hp).1]
    exact hself
  | none =>
    have hr := (h.control.core c).running hp
    cases hcalls : s.cpu.calls (s.cpu.stack c) with
    | nil =>
      rw [hcalls] at hr
      change s.cpu.active c = s.cpu.stack c at hr
      rw [hr]
      exact hself
    | cons call rest =>
      rw [hcalls] at hr
      change StageOk s.cpu c call.stage at hr
      cases hst : call.stage with
      | enter =>
        rw [hst] at hr
        change s.cpu.active c = s.cpu.stack c at hr
        rw [hr]
        exact hself
      | remove core me =>
        rw [hst] at hr
        rw [hr.2.2.1]
        exact hself
      | activate core me next =>
        rw [hst] at hr
        rw [hr.2.2.1]
        exact hself
      | switch core me next =>
        rw [hst] at hr
        rw [hr.2.2.1]
        apply Control.onCore_stage call rest hcalls
        rw [hst]
        rfl
      | away =>
        rw [hst] at hr
        exact hr.elim

theorem onePlace (h : Inv s) : OnePlace s := by
  obtain ⟨place, hplaced⟩ := h.placed
  constructor
  case place =>
    intro t ht
    obtain ⟨i, hi, huniq⟩ := hplaced.existsUnique ht
    exact ⟨i, mem_contents.mp hi, fun j hj => huniq j (mem_contents.mpr hj)⟩
  case live =>
    intro t i hi
    exact hplaced.live_of_mem (mem_contents.mpr hi)
  case once => exact hplaced.nodup
  case active_apart =>
    intro c c' he
    have hc := h.active_onCore c
    rw [he] at hc
    exact h.apart c c' _ hc (h.active_onCore c')
  case idle_place =>
    intro k i hk
    cases hi : i.isCore with
    | false => exact absurd hk (h.idle_places i k hi)
    | true =>
      cases i with
      | core c => rw [h.control.idle_core c k hk]
      | _ => cases hi
  case idle_stops =>
    intro k
    exact ⟨h.idle_base k, h.control.idle_calls k⟩

theorem link_free (h : Inv s) (hchange : Change s s') {t : ℕ} {i j : Place} (hj : j.isQueue = true)
    (hnot : .thread t ∉ s.tcbs j) (hin : .thread t ∈ s'.tcbs j) (hi : i.isQueue = true) : .thread t ∉ s.tcbs i := by
  rw [← mem_contents] at hnot hin
  intro hti
  cases hchange with
  | same hs _ => exact hnot ((hs j).mem_iff.mp hin)
  | create x u he _ _ =>
    have hne : j ≠ .handed u := fun he => by rw [he] at hj; cases hj
    exact hnot ((he.others j hne).mem_iff.mp hin)
  | delete x u he _ =>
    have hne : j ≠ .reaped u := fun he => by rw [he] at hj; cases hj
    exact hnot ((he.others j hne).mem_iff.mpr hin)
  | move x i' j' hm hq _ =>
    by_cases hj' : j = j'
    · subst hj'
      rw [hm.put.mem_iff, List.mem_cons, or_iff_left hnot] at hin
      subst hin
      have hxi : .thread t ∈ s.tcbs i' := mem_contents.mp (hm.got.mem_iff.mpr List.mem_cons_self)
      have hii : i = i' := h.unique hti hxi
      subst hii
      exact hq ⟨hi, hj⟩
    · by_cases hji : j = i'
      · subst hji
        exact hnot (hm.got.mem_iff.mpr (List.mem_cons_of_mem _ hin))
      · exact hnot ((hm.others j hji hj').mem_iff.mp hin)

theorem deleted_off_core (h : Inv s) (hchange : Change s s') {t : ℕ} (ht : s.Live t) (ht' : ¬ s'.Live t) :
    (∃ u, s.base u = .reaping (.thread t)) ∧ ∀ c, .thread t ∉ s.cpu.onCore c ∧ s.cpu.active c ≠ .thread t := by
  cases hchange with
  | same _ hl => rw [hl] at ht'; exact absurd ht ht'
  | create x u _ _ hl => exact absurd ((hl t).mpr (.inl ht)) ht'
  | move x i j _ _ hl => rw [hl] at ht'; exact absurd ht ht'
  | delete x u he hl =>
    have htx : t = x := by
      by_contra hne
      exact ht' ((hl t).mpr ⟨ht, hne⟩)
    subst htx
    have hin : .thread t ∈ s.tcbs (.reaped u) := mem_contents.mp (he.put.mem_iff.mpr List.mem_cons_self)
    have hcore : ∀ c, .thread t ∉ s.cpu.onCore c := by
      intro c hc
      cases h.unique (j := .core c) hin hc
    constructor
    · refine ⟨u, ?_⟩
      change .thread t ∈ (s.base u).reaped?.toList at hin
      cases hb : s.base u <;> rw [hb] at hin <;> simp [Base.reaped?] at hin
      rw [hin]
    · intro c
      refine ⟨hcore c, fun he => hcore c ?_⟩
      rw [← he]
      exact h.active_onCore c

end Inv

/-- Every thread that has been created and not deleted is at exactly one place, in every reachable state; no step
puts it into a queue while it is in another one, or deletes it while a core still uses it. -/
theorem threads_in_one_place (cores : ℕ) (s : Sched) (h : (schedMachine cores).Reachable s) :
    s.OnePlace ∧ ∀ a, (schedMachine cores).enabled s a → StepSafe s (s.next a) := by
  have hinv := reachable_inv h
  constructor
  · exact hinv.onePlace
  · intro a he
    have hchange := (hinv.sound he.2).change
    constructor
    · intro t j hj hnot hin i hi
      exact hinv.link_free hchange hj hnot hin hi
    · intro t ht ht'
      exact hinv.deleted_off_core hchange ht ht'

/-- The state after `threadsInit`, with some threads in `readyQ`. -/
def boot (threads : ℕ) : Sched where
  cpu := ⟨Tcb.idle, Tcb.idle, fun _ => none, fun _ => [], fun _ => false⟩
  base
    | .idle _ => .stopping
    | .thread _ => .free
  readyQ := (List.range threads).map .thread
  zombies := []
  sem _ := ⟨0, false, []⟩
  cond _ := ⟨false, 0, []⟩
  created := threads
  deleted := ∅

theorem boot_booted (threads : ℕ) : (boot threads).Booted :=
  ⟨fun _ => ⟨rfl, rfl, rfl⟩, fun _ => rfl, fun _ => rfl, fun _ => rfl, fun _ => rfl, rfl, rfl, rfl,
    fun _ => ⟨rfl, rfl⟩, fun _ => ⟨rfl, rfl⟩⟩

theorem boot_in_one_place :
    (boot 2).OnePlace ∧ ∀ a, (schedMachine 2).enabled (boot 2) a → StepSafe (boot 2) ((boot 2).next a) :=
  threads_in_one_place 2 (boot 2) (.init (boot_booted 2))

/-- Running or switched away from on a core, in a queue, or in the hands of a caller of `schedule`. -/
def Listed (s : Sched) (t : Tcb) : Prop :=
  (∃ c, s.cpu.stack c = t ∨ s.cpu.outgoing c = some t) ∨ t ∈ s.readyQ ∨ (∃ i, t ∈ (s.sem i).waiting) ∨
    (∃ k, t ∈ (s.cond k).queue) ∨ (∃ u, (s.base u).handed? = some t) ∨ t ∈ s.zombies

namespace Inv

/-- A listed thread is at one of the places, but not because `block` has just chosen it or `delete_zombies` has
just taken it. -/
theorem listed_place {t : ℕ} (hl : s.Listed (.thread t)) :
    (∃ c, (s.cpu.stack c = .thread t ∨ s.cpu.outgoing c = some (.thread t))) ∨
      ∃ i, i.isCore = false ∧ (∀ u, i ≠ .reaped u) ∧ .thread t ∈ s.tcbs i := by
  rcases hl with hc | hr | ⟨i, hi⟩ | ⟨k, hk⟩ | ⟨u, hu⟩ | hz
  · exact .inl hc
  · exact .inr ⟨.ready, rfl, (by simp), hr⟩
  · exact .inr ⟨.sem i, rfl, (by simp), hi⟩
  · exact .inr ⟨.cond k, rfl, (by simp), hk⟩
  · refine .inr ⟨.handed u, rfl, (by simp), ?_⟩
    change _ ∈ (s.base u).handed?.toList
    rw [hu]
    exact List.mem_singleton_self _
  · exact .inr ⟨.zombies, rfl, (by simp), hz⟩

/-- Between `readyQ.remove()` and the switch, a thread is not listed. -/
theorem not_listed_incoming (h : Inv s) {t : ℕ} (hin : s.cpu.incoming c = some (.thread t)) :
    ¬ s.Listed (.thread t) := by
  have hon : .thread t ∈ s.tcbs (.core c) := by
    change _ ∈ s.cpu.onCore c
    simp [Cpu.onCore, hin]
  have hpending : s.cpu.pending c = none := by
    cases hp : s.cpu.pending c with
    | none => rfl
    | some x =>
      have hnone := Control.suspended_next ((h.control.core c).switching x.1 x.2 hp).2.1
      unfold Cpu.incoming at hin
      rw [hnone] at hin
      cases hin
  have hrunning := (h.control.core c).running hpending
  have hne : s.cpu.stack c ≠ .thread t := by
    unfold Cpu.incoming at hin
    cases hcalls : s.cpu.calls (s.cpu.stack c) with
    | nil => simp [hcalls] at hin
    | cons call rest =>
      rw [hcalls] at hin hrunning
      change StageOk s.cpu c call.stage at hrunning
      change call.stage.next? = some (.thread t) at hin
      cases hst : call.stage <;> rw [hst] at hin hrunning <;> cases hin
      all_goals exact hrunning.2.2.2.2.symm
  intro hl
  rcases listed_place hl with ⟨c', hc'⟩ | ⟨i, hi, -, hmem⟩
  · have hon' : .thread t ∈ s.cpu.onCore c' := by
      rcases hc' with hc' | hc'
      · rw [← hc']
        exact Control.stack_onCore s.cpu c'
      · simp [Cpu.onCore, hc']
    have hc : c' = c := h.apart c' c _ hon' hon
    subst hc
    rcases hc' with hc' | hc'
    · exact hne hc'
    · simp [Cpu.outgoing, hpending] at hc'
  · have he := h.unique hmem hon
    subst he
    cases hi

/-- Between `zombies.remove()` and its deletion, a thread is not listed. -/
theorem not_listed_reaped (h : Inv s) {t : ℕ} {u : Tcb} (hu : s.base u = .reaping (.thread t)) :
    ¬ s.Listed (.thread t) := by
  have hin : .thread t ∈ s.tcbs (.reaped u) := by
    change _ ∈ (s.base u).reaped?.toList
    rw [hu]
    exact List.mem_singleton_self _
  intro hl
  rcases listed_place hl with ⟨c', hc'⟩ | ⟨i, -, hi, hmem⟩
  · have hon : .thread t ∈ s.tcbs (.core c') := by
      change _ ∈ s.cpu.onCore c'
      rcases hc' with hc' | hc'
      · rw [← hc']
        exact Control.stack_onCore s.cpu c'
      · simp [Cpu.onCore, hc']
    cases h.unique hin hon
  · exact hi u (h.unique hmem hin)

end Inv

/-- The idle thread of core 0 calls `block` and finds a thread. -/
def firstRemove : List Act := [.stopLoop 0, .block 0, .block 0]

/-- Thread 0 runs, stops, and is taken from `zombies` by thread 1. -/
def firstReap : List Act :=
  firstRemove ++ [.block 0, .block 0, .callback 0, .stop 0, .stopLoop 0, .block 0, .block 0, .block 0, .block 0,
    .callback 0, .reap 0]

/-- A thread that `block` has taken from `readyQ` and not yet switched to, and one that `delete_zombies` has taken
from `zombies` and not yet deleted, are in none of the queues, nor on a core or on the way out of one. -/
theorem not_always_listed :
    (∃ s, (schedMachine 1).Reachable s ∧ s.Live 0 ∧ s.cpu.incoming 0 = some (.thread 0) ∧ ¬ s.Listed (.thread 0)) ∧
      ∃ s, (schedMachine 1).Reachable s ∧ s.Live 0 ∧ s.base (.thread 1) = .reaping (.thread 0) ∧
        ¬ s.Listed (.thread 0) := by
  constructor
  · have hrun : ∃ s, (schedMachine 1).Run (boot 2) firstRemove s ∧
        decide ((0 < s.created ∧ 0 ∉ s.deleted) ∧ s.cpu.incoming 0 = some (.thread 0)) = true :=
      Machine.exists_run_of_replay (by decide)
    obtain ⟨s, hs, hcheck⟩ := hrun
    obtain ⟨hlive, hin⟩ := of_decide_eq_true hcheck
    have hreach := hs.reachable (.init (boot_booted 2))
    exact ⟨s, hreach, hlive, hin, (reachable_inv hreach).not_listed_incoming hin⟩
  · have hrun : ∃ s, (schedMachine 1).Run (boot 2) firstReap s ∧
        decide ((0 < s.created ∧ 0 ∉ s.deleted) ∧ s.base (.thread 1) = .reaping (.thread 0)) = true :=
      Machine.exists_run_of_replay (by decide)
    obtain ⟨s, hs, hcheck⟩ := hrun
    obtain ⟨hlive, hbase⟩ := of_decide_eq_true hcheck
    have hreach := hs.reachable (.init (boot_booted 2))
    exact ⟨s, hreach, hlive, hbase, (reachable_inv hreach).not_listed_reaped hbase⟩

end Sched
end AudioKernel
