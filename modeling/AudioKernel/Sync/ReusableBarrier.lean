import AudioKernel.Sync.Signals

/-! `ReusableBarrier::sync`, step by step, by as many threads as the barrier has been made for. -/
namespace AudioKernel
open Lib

/-- Where a thread is in `sync`, with its `t`. What it does on the condition or its lock is in `CondPc`. -/
inductive SyncPc
  | idle
  | entering
  | counted (t : ℕ)
  | waiting (t : ℕ)
  | releasing
  | leaving
  | failed
  deriving DecidableEq

/-- A barrier for `N` threads. Recorded are how often the count has been reset, and for every thread how many calls of
`sync` it has begun, has counted down in, and has returned from. -/
structure BarrierState (N : ℕ) where
  newEpoch : CondState (Fin N)
  count : ℕ
  epoch : ℕ
  pc : Fin N → SyncPc
  rounds : ℕ
  entered : Fin N → ℕ
  arrived : Fin N → ℕ
  returned : Fin N → ℕ

/-- A thread calls `sync`, or takes its next step on the condition, or in `sync` itself. -/
inductive BarrierAct (N : ℕ)
  | call (t : Fin N)
  | cond (t : Fin N)
  | sync (t : Fin N)

namespace BarrierState

variable {N : ℕ} (s : BarrierState N)

def setPc (t : Fin N) (pc : SyncPc) : BarrierState N := { s with pc := Function.update s.pc t pc }

/-- The next step of a thread that is in `sync` and holds the lock. -/
def stepSync (t : Fin N) : BarrierState N :=
  match s.pc t with
  | .idle | .failed => s
  | .entering =>
    if s.count ≠ 0 then
      { s.setPc t (.counted s.epoch) with
        count := s.count - 1
        arrived := Function.update s.arrived t (s.arrived t + 1) }
    else s.setPc t .failed
  | .counted e =>
    if s.count = 0 then
      { s.setPc t .releasing with
        epoch := (s.epoch + 1) % 2 ^ 64
        count := N
        rounds := s.rounds + 1
        newEpoch := s.newEpoch.beginNotify t allLimit }
    else s.setPc t (.waiting e)
  | .waiting e => if s.epoch ≤ e then { s with newEpoch := s.newEpoch.beginWait t } else s.setPc t .leaving
  | .releasing => s.setPc t .leaving
  | .leaving =>
    { s.setPc t .idle with
      newEpoch := s.newEpoch.next (.unlock t)
      returned := Function.update s.returned t (s.returned t + 1) }

def enabled : BarrierAct N → Prop
  | .call t => s.pc t = .idle
  | .cond t => s.newEpoch.canStep t = true
  | .sync t => (s.newEpoch.pc t matches .inside)

def next : BarrierAct N → BarrierState N
  | .call t =>
    { s.setPc t .entering with
      newEpoch := s.newEpoch.next (.lock t)
      entered := Function.update s.entered t (s.entered t + 1) }
  | .cond t => { s with newEpoch := s.newEpoch.stepThread t }
  | .sync t => s.stepSync t

end BarrierState

def BarrierState.new (N : ℕ) : BarrierState N where
  newEpoch := .new
  count := N
  epoch := 0
  pc _ := .idle
  rounds := 0
  entered _ := 0
  arrived _ := 0
  returned _ := 0

def barrierMachine (N : ℕ) : Machine (BarrierState N) (BarrierAct N) where
  init s := s = .new N
  enabled := BarrierState.enabled
  next := BarrierState.next

instance {N : ℕ} (s : BarrierState N) (a : BarrierAct N) : Decidable ((barrierMachine N).enabled s a) :=
  match a with
  | .call t => inferInstanceAs (Decidable (s.pc t = .idle))
  | .cond t => inferInstanceAs (Decidable (s.newEpoch.canStep t = true))
  | .sync _ => inferInstanceAs (Decidable (_ = true))

end AudioKernel
