import AudioKernel.Sys.Bindings

/-! The loop of `fork` that looks for a free child slot: which slots it reads. -/
namespace AudioKernel
open Lib

/-- Where the loop has come to, and the indices of `cp` that it has read. -/
structure ChildScan where
  pid : ℤ
  found : Bool
  reads : List ℤ
  deriving DecidableEq

namespace World

variable (w : World) (p : ℕ)

/-- `while (!found && pid < 10)`. What lies behind `cp` is the future. -/
def childLoop : ℕ → ChildScan → Except Stop ChildScan
  | 0, _ => .error .diverge
  | fuel + 1, ⟨pid, found, reads⟩ =>
    if !found ∧ pid < 10 then
      let pid := pid + 1
      let reads := reads ++ [pid]
      if w.wordAt p (20 + pid.toNat) true = false then childLoop fuel ⟨pid + 20, true, reads⟩
      else childLoop fuel ⟨pid, found, reads⟩
    else .ok ⟨pid, found, reads⟩

def childScan : Except Stop ChildScan := w.childLoop p 13 ⟨-1, false, []⟩

def HasFreeChild : Prop := ∃ i < 10, w.cpAt p i = none

instance : Decidable (w.HasFreeChild p) := inferInstanceAs (Decidable (∃ i < 10, _))

/-- `fork` reads the slots of its table and no others, fails without an effect just when all are bound, and else returns
the number of the smallest unbound one. -/
structure ForksWithin : Prop where
  reads : ∃ c, w.childScan p = .ok c ∧ ∀ i ∈ c.reads, 0 ≤ i ∧ i < 10
  fails : (w.fork p).ret = minusOne ↔ ∀ i < 10, w.cpAt p i ≠ none
  unchanged : (w.fork p).ret = minusOne → w.fork p = w.fail
  slot : (w.fork p).ret ≠ minusOne → ∃ i, IsLeast {i | i < 10 ∧ w.cpAt p i = none} i ∧ (w.fork p).ret = 20 + i

variable {w p}

/-- The loop from slot `k` on, by induction on the slots that are left, with the one behind the table. -/
theorem childLoop_eq {n k : ℕ} (reads : List ℤ) (hk : k + n = 11) :
    (∃ i, (List.range' k n).find? (fun i => w.wordAt p (20 + i) true = false) = some i ∧
      w.childLoop p (n + 2) ⟨k - 1, false, reads⟩ =
        .ok ⟨i + 20, true, reads ++ (List.range' k (i + 1 - k)).map Int.ofNat⟩) ∨
    ((List.range' k n).find? (fun i => w.wordAt p (20 + i) true = false) = none ∧
      w.childLoop p (n + 2) ⟨k - 1, false, reads⟩ = .ok ⟨10, false, reads ++ (List.range' k n).map Int.ofNat⟩) := by
  induction n generalizing k reads with
  | zero =>
    obtain rfl : k = 11 := hk
    refine .inr ⟨rfl, ?_⟩
    rw [childLoop]
    simp
  | succ n ih =>
    have hguard : (!false) = true ∧ (k : ℤ) - 1 < 10 := ⟨rfl, by omega⟩
    have hpid : (k : ℤ) - 1 + 1 = k := by omega
    rw [List.range'_succ, childLoop, if_pos hguard, hpid]
    dsimp only
    rw [Int.toNat_natCast]
    by_cases hfree : w.wordAt p (20 + k) true = false
    · refine .inl ⟨k, List.find?_cons_of_pos (decide_eq_true hfree), ?_⟩
      rw [if_pos hfree, childLoop, Nat.add_sub_cancel_left]
      simp
    · have hskip : (List.range' (k + 1) n).find? (fun i => w.wordAt p (20 + i) true = false) =
          (k :: List.range' (k + 1) n).find? (fun i => w.wordAt p (20 + i) true = false) :=
        (List.find?_cons_of_neg (by simpa using hfree)).symm
      have hnext : ((k + 1 : ℕ) : ℤ) - 1 = k := by omega
      have hrest := ih (k := k + 1) (reads ++ [(k : ℤ)]) (by omega)
      rw [hnext, hskip] at hrest
      rw [if_neg hfree]
      rcases hrest with ⟨i, hi, hloop⟩ | ⟨hnone, hloop⟩
      · refine .inl ⟨i, hi, hloop.trans ?_⟩
        rw [← hskip] at hi
        have hmem := List.mem_range'_1.mp (List.mem_of_find?_eq_some hi)
        have hlen : i + 1 - k = (i + 1 - (k + 1)) + 1 := by omega
        rw [hlen, List.range'_succ, List.map_cons, List.append_assoc]
        rfl
      · refine .inr ⟨hnone, hloop.trans ?_⟩
        rw [List.map_cons, List.append_assoc]
        rfl

/-- The loop comes to an end, and reads the slots up to the one that it takes. -/
theorem childScan_some {i : ℕ} (h : w.freeChild p = some i) :
    w.childScan p = .ok ⟨i + 20, true, (List.range (i + 1)).map Int.ofNat⟩ := by
  unfold freeChild at h
  rw [List.range_eq_range'] at h
  rcases childLoop_eq (w := w) (p := p) (k := 0) [] (Nat.zero_add 11) with ⟨j, hj, hloop⟩ | ⟨hnone, -⟩
  · obtain rfl : i = j := Option.some.inj (h.symm.trans hj)
    rw [List.nil_append, Nat.sub_zero, ← List.range_eq_range'] at hloop
    exact hloop
  · rw [hnone] at h
    cases h

/-- If it takes none it has also read the word behind the table. -/
theorem childScan_none (h : w.freeChild p = none) :
    w.childScan p = .ok ⟨10, false, (List.range 11).map Int.ofNat⟩ := by
  unfold freeChild at h
  rw [List.range_eq_range'] at h
  rcases childLoop_eq (w := w) (p := p) (k := 0) [] (Nat.zero_add 11) with ⟨j, hj, -⟩ | ⟨-, hloop⟩
  · rw [hj] at h
    cases h
  · rw [List.nil_append, ← List.range_eq_range'] at hloop
    exact hloop

theorem forksWithin_iff (w : World) (p : ℕ) : w.ForksWithin p ↔ w.HasFreeChild p := by
  cases hscan : w.scan p 20 with
  | none =>
    have hchild : w.freeChild p = none := scan_cp.trans hscan
    have hbound : ∀ i < 10, w.cpAt p i ≠ none := by
      intro i hi
      rw [← bound_cp]
      exact scan_none.mp hscan (20 + i) (by omega) (by omega)
    refine iff_of_false ?_ ?_
    · rintro ⟨⟨c, hc, hreads⟩, -⟩
      obtain rfl := Except.ok.inj (hc.symm.trans (childScan_none hchild))
      exact absurd (hreads 10 (by decide)).2 (by decide)
    · rintro ⟨i, hi, hnone⟩
      exact hbound i hi hnone
  | some i =>
    have hchild : w.freeChild p = some i := scan_cp.trans hscan
    obtain ⟨hi, ⟨-, -, hnone⟩, hleast⟩ := scan_some hscan
    rw [bound_cp] at hnone
    have hret : (w.fork p).ret = 20 + i := by
      unfold fork
      rw [hchild]
      exact Nat.add_comm i 20
    have hne : (w.fork p).ret ≠ minusOne := by
      rw [hret]
      unfold minusOne
      omega
    refine iff_of_true ⟨⟨_, childScan_some hchild, ?_⟩, iff_of_false hne ?_, fun h => absurd h hne, fun _ => ?_⟩
      ⟨i, hi, hnone⟩
    · intro j hj
      obtain ⟨n, hn, rfl⟩ := List.mem_map.mp hj
      have hn := List.mem_range.mp hn
      constructor <;> simp only [Int.ofNat_eq_natCast] <;> omega
    · exact fun hall => hall i hi hnone
    · refine ⟨i, ⟨⟨hi, hnone⟩, ?_⟩, hret⟩
      rintro j ⟨hj, hfree⟩
      have hle := hleast ⟨Nat.le_add_right 20 j, by omega, bound_cp.trans hfree⟩
      omega

end World

namespace KernelState

variable {cfg : Config}

/-- Whatever calls have led to a state, `fork` keeps to the table of a process just when one of its slots is unbound, and
the forks of a run do just when each of them finds one. -/
theorem forks_within_table (cfg : Config) (s : KernelState) (hs : (kernelMachine cfg).Reachable s) :
    (∀ p, s.world.ForksWithin p ↔ s.world.HasFreeChild p) ∧
      ∀ as t, (kernelMachine cfg).Run s as t →
        ((kernelMachine cfg).EachStep (fun s a _ => a.2 = .fork → s.world.ForksWithin a.1) s as ↔
          ((kernelMachine cfg).restrict fun s a => a.2 = .fork → s.world.HasFreeChild a.1).Run s as t) := by
  refine ⟨fun p => World.forksWithin_iff s.world p, fun as t hrun => ?_⟩
  refine hrun.eachStep_iff (I := (kernelMachine cfg).Reachable) (fun s a hs ha _ => hs.step ha) ?_ hs
  intro s a _ _
  exact imp_congr_right fun _ => World.forksWithin_iff s.world a.1

/-- A process forks, closes its child, and forks again. -/
def forkAgain : List (ℕ × Syscall) := [(0, .fork), (0, .close 20), (0, .fork)]

theorem fork_again_within : oneFile.world.ForksWithin 0 ∧ (kernelMachine World.pcConfig).EachStep
    (fun s a _ => a.2 = .fork → s.world.ForksWithin a.1) oneFile forkAgain := by
  have hinit : (kernelMachine World.pcConfig).Reachable oneFile := .init ⟨_, rfl⟩
  have hrestrict : ((kernelMachine World.pcConfig).restrict fun s a => a.2 = .fork → s.world.HasFreeChild a.1).Run
      oneFile forkAgain _ :=
    .cons ⟨by decide, fun _ => by decide⟩ (.cons ⟨by decide, fun _ => by decide⟩
      (.cons ⟨by decide, fun _ => by decide⟩ (.nil _)))
  obtain ⟨hwithin, heach⟩ := forks_within_table World.pcConfig oneFile hinit
  exact ⟨(hwithin 0).mpr (by decide), (heach forkAgain _ (Machine.Run.of_restrict hrestrict)).mpr hrestrict⟩

/-- With ten children `fork` also reads the word behind the table. -/
theorem full_table_overrun : ∃ s, (kernelMachine World.pcConfig).Reachable s ∧
    s.world.childScan 0 = .ok ⟨10, false, [0, 1, 2, 3, 4, 5, 6, 7, 8, 9, 10]⟩ ∧ ¬ s.world.ForksWithin 0 := by
  have hrun : ∃ s, (kernelMachine World.pcConfig).Run oneFile (List.replicate 10 (0, .fork)) s ∧
      decide (¬ s.world.HasFreeChild 0) = true := Machine.exists_run_of_replay (by decide +kernel)
  obtain ⟨s, hrun, hfull⟩ := hrun
  have hfull := of_decide_eq_true hfull
  have hchild : s.world.freeChild 0 = none := by
    rw [World.scan_cp, World.scan_none]
    intro n hlo hhi
    obtain ⟨i, rfl⟩ := Nat.exists_eq_add_of_le hlo
    rw [World.bound_cp]
    exact fun hnone => hfull ⟨i, by omega, hnone⟩
  refine ⟨s, hrun.reachable (.init ⟨_, rfl⟩), World.childScan_none hchild, fun hwithin => ?_⟩
  exact hfull ((World.forksWithin_iff s.world 0).mp hwithin)

end KernelState
end AudioKernel
