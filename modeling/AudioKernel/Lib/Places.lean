import Mathlib.Data.List.Nodup
import Mathlib.Logic.Function.Basic
import Mathlib.Logic.ExistsUnique

/-! Things that are each in exactly one of many places, and the ways in which one of them can move. -/
namespace AudioKernel.Lib

variable {ι α : Type*}

/-- `contents i` lists what is at place `i`: every live thing is at its `place`, once, and nowhere else. -/
structure Placed (contents : ι → List α) (live : α → Prop) (place : α → ι) : Prop where
  mem_iff : ∀ i x, x ∈ contents i ↔ live x ∧ place x = i
  nodup : ∀ i, (contents i).Nodup

def SameContents (contents contents' : ι → List α) : Prop := ∀ i, (contents' i).Perm (contents i)

/-- `x` appears at `j`. -/
structure Enters (contents contents' : ι → List α) (x : α) (j : ι) : Prop where
  put : (contents' j).Perm (x :: contents j)
  others : ∀ k, k ≠ j → (contents' k).Perm (contents k)

/-- `x` moves from `i` to `j`. -/
structure Moves (contents contents' : ι → List α) (x : α) (i j : ι) : Prop where
  ne : i ≠ j
  got : (contents i).Perm (x :: contents' i)
  put : (contents' j).Perm (x :: contents j)
  others : ∀ k, k ≠ i → k ≠ j → (contents' k).Perm (contents k)

namespace Placed

variable {contents contents' : ι → List α} {live live' : α → Prop} {place : α → ι} {x : α} {i j : ι}

theorem unique (h : Placed contents live place) (hi : x ∈ contents i) (hj : x ∈ contents j) : i = j :=
  ((h.mem_iff i x).mp hi).2.symm.trans ((h.mem_iff j x).mp hj).2

theorem existsUnique (h : Placed contents live place) (hx : live x) : ∃! i, x ∈ contents i :=
  ⟨place x, (h.mem_iff _ _).mpr ⟨hx, rfl⟩, fun _ hi => ((h.mem_iff _ _).mp hi).2.symm⟩

theorem live_of_mem (h : Placed contents live place) (hi : x ∈ contents i) : live x := ((h.mem_iff i x).mp hi).1

theorem same (h : Placed contents live place) (hs : SameContents contents contents') (hlive : ∀ y, live' y ↔ live y) :
    Placed contents' live' place := by
  constructor
  · intro k y
    rw [(hs k).mem_iff, hlive]
    exact h.mem_iff k y
  · intro k
    exact (hs k).nodup_iff.mpr (h.nodup k)

theorem enters [DecidableEq α] (h : Placed contents live place) (he : Enters contents contents' x j) (hx : ¬ live x)
    (hlive : ∀ y, live' y ↔ live y ∨ y = x) : Placed contents' live' (Function.update place x j) := by
  have hnot : ∀ k, x ∉ contents k := fun k hk => hx (h.live_of_mem hk)
  constructor
  · intro k y
    rw [hlive]
    by_cases hy : y = x
    · subst hy
      rw [Function.update_self]
      by_cases hk : k = j
      · subst hk
        simp [he.put.mem_iff]
      · simp [(he.others k hk).mem_iff, hnot k, Ne.symm hk]
    · rw [Function.update_of_ne hy, or_iff_left hy, ← h.mem_iff]
      by_cases hk : k = j
      · subst hk
        simp [he.put.mem_iff, hy]
      · rw [(he.others k hk).mem_iff]
  · intro k
    by_cases hk : k = j
    · subst hk
      rw [he.put.nodup_iff, List.nodup_cons]
      exact ⟨hnot k, h.nodup k⟩
    · exact (he.others k hk).nodup_iff.mpr (h.nodup k)

/-- Leaving is entering in the other direction. -/
theorem leaves (h : Placed contents live place) (he : Enters contents' contents x i)
    (hlive : ∀ y, live' y ↔ live y ∧ y ≠ x) : Placed contents' live' place := by
  have hi : x ∈ contents i := he.put.mem_iff.mpr List.mem_cons_self
  have hnodup := he.put.nodup_iff.mp (h.nodup i)
  rw [List.nodup_cons] at hnodup
  constructor
  · intro k y
    rw [hlive]
    by_cases hk : k = i
    · subst hk
      have hmem := h.mem_iff k y
      rw [he.put.mem_iff, List.mem_cons] at hmem
      by_cases hy : y = x
      · subst hy
        simp [hnodup.1]
      · simpa [hy] using hmem
    · rw [← (he.others k hk).mem_iff, h.mem_iff]
      constructor
      · rintro ⟨hl, hp⟩
        refine ⟨⟨hl, ?_⟩, hp⟩
        intro hy
        subst hy
        exact hk (hp.symm.trans ((h.mem_iff i y).mp hi).2)
      · rintro ⟨hl, hp⟩
        exact ⟨hl.1, hp⟩
  · intro k
    by_cases hk : k = i
    · subst hk
      exact hnodup.2
    · exact (he.others k hk).nodup_iff.mp (h.nodup k)

theorem moves [DecidableEq α] (h : Placed contents live place) (hm : Moves contents contents' x i j)
    (hlive : ∀ y, live' y ↔ live y) : Placed contents' live' (Function.update place x j) := by
  have hi : x ∈ contents i := hm.got.mem_iff.mpr List.mem_cons_self
  have hx := (h.mem_iff i x).mp hi
  have hnodup := hm.got.nodup_iff.mp (h.nodup i)
  rw [List.nodup_cons] at hnodup
  constructor
  · intro k y
    rw [hlive]
    by_cases hy : y = x
    · subst hy
      rw [Function.update_self]
      by_cases hkj : k = j
      · subst hkj
        simp [hm.put.mem_iff, hx.1]
      · by_cases hki : k = i
        · subst hki
          simp [hnodup.1, Ne.symm hkj]
        · rw [(hm.others k hki hkj).mem_iff, h.mem_iff, hx.2]
          simp [Ne.symm hki, Ne.symm hkj]
    · rw [Function.update_of_ne hy, ← h.mem_iff]
      by_cases hkj : k = j
      · subst hkj
        simp [hm.put.mem_iff, hy]
      · by_cases hki : k = i
        · subst hki
          simp [hm.got.mem_iff, hy]
        · rw [(hm.others k hki hkj).mem_iff]
  · intro k
    by_cases hkj : k = j
    · subst hkj
      rw [hm.put.nodup_iff, List.nodup_cons]
      refine ⟨fun hk => hm.ne ?_, h.nodup k⟩
      exact h.unique hi hk
    · by_cases hki : k = i
      · subst hki
        exact hnodup.2
      · exact (hm.others k hki hkj).nodup_iff.mpr (h.nodup k)

end Placed
end AudioKernel.Lib
