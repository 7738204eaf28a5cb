import AudioKernel.Heap.Placement

/-! A second `free` of the same pointer: `isTaken` sees the word before it, which after a merge is an inner word of an
available block. -/
namespace AudioKernel
open Lib Lib.Layout

/-- A block that has been freed: its header, its size, and whether the heap has stored to the header since it held
the negative size. -/
structure FreedBlock where
  header : ℤ
  ints : ℤ
  rewritten : Bool

/-- A run of the heap with the freed blocks of which nothing has been handed out since. -/
structure FreeLog where
  run : HeapRun
  freed : List FreedBlock

namespace FreedBlock
open Heap

/-- `malloc` has handed out the block of `m` words at `j`. A freed block with a word in its payload is forgotten. A
remainder begins behind the new block, and its first three words are its size and its links. -/
def afterMalloc (h : Heap) (j m : ℤ) (f : FreedBlock) : Option FreedBlock :=
  if j + 1 < f.header + f.ints ∧ f.header ≤ j + m - 2 then none
  else if f.header = j + m - 1 then some { f with rewritten := false }
  else if isAvail h (j + m) = true ∧ j + m ≤ f.header ∧ f.header ≤ j + m + 2 then some { f with rewritten := true }
  else some f

/-- `free` stores to the header when it does not merge the block with the one on its left. -/
def ofFree (h : Heap) (i : ℤ) : FreedBlock := ⟨i, size h i, !isAvail h (headerFromFooter h (i - 1))⟩

end FreedBlock

namespace FreeLog
open Heap

def next (s : FreeLog) (c : HeapCall) : FreeLog where
  run := s.run.next c
  freed :=
    match c with
    | .malloc bytes =>
      match Heap.malloc s.run.heap bytes with
      | .ok (p, h) =>
        if p = 0 ∨ p = s.run.heap.base then s.freed
        else s.freed.filterMap (FreedBlock.afterMalloc h (indexOf h p) (size h (indexOf h p)))
      | .error _ => s.freed
    | .free p => if p ∈ s.run.live then .ofFree s.run.heap (indexOf s.run.heap p) :: s.freed else s.freed
    | .write _ _ _ => s.freed

end FreeLog

def freeLogMachine : Machine FreeLog HeapCall where
  init s := s.run.Booted ∧ s.freed = []
  enabled s := s.run.enabled
  next := FreeLog.next

instance (s : FreeLog) (c : HeapCall) : Decidable (freeLogMachine.enabled s c) :=
  inferInstanceAs (Decidable (s.run.enabled c))

namespace FreeLog
open Heap

/-- The log is kept beside the runs of the heap and does not change them. -/
theorem run_reachable {s : FreeLog} (hs : freeLogMachine.Reachable s) : heapMachine.Reachable s.run := by
  induction hs with
  | init h => exact .init h.1
  | step _ hc ih => exact ih.step hc

theorem run_logged {s t : HeapRun} {cs : List HeapCall} (hrun : heapMachine.Run s cs t) (freed : List FreedBlock) :
    ∃ freed', freeLogMachine.Run ⟨s, freed⟩ cs ⟨t, freed'⟩ := by
  induction hrun generalizing freed with
  | nil s => exact ⟨freed, .nil _⟩
  | @cons s t c cs hc _ ih =>
    obtain ⟨freed', hrest⟩ := ih (FreeLog.next ⟨s, freed⟩ c).freed
    exact ⟨freed', .cons hc hrest⟩

end FreeLog

namespace Heap

variable {h h' : Heap} {segs pre post : List Seg} {fl : List ℤ} {i m n : ℕ} {f f' : FreedBlock}

/-! The words of a carved heap. -/

/-- The words that `malloc` makes negative are the tags of the new block, and a remainder gets new words of its own. -/
theorem Rep.carved_nonneg (hr : Rep h (pre ++ .avail m :: post) fl) (hi4 : 4 ≤ i) (w : ℤ) :
    0 ≤ (carved h (total pre) i m).array w ↔
      (i + 4 ≤ m ∧ (w = total pre + i ∨ w = total pre + i + 1 ∨ w = total pre + i + 2 ∨ w = total pre + m - 1)) ∨
        (w ≠ total pre ∧ w ≠ total pre + granted i m - 1 ∧ 0 ≤ h.array w) := by
  have hin := hr.cut_listed.1
  have hm4 : 4 ≤ m := hr.layout.wide (.avail m) (by simp)
  have hunl := hr.layout.unlink_erase hin
  have hsign := hr.layout.unlinked_nonneg hin
  unfold carved granted
  split_ifs with hsplit
  · have hlink : unlinkedHead h.array h.avail (total pre) ≠ 0 →
        0 ≤ takenAt (unlinked h.array (total pre)) (total pre) i (unlinkedHead h.array h.avail (total pre) + 2) := by
      intro h0
      have hhead := (headD_listed hunl.head_eq).resolve_left h0
      have hout := hr.mem_erase_cut.mp hhead
      have hapart := hr.layout.listed_apart hout.1 hin
      rw [takenAt_nonneg (by omega)]
      exact ⟨by omega, by omega, (hunl.link_nonneg hhead).2⟩
    rw [availAt_nonneg (by omega) hunl.head_nonneg hlink, takenAt_nonneg (by omega), hsign]
    have hend : (total pre : ℤ) + i + (m - i : ℕ) - 1 = total pre + m - 1 := by omega
    rw [hend]
    omega
  · rw [takenAt_nonneg (by omega), hsign]
    omega

/-- A remainder begins behind the new block just when `malloc` has cut one off. -/
theorem Rep.isAvail_carved (hr : Rep h (pre ++ .avail m :: post) fl) (hi4 : 4 ≤ i) :
    isAvail (carved h (total pre) i m) (total pre + granted i m) = decide (i + 4 ≤ m) := by
  obtain ⟨hrep, -⟩ := hr.after_carve (i := i) hi4
  by_cases hsplit : i + 4 ≤ m
  · have hk : ((total pre + i : ℤ), Seg.avail (m - i)) ∈ placed 0 (pre ++ (carve i m ++ post)) := by
      simp [carve, hsplit]
    rw [granted, if_pos hsplit, decide_eq_true hsplit]
    exact (header_facts hrep.layout hk rfl).2
  · obtain ⟨b, q, rfl⟩ := List.exists_cons_of_ne_nil (hr.cut_inner (by simp)).2
    have hb : b.isAvail = false := by
      have hco := hr.coalesced
      simp only [Coalesced, List.isChain_append, List.isChain_cons] at hco
      simpa using hco.2.1.1 b
    have hk : ((total pre + m : ℤ), b) ∈ placed 0 (pre ++ (carve i m ++ b :: q)) := by
      simp [carve, hsplit]
    rw [granted, if_neg hsplit, decide_eq_false hsplit, ← hb]
    exact (header_facts hrep.layout hk (hrep.tagged_of_mem (mem_of_placed hk))).2

/-! Where a freed block is, and what the word of its header says. -/

/-- A freed block lies inside an available one, or only its header has become the last word of a taken one. -/
def Freed (segs : List Seg) (f : FreedBlock) : Prop :=
  (∃ k n, (k, Seg.avail n) ∈ placed 0 segs ∧ k ≤ f.header ∧ f.header + f.ints ≤ k + n) ∨
    ∃ k m n, (k, Seg.taken m) ∈ placed 0 segs ∧ (k + m, Seg.avail n) ∈ placed 0 segs ∧ 4 ≤ m ∧
      f.header = k + m - 1 ∧ f.header + f.ints ≤ k + m + n

/-- The invariant of a freed block: the header holds no negative word just when it has been rewritten. -/
structure Logged (h : Heap) (segs : List Seg) (f : FreedBlock) : Prop where
  ints_ge : 4 ≤ f.ints
  place : Freed segs f
  sign : f.rewritten = true ↔ 0 ≤ h.array f.header

theorem Rep.avail_nonneg (hr : Rep h segs fl) {k w : ℤ} (hk : (k, Seg.avail n) ∈ placed 0 segs) (hlo : k ≤ w)
    (hhi : w ≤ k + 2) : 0 ≤ h.array w := by
  have hlink := hr.layout.link_nonneg (hr.complete k n hk)
  have hhead := (hr.header_avail hk).1
  obtain rfl | rfl | rfl : w = k ∨ w = k + 1 ∨ w = k + 2 := by omega
  · omega
  · exact hlink.1
  · exact hlink.2

theorem Logged.congr (hf : Logged h segs f) (hword : h'.array f.header = h.array f.header) : Logged h' segs f :=
  ⟨hf.ints_ge, hf.place, by rw [hword]; exact hf.sign⟩

theorem Rep.afterMalloc_carved (hr : Rep h (pre ++ .avail m :: post) fl) (hi4 : 4 ≤ i) :
    f.afterMalloc (carved h (total pre) i m) (total pre) (granted i m) =
      if total pre + 1 < f.header + f.ints ∧ f.header ≤ total pre + granted i m - 2 then none
      else if f.header = total pre + granted i m - 1 then some { f with rewritten := false }
      else if i + 4 ≤ m ∧ total pre + granted i m ≤ f.header ∧ f.header ≤ total pre + granted i m + 2 then
        some { f with rewritten := true }
      else some f := by
  simp only [FreedBlock.afterMalloc, hr.isAvail_carved hi4, decide_eq_true_eq]

/-- Outside the block that is carved up, nothing changes for the freed blocks. -/
theorem Logged.carve_outside (hr : Rep h (pre ++ .avail m :: post) fl) (hi4 : 4 ≤ i) (him : i ≤ m)
    (hf : Logged h (pre ++ .avail m :: post) f) (hplace : Freed (pre ++ (carve i m ++ post)) f)
    (hout : f.header < total pre ∨ total pre + m ≤ f.header)
    (hf' : f.afterMalloc (carved h (total pre) i m) (total pre) (granted i m) = some f') :
    Logged (carved h (total pre) i m) (pre ++ (carve i m ++ post)) f' := by
  have hgranted : 4 ≤ granted i m ∧ granted i m ≤ m ∧ (i + 4 ≤ m → granted i m = i) := by
    unfold granted
    split_ifs <;> omega
  have hsame : f' = f := by
    rw [hr.afterMalloc_carved hi4] at hf'
    split_ifs at hf' with h1 h2 h3
    · omega
    · omega
    · exact (Option.some.inj hf').symm
  subst hsame
  refine ⟨hf.ints_ge, hplace, ?_⟩
  rw [hr.carved_nonneg hi4, hf.sign]
  omega

/-- A freed block in the block that is carved up must be in the remainder, or `malloc` hands out words of it. -/
theorem Logged.carve_inside (hr : Rep h (pre ++ .avail m :: post) fl) (hi4 : 4 ≤ i)
    (hf : Logged h (pre ++ .avail m :: post) f) (hlo : total pre ≤ f.header) (hhi : f.header + f.ints ≤ total pre + m)
    (hf' : f.afterMalloc (carved h (total pre) i m) (total pre) (granted i m) = some f') :
    Logged (carved h (total pre) i m) (pre ++ (carve i m ++ post)) f' := by
  have hints := hf.ints_ge
  have hkeep := hf'
  rw [hr.afterMalloc_carved hi4] at hkeep
  have hgranted : granted i m = i ∧ i + 4 ≤ m := by
    unfold granted at hkeep ⊢
    by_cases hsplit : i + 4 ≤ m
    · exact ⟨if_pos hsplit, hsplit⟩
    · rw [if_neg hsplit, if_pos (by omega)] at hkeep
      cases hkeep
  have hrest : ((total pre + i : ℤ), Seg.avail (m - i)) ∈ placed 0 (pre ++ (Heap.carve i m ++ post)) := by
    simp [Heap.carve, hgranted.2]
  have hnew : ((total pre : ℤ), Seg.taken i) ∈ placed 0 (pre ++ (Heap.carve i m ++ post)) := by
    simp [Heap.carve, hgranted.2]
  have hsign := hr.carved_nonneg hi4 (i := i) f.header
  rw [hgranted.1] at hkeep hsign
  split_ifs at hkeep with h1 h2 h3
  · obtain rfl := (Option.some.inj hkeep).symm
    refine ⟨hints, .inr ⟨_, _, _, hnew, hrest, hi4, h2, ?_⟩, ?_⟩
    · simp only
      omega
    · simp only [Bool.false_eq_true, false_iff, hsign]
      omega
  · obtain rfl := (Option.some.inj hkeep).symm
    refine ⟨hints, .inl ⟨_, _, hrest, h3.2.1, ?_⟩, ?_⟩
    · simp only
      omega
    · simp only [true_iff, hsign]
      omega
  · obtain rfl := (Option.some.inj hkeep).symm
    refine ⟨hints, .inl ⟨_, _, hrest, by omega, by omega⟩, ?_⟩
    rw [hf.sign, hsign]
    omega

/-- A call of `malloc` that carves up a block keeps the invariant of the freed blocks it does not touch. -/
theorem Logged.carve (hr : Rep h (pre ++ .avail m :: post) fl) (hi4 : 4 ≤ i) (him : i ≤ m)
    (hf : Logged h (pre ++ .avail m :: post) f)
    (hf' : f.afterMalloc (carved h (total pre) i m) (total pre) (granted i m) = some f') :
    Logged (carved h (total pre) i m) (pre ++ (carve i m ++ post)) f' := by
  have hcut : ((total pre : ℤ), Seg.avail m) ∈ placed 0 (pre ++ .avail m :: post) := by simp
  have hstay {k : ℤ} {s : Seg} (hk : (k, s) ∈ placed 0 (pre ++ .avail m :: post)) (hne : k ≠ total pre) :
      (k, s) ∈ placed 0 (pre ++ (Heap.carve i m ++ post)) := by
    simp only [placed_append, placed_cons, List.mem_append, List.mem_cons, Prod.mk.injEq, zero_add, total_carve him,
      Seg.size_avail] at hk ⊢
    rcases hk with hk | ⟨heq, -⟩ | hk
    · exact .inl hk
    · exact absurd heq hne
    · exact .inr (.inr hk)
  have hints := hf.ints_ge
  rcases hf.place with ⟨k, n, hk, hlo, hhi⟩ | ⟨k, l, n, hk, hnext, hl, heq, hhi⟩
  · rcases placed_separate hk hcut with ⟨rfl, hn⟩ | hsep
    · cases hn
      exact hf.carve_inside hr hi4 hlo hhi hf'
    · simp only [Seg.size_avail] at hsep
      have hne : k ≠ total pre := by
        have := hr.layout.wide _ (mem_of_placed hk)
        simp only [Seg.wide_avail] at this
        omega
      exact hf.carve_outside hr hi4 him (.inl ⟨k, n, hstay hk hne, hlo, hhi⟩) (by omega) hf'
  · rcases placed_separate hk hcut with ⟨-, hne⟩ | hsep
    · cases hne
    · simp only [Seg.size_taken, Seg.size_avail] at hsep
      by_cases hat : k + l = total pre
      · -- the new block begins behind the header and has the rest of the freed block in its payload
        have hgranted : 4 ≤ granted i m := le_trans hi4 (le_granted him)
        unfold FreedBlock.afterMalloc at hf'
        rw [if_pos (by omega)] at hf'
        cases hf'
      · have hplace : Freed (pre ++ (Heap.carve i m ++ post)) f :=
          .inr ⟨k, l, n, hstay hk (by omega), hstay hnext hat, hl, heq, hhi⟩
        exact hf.carve_outside hr hi4 him hplace (by omega) hf'

/-- No available block ends where another one begins. -/
theorem Rep.not_both_avail (hr : Rep h segs fl) {k : ℤ} (hk : (k, Seg.avail m) ∈ placed 0 segs)
    (hl : (k + m, Seg.avail n) ∈ placed 0 segs) : False := by
  have hm : 4 ≤ m := hr.layout.wide _ (mem_of_placed hk)
  have hn : 4 ≤ n := hr.layout.wide _ (mem_of_placed hl)
  obtain ⟨pre, post, hsegs, hpos⟩ := exists_cut hk
  subst hsegs
  have hco := hr.coalesced
  simp only [Coalesced, List.isChain_append, List.isChain_cons] at hco
  simp only [placed_append, placed_cons, List.mem_append, List.mem_cons, Prod.mk.injEq, Seg.size_avail] at hl
  rcases hl with hl | ⟨hl, -⟩ | hl
  · have := placed_bounds hl
    simp only [Seg.size_avail] at this
    omega
  · omega
  · cases post with
    | nil => cases hl
    | cons t post =>
      rcases List.mem_cons.mp hl with hl | hl
      · exact hco.2.1.1 t (by simp) ⟨rfl, by rw [← (Prod.mk.inj hl).2]; rfl⟩
      · have := hr.size_ge_two (s := t) (by simp)
        have := (placed_bounds hl).1
        omega

theorem placed_front {j k : ℤ} {s : Seg} {l : List Seg} (hl : ∀ t ∈ l, 4 ≤ t.size) (hk : (k, s) ∈ placed j l) :
    k = j ∨ j + 4 ≤ k := by
  cases l with
  | nil => cases hk
  | cons t l =>
    have ht := hl t List.mem_cons_self
    rcases List.mem_cons.mp hk with hk | hk
    · exact .inl (Prod.mk.inj hk).1
    · have := (placed_bounds hk).1
      exact .inr (by omega)

section
variable {l r : List Seg}

/-- Where a block was before the merge: in the merged range, or in a place that stays. -/
theorem merge_cases {k : ℤ} {s : Seg} (hk : (k, s) ∈ placed 0 (pre ++ l ++ .taken n :: (r ++ post))) :
    (k, s) ∈ placed (total pre) l ∨ (k = total pre + total l ∧ s = .taken n) ∨
      (k, s) ∈ placed (total pre + total l + n) r ∨
      ((k, s) ∈ placed 0 (pre ++ ([.avail (total (l ++ .taken n :: r))] ++ post)) ∧
        (k + s.size ≤ total pre ∨ total pre + total (l ++ .taken n :: r) ≤ k)) := by
  have hend : (total (pre ++ l) : ℤ) + n + total r = total pre + total (l ++ .taken n :: r) := by
    simp
    omega
  simp only [placed_append, placed_cons, List.mem_append, List.mem_cons, Prod.mk.injEq, zero_add, Seg.size_taken,
    List.singleton_append, Seg.size_avail, hend] at hk ⊢
  have hfront : (total (pre ++ l) : ℤ) = total pre + total l := by simp
  rw [hfront] at hk
  rcases hk with (hk | hk) | hk | hk | hk
  · have := placed_bounds hk
    exact .inr (.inr (.inr ⟨.inl hk, .inl (by omega)⟩))
  · exact .inl hk
  · exact .inr (.inl hk)
  · exact .inr (.inr (.inl hk))
  · have := placed_bounds hk
    exact .inr (.inr (.inr ⟨.inr (.inr hk), .inr (by omega)⟩))

/-- A call of `free` keeps the invariant of the blocks freed before. -/
theorem Logged.merge {segs : List Seg} {fl' : List ℤ} (hr : Rep h segs fl)
    (hsegs : segs = pre ++ l ++ .taken n :: (r ++ post))
    (hrep : Rep h' (pre ++ ([.avail (total (l ++ .taken n :: r))] ++ post)) fl') (hn : 4 ≤ n)
    (hav : ∀ t ∈ l ++ r, t.isAvail = true)
    (hsign : ∀ w, 0 ≤ h'.array w ↔ w = total pre ∨ w = total pre + 1 ∨ w = total pre + 2 ∨
      w = total pre + total (l ++ .taken n :: r) - 1 ∨ 0 ≤ h.array w) (hf : Logged h segs f) :
    Logged h' (pre ++ ([.avail (total (l ++ .taken n :: r))] ++ post)) f := by
  have hints := hf.ints_ge
  have hnew : ((total pre : ℤ), Seg.avail (total (l ++ .taken n :: r))) ∈
      placed 0 (pre ++ ([.avail (total (l ++ .taken n :: r))] ++ post)) := by simp
  have htotal : (total (l ++ .taken n :: r) : ℤ) = total l + n + total r := by
    simp
    omega
  have hlsize : ∀ t ∈ l, 4 ≤ t.size := by
    intro t ht
    exact hr.size_of_isAvail (by simp [hsegs, ht]) (hav t (List.mem_append_left r ht))
  rcases hf.place with ⟨k, m, hk, hlo, hhi⟩ | ⟨k, q, m, hk, hnext, hq, heq, hhi⟩
  · have hfirst := hr.avail_nonneg (w := f.header) hk hlo
    rcases merge_cases (hsegs ▸ hk) with hin | ⟨-, hne⟩ | hin | ⟨hstay, hout⟩
    · have hb := placed_bounds hin
      have hfront := placed_front hlsize hin
      simp only [Seg.size_avail] at hb
      refine ⟨hints, .inl ⟨_, _, hnew, by omega, by omega⟩, ?_⟩
      rw [hsign, hf.sign]
      omega
    · cases hne
    · have hb := placed_bounds hin
      simp only [Seg.size_avail] at hb
      refine ⟨hints, .inl ⟨_, _, hnew, by omega, by omega⟩, ?_⟩
      rw [hsign, hf.sign]
      omega
    · simp only [Seg.size_avail] at hout
      refine ⟨hints, .inl ⟨k, m, hstay, hlo, hhi⟩, ?_⟩
      rw [hsign, hf.sign]
      omega
  · rcases merge_cases (hsegs ▸ hk) with hin | ⟨hat, hqn⟩ | hin | ⟨hstay, hout⟩
    · exact absurd (hav _ (List.mem_append_left r (mem_of_placed hin))) (by simp)
    · -- the block that ends on the header is freed, and takes the rest of the freed block with it
      cases hqn
      have hmem : (k + n, Seg.avail m) ∈ placed (total pre + total l + n) r := by
        rcases merge_cases (hsegs ▸ hnext) with hin | ⟨-, hne⟩ | hin | ⟨hstay, hout⟩
        · have := placed_bounds hin
          omega
        · cases hne
        · exact hin
        · -- an available block behind the merged one would have been merged as well
          have hm := hr.layout.wide _ (mem_of_placed hnext)
          simp only [Seg.wide_avail, Seg.size_avail] at hm hout
          have hend : k + n = total pre + total (l ++ .taken n :: r) := by omega
          exact (hrep.not_both_avail hnew (hend ▸ hstay)).elim
      have hb := placed_bounds hmem
      simp only [Seg.size_avail] at hb
      refine ⟨hints, .inl ⟨_, _, hnew, by omega, by omega⟩, ?_⟩
      rw [hsign, hf.sign]
      omega
    · exact absurd (hav _ (List.mem_append_right l (mem_of_placed hin))) (by simp)
    · simp only [Seg.size_taken] at hout
      have hplace : Freed (pre ++ ([.avail (total (l ++ .taken n :: r))] ++ post)) f := by
        rcases merge_cases (hsegs ▸ hnext) with hin | ⟨-, hne⟩ | hin | ⟨hstay', -⟩
        · have hb := placed_bounds hin
          simp only [Seg.size_avail] at hb
          have hat : k + q = total pre := by omega
          exact .inr ⟨k, q, _, hstay, hat ▸ hnew, hq, heq, by omega⟩
        · cases hne
        · have hb := placed_bounds hin
          omega
        · exact .inr ⟨k, q, m, hstay, hstay', hq, heq, hhi⟩
      refine ⟨hints, hplace, ?_⟩
      rw [hsign, hf.sign]
      omega

end

/-- The footer in front of a block leads to the block on its left. -/
theorem Rep.isAvail_left {segs q : List Seg} {a : Seg} (hr : Rep h segs fl) (ha : ((total q : ℤ), a) ∈ placed 0 segs) :
    isAvail h (headerFromFooter h (total q + a.size - 1)) = a.isAvail := by
  have htag := hr.tagged_of_mem (mem_of_placed ha)
  have hfooter : headerFromFooter h (total q + a.size - 1) = total q := by
    rw [headerFromFooter, size, footer_facts hr.layout ha htag]
    omega
  rw [hfooter]
  exact (header_facts hr.layout ha htag).2

/-- The block given back is logged with its size, and with whether its left neighbour was available. -/
theorem Logged.ofFree {segs : List Seg} {l r : List Seg} {fl' : List ℤ} (hr : Rep h segs fl)
    (hsegs : segs = pre ++ l ++ .taken n :: (r ++ post))
    (hrep : Rep h' (pre ++ ([.avail (total (l ++ .taken n :: r))] ++ post)) fl') (hn : 4 ≤ n)
    (hpre : pre ++ l ≠ []) (hav : ∀ t ∈ l ++ r, t.isAvail = true)
    (hsign : ∀ w, 0 ≤ h'.array w ↔ w = total pre ∨ w = total pre + 1 ∨ w = total pre + 2 ∨
      w = total pre + total (l ++ .taken n :: r) - 1 ∨ 0 ≤ h.array w) :
    Logged h' (pre ++ ([.avail (total (l ++ .taken n :: r))] ++ post)) (.ofFree h (total (pre ++ l))) := by
  have hk : ((total (pre ++ l) : ℤ), Seg.taken n) ∈ placed 0 segs := by simp [hsegs]
  have hnew : ((total pre : ℤ), Seg.avail (total (l ++ .taken n :: r))) ∈
      placed 0 (pre ++ ([.avail (total (l ++ .taken n :: r))] ++ post)) := by simp
  have hsize : size h (total (pre ++ l)) = n := hr.size_eq hk
  have hheader : h.array (total (pre ++ l)) < 0 := by
    rw [(hr.layout.tagged _ _ _ hk rfl).1]
    omega
  have hsum : (total (pre ++ l) : ℤ) = total pre + total l ∧
      (total (l ++ .taken n :: r) : ℤ) = total l + n + total r := by
    constructor
    · simp
    · simp
      omega
  -- the block on the left
  obtain ⟨q, a, hq⟩ := (List.eq_nil_or_concat (pre ++ l)).resolve_left hpre
  rw [List.concat_eq_append] at hq
  have ha : ((total q : ℤ), a) ∈ placed 0 segs := by simp [hsegs, hq]
  have hqa : (total (pre ++ l) : ℤ) = total q + a.size := by simp [hq]
  have hleft : isAvail h (headerFromFooter h (total (pre ++ l) - 1)) = a.isAvail := by
    rw [hqa]
    exact hr.isAvail_left ha
  refine ⟨?_, .inl ⟨_, _, hnew, ?_, ?_⟩, ?_⟩
  · simp only [FreedBlock.ofFree, hsize]
    exact_mod_cast hn
  · simp only [FreedBlock.ofFree]
    omega
  · simp only [FreedBlock.ofFree, hsize]
    omega
  · simp only [FreedBlock.ofFree, hleft, hsign]
    rcases List.eq_nil_or_concat l with rfl | ⟨l', b, rfl⟩
    · have hnot : a.isAvail = false := by
        by_contra hyes
        cases a with
        | avail x =>
          have hx : ((total q : ℤ), Seg.avail x) ∈
              placed 0 (pre ++ ([.avail (total ([] ++ .taken n :: r))] ++ post)) := by
            rw [List.append_nil] at hq
            simp [hq]
          rw [List.append_nil] at hqa
          exact hrep.not_both_avail hx (hqa ▸ hnew)
        | taken x => exact hyes rfl
        | hole x => exact hyes rfl
      rw [hnot]
      simp
    · have hba : b = a := by
        rw [List.concat_eq_append, ← List.append_assoc] at hq
        exact (List.append_singleton_inj.mp hq).2
      subst hba
      have hb := hav b (by simp)
      have hb4 := hr.size_of_isAvail (mem_of_placed ha) hb
      have hl4 : (b.size : ℤ) ≤ total (l'.concat b) := by simp
      rw [hb]
      simp only [Bool.not_true, Bool.false_eq_true, false_iff]
      omega

/-- `free` panics just when the word before the pointer is not negative. -/
theorem free_panics_iff {p : ℕ} (h0 : p ≠ 0) (hbase : p ≠ h.base) :
    free h p = .error (.panic "freeing free block") ↔ isTaken h (indexOf h p) = false := by
  simp only [free, if_neg h0, if_neg hbase, sanity_eq, bind, Except.bind]
  by_cases htaken : isTaken h (indexOf h p) = false
  · rw [if_pos htaken]
    exact iff_of_true rfl htaken
  · -- behind the check, every step returns
    rw [if_neg htaken]
    refine iff_of_false (fun hpanic => ?_) htaken
    simp only [left_eq, right_eq, remove_eq] at hpanic
    split_ifs at hpanic
    · simp only [pure, Except.pure] at hpanic
      split_ifs at hpanic
    · simp only [pure, Except.pure] at hpanic
      split_ifs at hpanic

end Heap

namespace FreeLog
open Heap HeapRun

variable {s : FreeLog} {segs : List Seg} {fl : List ℤ}

/-- The log tells of the blocks as they are. -/
structure Inv (s : FreeLog) (segs : List Seg) (fl : List ℤ) : Prop where
  run : s.run.Inv segs fl
  freed : ∀ f ∈ s.freed, Logged s.run.heap segs f

theorem Inv.of_same (hi : s.Inv segs fl) {t : FreeLog} (hrun : t.run = s.run) (hfreed : t.freed = s.freed) :
    t.Inv segs fl := by
  constructor
  · exact hrun ▸ hi.run
  · rw [hrun, hfreed]
    exact hi.freed

theorem malloc_inv (hi : s.Inv segs fl) (bytes : ℕ) : ∃ segs' fl', (s.next (.malloc bytes)).Inv segs' fl' := by
  obtain ⟨-, segs', fl', hrun, -⟩ := HeapRun.malloc_step hi.run bytes
  have hr := hi.run.rep
  have hsame {p : ℕ} (hm : Heap.malloc s.run.heap bytes = .ok (p, s.run.heap)) (hp : p = 0 ∨ p = s.run.heap.base) :
      ∃ segs' fl', (s.next (.malloc bytes)).Inv segs' fl' := by
    refine ⟨segs, fl, hi.of_same ?_ ?_⟩
    · simp [next, HeapRun.next, hm, hp]
    · simp [next, hm, hp]
  by_cases h0 : bytes = 0
  · exact hsame (p := s.run.heap.base) (by rw [malloc, if_pos h0]) (.inr rfl)
  obtain ⟨i, hints, hi4⟩ := intsFor_spec bytes
  cases hfound : smallest s.run.heap ((fitting s.run.heap i fl).take 20) with
  | none =>
    have hnone : fitting s.run.heap i fl = [] := by simpa using smallest_eq_none.mp hfound
    exact hsame (hr.malloc_none h0 (by rw [hints, hnone])) (.inl rfl)
  | some k =>
    obtain ⟨pre, m, post, hsegs, hk⟩ := hr.cut_found hfound
    subst hsegs hk
    obtain ⟨him, hm⟩ := hr.malloc_at h0 hints hfound
    have hrep := (hr.after_carve (i := i) hi4).1
    have hne := HeapRun.addressOf_ne (h := s.run.heap) hr.base_pos (i := total pre) (by omega)
    have hheap : (s.next (.malloc bytes)).run.heap = carved s.run.heap (total pre) i m := by
      simp [next, HeapRun.next, hm]
    have hidx := HeapRun.size_granted hrep carved_base
    have hfreed : (s.next (.malloc bytes)).freed = s.freed.filterMap
        (FreedBlock.afterMalloc (carved s.run.heap (total pre) i m) (total pre) (granted i m)) := by
      simp only [next, hm, if_neg (not_or.mpr hne), hidx.1, hidx.2]
    have hsegs := hrun.rep.segs_unique (hheap ▸ hrep)
    refine ⟨segs', fl', hrun, fun f' hf' => ?_⟩
    rw [hfreed, List.mem_filterMap] at hf'
    obtain ⟨f, hf, hafter⟩ := hf'
    rw [hheap, hsegs]
    exact (hi.freed f hf).carve hr hi4 him hafter

theorem free_inv (hi : s.Inv segs fl) {p : ℕ} (hp : s.run.enabled (.free p)) :
    ∃ segs' fl', (s.next (.free p)).Inv segs' fl' := by
  obtain ⟨-, segs', fl', hrun, -⟩ := HeapRun.free_step hi.run hp
  have hr := hi.run.rep
  by_cases hlive : p ∈ s.run.live
  · obtain ⟨k, n, hk, hn, hpk⟩ := (hi.run.live_iff p).mp hlive
    obtain ⟨pre, post, hsegs, hpos⟩ := exists_cut hk
    rw [zero_add] at hpos
    subst hsegs hpos hpk
    have hne : Seg.taken n ≠ .taken 2 := by
      intro he
      cases he
      omega
    obtain ⟨hpre, hpost⟩ := hr.cut_inner hne
    obtain ⟨pre', l, r, post', h', fl₁, hf, hl, hpr, hav, hrep, -, -, -, hsign⟩ := hr.free_spec hn hpre hpost
    subst hl hpr
    have hheap : (s.next (.free (addressOf s.run.heap (total (pre' ++ l) + 1)))).run.heap = h' := by
      simp only [next, HeapRun.next, hf]
    have hfreed : (s.next (.free (addressOf s.run.heap (total (pre' ++ l) + 1)))).freed =
        .ofFree s.run.heap (total (pre' ++ l)) :: s.freed := by
      have hidx := hr.indexOf_addressOf (i := total (pre' ++ l)) (by simp; omega)
      simp only [next, if_pos hlive, hidx]
    have hsegs := hrun.rep.segs_unique (hheap ▸ hrep)
    refine ⟨segs', fl', hrun, fun f hf => ?_⟩
    rw [hheap, hsegs]
    rw [hfreed, List.mem_cons] at hf
    rcases hf with rfl | hf
    · exact Logged.ofFree hr rfl hrep hn hpre hav hsign
    · exact (hi.freed f hf).merge hr rfl hrep hn hav hsign
  · refine ⟨segs, fl, hi.of_same ?_ ?_⟩
    · rcases hp with h0 | hbase | ⟨hin, -⟩
      · have hf : Heap.free s.run.heap p = .ok s.run.heap := by rw [Heap.free, if_pos h0]
        simp [next, HeapRun.next, hf, hlive]
      · have hf : Heap.free s.run.heap p = .ok s.run.heap := by
          rw [Heap.free]
          split_ifs
          · rfl
          · rfl
        simp [next, HeapRun.next, hf, hlive]
      · exact absurd hin hlive
    · simp [next, hlive]

theorem write_inv (hi : s.Inv segs fl) {p : ℕ} {w x : ℤ} (hw : s.run.enabled (.write p w x)) :
    (s.next (.write p w x)).Inv segs fl := by
  refine ⟨HeapRun.write_step hi.run hw, fun f hf => ?_⟩
  have hlogged := hi.freed f hf
  obtain ⟨hlive, hin⟩ := hw
  obtain ⟨k, n, hk, -, -, hpay⟩ := hi.run.payload_live hlive
  rw [hpay, Set.mem_Icc] at hin
  -- a payload reaches neither into an available block nor to the last word of a taken one
  have hne : f.header ≠ w := by
    have hints := hlogged.ints_ge
    rcases hlogged.place with ⟨l, m, hl, hlo, hhi⟩ | ⟨l, q, m, hl, -, hq, heq, -⟩
    · rcases placed_separate hk hl with ⟨-, he⟩ | hsep
      · cases he
      · simp only [Seg.size_taken, Seg.size_avail] at hsep
        omega
    · rcases placed_separate hk hl with ⟨he, hs⟩ | hsep
      · cases hs
        omega
      · simp only [Seg.size_taken] at hsep
        omega
  exact hlogged.congr (Function.update_of_ne hne _ _)

theorem reachable_inv (hs : freeLogMachine.Reachable s) : ∃ segs fl, s.Inv segs fl := by
  refine hs.invariant (I := fun s => ∃ segs fl, Inv s segs fl) (fun s hinit => ?_) (fun s c hi hc => ?_)
  · obtain ⟨segs, fl, hi⟩ := HeapRun.booted_inv hinit.1
    refine ⟨segs, fl, hi, fun f hf => ?_⟩
    rw [hinit.2] at hf
    cases hf
  · obtain ⟨segs, fl, hi⟩ := hi
    cases c with
    | malloc bytes => exact malloc_inv hi bytes
    | free p => exact free_inv hi hc
    | write p w x => exact ⟨segs, fl, write_inv hi hc⟩

/-- A second `free` of the block is caught, and the heap stays as it is. -/
def Caught (s : FreeLog) (f : FreedBlock) : Prop :=
  Heap.free s.run.heap (addressOf s.run.heap (f.header + 1)) = .error (.panic "freeing free block") ∧
    (s.run.next (.free (addressOf s.run.heap (f.header + 1)))).heap = s.run.heap

/-- A block that has been freed and not handed out again is caught just when its header has been rewritten. -/
theorem caught_iff (hs : freeLogMachine.Reachable s) {f : FreedBlock} (hf : f ∈ s.freed) :
    s.Caught f ↔ f.rewritten = true := by
  obtain ⟨segs, fl, hi⟩ := reachable_inv hs
  have hr := hi.run.rep
  have hlogged := hi.freed f hf
  have hints := hlogged.ints_ge
  have hin : 0 ≤ f.header ∧ f.header < total segs := by
    rcases hlogged.place with ⟨k, n, hk, hlo, hhi⟩ | ⟨k, m, n, hk, hnext, hm, heq, hhi⟩
    · have hb := placed_bounds hk
      simp only [Seg.size_avail] at hb
      omega
    · have hb := placed_bounds hk
      simp only [Seg.size_taken] at hb
      omega
  have hidx : indexOf s.run.heap (addressOf s.run.heap (f.header + 1)) = f.header := by
    obtain ⟨i, hi⟩ : ∃ i : ℕ, f.header = i := ⟨f.header.toNat, by omega⟩
    rw [hi]
    exact hr.indexOf_addressOf (by omega)
  have hp := HeapRun.addressOf_ne (h := s.run.heap) hr.base_pos hin.1
  have hpanic := free_panics_iff hp.1 hp.2
  rw [hidx, isTaken, decide_eq_false_iff_not, not_lt, ← hlogged.sign] at hpanic
  constructor
  · intro hcaught
    exact hpanic.mp hcaught.1
  · intro hsign
    have herror := hpanic.mpr hsign
    refine ⟨herror, ?_⟩
    simp only [HeapRun.next, herror]

/-- Two neighbours are given back in address order, the second of them twice. -/
theorem freed_twice_not_caught : ¬ ∀ s, freeLogMachine.Reachable s → ∀ f ∈ s.freed, s.Caught f := by
  intro hall
  have hrun : ∃ t, freeLogMachine.Run ⟨smallHeap, []⟩ [.malloc 4, .malloc 20, .free 4148, .free 4164] t ∧
      decide (t.freed.map (fun f => (f.header, f.rewritten)) = [(16, false), (12, true)]) = true :=
    Machine.exists_run_of_replay (by decide)
  obtain ⟨t, ht, hcheck⟩ := hrun
  have hs : freeLogMachine.Reachable t := ht.reachable (.init ⟨HeapRun.smallHeap_booted, rfl⟩)
  have hmem : (16, false) ∈ t.freed.map fun f => (f.header, f.rewritten) := by
    rw [of_decide_eq_true hcheck]
    exact List.mem_cons_self
  obtain ⟨f, hf, he⟩ := List.mem_map.mp hmem
  have htrue := (caught_iff hs hf).mp (hall t hs f hf)
  rw [(Prod.mk.inj he).2] at htrue
  cases htrue

/-- The first of the two is caught: the lock's block lies on its left. -/
theorem freed_first_caught : ∃ t f, freeLogMachine.Run ⟨smallHeap, []⟩ [.malloc 4, .free 4148] t ∧ f ∈ t.freed ∧
    t.Caught f := by
  have hrun : ∃ t, freeLogMachine.Run ⟨smallHeap, []⟩ [.malloc 4, .free 4148] t ∧
      decide (t.freed.map (fun f => (f.header, f.rewritten)) = [(12, true)]) = true :=
    Machine.exists_run_of_replay (by decide)
  obtain ⟨t, ht, hcheck⟩ := hrun
  have hs : freeLogMachine.Reachable t := ht.reachable (.init ⟨HeapRun.smallHeap_booted, rfl⟩)
  have hmem : (12, true) ∈ t.freed.map fun f => (f.header, f.rewritten) := by
    rw [of_decide_eq_true hcheck]
    exact List.mem_cons_self
  obtain ⟨f, hf, he⟩ := List.mem_map.mp hmem
  exact ⟨t, f, ht, hf, (caught_iff hs hf).mpr (Prod.mk.inj he).2⟩

end FreeLog
end AudioKernel
