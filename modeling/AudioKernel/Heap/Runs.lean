import AudioKernel.Heap.WellFormed
import AudioKernel.Lib.Machine
import Mathlib.Data.Int.ConditionallyCompleteOrder
import Mathlib.Order.CompletePartialOrder

/-! Runs of the heap: `heapInit`, then any calls of `malloc` and `free` and any stores by the clients. -/
namespace AudioKernel
open Lib Lib.Layout

/-- The heap, the address in `theLock`, and the pointers that `malloc` has returned and that have not
been freed. The block of the lock is one of them. -/
structure HeapRun where
  heap : Heap
  theLock : ℕ
  live : Finset ℕ

inductive HeapCall
  | malloc (bytes : ℕ)
  | free (p : ℕ)
  | write (p : ℕ) (i x : ℤ)

namespace Heap

/-- The indices of the payload of the block that `p` points into. -/
def payload (h : Heap) (p : ℕ) : Set ℤ := Set.Icc (indexOf h p + 1) (indexOf h p + size h (indexOf h p) - 2)

instance (h : Heap) (p : ℕ) (i : ℤ) : Decidable (i ∈ payload h p) :=
  inferInstanceAs (Decidable (_ ≤ i ∧ i ≤ _))

end Heap

namespace HeapRun
open Heap

/-- Clients free null, the zero-size pointer and live pointers. Only `heap.cc` knows the lock. A
client stores to the payload of a live block, and the lock's code to that of its own. -/
def enabled (s : HeapRun) : HeapCall → Prop
  | .malloc bytes => bytes < 2 ^ 32
  | .free p => p = 0 ∨ p = s.heap.base ∨ (p ∈ s.live ∧ p ≠ s.theLock)
  | .write p i _ => p ∈ s.live ∧ i ∈ payload s.heap p

/-- A call that halts leaves the run where it is. -/
def next (s : HeapRun) : HeapCall → HeapRun
  | .malloc bytes =>
    match Heap.malloc s.heap bytes with
    | .ok (p, h) => { s with heap := h, live := if p = 0 ∨ p = s.heap.base then s.live else insert p s.live }
    | .error _ => s
  | .free p =>
    match Heap.free s.heap p with
    | .ok h => { s with heap := h, live := s.live.erase p }
    | .error _ => s
  | .write _ i x => { s with heap := store s.heap i x }

instance (s : HeapRun) (c : HeapCall) : Decidable (enabled s c) := by
  cases c <;> unfold enabled <;> infer_instance

/-- `heapInit` has returned: its array has at least 8 words and lies in the 32-bit address space. -/
def Booted (s : HeapRun) : Prop :=
  ∃ words bytes, 8 ≤ bytes / 4 ∧ 0 < s.heap.base ∧ s.heap.base + 4 * (bytes / 4) ≤ 2 ^ 32 ∧
    heapInit words s.heap.base bytes = .ok (s.theLock, s.heap) ∧ s.live = {s.theLock}

end HeapRun

def heapMachine : Machine HeapRun HeapCall where
  init := HeapRun.Booted
  enabled := HeapRun.enabled
  next := HeapRun.next

instance (s : HeapRun) (c : HeapCall) : Decidable (heapMachine.enabled s c) :=
  inferInstanceAs (Decidable (HeapRun.enabled s c))

namespace HeapRun
open Heap

/-- The calls that return: the others halt the machine. -/
def Returns (s : HeapRun) : HeapCall → Prop
  | .malloc bytes => (Heap.malloc s.heap bytes).isOk
  | .free p => (Heap.free s.heap p).isOk
  | .write _ _ _ => True

/-- The heap when the block of the lock is the only live one. -/
def OnlyLock (h : Heap) : Prop :=
  if 18 ≤ h.len then headers h = [0, 2, 12, h.len - 2] ∧ h.array 2 = -10 ∧ h.array 12 = h.len - 14
  else headers h = [0, 2, h.len - 2] ∧ h.array 2 = 4 - h.len

/-- The block of the lock takes the whole heap when less than four words would remain. -/
def lockInts (h : Heap) : ℕ := if 18 ≤ h.len then 10 else h.len.toNat - 4

/-- The invariant of the runs: the live pointers are those to the taken blocks between the sentinels,
and the first of these is the block of the lock. -/
structure Inv (s : HeapRun) (segs : List Seg) (fl : List ℤ) : Prop where
  rep : Rep s.heap segs fl
  live_iff : ∀ p, p ∈ s.live ↔
    ∃ k n, (k, Seg.taken n) ∈ placed 0 segs ∧ 4 ≤ n ∧ p = addressOf s.heap (k + 1)
  lock : ∃ rest, segs = .taken 2 :: .taken (lockInts s.heap) :: rest
  theLock_eq : s.theLock = addressOf s.heap 3

/-- What a call that frees `p` keeps: the other taken blocks and the words inside them. -/
structure Keeps (h h' : Heap) (segs segs' : List Seg) (p : ℕ) : Prop where
  len_eq : h'.len = h.len
  base_eq : h'.base = h.base
  taken : ∀ k n, (k, Seg.taken n) ∈ placed 0 segs → addressOf h (k + 1) ≠ p → (k, Seg.taken n) ∈ placed 0 segs'
  words : ∀ k n, (k, Seg.taken n) ∈ placed 0 segs → addressOf h (k + 1) ≠ p →
    ∀ w, k < w → w < k + n - 1 → h'.array w = h.array w

theorem Keeps.refl (h : Heap) (segs : List Seg) (p : ℕ) : Keeps h h segs segs p :=
  ⟨rfl, rfl, fun _ _ hk _ => hk, fun _ _ _ _ _ _ _ => rfl⟩

theorem addressOf_congr {h h' : Heap} (hbase : h'.base = h.base) (i : ℤ) : addressOf h' i = addressOf h i := by
  rw [addressOf, addressOf, hbase]

theorem lockInts_congr {h h' : Heap} (hlen : h'.len = h.len) : lockInts h' = lockInts h := by
  rw [lockInts, lockInts, hlen]

theorem addressOf_inj {h : Heap} {i j : ℤ} (hi : 0 ≤ i) (hj : 0 ≤ j) :
    addressOf h i = addressOf h j ↔ i = j := by
  unfold addressOf
  omega

theorem addressOf_ne {h : Heap} (hbase : 0 < h.base) {i : ℤ} (hi : 0 ≤ i) :
    addressOf h (i + 1) ≠ 0 ∧ addressOf h (i + 1) ≠ h.base := by
  unfold addressOf
  omega

/-! The state after `heapInit`. -/

theorem setup_rep (words : ℤ → ℤ) {base bytes : ℕ} (hlen : 8 ≤ bytes / 4) (hbase : 0 < base)
    (hfits : base + 4 * (bytes / 4) ≤ 2 ^ 32) :
    Rep (heapSetup words base bytes) [.taken 2, .avail (bytes / 4 - 4), .taken 2] [2] := by
  have h0 : Layout words 0 ([] ++ .hole 2 :: [.hole (bytes / 4 - 4), .hole 2]) [] := by
    refine ⟨?_, ?_, by simp, by simp, rfl, by simp [Linked]⟩
    · simp [Seg.Wide]
    · intro k s v hk hv
      simp at hk
      rcases hk with hk | hk | hk <;> rw [hk.2] at hv <;> cases hv
  have h1 : Layout (takenAt words 0 2) 0 ([.taken 2] ++ .hole (bytes / 4 - 4) :: [.hole 2]) [] :=
    h0.fill_taken le_rfl
  have h2 : Layout (availAt (takenAt words 0 2) 0 2 (bytes / 4 - 4)) 2
      ([.taken 2, .avail (bytes / 4 - 4)] ++ .hole 2 :: []) [2] := h1.fill_avail (by omega) (by simp)
  have h3 := h2.fill_taken le_rfl
  have hend : (total [.taken 2, .avail (bytes / 4 - 4)] : ℤ) = (bytes / 4 : ℕ) - 2 := by
    simp
    omega
  have hmid : ((bytes / 4 : ℕ) : ℤ) - 4 = (bytes / 4 - 4 : ℕ) := by omega
  have hheap : heapSetup words base bytes =
      { array := takenAt (availAt (takenAt words 0 2) 0 2 (bytes / 4 - 4)) ((bytes / 4 : ℕ) - 2) 2,
        base := base, len := (bytes / 4 : ℕ), avail := 2 } := by
    have htwo (h : Heap) (i : ℤ) : makeTaken h i 2 = { h with array := takenAt h.array i 2 } := makeTaken_eq h i 2
    simp only [heapSetup, htwo]
    rw [hmid, makeAvail_eq]
  rw [hheap]
  rw [hend] at h3
  refine ⟨h3, ⟨[.avail (bytes / 4 - 4)], rfl, by simp; omega⟩, ?_, ?_, ?_, hbase, ?_⟩
  · simp
    omega
  · intro k n hk
    simp at hk ⊢
    omega
  · simp [Coalesced]
  · simp
    omega

theorem booted_inv {s : HeapRun} (hs : s.Booted) : ∃ segs fl, Inv s segs fl := by
  obtain ⟨words, bytes, hlen, hbase, hfits, hinit, hlive⟩ := hs
  have hr := setup_rep words hlen hbase hfits
  have hsize : sizeofBlockingLock ≠ 0 := by decide
  unfold heapInit operatorNew at hinit
  rcases malloc_spec hr hsize with hm | ⟨pre, m, post, i, h', fl', hsegs, hpre, hpost, hm, hi, -, him, hrep, hl, hb, -⟩
  · simp [hm, bind, Except.bind] at hinit
  · rw [hm] at hinit
    have hi10 : i = 10 := by
      have : intsFor sizeofBlockingLock = 10 := by decide
      omega
    have hcut : [.taken 2] = pre ∧ bytes / 4 - 4 = m ∧ [.taken 2] = post := by
      match pre with
      | [] => exact absurd rfl hpre
      | [_] => simpa using hsegs
      | [_, _] => simp at hsegs
      | _ :: _ :: _ :: _ => simp at hsegs
    obtain ⟨hpre', hm', hpost'⟩ := hcut
    subst hi10 hpre' hm' hpost'
    have hp : addressOf (heapSetup words s.heap.base bytes) (total [.taken 2] + 1) ≠ 0 :=
      (addressOf_ne (i := 2) hbase (by omega)).1
    simp only [bind, Except.bind, pure, Except.pure, if_neg hp, Except.ok.injEq, Prod.mk.injEq] at hinit
    obtain ⟨hlock, hheap⟩ := hinit
    subst hheap
    have hlen' : s.heap.len = (bytes / 4 : ℕ) := hl
    have hptr : s.theLock = addressOf s.heap 3 := hlock.symm
    -- the allocation of the lock leaves one block or two between the sentinels
    have hcarve : carve 10 (bytes / 4 - 4) = [.taken (lockInts s.heap), .avail (bytes / 4 - 14)] ∨
        carve 10 (bytes / 4 - 4) = [.taken (lockInts s.heap)] := by
      unfold carve lockInts
      by_cases h18 : 18 ≤ bytes / 4
      · rw [if_pos (by omega), if_pos (by omega)]
        exact .inl rfl
      · rw [if_neg (by omega), if_neg (by omega)]
        exact .inr (by rw [hlen', Int.toNat_natCast])
    have h4 : 4 ≤ lockInts s.heap := by
      unfold lockInts
      split_ifs <;> omega
    have hshape : ∃ rest, carve 10 (bytes / 4 - 4) ++ [.taken 2] = .taken (lockInts s.heap) :: rest ∧
        ∀ k n, (k, Seg.taken n) ∈ placed (2 + lockInts s.heap) rest → n = 2 := by
      rcases hcarve with hc | hc <;> rw [hc]
      · exact ⟨[.avail (bytes / 4 - 14), .taken 2], rfl, by simp⟩
      · exact ⟨[.taken 2], rfl, by simp⟩
    obtain ⟨rest, hsegs', hrest⟩ := hshape
    rw [hsegs'] at hrep
    refine ⟨_, _, hrep, fun p => ?_, ⟨rest, rfl⟩, hptr⟩
    rw [hlive, Finset.mem_singleton, hptr]
    constructor
    · intro hp
      exact ⟨2, lockInts s.heap, by simp, h4, hp⟩
    · rintro ⟨k, n, hk, hn, hp⟩
      simp only [List.singleton_append, placed_cons, Seg.size_taken, List.mem_cons, Prod.mk.injEq, Seg.taken.injEq,
        Nat.cast_ofNat, zero_add] at hk
      rcases hk with ⟨-, h2⟩ | ⟨hk, -⟩ | hk
      · omega
      · rw [hp, hk]
        rfl
      · have := hrest k n hk
        omega

/-! One call. -/

section
variable {s : HeapRun} {segs : List Seg} {fl : List ℤ}

theorem front_of_cut {a b t : Seg} {rest pre post : List Seg} (h : pre ++ t :: post = a :: b :: rest)
    (h0 : pre ≠ []) (h1 : pre ≠ [a]) : ∃ pre', pre = a :: b :: pre' := by
  match pre with
  | [] => contradiction
  | [x] =>
    simp at h
    exact absurd (by rw [h.1]) h1
  | x :: y :: pre' =>
    simp at h
    exact ⟨pre', by rw [h.1, h.2.1]⟩

theorem taken_carve {i m n : ℕ} {j k : ℤ} :
    (k, Seg.taken n) ∈ placed j (carve i m) ↔ k = j ∧ n = if i + 4 ≤ m then i else m := by
  unfold carve
  split_ifs <;> simp

theorem Inv.pos (hi : Inv s segs fl) {p : ℕ} (hp : p ∈ s.live) : p ≠ 0 ∧ p ≠ s.heap.base := by
  obtain ⟨k, n, hk, -, hp⟩ := (hi.live_iff p).mp hp
  have hb := placed_bounds hk
  rw [hp]
  exact addressOf_ne hi.rep.base_pos hb.1

theorem malloc_step (hi : Inv s segs fl) (bytes : ℕ) :
    (Heap.malloc s.heap bytes).isOk ∧ ∃ segs' fl', Inv (s.next (.malloc bytes)) segs' fl' ∧
      Keeps s.heap (s.next (.malloc bytes)).heap segs segs' 0 := by
  have hsame {p : ℕ} (hm : Heap.malloc s.heap bytes = .ok (p, s.heap)) (hp : p = 0 ∨ p = s.heap.base) :
      (Heap.malloc s.heap bytes).isOk ∧ ∃ segs' fl', Inv (s.next (.malloc bytes)) segs' fl' ∧
        Keeps s.heap (s.next (.malloc bytes)).heap segs segs' 0 := by
    have hnext : s.next (.malloc bytes) = s := by simp [next, hm, hp]
    rw [hnext, hm]
    exact ⟨rfl, segs, fl, hi, Keeps.refl ..⟩
  by_cases h0 : bytes = 0
  · exact hsame (p := s.heap.base) (by rw [malloc, if_pos h0]) (.inr rfl)
  rcases malloc_spec hi.rep h0 with hm | ⟨pre, m, post, i, h', fl', hsegs, hpre, hpost, hm, -, hi4, him, hrep, hl, hb, hw⟩
  · exact hsame hm (.inl rfl)
  · subst hsegs
    have hne := addressOf_ne (h := s.heap) hi.rep.base_pos (i := total pre) (by omega)
    have hnext : s.next (.malloc bytes) =
        { s with heap := h', live := insert (addressOf s.heap (total pre + 1)) s.live } := by
      simp [next, hm, hne]
    rw [hnext, hm]
    refine ⟨rfl, _, _, ⟨hrep, fun p => ?_, ?_, ?_⟩, hl, hb, ?_, ?_⟩
    · rw [Finset.mem_insert, hi.live_iff]
      simp only [addressOf_congr hb, placed_append, placed_cons, List.mem_append, List.mem_cons, Prod.mk.injEq,
        zero_add, reduceCtorEq, and_false, false_or, taken_carve, total_carve him, Seg.size_avail]
      constructor
      · intro hp
        rcases hp with hp | ⟨k, n, hk, hn, hp⟩
        · exact ⟨_, _, .inr (.inl ⟨rfl, rfl⟩), by split_ifs <;> omega, hp⟩
        · exact ⟨k, n, hk.imp_right .inr, hn, hp⟩
      · rintro ⟨k, n, hk, hn, hp⟩
        rcases hk with hk | ⟨hk, -⟩ | hk
        · exact .inr ⟨k, n, .inl hk, hn, hp⟩
        · exact .inl (hk ▸ hp)
        · exact .inr ⟨k, n, .inr hk, hn, hp⟩
    · obtain ⟨rest, hrest⟩ := hi.lock
      obtain ⟨pre', hpre'⟩ := front_of_cut hrest hpre (fun he => by simp [he] at hrest)
      exact ⟨_, by rw [hpre', lockInts_congr hl]; rfl⟩
    · rw [addressOf_congr hb]
      exact hi.theLock_eq
    · intro k n hk _
      simp only [placed_append, placed_cons, List.mem_append, List.mem_cons, Prod.mk.injEq, reduceCtorEq,
        and_false, false_or, zero_add, total_carve him, Seg.size_avail] at hk ⊢
      exact hk.imp_right .inr
    · intro k n hk _ w hlo hhi
      exact hw w ⟨k, n, hk, hlo, hhi⟩

theorem free_step (hi : Inv s segs fl) {p : ℕ} (hp : s.enabled (.free p)) :
    (Heap.free s.heap p).isOk ∧ ∃ segs' fl', Inv (s.next (.free p)) segs' fl' ∧
      Keeps s.heap (s.next (.free p)).heap segs segs' p := by
  have hsame (hf : Heap.free s.heap p = .ok s.heap) (hp : p ∉ s.live) :
      (Heap.free s.heap p).isOk ∧ ∃ segs' fl', Inv (s.next (.free p)) segs' fl' ∧
        Keeps s.heap (s.next (.free p)).heap segs segs' p := by
    have hnext : s.next (.free p) = s := by simp [next, hf, hp]
    rw [hnext, hf]
    exact ⟨rfl, segs, fl, hi, Keeps.refl ..⟩
  rcases hp with h0 | hbase | ⟨hlive, hlock⟩
  · exact hsame (by rw [Heap.free, if_pos h0]) fun hin => (hi.pos hin).1 h0
  · by_cases h0 : p = 0
    · exact hsame (by rw [Heap.free, if_pos h0]) fun hin => (hi.pos hin).1 h0
    · exact hsame (by rw [Heap.free, if_neg h0, if_pos hbase]) fun hin => (hi.pos hin).2 hbase
  · obtain ⟨k, n, hk, hn, hpk⟩ := (hi.live_iff p).mp hlive
    have hpos := (placed_bounds hk).1
    obtain ⟨segs', h', fl', hf, hrep, hlen, hb, htaken, hwords⟩ := hi.rep.free_keeps hk hn
    rw [← hpk] at hf
    have hnext : s.next (.free p) = { s with heap := h', live := s.live.erase p } := by simp [next, hf]
    rw [hnext, hf]
    refine ⟨rfl, segs', fl', ⟨hrep, fun q => ?_, ?_, ?_⟩, hlen, hb, ?_, ?_⟩
    · rw [Finset.mem_erase, hi.live_iff]
      simp only [addressOf_congr hb, htaken]
      constructor
      · rintro ⟨hq, l, m, hl, hm, hql⟩
        exact ⟨l, m, ⟨hl, fun he => hq (by rw [hql, he, hpk])⟩, hm, hql⟩
      · rintro ⟨l, m, ⟨hl, hlk⟩, hm, hql⟩
        refine ⟨fun he => hlk ?_, l, m, hl, hm, hql⟩
        have := (placed_bounds hl).1
        have := (addressOf_inj (h := s.heap) (by omega) (by omega)).mp (hql.symm.trans (he.trans hpk))
        omega
    · -- the sentinel and the block of the lock are taken blocks that stay
      obtain ⟨rest, hrest⟩ := hi.lock
      have hk2 : k ≠ 2 := by
        rintro rfl
        rw [hpk, hi.theLock_eq] at hlock
        exact hlock rfl
      have hk0 : k ≠ 0 := by
        rintro rfl
        rw [hrest] at hk
        have hb := placed_separate hk (l := 0) (t := .taken 2) (by simp)
        simp only [Seg.taken.injEq, Seg.size_taken] at hb
        omega
      have hfirst := (htaken 0 2).mpr ⟨by simp [hrest], hk0.symm⟩
      have hsecond := (htaken 2 (lockInts s.heap)).mpr ⟨by simp [hrest], hk2.symm⟩
      obtain ⟨rest₁, rfl⟩ := hrep.cons_of_placed (List.nil_append _).symm hfirst
      obtain ⟨rest₂, he⟩ := hrep.cons_of_placed List.singleton_append.symm hsecond
      exact ⟨rest₂, by rw [he, lockInts_congr hlen]⟩
    · rw [addressOf_congr hb]
      exact hi.theLock_eq
    · intro l m hl hlp
      exact (htaken l m).mpr ⟨hl, fun he => hlp (by rw [he, hpk])⟩
    · intro l m hl hlp w hlo hhi
      exact hwords l m hl (fun he => hlp (by rw [he, hpk])) w hlo hhi

theorem payload_eq {h : Heap} (hr : Rep h segs fl) {k : ℤ} {n : ℕ} (hk : (k, Seg.taken n) ∈ placed 0 segs) :
    payload h (addressOf h (k + 1)) = Set.Icc (k + 1) (k + n - 2) := by
  have hb := placed_bounds hk
  have hn := hr.size_ge_two (mem_of_placed hk)
  simp only [Seg.size_taken] at hb hn
  have hidx : indexOf h (addressOf h (k + 1)) = k := by
    obtain ⟨i, hik⟩ : ∃ i : ℕ, k = i := ⟨k.toNat, by omega⟩
    subst hik
    exact hr.indexOf_addressOf (by omega)
  rw [payload, hidx, hr.size_eq hk, Seg.size_taken]

theorem write_step (hi : Inv s segs fl) {p : ℕ} {i x : ℤ} (hw : s.enabled (.write p i x)) :
    Inv (s.next (.write p i x)) segs fl := by
  obtain ⟨hlive, hin⟩ := hw
  obtain ⟨k, n, hk, -, hp⟩ := (hi.live_iff p).mp hlive
  rw [hp, payload_eq hi.rep hk, Set.mem_Icc] at hin
  have hword : InTaken segs i := ⟨k, n, hk, by omega, by omega⟩
  exact ⟨hi.rep.store_inTaken hword x, hi.live_iff, hi.lock, hi.theLock_eq⟩

theorem step_inv (hi : Inv s segs fl) {c : HeapCall} (hc : s.enabled c) : ∃ segs' fl', Inv (s.next c) segs' fl' := by
  cases c with
  | malloc bytes =>
    obtain ⟨-, segs', fl', hi', -⟩ := malloc_step hi bytes
    exact ⟨segs', fl', hi'⟩
  | free p =>
    obtain ⟨-, segs', fl', hi', -⟩ := free_step hi hc
    exact ⟨segs', fl', hi'⟩
  | write p i x => exact ⟨segs, fl, write_step hi hc⟩

theorem reachable_inv (hs : heapMachine.Reachable s) : ∃ segs fl, Inv s segs fl :=
  hs.invariant (I := fun s => ∃ segs fl, Inv s segs fl) (fun _ hb => booted_inv hb)
    fun _ _ ⟨_, _, hi⟩ hc => step_inv hi hc

/-- The block of the lock is one of those between the sentinels. -/
theorem Inv.lock_inner (hi : Inv s segs fl) :
    ∃ mid, segs = .taken 2 :: .taken (lockInts s.heap) :: (mid ++ [.taken 2]) ∧ 4 ≤ lockInts s.heap ∧
      ∀ t ∈ mid, 4 ≤ t.size ∧ t.tag?.isSome := by
  obtain ⟨rest, hrest⟩ := hi.lock
  obtain ⟨mid, hmid, hsize⟩ := hi.rep.ends
  have hlen := hi.rep.len_eq
  have heq : .taken (lockInts s.heap) :: rest = mid ++ [.taken 2] := (List.cons.inj (hrest.symm.trans hmid)).2
  cases mid with
  | nil =>
    -- then the block of the lock would be the last sentinel
    have hl : lockInts s.heap = 2 := by
      simp at heq
      exact heq.1
    rw [hmid] at hlen
    have hlen' : s.heap.len = 4 := by simpa using hlen
    simp [lockInts, hlen'] at hl
  | cons t mid =>
    obtain ⟨ht, hr⟩ := List.cons.inj heq
    have hin := hsize t List.mem_cons_self
    rw [← ht] at hin
    exact ⟨mid, by rw [hrest, hr]; rfl, hin.1, fun u hu => hsize u (List.mem_cons_of_mem _ hu)⟩

/-- With the lock's block alone, nothing else is taken, and at most one available block remains. -/
theorem Inv.onlyLock (hi : Inv s segs fl) (hlive : s.live = {s.theLock}) : OnlyLock s.heap := by
  obtain ⟨mid, hmid, h4, hsize⟩ := hi.lock_inner
  have hlen := hi.rep.len_eq
  have hav : ∀ t ∈ mid, t.isAvail = true := by
    intro t ht
    obtain ⟨ht4, htag⟩ := hsize t ht
    cases t with
    | avail n => rfl
    | hole n => cases htag
    | taken n =>
      obtain ⟨k, hk⟩ : ∃ k, (k, Seg.taken n) ∈ placed (2 + lockInts s.heap) mid := by
        rw [← map_snd_placed (2 + lockInts s.heap) mid, List.mem_map] at ht
        obtain ⟨⟨k, t⟩, hk, he⟩ := ht
        subst he
        exact ⟨k, hk⟩
      have hb := placed_bounds hk
      have hin : addressOf s.heap (k + 1) ∈ s.live :=
        (hi.live_iff _).mpr ⟨k, n, by simp [hmid, hk], ht4, rfl⟩
      rw [hlive, Finset.mem_singleton, hi.theLock_eq, addressOf_inj (by omega) (by omega)] at hin
      omega
  have htag (k : ℤ) (t : Seg) (v : ℤ) (hk : (k, t) ∈ placed 0 segs) (hv : t.tag? = some v) : s.heap.array k = v :=
    (hi.rep.layout.tagged k t v hk hv).1
  have hlock : s.heap.array 2 = -(lockInts s.heap : ℤ) := htag 2 (.taken (lockInts s.heap)) _ (by simp [hmid]) rfl
  have hheaders := hi.rep.headers_eq
  unfold OnlyLock
  match mid with
  | [] =>
    have hl : ¬ 18 ≤ s.heap.len := by
      unfold lockInts at *
      simp [hmid] at hlen
      split_ifs at hlen <;> omega
    have hints : (lockInts s.heap : ℤ) = s.heap.len - 4 := by
      simp [hmid] at hlen
      omega
    rw [if_neg hl, hheaders, hlock, hmid]
    constructor
    · simp [hints]
      omega
    · omega
  | [.avail m] =>
    have hm := (hsize (.avail m) (by simp)).1
    have hlen' : s.heap.len = lockInts s.heap + m + 4 := by
      simp [hmid] at hlen
      omega
    simp only [Seg.size_avail] at hm
    have hl : 18 ≤ s.heap.len := by
      by_contra hlt
      rw [lockInts, if_neg hlt] at hlen'
      omega
    have h10 : lockInts s.heap = 10 := if_pos hl
    have hrest : s.heap.array 12 = m := htag 12 (.avail m) _ (by simp [hmid, h10]) rfl
    rw [if_pos hl, hheaders, hlock, hrest, hmid, h10]
    refine ⟨?_, rfl, by omega⟩
    simp
    omega
  | [.taken m] =>
    have := hav (.taken m) (by simp)
    cases this
  | [.hole m] =>
    have := hav (.hole m) (by simp)
    cases this
  | t :: u :: _ =>
    have hco := hi.rep.coalesced
    have ht := hav t (by simp)
    have hu := hav u (by simp)
    rw [hmid, Coalesced] at hco
    simp [ht, hu] at hco

/-- In every reachable state the words of the heap are well formed, and no call halts. -/
theorem reachable_wellFormed (hs : heapMachine.Reachable s) :
    WellFormed s.heap s.live ∧ s.theLock ∈ s.live ∧ s.theLock = addressOf s.heap 3 ∧
      (∀ c, s.enabled c → s.Returns c) ∧ (s.live = {s.theLock} → OnlyLock s.heap) := by
  obtain ⟨segs, fl, hi⟩ := reachable_inv hs
  obtain ⟨mid, hmid, h4, -⟩ := hi.lock_inner
  have hlock : s.theLock ∈ s.live := by
    rw [hi.live_iff, hi.theLock_eq]
    exact ⟨2, lockInts s.heap, by simp [hmid], h4, rfl⟩
  refine ⟨hi.rep.wellFormed hi.live_iff, hlock, hi.theLock_eq, fun c hc => ?_, hi.onlyLock⟩
  cases c with
  | malloc bytes => exact (malloc_step hi bytes).1
  | free p => exact (free_step hi hc).1
  | write p i x => trivial

/-- The words of the payload of a live block are those inside one taken block. -/
theorem Inv.payload_live (hi : Inv s segs fl) {p : ℕ} (hp : p ∈ s.live) :
    ∃ k n, (k, Seg.taken n) ∈ placed 0 segs ∧ 4 ≤ n ∧ p = addressOf s.heap (k + 1) ∧
      payload s.heap p = Set.Icc (k + 1) (k + n - 2) := by
  obtain ⟨k, n, hk, hn, hpk⟩ := (hi.live_iff p).mp hp
  exact ⟨k, n, hk, hn, hpk, by rw [hpk, payload_eq hi.rep hk]⟩

theorem Inv.payload_inside (hi : Inv s segs fl) {p : ℕ} (hp : p ∈ s.live) :
    payload s.heap p ⊆ Set.Icc 3 (s.heap.len - 4) := by
  obtain ⟨k, n, hk, hn, -, hpay⟩ := hi.payload_live hp
  obtain ⟨mid, hmid, -⟩ := hi.rep.ends
  have hlen := hi.rep.len_eq
  have hb : 2 ≤ k ∧ k + n ≤ s.heap.len - 2 := by
    have hin : (k, Seg.taken n) ∈ placed 2 mid := by
      simp only [hmid, placed_cons, placed_append, List.mem_cons, List.mem_append, Prod.mk.injEq, Seg.taken.injEq,
        placed_nil, List.not_mem_nil, or_false] at hk
      rcases hk with ⟨-, h2⟩ | hk | ⟨-, h2⟩
      · omega
      · exact hk
      · omega
    have := placed_bounds hin
    simp [hmid] at hlen this
    omega
  rw [hpay]
  apply Set.Icc_subset_Icc
  · omega
  · omega

theorem Inv.payload_disjoint (hi : Inv s segs fl) {p q : ℕ} (hp : p ∈ s.live) (hq : q ∈ s.live) (hne : p ≠ q) :
    Disjoint (payload s.heap p) (payload s.heap q) := by
  obtain ⟨k, n, hk, hn, hpk, hpay⟩ := hi.payload_live hp
  obtain ⟨l, m, hl, hm, hql, hqay⟩ := hi.payload_live hq
  rw [hpay, hqay, Set.disjoint_left]
  intro w hw hw'
  rw [Set.mem_Icc] at hw hw'
  rcases placed_separate hk hl with ⟨he, -⟩ | hs | hs
  · apply hne
    rw [hpk, hql, he]
  · simp only [Seg.size_taken] at hs
    omega
  · simp only [Seg.size_taken] at hs
    omega

/-- A call keeps the place and the words of the payloads of the blocks that it does not free. -/
theorem Inv.payload_kept {s' : HeapRun} {segs' : List Seg} {fl' : List ℤ} {p q : ℕ} (hi : Inv s segs fl)
    (hi' : Inv s' segs' fl') (hkeeps : Keeps s.heap s'.heap segs segs' q) (hp : p ∈ s.live) (hne : p ≠ q) :
    payload s'.heap p = payload s.heap p ∧ Set.EqOn s'.heap.array s.heap.array (payload s.heap p) := by
  obtain ⟨k, n, hk, hn, hpk, hpay⟩ := hi.payload_live hp
  have hkq : addressOf s.heap (k + 1) ≠ q := hpk ▸ hne
  have hk' := hkeeps.taken k n hk hkq
  constructor
  · rw [hpay, hpk, ← addressOf_congr hkeeps.base_eq, payload_eq hi'.rep hk']
  · intro w hw
    rw [hpay, Set.mem_Icc] at hw
    exact hkeeps.words k n hk hkq w (by omega) (by omega)

/-- The payloads of the live blocks are apart and inside the heap, and a call of `malloc` or `free`
leaves alone those of the blocks that are live before and after it. -/
theorem payloads_separate (hs : heapMachine.Reachable s) :
    (∀ p ∈ s.live, payload s.heap p ⊆ Set.Icc 3 (s.heap.len - 4)) ∧
      (∀ p ∈ s.live, ∀ q ∈ s.live, p ≠ q → Disjoint (payload s.heap p) (payload s.heap q)) ∧
      ∀ c, s.enabled c → (∀ p i x, c ≠ .write p i x) → ∀ p ∈ s.live, p ∈ (s.next c).live →
        payload (s.next c).heap p = payload s.heap p ∧
          Set.EqOn (s.next c).heap.array s.heap.array (payload s.heap p) := by
  obtain ⟨segs, fl, hi⟩ := reachable_inv hs
  refine ⟨fun p hp => hi.payload_inside hp, fun p hp q hq hne => hi.payload_disjoint hp hq hne, ?_⟩
  intro c hc hw p hp hp'
  cases c with
  | malloc bytes =>
    obtain ⟨-, segs', fl', hi', hkeeps⟩ := malloc_step hi bytes
    exact hi.payload_kept hi' hkeeps hp (hi.pos hp).1
  | free q =>
    obtain ⟨hok, segs', fl', hi', hkeeps⟩ := free_step hi hc
    obtain ⟨h', hf⟩ : ∃ h', Heap.free s.heap q = .ok h' := by
      cases hf : Heap.free s.heap q with
      | error e => simp [hf, Except.isOk, Except.toBool] at hok
      | ok h' => exact ⟨h', rfl⟩
    simp only [next, hf, Finset.mem_erase] at hp'
    exact hi.payload_kept hi' hkeeps hp hp'.1
  | write q i x => exact absurd rfl (hw q i x)

end

/-- The words before `heapInit`, and the state after it, of a heap of 32 words at address 4096. -/
def smallHeap : HeapRun :=
  match heapInit (fun _ => 0) 4096 128 with
  | .ok (p, h) => ⟨h, p, {p}⟩
  | .error _ => ⟨⟨fun _ => 0, 0, 0, 0⟩, 0, ∅⟩

theorem smallHeap_booted : smallHeap.Booted :=
  ⟨fun _ => 0, 128, by decide, by decide, by decide, rfl, rfl⟩

/-- Two allocations with stores to both, and the first of them given back. -/
def smallRun : List HeapCall :=
  [.malloc 4, .malloc 20, .write 4148 13 (-1), .write 4164 18 7, .free 4148]

theorem smallRun_runs : ∃ t, heapMachine.Run smallHeap smallRun t ∧
    decide (t.live = {4108, 4164} ∧ headers t.heap = [0, 2, 12, 16, 23, 30]) = true :=
  Machine.exists_run_of_replay (by decide)

theorem smallRun_wellFormed : ∃ t, heapMachine.Run smallHeap smallRun t ∧ WellFormed t.heap t.live := by
  obtain ⟨t, ht, -⟩ := smallRun_runs
  exact ⟨t, ht, (reachable_wellFormed (ht.reachable (.init smallHeap_booted))).1⟩

theorem smallRun_separate : ∃ t, heapMachine.Run smallHeap smallRun t ∧
    Disjoint (payload t.heap 4108) (payload t.heap 4164) := by
  obtain ⟨t, ht, hcheck⟩ := smallRun_runs
  have hlive := (of_decide_eq_true hcheck).1
  have hsep := payloads_separate (ht.reachable (.init smallHeap_booted))
  exact ⟨t, ht, hsep.2.1 4108 (by simp [hlive]) 4164 (by simp [hlive]) (by decide)⟩

/-- The block of the lock stays when a client has given back all it got: two blocks remain. -/
theorem freed_not_one_block : smallHeap.Booted ∧ ∃ t, heapMachine.Run smallHeap [.malloc 4, .free 4148] t ∧
    t.live = smallHeap.live ∧ ¬ (headers t.heap = [0, 2, t.heap.len - 2] ∧ t.heap.array 2 = t.heap.len - 4) := by
  have hrun : ∃ t, heapMachine.Run smallHeap [.malloc 4, .free 4148] t ∧
      decide (t.live = smallHeap.live ∧ headers t.heap = [0, 2, 12, 30]) = true :=
    Machine.exists_run_of_replay (by decide)
  obtain ⟨t, ht, hcheck⟩ := hrun
  obtain ⟨hlive, hheaders⟩ := of_decide_eq_true hcheck
  refine ⟨smallHeap_booted, t, ht, hlive, ?_⟩
  rw [hheaders]
  intro hone
  simpa using congrArg List.length hone.1

end HeapRun
end AudioKernel
