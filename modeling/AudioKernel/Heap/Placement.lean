import AudioKernel.Heap.Runs
import Mathlib.Algebra.Order.Floor.Div

/-! Where `malloc` places a block, in terms of the words of the heap, and how large the block is. -/
namespace AudioKernel
open Lib Lib.Layout

namespace Heap

/-- The indices on the list of available blocks, from `p` on. -/
def availFrom (h : Heap) : ℕ → ℤ → List ℤ
  | 0, _ => []
  | fuel + 1, p => if p = 0 then [] else p :: availFrom h fuel (h.array (p + 1))

/-- A block has a word, so that `len` steps are enough. -/
def availList (h : Heap) : List ℤ := availFrom h h.len.toNat h.avail

/-- The header of every block and the word there: the bounds of the block and its status. -/
def blocks (h : Heap) : List (ℤ × ℤ) := (headers h).map fun i => (i, h.array i)

/-- The words that a block of `bytes` takes, with both tags. -/
def need (bytes : ℕ) : ℤ := max 4 (bytes ⌈/⌉ 4 + 2 : ℕ)

/-- Of the first 20 blocks on the list that are large enough, the first one of the smallest size. -/
def bestFit (h : Heap) (ints : ℤ) : Option ℤ :=
  smallest h (((availList h).filter fun i => ints ≤ size h i).take 20)

/-- The blocks that take the place of a block of `sz` words at `i`. -/
def cutBlock (i sz ints : ℤ) : List (ℤ × ℤ) :=
  if sz - ints ≥ 4 then [(i, -ints), (i + ints, sz - ints)] else [(i, -sz)]

/-- The bytes between the tags of the block that `p` points to. -/
def capacity (h : Heap) (p : ℕ) : ℕ := (4 * (size h (indexOf h p) - 2)).toNat

/-- Up to 2³² − 4 bytes the sum in `size_t` does not wrap. -/
theorem intsFor_eq_need {bytes : ℕ} (hb : bytes ≤ 0xFFFFFFFC) : intsFor bytes = need bytes := by
  have hceil : (bytes + 3) % 2 ^ 32 / 4 = bytes ⌈/⌉ 4 := by
    rw [Nat.ceilDiv_eq_add_pred_div, Nat.mod_eq_of_lt (by omega)]
    rfl
  unfold intsFor need
  dsimp only
  rw [hceil]
  split_ifs <;> omega

/-- The block that `malloc` hands out holds the bytes asked for. -/
theorem granted_covers {bytes i m : ℕ} (hb : bytes ≤ 0xFFFFFFFC) (hints : intsFor bytes = i) (him : i ≤ m) :
    bytes ≤ 4 * (granted i m - 2) := by
  have hneed := intsFor_eq_need hb
  rw [hints, need, Nat.ceilDiv_eq_add_pred_div] at hneed
  have hle := le_granted him
  omega

/-- The sum wraps for more bytes, and the block is one of the smallest. -/
theorem intsFor_wrapped {bytes : ℕ} (hlarge : 0xFFFFFFFC < bytes) (hb : bytes < 2 ^ 32) : intsFor bytes = (4 : ℕ) := by
  have hwrap : (bytes + 3) % 2 ^ 32 / 4 = 0 := by omega
  unfold intsFor
  rw [hwrap]
  rfl

theorem granted_wrapped {m : ℕ} : granted 4 m < 8 := by
  unfold granted
  split_ifs <;> omega

namespace Rep

variable {h : Heap} {segs : List Seg} {fl : List ℤ}

theorem availFrom_eq (hr : Rep h segs fl) {l xs : List ℤ} (hfl : fl = l ++ xs) {fuel : ℕ} (hfuel : xs.length ≤ fuel) :
    availFrom h fuel (xs.headD 0) = xs := by
  induction xs generalizing l fuel with
  | nil => cases fuel <;> rfl
  | cons x xs ih =>
    obtain ⟨fuel, rfl⟩ : ∃ f, fuel = f + 1 := ⟨fuel - 1, by simp at hfuel; omega⟩
    have hpos := (hr.layout.listed x (by simp [hfl])).1
    have hnext : h.array (x + 1) = xs.headD 0 := (hfl ▸ hr.layout).next_listed
    rw [List.headD_cons, availFrom, if_neg hpos.ne', hnext, ih (l := l ++ [x]) (by simp [hfl]) (by simpa using hfuel)]

theorem availList_eq (hr : Rep h segs fl) : availList h = fl := by
  rw [availList, hr.layout.head_eq]
  exact hr.availFrom_eq (l := []) rfl hr.length_le

theorem bestFit_eq (hr : Rep h segs fl) (ints : ℤ) :
    bestFit h ints = smallest h ((fitting h ints fl).take 20) := by
  rw [bestFit, hr.availList_eq]
  rfl

theorem blocks_eq (hr : Rep h segs fl) : blocks h = (placed 0 segs).map fun x => (x.1, x.2.tag?.getD 0) := by
  rw [blocks, hr.headers_eq, List.map_map]
  apply List.map_congr_left
  intro x hx
  rw [(hr.tag_eq hx).1]
  rfl

/-- The words of the heap determine its blocks. -/
theorem segs_unique {segs' : List Seg} {fl' : List ℤ} (hr : Rep h segs fl) (hr' : Rep h segs' fl') : segs = segs' := by
  let ofTag (v : ℤ) : Seg := if 0 < v then .avail v.toNat else .taken (-v).toNat
  have hback {segs : List Seg} {fl : List ℤ} (hr : Rep h segs fl) :
      (blocks h).map (fun x => ofTag x.2) = segs := by
    rw [hr.blocks_eq, List.map_map]
    refine Eq.trans (List.map_congr_left fun x hx => ?_) (map_snd_placed 0 segs)
    have hsize := hr.size_ge_two (mem_of_placed hx)
    have htag := hr.tagged_of_mem (mem_of_placed hx)
    obtain ⟨k, t⟩ := x
    cases t with
    | avail n =>
      have hn : 0 < n := by simp only [Seg.size_avail] at hsize; omega
      simp [ofTag, hn]
    | taken n => simp [ofTag]
    | hole n => cases htag
  exact (hback hr).symm.trans (hback hr')

/-- The words of the blocks that `carve` leaves. -/
theorem cutBlock_eq (k : ℤ) {i m : ℕ} (him : i ≤ m) :
    (placed k (carve i m)).map (fun x => (x.1, x.2.tag?.getD 0)) = cutBlock k m i := by
  unfold carve cutBlock
  by_cases hsplit : i + 4 ≤ m
  · rw [if_pos hsplit, if_pos (by omega)]
    simp [Int.natCast_sub him]
  · rw [if_neg hsplit, if_neg (by omega)]
    simp

end Rep
end Heap

namespace HeapRun
open Heap

variable {s : HeapRun} {bytes : ℕ}

/-- `malloc` fails just when no available block is large enough, and then changes nothing. Otherwise it cuts the best
fit, and all other blocks stay. -/
theorem malloc_places (hs : heapMachine.Reachable s) (h0 : 0 < bytes) (hb : bytes ≤ 0xFFFFFFFC) :
    ∃ p h', Heap.malloc s.heap bytes = .ok (p, h') ∧
      (p = 0 ↔ ∀ i ∈ availList s.heap, size s.heap i < need bytes) ∧
      (p = 0 → h'.array = s.heap.array ∧ h'.avail = s.heap.avail) ∧
      (p ≠ 0 → ∃ i pre post, bestFit s.heap (need bytes) = some i ∧ p = addressOf s.heap (i + 1) ∧
        blocks s.heap = pre ++ (i, size s.heap i) :: post ∧
        blocks h' = pre ++ (cutBlock i (size s.heap i) (need bytes) ++ post) ∧
        availList h' = (if size s.heap i - need bytes ≥ 4 then [i + need bytes] else []) ++
          (availList s.heap).erase i) := by
  obtain ⟨segs, fl, hi⟩ := reachable_inv hs
  have hr := hi.rep
  obtain ⟨i, hints, hi4⟩ := intsFor_spec bytes
  have hneed : need bytes = i := (intsFor_eq_need hb).symm.trans hints
  have hne : bytes ≠ 0 := by omega
  rw [hneed, hr.bestFit_eq]
  cases hfound : smallest s.heap ((fitting s.heap i fl).take 20) with
  | none =>
    have hnone : fitting s.heap i fl = [] := by simpa using smallest_eq_none.mp hfound
    have hsmall : ∀ k ∈ fl, size s.heap k < i := by
      intro k hk
      have hnot := List.filter_eq_nil_iff.mp hnone k hk
      simpa using hnot
    refine ⟨0, s.heap, hr.malloc_none hne (by rw [hints, hnone]), ?_, fun _ => ⟨rfl, rfl⟩, fun h => absurd rfl h⟩
    rw [hr.availList_eq]
    exact iff_of_true rfl hsmall
  | some k =>
    obtain ⟨pre, m, post, hsegs, hk⟩ := hr.cut_found hfound
    subst hsegs hk
    obtain ⟨him, hm⟩ := hr.malloc_at hne hints hfound
    have hrep := (hr.after_carve (i := i) hi4).1
    have hsize : size s.heap (total pre) = m := hr.size_eq (s := .avail m) (by simp)
    have hp := (addressOf_ne (h := s.heap) hr.base_pos (i := total pre) (by omega)).1
    refine ⟨_, _, hm, ?_, fun h => absurd h hp, fun _ => ?_⟩
    · refine iff_of_false hp fun hall => ?_
      have hlt := hall (total pre) (by rw [hr.availList_eq]; exact hr.cut_listed.1)
      omega
    · refine ⟨total pre, (placed 0 pre).map fun x => (x.1, x.2.tag?.getD 0),
        (placed (total pre + m) post).map fun x => (x.1, x.2.tag?.getD 0), rfl, rfl, ?_, ?_, ?_⟩
      · rw [hr.blocks_eq, hsize]
        simp
      · rw [hrep.blocks_eq, hsize, ← Rep.cutBlock_eq _ him]
        simp [total_carve him]
      · rw [hrep.availList_eq, hr.availList_eq, hsize]
        by_cases hsplit : i + 4 ≤ m
        · rw [if_pos hsplit, if_pos (by omega)]
          rfl
        · rw [if_neg hsplit, if_neg (by omega)]
          rfl

/-- Of three blocks the last and then the first one have been given back. -/
def twoFree : List HeapCall := [.malloc 24, .malloc 8, .malloc 16, .free 4196, .free 4148]

/-- The second block of the list is the smaller one, and too small to be split. -/
theorem smallHeap_places : ∃ t, heapMachine.Run smallHeap twoFree t ∧ availList t.heap = [12, 24] ∧
    bestFit t.heap (need 8) = some 24 ∧
      ∃ h', Heap.malloc t.heap 8 = .ok (4196, h') ∧ availList h' = [12] ∧ (24, -6) ∈ blocks h' := by
  have hrun : ∃ t, heapMachine.Run smallHeap twoFree t ∧ decide (availList t.heap = [12, 24] ∧
      bestFit t.heap (need 8) = some 24 ∧ size t.heap 24 = 6 ∧ addressOf t.heap 25 = 4196) = true :=
    Machine.exists_run_of_replay (by decide)
  obtain ⟨t, ht, hcheck⟩ := hrun
  obtain ⟨hfree, hfit, hsize, haddress⟩ := of_decide_eq_true hcheck
  have hreach := ht.reachable (.init smallHeap_booted)
  obtain ⟨p, h', hm, hnull, -, hcut⟩ := malloc_places hreach (show 0 < 8 by decide) (by decide)
  have hp : p ≠ 0 := by
    intro h
    have hsmall := hnull.mp h 24 (by rw [hfree]; decide)
    rw [hsize] at hsmall
    exact absurd hsmall (by decide)
  obtain ⟨i, pre, post, hi, hpi, -, hblocks, hlist⟩ := hcut hp
  obtain rfl : 24 = i := Option.some.inj (hfit.symm.trans hi)
  rw [hsize] at hblocks hlist
  rw [hfree] at hlist
  refine ⟨t, ht, hfree, hfit, h', ?_, hlist.trans (by decide), ?_⟩
  · rw [hm, hpi]
    exact congrArg (fun a => Except.ok (a, h')) haddress
  · rw [hblocks]
    exact List.mem_append_right _ (List.mem_append_left _ (by decide))

/-! How large the block is. -/

/-- The block whose pointer `malloc` returns. -/
theorem size_granted {h h' : Heap} {pre post : List Seg} {fl : List ℤ} {i m : ℕ}
    (hr : Rep h' (pre ++ (carve i m ++ post)) fl) (hbase : h'.base = h.base) :
    indexOf h' (addressOf h (total pre + 1)) = total pre ∧ size h' (total pre) = granted i m := by
  obtain ⟨rest, hcarve⟩ := carve_granted i m
  rw [hcarve] at hr
  have hk : ((total pre : ℤ), Seg.taken (granted i m)) ∈ placed 0 (pre ++ (.taken (granted i m) :: rest ++ post)) := by
    simp
  have hpos := hr.size_ge_two (mem_of_placed hk)
  have hidx := hr.indexOf_addressOf (i := total pre) (by simp at hpos ⊢; omega)
  rw [← addressOf_congr hbase]
  exact ⟨hidx, hr.size_eq hk⟩

/-- What `operator new` comes to: a panic, or a block of the heap that it leaves. -/
theorem operatorNew_cases (hs : heapMachine.Reachable s) (hb : bytes < 2 ^ 32) :
    operatorNew s.heap bytes = .error (.panic "out of memory") ∨
      ∃ p t, operatorNew s.heap bytes = .ok (p, t.heap) ∧ heapMachine.Reachable t ∧
        (bytes ≤ 0xFFFFFFFC → bytes ≤ capacity t.heap p) ∧ (0xFFFFFFFC < bytes → capacity t.heap p < 32) ∧
        (bytes ≠ 0 → capacity t.heap p < 2 ^ 32) := by
  unfold operatorNew
  by_cases h0 : bytes = 0
  · obtain ⟨segs, fl, hi⟩ := reachable_inv hs
    have hbase := hi.rep.base_pos
    refine .inr ⟨s.heap.base, s, ?_, hs, fun _ => by omega, fun _ => by omega, fun h => absurd h0 h⟩
    simp only [Heap.malloc, if_pos h0, bind, Except.bind]
    exact if_neg (by omega)
  · have henabled : heapMachine.enabled s (.malloc bytes) := hb
    have hreach : heapMachine.Reachable (s.next (.malloc bytes)) := hs.step henabled
    obtain ⟨segs, fl, hi⟩ := reachable_inv hs
    rcases malloc_spec hi.rep h0 with hnull | ⟨pre, m, post, i, h', fl', -, -, -, hm, hints, hi4, him, hrep, -, hbase, -⟩
    · left
      simp only [hnull, bind, Except.bind]
      exact if_pos trivial
    · have hne := addressOf_ne (h := s.heap) hi.rep.base_pos (i := total pre) (by omega)
      have hnext : (s.next (.malloc bytes)).heap = h' := by simp [next, hm]
      have hsize := size_granted hrep hbase
      have hgranted := le_granted him
      have hle := granted_le him
      have hfits := hrep.fits
      rw [total_append, total_append, total_carve him] at hfits
      have hcapacity : capacity h' (addressOf s.heap (total pre + 1)) = 4 * (granted i m - 2) := by
        rw [capacity, hsize.1, hsize.2]
        omega
      refine .inr ⟨addressOf s.heap (total pre + 1), s.next (.malloc bytes), ?_, hreach, ?_, ?_, ?_⟩
      · simp only [hm, bind, Except.bind]
        rw [if_neg hne.1, hnext]
        rfl
      · intro hsmall
        rw [hnext, hcapacity]
        exact granted_covers hsmall hints him
      · intro hlarge
        obtain rfl : i = 4 := Nat.cast_injective (hints.symm.trans (intsFor_wrapped hlarge hb))
        have hsmall := granted_wrapped (m := m)
        rw [hnext, hcapacity]
        omega
      · intro _
        rw [hnext, hcapacity]
        omega

/-- The payload of a block that `malloc` returns holds the bytes asked for. -/
def Covers (h : Heap) (bytes : ℕ) : Prop :=
  ∀ p h', Heap.malloc h bytes = .ok (p, h') → p ≠ 0 → (bytes : ℤ) ≤ 4 * (size h' (indexOf h' p) - 2)

/-- From 2³² − 3 bytes on the sum in `size_t` wraps to a block of four words, and every available block has those. -/
theorem malloc_covers_iff (hs : heapMachine.Reachable s) (h0 : 0 < bytes) (hb : bytes < 2 ^ 32) :
    Covers s.heap bytes ↔ bytes ≤ 0xFFFFFFFC ∨ s.heap.avail = 0 := by
  obtain ⟨segs, fl, hi⟩ := reachable_inv hs
  have hr := hi.rep
  have hne : bytes ≠ 0 := by omega
  constructor
  · intro hcovers
    by_contra! hwrong
    obtain ⟨hlarge, havail⟩ := hwrong
    have hints := intsFor_wrapped hlarge hb
    have hhead := (headD_listed hr.layout.head_eq).resolve_left havail
    have hfits : s.heap.avail ∈ fitting s.heap (4 : ℕ) fl := by
      obtain ⟨m, hm, -, hp⟩ := hr.layout.listed_size hhead
      refine List.mem_filter.mpr ⟨hhead, decide_eq_true ?_⟩
      rw [hr.size_eq hp, Seg.size_avail]
      exact_mod_cast hm
    cases hfound : smallest s.heap ((fitting s.heap (4 : ℕ) fl).take 20) with
    | none =>
      have hnone : fitting s.heap (4 : ℕ) fl = [] := by simpa using smallest_eq_none.mp hfound
      rw [hnone] at hfits
      cases hfits
    | some k =>
      obtain ⟨pre, m, post, hsegs, hk⟩ := hr.cut_found hfound
      subst hsegs hk
      obtain ⟨-, hm⟩ := hr.malloc_at hne hints hfound
      have hrep := (hr.after_carve (i := 4) le_rfl).1
      have hp := (addressOf_ne (h := s.heap) hr.base_pos (i := total pre) (by omega)).1
      have hpay := hcovers _ _ hm hp
      have hsmall := granted_wrapped (m := m)
      rw [(size_granted hrep carved_base).1, (size_granted hrep carved_base).2] at hpay
      omega
  · rintro (hsmall | hnone) p h' hm hp
    · rcases malloc_spec hr hne with hnull | ⟨pre, m, post, i, h₁, fl', -, -, -, hm', hints, -, him, hrep, -, hbase, -⟩
      · rw [hnull] at hm
        cases hm
        exact absurd rfl hp
      · rw [hm'] at hm
        cases hm
        have hcovers := granted_covers hsmall hints him
        rw [(size_granted hrep hbase).1, (size_granted hrep hbase).2]
        omega
    · have hnull := hr.malloc_none hne (by
        have hfl : fl = [] := by
          have hhead := hr.layout.head_eq
          cases fl with
          | nil => rfl
          | cons k fl =>
            have := (hr.layout.listed k List.mem_cons_self).1
            rw [List.headD_cons] at hhead
            omega
        rw [hfl]
        rfl)
      rw [hnull] at hm
      cases hm
      exact absurd rfl hp

theorem smallHeap_covers : Covers smallHeap.heap 0xFFFFFFFC :=
  (malloc_covers_iff (.init smallHeap_booted) (by decide) (by decide)).mpr (.inl le_rfl)

/-- A client that asks for 2³² − 1 bytes gets a block with a payload of eight. -/
theorem smallHeap_not_covers :
    ¬ ∀ s, heapMachine.Reachable s → ∀ bytes, 0 < bytes → bytes < 2 ^ 32 → Covers s.heap bytes := by
  intro hall
  have hcovers := hall smallHeap (.init smallHeap_booted) 0xFFFFFFFF (by decide) (by decide)
  have hwrong := (malloc_covers_iff (.init smallHeap_booted) (by decide) (by decide)).mp hcovers
  exact absurd hwrong (by decide)

end HeapRun
end AudioKernel
