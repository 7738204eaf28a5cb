import AudioKernel.Heap.Model
import AudioKernel.Lib.BoundaryTag
import Mathlib.Data.Finset.Interval
import Mathlib.Data.Int.Interval
import Mathlib.Data.List.MinMax

/-! What `remove`, `makeAvail`, `makeTaken`, `malloc` and `free` do to the blocks of a well-formed heap. -/
namespace AudioKernel
open Lib Lib.Layout

namespace Heap

@[simp] theorem sanity_eq (h : Heap) (i : ℤ) : sanity h i = .ok i := rfl

@[simp] theorem next_eq (h : Heap) (i : ℤ) : next h i = .ok (h.array (i + 1)) := rfl

@[simp] theorem prev_eq (h : Heap) (i : ℤ) : prev h i = .ok (h.array (i + 2)) := rfl

@[simp] theorem left_eq (h : Heap) (i : ℤ) : left h i = .ok (i - 1 - |h.array (i - 1)| + 1) := rfl

@[simp] theorem right_eq (h : Heap) (i : ℤ) : right h i = .ok (i + |h.array i|) := rfl

theorem remove_eq (h : Heap) (i : ℤ) :
    remove h i =
      .ok { h with array := unlinked h.array i, avail := unlinkedHead h.array h.avail i } := by
  change Except.ok _ = _
  congr 1
  unfold unlinked unlinkedHead setNext setPrev store
  by_cases hp : h.array (i + 2) = 0 <;> by_cases hn : h.array (i + 1) = 0 <;> simp [hp, hn]

theorem makeTaken_eq (h : Heap) (i : ℤ) (n : ℕ) :
    makeTaken h i n = { h with array := takenAt h.array i n } := by
  have habs : |(n : ℤ)| = n := abs_of_nonneg (Int.natCast_nonneg n)
  simp [makeTaken, store, footerFromHeader, size, takenAt, habs]

theorem makeAvail_eq (h : Heap) (i : ℤ) (n : ℕ) :
    makeAvail h i n = { h with array := availAt h.array h.avail i n, avail := i } := by
  have habs : |(n : ℤ)| = n := abs_of_nonneg (Int.natCast_nonneg n)
  unfold makeAvail availAt setNext setPrev store footerFromHeader size
  by_cases h0 : h.avail = 0 <;> simp [h0, habs]

/-- No block of the list is available next to another one. -/
def Coalesced (segs : List Seg) : Prop :=
  segs.IsChain fun s t => ¬ (s.isAvail = true ∧ t.isAvail = true)

/-- The blocks of the heap, in address order, and its list of available blocks. -/
structure Rep (h : Heap) (segs : List Seg) (fl : List ℤ) : Prop where
  layout : Layout h.array h.avail segs fl
  ends : ∃ mid, segs = .taken 2 :: (mid ++ [.taken 2]) ∧ ∀ s ∈ mid, 4 ≤ s.size ∧ s.tag?.isSome
  len_eq : h.len = total segs
  complete : ∀ k n, (k, Seg.avail n) ∈ placed 0 segs → k ∈ fl
  coalesced : Coalesced segs
  base_pos : 0 < h.base
  fits : h.base + 4 * total segs ≤ 2 ^ 32

/-- The blocks of a list that have at least `ints` words. -/
def fitting (h : Heap) (ints : ℤ) (l : List ℤ) : List ℤ := l.filter fun i => ints ≤ size h i

theorem fitting_append (h : Heap) (ints : ℤ) (l r : List ℤ) :
    fitting h ints (l ++ r) = fitting h ints l ++ fitting h ints r := List.filter_append ..

/-- The first of the smallest blocks of a list. The order is named because Mathlib has one more that does not compute. -/
def smallest (h : Heap) (l : List ℤ) : Option ℤ := @List.argmin ℤ ℤ Int.instLinearOrder.toPreorder _ (size h) l

/-- What `malloc` keeps of it in `mx` and `it`. -/
def best (h : Heap) (l : List ℤ) : ℤ × ℤ := (smallest h l).elim (0x7FFFFFFF, 0) fun i => (size h i, i)

theorem smallest_mem {h : Heap} {l : List ℤ} {i : ℤ} (hi : smallest h l = some i) : i ∈ l := List.argmin_mem hi

theorem smallest_eq_none {h : Heap} {l : List ℤ} : smallest h l = none ↔ l = [] := List.argmin_eq_none

theorem best_concat {h : Heap} (l : List ℤ) {x : ℤ} (hx : size h x < 0x7FFFFFFF) :
    best h (l ++ [x]) = if size h x < (best h l).1 then (size h x, x) else ((best h l).1, (best h l).2) := by
  unfold best smallest
  rw [List.argmin_concat]
  cases List.argmin (size h) l with
  | none => simp [hx]
  | some i => by_cases hlt : size h x < size h i <;> simp [hlt]

namespace Rep

variable {h h' : Heap} {segs pre post : List Seg} {fl : List ℤ} {n : ℕ}

theorem length_le (hr : Rep h segs fl) : fl.length ≤ h.len.toNat := by
  have hsub : fl.toFinset ⊆ Finset.Ico 0 h.len := by
    intro k hk
    obtain ⟨n, hn, hpos, hp⟩ := hr.layout.listed_size (List.mem_toFinset.mp hk)
    have := placed_bounds hp
    simp only [Seg.size] at this
    rw [Finset.mem_Ico, hr.len_eq]
    omega
  have hcard := Finset.card_le_card hsub
  rw [List.toFinset_card_of_nodup hr.layout.nodup, Int.card_Ico] at hcard
  simpa using hcard

theorem header_avail (hr : Rep h segs fl) {k : ℤ} (hk : (k, Seg.avail n) ∈ placed 0 segs) :
    h.array k = n ∧ 4 ≤ n :=
  ⟨(hr.layout.tagged k _ n hk rfl).1, hr.layout.wide _ (mem_of_placed hk)⟩

theorem listed_size_lt (hr : Rep h segs fl) {x : ℤ} (hx : x ∈ fl) : size h x < 0x7FFFFFFF := by
  obtain ⟨m, -, -, hp⟩ := hr.layout.listed_size hx
  have hb := placed_bounds hp
  have hfits := hr.fits
  simp only [Seg.size_avail] at hb
  rw [size, (hr.header_avail hp).1, abs_of_nonneg (Int.natCast_nonneg m)]
  omega

/-- The walk of `malloc` over the rest `xs` of the list, when it has passed fewer than 20 fitting blocks in `l`. -/
theorem search_eq (hr : Rep h segs fl) (ints : ℤ) {l xs : List ℤ} (hfl : fl = l ++ xs) {fuel : ℕ}
    (hfuel : xs.length < fuel) (hseen : (fitting h ints l).length < 20) :
    search h ints fuel (20 - (fitting h ints l).length) (xs.headD 0) (best h (fitting h ints l)).1
      (best h (fitting h ints l)).2 = .ok (best h ((fitting h ints fl).take 20)) := by
  induction xs generalizing l fuel with
  | nil =>
    obtain ⟨fuel, rfl⟩ : ∃ f, fuel = f + 1 := ⟨fuel - 1, by simp at hfuel; omega⟩
    have hall : (fitting h ints fl).take 20 = fitting h ints l := by
      rw [hfl, List.append_nil, List.take_of_length_le hseen.le]
    rw [hall]
    rfl
  | cons x xs ih =>
    obtain ⟨fuel, rfl⟩ : ∃ f, fuel = f + 1 := ⟨fuel - 1, by simp at hfuel; omega⟩
    have hmem : x ∈ fl := by simp [hfl]
    obtain ⟨m, -, hpos, hx⟩ := hr.layout.listed_size hmem
    obtain ⟨hv, hm⟩ := hr.header_avail hx
    have hnext : h.array (x + 1) = xs.headD 0 := (hfl ▸ hr.layout).next_listed
    have hfl' : fl = (l ++ [x]) ++ xs := by simp [hfl]
    have hlen : xs.length < fuel := by simp at hfuel; omega
    have hav : ¬ isAvail h x = false := by simp [isAvail, hv]; omega
    simp only [List.headD_cons, search, if_neg hpos.ne', if_neg hav, next_eq, hnext]
    by_cases hfit : size h x ≥ ints
    · have hgrow : fitting h ints (l ++ [x]) = fitting h ints l ++ [x] := by simp [fitting, hfit]
      have hbest := best_concat (fitting h ints l) (hr.listed_size_lt hmem)
      have hlength : (fitting h ints (l ++ [x])).length = (fitting h ints l).length + 1 := by simp [hgrow]
      rw [if_pos hfit]
      by_cases hcd : 20 - (fitting h ints l).length - 1 = 0
      · -- the twentieth fitting block ends the walk
        have hall : (fitting h ints fl).take 20 = fitting h ints (l ++ [x]) := by
          rw [hfl', fitting_append, List.take_left' (by omega)]
        rw [if_pos hcd, hall, hgrow, hbest]
        rfl
      · have hrest := ih hfl' hlen (by omega)
        rw [hlength, hgrow, hbest, ← Nat.sub_sub] at hrest
        rw [if_neg hcd]
        exact hrest
    · have hsame : fitting h ints (l ++ [x]) = fitting h ints l := by simp [fitting, hfit]
      rw [if_neg hfit]
      have hrest := ih hfl' hlen (by rwa [hsame])
      rw [hsame] at hrest
      exact hrest

/-- What lies strictly inside the sentinels, when `mid` is cut out of the middle. -/
theorem inner {mid : List Seg} (hr : Rep h (pre ++ (mid ++ post)) fl) (hpre : pre ≠ []) (hpost : post ≠ []) :
    ∃ pre' post', pre = .taken 2 :: pre' ∧ post = post' ++ [.taken 2] ∧
      ∀ s ∈ pre' ++ (mid ++ post'), 4 ≤ s.size ∧ s.tag?.isSome := by
  obtain ⟨mid₀, he, hmid⟩ := hr.ends
  obtain ⟨p, pre', rfl⟩ := List.exists_cons_of_ne_nil hpre
  obtain ⟨post', q, hq⟩ := (List.eq_nil_or_concat post).resolve_left hpost
  rw [List.concat_eq_append] at hq
  subst hq
  have hsplit : p = .taken 2 ∧ pre' ++ (mid ++ post') = mid₀ ∧ q = .taken 2 := by
    have h' : p = .taken 2 ∧ (pre' ++ (mid ++ post')) ++ [q] = mid₀ ++ [.taken 2] := by simpa using he
    exact ⟨h'.1, List.append_singleton_inj.mp h'.2⟩
  obtain ⟨rfl, rfl, rfl⟩ := hsplit
  exact ⟨pre', post', rfl, rfl, hmid⟩

/-- A block other than the sentinels has a neighbour on either side. -/
theorem cut_inner {s : Seg} (hr : Rep h (pre ++ s :: post) fl) (hs : s ≠ .taken 2) : pre ≠ [] ∧ post ≠ [] := by
  obtain ⟨mid, he, -⟩ := hr.ends
  constructor
  · rintro rfl
    exact hs (List.cons.inj he).1
  · rintro rfl
    have hlast : pre ++ [s] = (.taken 2 :: mid) ++ [.taken 2] := by simpa using he
    exact hs (List.append_singleton_inj.mp hlast).2

/-- Segments between the sentinels can be exchanged for others of the same extent. -/
theorem replace {mid new : List Seg} {fl' : List ℤ} (hr : Rep h (pre ++ (mid ++ post)) fl)
    (hpre : pre ≠ []) (hpost : post ≠ []) (hlay : Layout h'.array h'.avail (pre ++ (new ++ post)) fl')
    (htotal : total new = total mid) (hnew : ∀ s ∈ new, 4 ≤ s.size ∧ s.tag?.isSome)
    (hlisted : ∀ k n, (k, Seg.avail n) ∈ placed (total pre) new → k ∈ fl')
    (hkeep : ∀ k ∈ fl, k < total pre ∨ total pre + total mid ≤ k → k ∈ fl')
    (hco : Coalesced (pre ++ (new ++ post))) (hlen : h'.len = h.len) (hbase : h'.base = h.base) :
    Rep h' (pre ++ (new ++ post)) fl' := by
  refine ⟨hlay, ?_, ?_, ?_, hco, hbase ▸ hr.base_pos, ?_⟩
  · obtain ⟨pre', post', rfl, rfl, hsize⟩ := hr.inner hpre hpost
    refine ⟨pre' ++ (new ++ post'), by simp, fun s hs => ?_⟩
    simp only [List.mem_append] at hs
    rcases hs with hs | hs | hs
    · exact hsize s (by simp [hs])
    · exact hnew s hs
    · exact hsize s (by simp [hs])
  · rw [hlen, hr.len_eq]
    simp [htotal]
  · intro k n hk
    simp only [placed_append, List.mem_append, zero_add, htotal] at hk
    rcases hk with hk | hk | hk
    · have hb := placed_bounds hk
      have hw : 4 ≤ n := hr.layout.wide (.avail n) (by simp [mem_of_placed hk])
      refine hkeep k (hr.complete k n (by simp [hk])) (.inl ?_)
      simp only [Seg.size] at hb
      omega
    · exact hlisted k n hk
    · have hb := placed_bounds hk
      refine hkeep k (hr.complete k n ?_) (.inr hb.1)
      simp only [placed_append, List.mem_append, zero_add, hk, or_true]
  · rw [hbase]
    have := hr.fits
    simp only [total_append, htotal] at this ⊢
    omega

/-! Taking an available block out of the list. -/

theorem cut_listed (hr : Rep h (pre ++ .avail n :: post) fl) : (total pre : ℤ) ∈ fl ∧ 0 < total pre := by
  have hin : (total pre : ℤ) ∈ fl := hr.complete _ n (by simp)
  exact ⟨hin, by have := (hr.layout.listed _ hin).1; omega⟩

/-- The other listed blocks lie outside the one taken out. -/
theorem mem_erase_cut (hr : Rep h (pre ++ .avail n :: post) fl) {x : ℤ} :
    x ∈ fl.erase (total pre) ↔ x ∈ fl ∧ (x < total pre ∨ total pre + n ≤ x) := by
  rw [hr.layout.mem_erase]
  refine and_congr_right fun hx => ⟨fun hne => ?_, fun ho he => ?_⟩
  · obtain ⟨m, hm, -, hp⟩ := hr.layout.listed_size hx
    have hcut : ((total pre : ℤ), Seg.avail n) ∈ placed 0 (pre ++ .avail n :: post) := by simp
    rcases placed_separate hcut hp with ⟨he, -⟩ | hs | hs
    · exact absurd he.symm hne
    · exact .inr hs
    · simp only [Seg.size] at hs
      exact .inl (by omega)
  · have hw : 4 ≤ n := hr.layout.wide (.avail n) (by simp)
    omega

theorem inTaken_cut {w : ℤ} (hw : InTaken (pre ++ .avail n :: post) w) : w < total pre ∨ total pre + n ≤ w := by
  obtain ⟨k, m, hk, hlo, hhi⟩ := hw
  have hcut : ((total pre : ℤ), Seg.avail n) ∈ placed 0 (pre ++ .avail n :: post) := by simp
  rcases placed_separate hcut hk with ⟨-, he⟩ | hs | hs
  · cases he
  · simp only [Seg.size] at hs
    exact .inr (by omega)
  · simp only [Seg.size] at hs
    exact .inl (by omega)

theorem coalesced_taken {s : Seg} {i : ℕ} (hc : Coalesced (pre ++ (s :: post))) :
    Coalesced (pre ++ ([.taken i] ++ post)) := by
  unfold Coalesced at *
  rw [List.isChain_append, List.isChain_cons] at hc
  simp only [List.singleton_append, List.isChain_append, List.isChain_cons]
  simp_all

theorem coalesced_split {m i e : ℕ} (hc : Coalesced (pre ++ (.avail m :: post))) :
    Coalesced (pre ++ ([.taken i, .avail e] ++ post)) := by
  unfold Coalesced at *
  rw [List.isChain_append, List.isChain_cons] at hc
  simp only [List.cons_append, List.nil_append, List.isChain_append, List.isChain_cons]
  simp_all

/-- `malloc` takes the whole block. -/
theorem take_whole (hr : Rep h (pre ++ .avail n :: post) fl)
    (harr : h'.array = takenAt (unlinked h.array (total pre)) (total pre) n)
    (hav : h'.avail = unlinkedHead h.array h.avail (total pre)) (hlen : h'.len = h.len) (hbase : h'.base = h.base) :
    Rep h' (pre ++ ([.taken n] ++ post)) (fl.erase (total pre)) ∧
      ∀ w, InTaken (pre ++ .avail n :: post) w → h'.array w = h.array w := by
  obtain ⟨hpre, hpost⟩ := hr.cut_inner (by simp)
  obtain ⟨hin, -⟩ := hr.cut_listed
  have hw : 4 ≤ n := hr.layout.wide (.avail n) (by simp)
  have hunl : Layout (unlinked h.array (total pre)) h'.avail (pre ++ ([.avail n] ++ post)) (fl.erase (total pre)) :=
    hav ▸ hr.layout.unlink_erase hin
  have hlay := hunl.occupy (by simp; omega) (fun x hx => by simpa using (hr.mem_erase_cut.mp hx).2)
  simp only [total_cons, total_nil, Seg.size, Nat.add_zero] at hlay
  have hr' : Rep h (pre ++ ([.avail n] ++ post)) fl := hr
  refine ⟨hr'.replace hpre hpost ?_ rfl ?_ ?_ ?_ (coalesced_taken hr.coalesced) hlen hbase, ?_⟩
  · exact harr ▸ hlay
  · simpa using hw
  · simp
  · intro k hk ho
    exact hr.mem_erase_cut.mpr ⟨hk, by simpa using ho⟩
  · intro w hw'
    have := inTaken_cut hw'
    rw [harr, takenAt_of_ne (by omega) (by omega)]
    exact hr.layout.unlinked_inTaken hin hw'

/-- `malloc` takes the first `i` words of the block and makes the other `e` words available. -/
theorem take_split {i e : ℕ} (hr : Rep h (pre ++ .avail n :: post) fl) (hie : i + e = n) (hi : 4 ≤ i) (he : 4 ≤ e)
    (harr : h'.array = availAt (takenAt (unlinked h.array (total pre)) (total pre) i)
      (unlinkedHead h.array h.avail (total pre)) (total pre + i) e)
    (hav : h'.avail = total pre + i) (hlen : h'.len = h.len) (hbase : h'.base = h.base) :
    Rep h' (pre ++ ([.taken i, .avail e] ++ post)) ((total pre + i) :: fl.erase (total pre)) ∧
      ∀ w, InTaken (pre ++ .avail n :: post) w → h'.array w = h.array w := by
  obtain ⟨hpre, hpost⟩ := hr.cut_inner (by simp)
  obtain ⟨hin, -⟩ := hr.cut_listed
  have hunl : Layout (unlinked h.array (total pre)) (unlinkedHead h.array h.avail (total pre))
      (pre ++ ([.avail n] ++ post)) (fl.erase (total pre)) := hr.layout.unlink_erase hin
  have hlay := hunl.split (by simpa using hie) (by omega) he
    (fun x hx => by simpa using (hr.mem_erase_cut.mp hx).2)
  have hr' : Rep h (pre ++ ([.avail n] ++ post)) fl := hr
  refine ⟨hr'.replace hpre hpost ?_ ?_ ?_ ?_ ?_ (coalesced_split hr.coalesced) hlen hbase, ?_⟩
  · rw [harr, hav]
    exact hlay
  · simpa using hie
  · simp [hi, he]
  · simp
  · intro k hk ho
    exact List.mem_cons_of_mem _ (hr.mem_erase_cut.mpr ⟨hk, by simpa using ho⟩)
  · intro w hw'
    have := inTaken_cut hw'
    rw [harr, availAt_of_ne (by omega) (by omega) (by omega) (by omega), takenAt_of_ne (by omega) (by omega)]
    · exact hr.layout.unlinked_inTaken hin hw'
    · intro h0 heq
      have hh := (headD_listed hunl.head_eq).resolve_left h0
      exact hr.layout.inTaken_not_isLink hw' ⟨_, (hr.layout.mem_erase.mp hh).1, .inr heq⟩

end Rep

theorem intsFor_spec (bytes : ℕ) : ∃ i : ℕ, intsFor bytes = i ∧ 4 ≤ i := by
  unfold intsFor
  dsimp only
  split_ifs with hlt
  · exact ⟨4, rfl, le_rfl⟩
  · exact ⟨_, rfl, by omega⟩

/-- What `malloc` makes of an available block of `m` words when it needs `i`. -/
def carve (i m : ℕ) : List Seg := if i + 4 ≤ m then [.taken i, .avail (m - i)] else [.taken m]

theorem total_carve {i m : ℕ} : i ≤ m → total (carve i m) = m := by
  intro hle
  unfold carve
  split_ifs
  · simp
    omega
  · simp

/-- The words of the block that is cut from one of `m`. -/
def granted (i m : ℕ) : ℕ := if i + 4 ≤ m then i else m

theorem carve_granted (i m : ℕ) : ∃ rest, carve i m = .taken (granted i m) :: rest := by
  unfold carve granted
  split_ifs
  · exact ⟨_, rfl⟩
  · exact ⟨_, rfl⟩

theorem le_granted {i m : ℕ} (him : i ≤ m) : i ≤ granted i m := by
  unfold granted
  split_ifs <;> omega

theorem granted_le {i m : ℕ} (him : i ≤ m) : granted i m ≤ m := by
  unfold granted
  split_ifs <;> omega

/-- The heap after the available block of `m` words at `k` has been carved up. -/
def carved (h : Heap) (k : ℤ) (i m : ℕ) : Heap :=
  if i + 4 ≤ m then
    { h with
      array := availAt (takenAt (unlinked h.array k) k i) (unlinkedHead h.array h.avail k) (k + i) (m - i)
      avail := k + i }
  else
    { h with
      array := takenAt (unlinked h.array k) k m
      avail := unlinkedHead h.array h.avail k }

section
variable {h : Heap} {segs pre post : List Seg} {fl : List ℤ} {k : ℤ} {bytes i m : ℕ}

@[simp] theorem carved_len : (carved h k i m).len = h.len := by
  unfold carved
  split_ifs <;> rfl

@[simp] theorem carved_base : (carved h k i m).base = h.base := by
  unfold carved
  split_ifs <;> rfl

theorem Rep.after_carve (hr : Rep h (pre ++ .avail m :: post) fl) (hi4 : 4 ≤ i) :
    Rep (carved h (total pre) i m) (pre ++ (carve i m ++ post))
        (if i + 4 ≤ m then (total pre + i : ℤ) :: fl.erase (total pre) else fl.erase (total pre)) ∧
      ∀ w, InTaken (pre ++ .avail m :: post) w → (carved h (total pre) i m).array w = h.array w := by
  unfold carved carve
  split_ifs with hsplit
  · exact hr.take_split (by omega) hi4 (by omega) rfl rfl rfl rfl
  · exact hr.take_whole rfl rfl rfl rfl

/-- The two ways in which `malloc` takes the block at `k`. -/
theorem take_eq (hm : i ≤ m) :
    (do
      let h ← remove h k
      let extra := (m : ℤ) - i
      let h := if extra ≥ 4 then makeAvail (makeTaken h k i) (k + i) extra else makeTaken h k m
      return (addressOf h (k + 1), h) : Except Stop (ℕ × Heap)) = .ok (addressOf h (k + 1), carved h k i m) := by
  have hextra : (m : ℤ) - i = (m - i : ℕ) := (Int.natCast_sub hm).symm
  simp only [remove_eq, bind, Except.bind, pure, Except.pure, hextra]
  unfold carved
  by_cases hsplit : i + 4 ≤ m
  · rw [if_pos (by omega), if_pos hsplit, makeTaken_eq, makeAvail_eq]
    rfl
  · rw [if_neg (by omega), if_neg hsplit, makeTaken_eq]
    rfl

theorem Rep.search_malloc (hr : Rep h segs fl) (ints : ℤ) :
    search h ints (h.len.toNat + 1) 20 h.avail 0x7FFFFFFF 0 = .ok (best h ((fitting h ints fl).take 20)) := by
  rw [hr.layout.head_eq]
  exact hr.search_eq ints (l := []) rfl (Nat.lt_add_one_of_le hr.length_le) (by simp [fitting])

theorem Rep.malloc_none (hr : Rep h segs fl) (hb : bytes ≠ 0) (hnone : fitting h (intsFor bytes) fl = []) :
    malloc h bytes = .ok (0, h) := by
  have hs := hr.search_malloc (intsFor bytes)
  rw [hnone] at hs
  have hit : ¬ (best h (List.take 20 [])).2 ≠ 0 := by simp [best, smallest]
  simp only [malloc, if_neg hb, hs, bind, Except.bind, if_neg hit, pure, Except.pure]

/-- `malloc` cuts the block that its search has found. -/
theorem Rep.malloc_at (hr : Rep h (pre ++ .avail m :: post) fl) (hb : bytes ≠ 0) (hi : intsFor bytes = i)
    (hfound : smallest h ((fitting h i fl).take 20) = some (total pre : ℤ)) :
    i ≤ m ∧ malloc h bytes = .ok (addressOf h (total pre + 1), Heap.carved h (total pre) i m) := by
  have hsize : size h (total pre) = m := by
    rw [size, (hr.header_avail (k := total pre) (n := m) (by simp)).1, abs_of_nonneg (Int.natCast_nonneg m)]
  have him : i ≤ m := by
    have hin := List.mem_of_mem_take (smallest_mem hfound)
    have hfit := of_decide_eq_true (List.mem_filter.mp hin).2
    rw [hsize] at hfit
    exact_mod_cast hfit
  have hs := hr.search_malloc i
  rw [best, hfound] at hs
  dsimp only [Option.elim] at hs
  rw [hsize] at hs
  have hk0 : (total pre : ℤ) ≠ 0 := by
    have := hr.cut_listed.2
    omega
  refine ⟨him, ?_⟩
  rw [malloc, if_neg hb, hi, ← take_eq him]
  simp only [hs, bind, Except.bind, if_pos hk0]

/-- The block that the search finds is one of the available ones. -/
theorem Rep.cut_found (hr : Rep h segs fl) {ints k : ℤ}
    (hfound : smallest h ((fitting h ints fl).take 20) = some k) :
    ∃ pre m post, segs = pre ++ .avail m :: post ∧ k = total pre := by
  have hin := List.mem_of_mem_take (smallest_mem hfound)
  obtain ⟨m, -, -, hp⟩ := hr.layout.listed_size (List.mem_of_mem_filter hin)
  obtain ⟨pre, post, hsegs, hk⟩ := exists_cut hp
  exact ⟨pre, m, post, hsegs, by simpa using hk⟩

/-- A call of `malloc` either finds no block or carves an available block up. -/
theorem malloc_spec (hr : Rep h segs fl) (hb : bytes ≠ 0) :
    malloc h bytes = .ok (0, h) ∨
    ∃ (pre : List Seg) (m : ℕ) (post : List Seg) (i : ℕ) (h' : Heap) (fl' : List ℤ),
      segs = pre ++ (.avail m :: post) ∧ pre ≠ [] ∧ post ≠ [] ∧
      malloc h bytes = .ok (addressOf h (total pre + 1), h') ∧ intsFor bytes = i ∧ 4 ≤ i ∧ i ≤ m ∧
      Rep h' (pre ++ (carve i m ++ post)) fl' ∧ h'.len = h.len ∧ h'.base = h.base ∧
      ∀ w, InTaken segs w → h'.array w = h.array w := by
  obtain ⟨i, hi, hi4⟩ := intsFor_spec bytes
  cases hfound : smallest h ((fitting h i fl).take 20) with
  | none =>
    have hnone : fitting h (intsFor bytes) fl = [] := by
      have := smallest_eq_none.mp hfound
      rw [hi]
      simpa using this
    exact .inl (hr.malloc_none hb hnone)
  | some k =>
    obtain ⟨pre, m, post, hsegs, hk⟩ := hr.cut_found hfound
    subst hsegs hk
    obtain ⟨hpre, hpost⟩ := hr.cut_inner (by simp)
    obtain ⟨him, hm⟩ := hr.malloc_at hb hi hfound
    obtain ⟨hrep, hframe⟩ := hr.after_carve hi4
    exact .inr ⟨pre, m, post, i, _, _, rfl, hpre, hpost, hm, hi, hi4, him, hrep, carved_len, carved_base, hframe⟩

end

end Heap
end AudioKernel
