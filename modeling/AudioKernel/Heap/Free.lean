import AudioKernel.Heap.Invariant

/-! What `free` does to the blocks of a well-formed heap. -/
namespace AudioKernel
open Lib Lib.Layout

namespace Heap

/-- The heap after `remove`. -/
def detach (h : Heap) (i : ℤ) : Heap :=
  { h with array := unlinked h.array i, avail := unlinkedHead h.array h.avail i }

theorem remove_detach (h : Heap) (i : ℤ) : remove h i = .ok (detach h i) := remove_eq h i

theorem tag_facts {s : Seg} {v : ℤ} (hw : s.Wide) (hv : s.tag? = some v) :
    |v| = s.size ∧ decide (v > 0) = s.isAvail := by
  cases s with
  | taken n =>
    cases hv
    have hn : 2 ≤ n := hw
    exact ⟨by rw [abs_neg]; exact abs_of_nonneg (by omega), decide_eq_false (by omega)⟩
  | avail n =>
    cases hv
    have hn : 4 ≤ n := hw
    exact ⟨abs_of_nonneg (by omega), decide_eq_true (by omega)⟩
  | hole n => cases hv

theorem header_facts {h : Heap} {segs : List Seg} {fl : List ℤ} (hl : Layout h.array h.avail segs fl) {k : ℤ}
    {s : Seg} (hk : (k, s) ∈ placed 0 segs) (hs : s.tag?.isSome) : size h k = s.size ∧ isAvail h k = s.isAvail := by
  obtain ⟨v, hv⟩ := Option.isSome_iff_exists.mp hs
  rw [size, isAvail, (hl.tagged k s v hk hv).1]
  exact tag_facts (hl.wide s (mem_of_placed hk)) hv

theorem footer_facts {h : Heap} {segs : List Seg} {fl : List ℤ} (hl : Layout h.array h.avail segs fl) {k : ℤ}
    {s : Seg} (hk : (k, s) ∈ placed 0 segs) (hs : s.tag?.isSome) : |h.array (k + s.size - 1)| = s.size := by
  obtain ⟨v, hv⟩ := Option.isSome_iff_exists.mp hs
  rw [(hl.tagged k s v hk hv).2]
  exact (tag_facts (hl.wide s (mem_of_placed hk)) hv).1

namespace Rep

variable {h h₁ h' : Heap} {segs pre post : List Seg} {fl fl₁ : List ℤ} {n : ℕ}

theorem tagged_of_mem (hr : Rep h segs fl) {s : Seg} (hs : s ∈ segs) : s.tag?.isSome := by
  obtain ⟨mid, rfl, hmid⟩ := hr.ends
  simp only [List.mem_cons, List.mem_append, List.not_mem_nil, or_false] at hs
  rcases hs with rfl | hs | rfl
  · rfl
  · exact (hmid s hs).2
  · rfl

theorem indexOf_addressOf (hr : Rep h segs fl) {i : ℕ} (hi : i < total segs) :
    indexOf h (addressOf h (i + 1)) = i := by
  have := hr.fits
  have := hr.base_pos
  unfold indexOf addressOf
  have hnat : ((i : ℤ) + 1).toNat = i + 1 := by omega
  rw [hnat]
  push_cast
  omega

theorem coalesced_merge {mid : List Seg} {m : ℕ} (hc : Coalesced (pre ++ (mid ++ post)))
    (hlast : ∀ s ∈ pre.getLast?, s.isAvail = false) (hhead : ∀ s ∈ post.head?, s.isAvail = false) :
    Coalesced (pre ++ ([.avail m] ++ post)) := by
  unfold Coalesced at *
  rw [List.isChain_append, List.isChain_append] at hc
  simp only [List.singleton_append, List.isChain_append, List.isChain_cons]
  refine ⟨hc.1, ⟨fun s hs => ?_, hc.2.1.2.1⟩, fun s hs t ht => ?_⟩
  · simp [hhead s hs]
  · simp [hlast s hs]

/-- A payload word outside the freed block is outside the available neighbours as well. -/
theorem inTaken_merge {l r : List Seg} {w : ℤ} (hlr : ∀ s ∈ l ++ r, s.isAvail = true)
    (hw : InTaken (pre ++ ((l ++ .taken n :: r) ++ post)) w)
    (hout : w < total pre + total l ∨ total pre + total l + n ≤ w) :
    w < total pre ∨ total pre + total (l ++ .taken n :: r) ≤ w := by
  obtain ⟨k, m, hk, hlo, hhi⟩ := hw
  have hne : ∀ {i : ℤ} {xs : List Seg}, (∀ s ∈ xs, s.isAvail = true) → (k, Seg.taken m) ∉ placed i xs := by
    intro i xs hxs hm
    have := hxs _ (mem_of_placed hm)
    cases this
  have hl : (k, Seg.taken m) ∉ placed (total pre) l := hne fun s hs => hlr s (by simp [hs])
  have hr' : (k, Seg.taken m) ∉ placed (total pre + total l + n) r := hne fun s hs => hlr s (by simp [hs])
  simp only [placed_append, placed_cons, List.mem_append, List.mem_cons, Prod.mk.injEq, Seg.taken.injEq,
    zero_add, Seg.size_taken, hl, hr', false_or, or_false, total_append, total_cons] at hk ⊢
  rcases hk with hk | ⟨rfl, rfl⟩ | hk
  · have := placed_bounds hk
    simp only [Seg.size_taken] at this
    omega
  · omega
  · have := placed_bounds hk
    omega

/-- The freed block and the neighbours `l` and `r`, which have left the list, become one available
block. -/
theorem give_back {l r : List Seg} (hr : Rep h (pre ++ ((l ++ .taken n :: r) ++ post)) fl)
    (hl : Layout h₁.array h₁.avail (pre ++ ((l ++ .taken n :: r) ++ post)) fl₁)
    (hlr : ∀ s ∈ l ++ r, s.isAvail = true)
    (hfl : ∀ x, x ∈ fl₁ ↔ x ∈ fl ∧ (x < total pre ∨ total pre + total (l ++ .taken n :: r) ≤ x))
    (hpre : pre ≠ []) (hpost : post ≠ []) (hn : 4 ≤ n)
    (hlast : ∀ s ∈ pre.getLast?, s.isAvail = false) (hhead : ∀ s ∈ post.head?, s.isAvail = false)
    (hlen : h₁.len = h.len) (hbase : h₁.base = h.base)
    (hh' : h' = makeAvail h₁ (total pre) (total (l ++ .taken n :: r))) :
    Rep h' (pre ++ ([.avail (total (l ++ .taken n :: r))] ++ post)) (total pre :: fl₁) ∧
      h'.len = h.len ∧ h'.base = h.base ∧
      (∀ w, InTaken (pre ++ ((l ++ .taken n :: r) ++ post)) w →
        w < total pre + total l ∨ total pre + total l + n ≤ w → h'.array w = h₁.array w) ∧
      ∀ w, 0 ≤ h'.array w ↔ w = total pre ∨ w = total pre + 1 ∨ w = total pre + 2 ∨
        w = total pre + total (l ++ .taken n :: r) - 1 ∨ 0 ≤ h₁.array w := by
  have hpos : 0 < total pre := by
    obtain ⟨pre', post', rfl, -, -⟩ := hr.inner hpre hpost
    simp
  have hmid : 4 ≤ total (l ++ .taken n :: r) := by
    simp
    omega
  rw [makeAvail_eq] at hh'
  subst hh'
  refine ⟨replace hr hpre hpost ?_ (by simp) (by simpa using hmid) (by simp) ?_
    (coalesced_merge hr.coalesced hlast hhead) hlen hbase, hlen, hbase, fun w hw ho => ?_, fun w => ?_⟩
  · exact hl.release hmid hpos (fun x hx => ((hfl x).mp hx).2)
  · intro x hx ho
    exact List.mem_cons_of_mem _ ((hfl x).mpr ⟨hx, ho⟩)
  · have := inTaken_merge hlr hw ho
    refine availAt_of_ne (by omega) (by omega) (by omega) (by omega) fun h0 he => ?_
    exact hl.inTaken_not_isLink hw ⟨_, (headD_listed hl.head_eq).resolve_left h0, .inr he⟩
  · refine availAt_nonneg (by omega) hl.head_nonneg (fun h0 => ?_) w
    exact (hl.link_nonneg ((headD_listed hl.head_eq).resolve_left h0)).2

end Rep

/-- The heap after `free` has dealt with a neighbour: it leaves the list if it is available. -/
def detachIf (s : Seg) (h : Heap) (i : ℤ) : Heap := if s.isAvail then detach h i else h

section
variable {h : Heap} {segs : List Seg} {fl : List ℤ} {k : ℤ} {s : Seg}

@[simp] theorem detachIf_len : (detachIf s h k).len = h.len := by
  unfold detachIf
  split_ifs <;> rfl

@[simp] theorem detachIf_base : (detachIf s h k).base = h.base := by
  unfold detachIf
  split_ifs <;> rfl

theorem detachIf_layout (hl : Layout h.array h.avail segs fl) (hin : s.isAvail → k ∈ fl) :
    ∃ fl₁, Layout (detachIf s h k).array (detachIf s h k).avail segs fl₁ ∧
      ∀ x, x ∈ fl₁ ↔ x ∈ fl ∧ ¬ (s.isAvail = true ∧ x = k) := by
  unfold detachIf
  by_cases hs : s.isAvail = true
  · rw [if_pos hs]
    refine ⟨fl.erase k, hl.unlink_erase (hin hs), fun x => ?_⟩
    simp [hl.mem_erase, hs]
  · rw [if_neg hs]
    exact ⟨fl, hl, fun x => by simp [hs]⟩

theorem detachIf_nonneg (hl : Layout h.array h.avail segs fl) (hin : s.isAvail → k ∈ fl) (w : ℤ) :
    0 ≤ (detachIf s h k).array w ↔ 0 ≤ h.array w := by
  unfold detachIf
  split_ifs with hs
  · exact hl.unlinked_nonneg (hin hs) w
  · rfl

theorem detachIf_inTaken (hl : Layout h.array h.avail segs fl) (hin : s.isAvail → k ∈ fl) {w : ℤ}
    (hw : InTaken segs w) : (detachIf s h k).array w = h.array w := by
  unfold detachIf
  split_ifs with hs
  · exact hl.unlinked_inTaken (hin hs) hw
  · rfl

end

namespace Rep

variable {h h₁ : Heap} {pre post : List Seg} {fl : List ℤ} {n : ℕ} {a b : Seg}

/-- Where the blocks of the list are, around the block being freed. -/
theorem listed_cases (hr : Rep h (pre ++ a :: .taken n :: b :: post) fl) {x : ℤ} (hx : x ∈ fl) :
    x < total pre ∨ (x = total pre ∧ a.isAvail) ∨ (x = total pre + a.size + n ∧ b.isAvail) ∨
      total pre + a.size + n + b.size ≤ x := by
  obtain ⟨m, hm, -, hp⟩ := hr.layout.listed_size hx
  simp only [placed_append, placed_cons, List.mem_append, List.mem_cons, Prod.mk.injEq, zero_add,
    Seg.size_taken, reduceCtorEq, and_false, false_or] at hp
  rcases hp with hp | ⟨rfl, ha⟩ | ⟨rfl, hb⟩ | hp
  · have := placed_bounds hp
    simp only [Seg.size_avail] at this
    exact .inl (by omega)
  · exact .inr (.inl ⟨rfl, by rw [← ha]; rfl⟩)
  · exact .inr (.inr (.inl ⟨rfl, by rw [← hb]; rfl⟩))
  · exact .inr (.inr (.inr (placed_bounds hp).1))

theorem listed_of_isAvail {segs : List Seg} (hr : Rep h segs fl) {k : ℤ} {s : Seg} (hk : (k, s) ∈ placed 0 segs)
    (hs : s.isAvail = true) : k ∈ fl := by
  cases s with
  | avail m => exact hr.complete _ m hk
  | taken m => cases hs
  | hole m => cases hs

theorem size_of_isAvail {segs : List Seg} (hr : Rep h segs fl) {s : Seg} (hs : s ∈ segs) (ha : s.isAvail = true) :
    4 ≤ s.size := by
  cases s with
  | avail m => exact hr.layout.wide _ hs
  | taken m => cases ha
  | hole m => cases ha

/-- The heap after both neighbours have been dealt with. -/
theorem detached (hr : Rep h (pre ++ a :: .taken n :: b :: post) fl)
    (hh₁ : h₁ = detachIf b (detachIf a h (total pre)) (total pre + a.size + n)) :
    h₁.len = h.len ∧ h₁.base = h.base ∧
      (∀ w, InTaken (pre ++ a :: .taken n :: b :: post) w → h₁.array w = h.array w) ∧
      (∀ w, 0 ≤ h₁.array w ↔ 0 ≤ h.array w) ∧
      ∃ fl₁, Layout h₁.array h₁.avail (pre ++ a :: .taken n :: b :: post) fl₁ ∧
        ∀ x, x ∈ fl₁ ↔ x ∈ fl ∧ ¬ (a.isAvail = true ∧ x = total pre) ∧
          ¬ (b.isAvail = true ∧ x = total pre + a.size + n) := by
  subst hh₁
  have hpa : ((total pre : ℤ), a) ∈ placed 0 (pre ++ a :: .taken n :: b :: post) := by simp
  have hpb : ((total pre + a.size + n : ℤ), b) ∈ placed 0 (pre ++ a :: .taken n :: b :: post) := by simp
  have hwide : 2 ≤ n := hr.layout.wide (.taken n) (by simp)
  have hina := hr.listed_of_isAvail hpa
  obtain ⟨fl₁, hl₁, hmem₁⟩ := detachIf_layout hr.layout hina
  have hinb : b.isAvail = true → (total pre + a.size + n : ℤ) ∈ fl₁ := by
    intro hb
    exact (hmem₁ _).mpr ⟨hr.listed_of_isAvail hpb hb, by omega⟩
  obtain ⟨fl₂, hl₂, hmem₂⟩ := detachIf_layout hl₁ hinb
  refine ⟨by simp, by simp, fun w hw => ?_, fun w => ?_, fl₂, hl₂, fun x => ?_⟩
  · rw [detachIf_inTaken hl₁ hinb hw, detachIf_inTaken hr.layout hina hw]
  · rw [detachIf_nonneg hl₁ hinb, detachIf_nonneg hr.layout hina]
  · rw [hmem₂, hmem₁, and_assoc]

/-- `free` takes its available neighbours out of the list and makes one block of them all. -/
theorem free_eq (hr : Rep h (pre ++ a :: .taken n :: b :: post) fl) :
    free h (addressOf h (total (pre ++ [a]) + 1)) =
      .ok (makeAvail (detachIf b (detachIf a h (total pre)) (total pre + a.size + n))
        (if a.isAvail then total pre else total pre + a.size)
        (n + (if a.isAvail then (a.size : ℤ) else 0) + if b.isAvail then (b.size : ℤ) else 0)) := by
  have hpa : ((total pre : ℤ), a) ∈ placed 0 (pre ++ a :: .taken n :: b :: post) := by simp
  have hpn : ((total pre + a.size : ℤ), Seg.taken n) ∈ placed 0 (pre ++ a :: .taken n :: b :: post) := by simp
  have hpb : ((total pre + a.size + n : ℤ), b) ∈ placed 0 (pre ++ a :: .taken n :: b :: post) := by simp
  have hta := hr.tagged_of_mem (s := a) (by simp)
  have htb := hr.tagged_of_mem (s := b) (by simp)
  obtain ⟨fl₁, hl₁, -⟩ := detachIf_layout hr.layout (hr.listed_of_isAvail hpa)
  obtain ⟨-, -, -, -, fl₂, hl₂, -⟩ := hr.detached rfl
  have hn := (header_facts hr.layout hpn rfl).1
  have hwide : 2 ≤ n := hr.layout.wide (.taken n) (by simp)
  have htaken : isTaken h (total pre + a.size) = true := by
    rw [isTaken, (hr.layout.tagged _ _ _ hpn rfl).1]
    exact decide_eq_true (by omega)
  have hidx : indexOf h (addressOf h (total (pre ++ [a]) + 1)) = total pre + a.size := by
    have := hr.indexOf_addressOf (i := total (pre ++ [a])) (by simp; omega)
    rw [this]
    simp
  have hleft : left h (total pre + a.size) = .ok (total pre : ℤ) := by
    have hf := footer_facts hr.layout hpa hta
    rw [left_eq, hf]
    congr 1
    omega
  have hright : right h (total pre + a.size) = .ok (total pre + a.size + n : ℤ) := by
    rw [right_eq]
    exact congrArg _ (congrArg _ hn)
  have hp0 : addressOf h (total (pre ++ [a]) + 1) ≠ 0 := by
    have := hr.base_pos
    unfold addressOf
    omega
  have hpbase : addressOf h (total (pre ++ [a]) + 1) ≠ h.base := by
    unfold addressOf
    omega
  simp only [free, if_neg hp0, if_neg hpbase, hidx, sanity_eq, bind, Except.bind, htaken, hleft, hright,
    hn, (header_facts hr.layout hpa hta).2, remove_detach, Bool.true_eq_false, if_false, Seg.size_taken]
  -- the right neighbour is examined in the heap that the left one has left
  have hsa := (header_facts hl₁ hpa hta).1
  have hib := (header_facts hl₁ hpb htb).2
  have hsb := (header_facts hl₂ hpb htb).1
  by_cases ha : a.isAvail = true <;> by_cases hb : b.isAvail = true
  · simp only [detachIf, ha, hb, if_true, pure, Except.pure] at *
    simp only [hsa, hib, hsb, if_true]
  · simp only [Bool.not_eq_true] at hb
    simp only [detachIf, ha, hb, if_true, pure, Except.pure, Bool.false_eq_true, if_false] at *
    simp only [hsa, hib, Bool.false_eq_true, if_false, add_zero]
  · simp only [Bool.not_eq_true] at ha
    simp only [detachIf, ha, hb, if_true, pure, Except.pure, Bool.false_eq_true, if_false] at *
    simp only [hib, hsb, if_true, add_zero]
  · simp only [Bool.not_eq_true] at ha hb
    simp only [detachIf, ha, hb, pure, Except.pure, Bool.false_eq_true, if_false] at *
    simp only [hib, Bool.false_eq_true, if_false, add_zero]

/-- The blocks before the freed one: `l` is the left neighbour if it is available. -/
theorem absorb_left (hr : Rep h (pre ++ a :: .taken n :: b :: post) fl) :
    ∃ pre' l, pre ++ [a] = pre' ++ l ∧ (∀ s ∈ l, s.isAvail = true) ∧ pre' ≠ [] ∧
      (∀ s ∈ pre'.getLast?, s.isAvail = false) ∧
      (if a.isAvail then (total pre : ℤ) else total pre + a.size) = total pre' ∧
      (if a.isAvail then (a.size : ℤ) else 0) = total l := by
  have hco := hr.coalesced
  rw [Coalesced, List.isChain_append] at hco
  by_cases ha : a.isAvail = true
  · have hne : a ≠ .taken 2 := fun he => by
      rw [he] at ha
      cases ha
    refine ⟨pre, [a], rfl, by simpa using ha, (hr.cut_inner hne).1, fun s hs => ?_, by simp [ha], by simp [ha]⟩
    · have := hco.2.2 s hs a (by simp)
      simpa [ha] using this
  · exact ⟨pre ++ [a], [], by simp, by simp, by simp, by simpa using ha, by simp [ha], by simp [ha]⟩

/-- The blocks after the freed one: `r` is the right neighbour if it is available. -/
theorem absorb_right (hr : Rep h (pre ++ a :: .taken n :: b :: post) fl) :
    ∃ r post', b :: post = r ++ post' ∧ (∀ s ∈ r, s.isAvail = true) ∧ post' ≠ [] ∧
      (∀ s ∈ post'.head?, s.isAvail = false) ∧ (if b.isAvail then (b.size : ℤ) else 0) = total r := by
  have hco := hr.coalesced
  simp only [Coalesced, List.isChain_append, List.isChain_cons] at hco
  by_cases hb : b.isAvail = true
  · have hne : b ≠ .taken 2 := fun he => by
      rw [he] at hb
      cases hb
    have hr' : Rep h ((pre ++ [a, .taken n]) ++ b :: post) fl := by simpa using hr
    refine ⟨[b], post, rfl, by simpa using hb, (hr'.cut_inner hne).2, fun s hs => ?_, by simp [hb]⟩
    · have := hco.2.1.2.2.1 s hs
      simpa [hb] using this
  · exact ⟨[], b :: post, by simp, by simp, by simp, by simpa using hb, by simp [hb]⟩

/-- The blocks that `free` merges: `l` and `r` are the neighbours it absorbs, if any. -/
theorem free_spec (hr : Rep h (pre ++ .taken n :: post) fl) (hn : 4 ≤ n) (hpre : pre ≠ []) (hpost : post ≠ []) :
    ∃ pre' l r post' h' fl', free h (addressOf h (total pre + 1)) = .ok h' ∧ pre = pre' ++ l ∧ post = r ++ post' ∧
      (∀ s ∈ l ++ r, s.isAvail = true) ∧
      Rep h' (pre' ++ ([.avail (total (l ++ .taken n :: r))] ++ post')) fl' ∧ h'.len = h.len ∧ h'.base = h.base ∧
      (∀ w, InTaken (pre ++ .taken n :: post) w → w < total pre ∨ total pre + n ≤ w → h'.array w = h.array w) ∧
      ∀ w, 0 ≤ h'.array w ↔ w = total pre' ∨ w = total pre' + 1 ∨ w = total pre' + 2 ∨
        w = total pre' + total (l ++ .taken n :: r) - 1 ∨ 0 ≤ h.array w := by
  obtain ⟨p, a, hp⟩ := (List.eq_nil_or_concat pre).resolve_left hpre
  rw [List.concat_eq_append] at hp
  obtain ⟨b, q, hq⟩ := List.exists_cons_of_ne_nil hpost
  subst hp hq
  rw [List.append_assoc, List.singleton_append] at hr
  have hfree := hr.free_eq
  obtain ⟨hlen, hbase, hframe, hsign, fl₁, hl, hmem⟩ := hr.detached rfl
  obtain ⟨pre', l, hpl, hl_avail, hpre', hlast, hidx, hsize_l⟩ := hr.absorb_left
  obtain ⟨r, post', hrp, hr_avail, hpost', hhead, hsize_r⟩ := hr.absorb_right
  have hsegs : p ++ a :: .taken n :: b :: q = pre' ++ ((l ++ .taken n :: r) ++ post') := by
    calc p ++ a :: .taken n :: b :: q = (p ++ [a]) ++ .taken n :: (b :: q) := by simp
      _ = pre' ++ ((l ++ .taken n :: r) ++ post') := by simp [hpl, hrp]
  have hfl : ∀ x, x ∈ fl₁ ↔ x ∈ fl ∧ (x < total pre' ∨ total pre' + total (l ++ .taken n :: r) ≤ x) := by
    intro x
    rw [hmem]
    refine and_congr_right fun hx => ?_
    have := hr.listed_cases hx
    simp only [total_append, total_cons, Seg.size_taken]
    have ha4 := hr.size_of_isAvail (s := a) (by simp)
    have hb4 := hr.size_of_isAvail (s := b) (by simp)
    by_cases ha : a.isAvail = true <;> by_cases hb : b.isAvail = true <;>
      simp only [ha, hb, if_true, if_false, true_and, and_true, false_and, and_false, false_or,
        true_iff, not_false_eq_true, forall_const, Bool.false_eq_true] at this ha4 hb4 hidx hsize_l hsize_r ⊢ <;> omega
  rw [hsegs] at hr hl hframe
  obtain ⟨hrep, hlen', hbase', hframe', hsign'⟩ := give_back hr hl (by simpa [or_imp, forall_and] using ⟨hl_avail, hr_avail⟩)
    hfl hpre' hpost' hn hlast hhead hlen hbase rfl
  have htotal : total (p ++ [a]) = total pre' + total l := by rw [hpl, total_append]
  have hseg' : p ++ [a] ++ .taken n :: b :: q = pre' ++ ((l ++ .taken n :: r) ++ post') := by simpa using hsegs
  refine ⟨pre', l, r, post', _, _, ?_, hpl, hrp, ?_, hrep, hlen', hbase', fun w hw ho => ?_, fun w => ?_⟩
  · rw [hfree, hidx, hsize_l, hsize_r]
    congr 2
    simp
    omega
  · simpa [or_imp, forall_and] using ⟨hl_avail, hr_avail⟩
  · rw [hseg'] at hw
    rw [htotal] at ho
    rw [hframe' w hw (by push_cast at ho; omega), hframe w hw]
  · rw [hsign', hsign]

/-- The taken blocks before a merge: the one given up, and those that remain. -/
theorem taken_merge (pre post : List Seg) {l r : List Seg} (n : ℕ) {m : ℕ} {k : ℤ}
    (hav : ∀ t ∈ l ++ r, t.isAvail = true) :
    (k, Seg.taken m) ∈ placed 0 (pre ++ l ++ .taken n :: (r ++ post)) ↔
      (k, Seg.taken m) ∈ placed 0 (pre ++ ([.avail (total (l ++ .taken n :: r))] ++ post)) ∨
        (k = total (pre ++ l) ∧ m = n) := by
  have hl (j : ℤ) : (k, Seg.taken m) ∉ placed j l := by
    intro hin
    have := hav _ (List.mem_append_left r (mem_of_placed hin))
    cases this
  have hr (j : ℤ) : (k, Seg.taken m) ∉ placed j r := by
    intro hin
    have := hav _ (List.mem_append_right l (mem_of_placed hin))
    cases this
  have hend : (total (pre ++ l) : ℤ) + n + total r = total pre + total (l ++ .taken n :: r) := by
    simp
    omega
  simp only [placed_append, placed_cons, List.singleton_append, List.mem_append, List.mem_cons, hl, hr,
    Prod.mk.injEq, Seg.taken.injEq, reduceCtorEq, and_false, false_or, or_false, zero_add, Seg.size_taken,
    Seg.size_avail, hend]
  tauto

/-- `free` keeps the other taken blocks and the words inside them. -/
theorem free_keeps (hr : Rep h segs fl) {k : ℤ} (hk : (k, Seg.taken n) ∈ placed 0 segs) (hn : 4 ≤ n) :
    ∃ segs' h' fl', free h (addressOf h (k + 1)) = .ok h' ∧ Rep h' segs' fl' ∧ h'.len = h.len ∧ h'.base = h.base ∧
      (∀ l m, (l, Seg.taken m) ∈ placed 0 segs' ↔ (l, Seg.taken m) ∈ placed 0 segs ∧ l ≠ k) ∧
      ∀ l m, (l, Seg.taken m) ∈ placed 0 segs → l ≠ k → ∀ w, l < w → w < l + m - 1 → h'.array w = h.array w := by
  obtain ⟨pre, post, hsegs, hpos⟩ := exists_cut hk
  rw [zero_add] at hpos
  subst hsegs hpos
  have hne : Seg.taken n ≠ .taken 2 := by
    intro he
    cases he
    omega
  obtain ⟨hpre, hpost⟩ := hr.cut_inner hne
  obtain ⟨pre', l, r, post', h', fl', hf, hl, hpr, hav, hrep, hlen, hb, hw, -⟩ := hr.free_spec hn hpre hpost
  subst hl hpr
  have hmerge (k : ℤ) (m : ℕ) := taken_merge (k := k) (m := m) pre' post' n hav
  refine ⟨_, h', fl', hf, hrep, hlen, hb, fun k m => ⟨fun hkm => ⟨(hmerge k m).mpr (.inl hkm), fun he => ?_⟩, ?_⟩, ?_⟩
  · -- the word `k` now lies in an available block
    have hnew : ((total pre' : ℤ), Seg.avail (total (l ++ .taken n :: r))) ∈
        placed 0 (pre' ++ ([.avail (total (l ++ .taken n :: r))] ++ post')) := by simp
    have hm := hrep.layout.wide _ (mem_of_placed hkm)
    simp only [Seg.wide_taken] at hm
    rcases placed_separate hkm hnew with ⟨-, hs⟩ | hs
    · cases hs
    · simp only [Seg.size_taken, Seg.size_avail, total_append, total_cons] at hs he
      omega
  · rintro ⟨hkm, hne⟩
    rcases (hmerge k m).mp hkm with hkm | ⟨he, -⟩
    · exact hkm
    · exact absurd he hne
  · intro k m hkm hne w hlo hhi
    have hcut : ((total (pre' ++ l) : ℤ), Seg.taken n) ∈ placed 0 (pre' ++ l ++ .taken n :: (r ++ post')) := by simp
    refine hw w ⟨k, m, hkm, hlo, hhi⟩ ?_
    rcases placed_separate hkm hcut with ⟨he, -⟩ | hs | hs
    · exact absurd he hne
    · simp only [Seg.size_taken] at hs
      omega
    · simp only [Seg.size_taken] at hs
      omega

/-- The block that begins where `pre` ends comes next. -/
theorem cons_of_placed (hr : Rep h segs fl) {rest : List Seg} {s : Seg} (hsegs : segs = pre ++ rest)
    (hs : ((total pre : ℤ), s) ∈ placed 0 segs) : ∃ rest', rest = s :: rest' := by
  have hpos : 0 < s.size := by
    obtain ⟨v, hv⟩ := Option.isSome_iff_exists.mp (hr.tagged_of_mem (mem_of_placed hs))
    have := Layout.size_ge_two (hr.layout.wide s (mem_of_placed hs)) hv
    omega
  subst hsegs
  rw [placed_append, List.mem_append, zero_add] at hs
  rcases hs with hs | hs
  · have := placed_bounds hs
    omega
  · cases rest with
    | nil => cases hs
    | cons t rest =>
      rcases List.mem_cons.mp hs with hs | hs
      · exact ⟨rest, by rw [(Prod.mk.inj hs).2]⟩
      · obtain ⟨v, hv⟩ := Option.isSome_iff_exists.mp (hr.tagged_of_mem (s := t) (by simp))
        have := Layout.size_ge_two (hr.layout.wide t (by simp)) hv
        have := placed_bounds hs
        omega

/-- A store strictly inside a taken block. -/
theorem store_inTaken (hr : Rep h segs fl) {w : ℤ} (hw : InTaken segs w) (x : ℤ) : Rep (store h w x) segs fl :=
  ⟨hr.layout.store_inTaken hw x, hr.ends, hr.len_eq, hr.complete, hr.coalesced, hr.base_pos, hr.fits⟩

end Rep
end Heap
end AudioKernel
