import AudioKernel.Heap.Free

/-! The representation invariant of the heap, in terms of its words, and why the blocks of a `Rep`
have it. -/
namespace AudioKernel
open Lib Lib.Layout

namespace Heap

/-- The headers met when stepping from index `i` by `|array[i]|` as long as the array goes on. -/
def headersFrom (h : Heap) : ℕ → ℤ → List ℤ
  | 0, _ => []
  | fuel + 1, i => if i < h.len then i :: headersFrom h fuel (i + size h i) else []

/-- Every block has a word, so that `len` steps are enough. -/
def headers (h : Heap) : List ℤ := headersFrom h h.len.toNat 0

structure WellFormed (h : Heap) (live : Finset ℕ) : Prop where
  first : (headers h).head? = some 0
  steps : (headers h).IsChain fun i j => j = i + size h i
  last : (headers h).getLast? = some (h.len - 2)
  sentinels : h.array 0 = -2 ∧ h.array (h.len - 2) = -2
  footers : ∀ i ∈ headers h, h.array (footerFromHeader h i) = h.array i
  live_iff : ∀ p, p ∈ live ↔
    ∃ i ∈ headers h, i ≠ 0 ∧ i ≠ h.len - 2 ∧ h.array i < 0 ∧ p = addressOf h (i + 1)
  list : ∃ fl, Linked 0 (fun i => h.array (i + 1)) (fun i => h.array (i + 2)) 0 fl ∧ h.avail = fl.headD 0 ∧
    fl.Nodup ∧ ∀ i, i ∈ fl ↔ i ∈ headers h ∧ 0 < h.array i
  coalesced : (headers h).IsChain fun i j => ¬ (0 < h.array i ∧ 0 < h.array j)

namespace Rep

variable {h : Heap} {segs : List Seg} {fl : List ℤ} {k : ℤ} {s : Seg}

theorem tag_eq (hr : Rep h segs fl) (hk : (k, s) ∈ placed 0 segs) :
    s.tag? = some (h.array k) ∧ h.array (k + s.size - 1) = h.array k := by
  obtain ⟨v, hv⟩ := Option.isSome_iff_exists.mp (hr.tagged_of_mem (mem_of_placed hk))
  have htag := hr.layout.tagged k s v hk hv
  rw [hv, htag.1, htag.2]
  exact ⟨rfl, rfl⟩

theorem size_eq (hr : Rep h segs fl) (hk : (k, s) ∈ placed 0 segs) : size h k = s.size :=
  (header_facts hr.layout hk (hr.tagged_of_mem (mem_of_placed hk))).1

theorem pos_iff (hr : Rep h segs fl) (hk : (k, s) ∈ placed 0 segs) : 0 < h.array k ↔ s.isAvail = true := by
  have hav := (header_facts hr.layout hk (hr.tagged_of_mem (mem_of_placed hk))).2
  rw [← hav, isAvail]
  simp

theorem size_ge_two (hr : Rep h segs fl) (hs : s ∈ segs) : 2 ≤ s.size := by
  obtain ⟨v, hv⟩ := Option.isSome_iff_exists.mp (hr.tagged_of_mem hs)
  exact Layout.size_ge_two (hr.layout.wide s hs) hv

/-- Stepping by the sizes meets the headers of the blocks and nothing else. -/
theorem headersFrom_eq (hr : Rep h segs fl) {pre rest : List Seg} (hsegs : segs = pre ++ rest) {fuel : ℕ}
    (hfuel : rest.length ≤ fuel) : headersFrom h fuel (total pre) = (placed (total pre) rest).map Prod.fst := by
  induction rest generalizing pre fuel with
  | nil =>
    have hend : ¬ (total pre : ℤ) < h.len := by
      have := hr.len_eq
      simp [hsegs] at this
      omega
    cases fuel with
    | zero => rfl
    | succ fuel => rw [headersFrom, if_neg hend]; rfl
  | cons s rest ih =>
    obtain ⟨fuel, hf⟩ : ∃ f, fuel = f + 1 := ⟨fuel - 1, by simp at hfuel; omega⟩
    subst hf
    have hk : ((total pre : ℤ), s) ∈ placed 0 segs := by simp [hsegs]
    have hin : (total pre : ℤ) < h.len := by
      have := hr.len_eq
      have := hr.size_ge_two (mem_of_placed hk)
      simp [hsegs] at *
      omega
    have hnext : (total pre : ℤ) + s.size = total (pre ++ [s]) := by simp
    rw [headersFrom, if_pos hin, hr.size_eq hk, placed_cons, List.map_cons, hnext]
    have hsegs' : segs = (pre ++ [s]) ++ rest := by simp [hsegs]
    rw [ih hsegs' (by simpa using hfuel)]

theorem length_le_total (hr : Rep h segs fl) {rest : List Seg} (hsub : ∀ s ∈ rest, s ∈ segs) :
    rest.length ≤ total rest := by
  induction rest with
  | nil => simp
  | cons s rest ih =>
    have := ih fun t ht => hsub t (List.mem_cons_of_mem _ ht)
    have := hr.size_ge_two (hsub s List.mem_cons_self)
    simp only [List.length_cons, total_cons]
    omega

theorem headers_eq (hr : Rep h segs fl) : headers h = (placed 0 segs).map Prod.fst := by
  have hlen : segs.length ≤ h.len.toNat := by
    have : segs.length ≤ total segs := hr.length_le_total fun _ hs => hs
    have := hr.len_eq
    omega
  have hnil : segs = [] ++ segs := rfl
  exact hr.headersFrom_eq hnil hlen

theorem mem_headers (hr : Rep h segs fl) : k ∈ headers h ↔ ∃ s, (k, s) ∈ placed 0 segs := by
  rw [hr.headers_eq]
  simp

/-- A relation that neighbouring blocks have holds of neighbouring headers. -/
theorem chain_headers (hr : Rep h segs fl) {R : ℤ → ℤ → Prop} {S : ℤ × Seg → ℤ × Seg → Prop}
    (hS : (placed 0 segs).IsChain S)
    (himp : ∀ a b, a ∈ placed 0 segs → b ∈ placed 0 segs → S a b → R a.1 b.1) : (headers h).IsChain R := by
  rw [hr.headers_eq, List.isChain_map]
  exact hS.imp_of_mem_imp fun a b ha hb hab => himp a b ha hb hab

/-- The first and the last block are the only ones of two words. -/
theorem sentinel_iff (hr : Rep h segs fl) (hk : (k, s) ∈ placed 0 segs) :
    s.size = 2 ↔ k = 0 ∨ k = h.len - 2 := by
  obtain ⟨mid, he, hmid⟩ := hr.ends
  have hlen := hr.len_eq
  subst he
  have hmid' : (k, s) ∈ placed 2 mid → 4 ≤ s.size := fun hm => (hmid s (mem_of_placed hm)).1
  have hb : (k, s) ∈ placed 2 mid → 2 ≤ k ∧ k + s.size ≤ 2 + total mid := placed_bounds
  simp only [placed_cons, placed_append, List.mem_cons, List.mem_append, Prod.mk.injEq, placed_nil,
    List.not_mem_nil, or_false, total_cons, total_append, total_nil, Seg.size_taken, zero_add] at hk hlen
  rcases hk with ⟨hk, hs⟩ | hk | ⟨hk, hs⟩
  · subst hk hs
    simp
  · have := hmid' hk
    have := hb hk
    constructor <;> intro _ <;> omega
  · subst hk hs
    simp only [Seg.size_taken, true_iff]
    right
    push_cast at hlen
    omega

/-- The pointers to the large taken blocks, by the words of the heap. -/
theorem taken_iff (hr : Rep h segs fl) {p : ℕ} :
    (∃ k n, (k, Seg.taken n) ∈ placed 0 segs ∧ 4 ≤ n ∧ p = addressOf h (k + 1)) ↔
      ∃ i ∈ headers h, i ≠ 0 ∧ i ≠ h.len - 2 ∧ h.array i < 0 ∧ p = addressOf h (i + 1) := by
  constructor
  · rintro ⟨k, n, hk, hn, hp⟩
    have hne : ¬ (k = 0 ∨ k = h.len - 2) := by
      rw [← hr.sentinel_iff hk]
      simp
      omega
    have hneg : h.array k < 0 := by
      rw [(hr.layout.tagged _ _ _ hk rfl).1]
      omega
    push Not at hne
    exact ⟨k, hr.mem_headers.mpr ⟨_, hk⟩, hne.1, hne.2, hneg, hp⟩
  · rintro ⟨k, hk, h0, hl, hneg, hp⟩
    obtain ⟨s, hs⟩ := hr.mem_headers.mp hk
    have hinner : s.size ≠ 2 := fun h2 => by
      rcases (hr.sentinel_iff hs).mp h2 with h2 | h2 <;> contradiction
    have hsize := hr.size_ge_two (mem_of_placed hs)
    have htag := (hr.tag_eq hs).1
    cases s with
    | taken n =>
      refine ⟨k, n, hs, ?_, hp⟩
      obtain ⟨mid', he', hmid'⟩ := hr.ends
      by_contra hlt
      have hin := mem_of_placed hs
      simp only [he', List.mem_cons, List.mem_append, List.not_mem_nil, or_false] at hin
      simp only [Seg.size_taken] at hinner
      rcases hin with hin | hin | hin
      · cases hin
        contradiction
      · exact hlt (hmid' _ hin).1
      · cases hin
        contradiction
    | avail n =>
      have := (hr.pos_iff hs).mpr rfl
      omega
    | hole n => cases htag

/-- The blocks of a `Rep` are well formed, with the pointers to its large taken blocks as `live`. -/
theorem wellFormed (hr : Rep h segs fl) {live : Finset ℕ}
    (hlive : ∀ p, p ∈ live ↔ ∃ k n, (k, Seg.taken n) ∈ placed 0 segs ∧ 4 ≤ n ∧ p = addressOf h (k + 1)) :
    WellFormed h live := by
  obtain ⟨mid, he, -⟩ := hr.ends
  have hlen := hr.len_eq
  have hfirst : ((0 : ℤ), Seg.taken 2) ∈ placed 0 segs := by simp [he]
  have hlast : (h.len - 2, Seg.taken 2) ∈ placed 0 segs := by
    simp [he] at hlen ⊢
    omega
  constructor
  case first =>
    rw [hr.headers_eq, he]
    rfl
  case steps =>
    apply hr.chain_headers (placed_adjacent 0 segs)
    intro a b ha _ hab
    rw [hab, hr.size_eq ha]
  case last =>
    have hlist : (placed 0 segs).map Prod.fst = 0 :: (placed 2 mid).map Prod.fst ++ [h.len - 2] := by
      simp [hlen, he]
      omega
    rw [hr.headers_eq, hlist, List.getLast?_concat]
  case sentinels =>
    have h0 := (hr.layout.tagged _ _ _ hfirst rfl).1
    have h1 := (hr.layout.tagged _ _ _ hlast rfl).1
    exact ⟨h0, h1⟩
  case footers =>
    intro i hi
    obtain ⟨s, hs⟩ := hr.mem_headers.mp hi
    rw [footerFromHeader, hr.size_eq hs]
    exact (hr.tag_eq hs).2
  case live_iff =>
    intro p
    rw [hlive, hr.taken_iff]
  case list =>
    refine ⟨fl, hr.layout.links, hr.layout.head_eq, hr.layout.nodup, fun i => ?_⟩
    constructor
    · intro hi
      obtain ⟨n, -, -, hn⟩ := hr.layout.listed_size hi
      exact ⟨hr.mem_headers.mpr ⟨_, hn⟩, (hr.pos_iff hn).mpr rfl⟩
    · rintro ⟨hi, hpos⟩
      obtain ⟨s, hs⟩ := hr.mem_headers.mp hi
      have hav := (hr.pos_iff hs).mp hpos
      cases s with
      | avail n => exact hr.complete i n hs
      | taken n => cases hav
      | hole n => cases hav
  case coalesced =>
    have hco := hr.coalesced
    rw [Coalesced, ← map_snd_placed 0 segs, List.isChain_map] at hco
    apply hr.chain_headers hco
    intro a b ha hb hab
    rw [hr.pos_iff ha, hr.pos_iff hb]
    exact hab

end Rep
end Heap
end AudioKernel
