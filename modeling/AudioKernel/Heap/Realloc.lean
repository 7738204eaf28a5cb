import AudioKernel.Heap.UserHeap
import AudioKernel.Heap.Placement

/-! Runs of the user heap, and what `realloc` does to the bytes of the live blocks. -/
namespace AudioKernel
open Lib Lib.Layout

inductive UserCall
  | malloc (bytes : ℕ)
  | free (p : ℕ)
  | realloc (p newSize : ℕ)
  | write (p : ℕ) (i x : ℤ)

namespace UserHeap
open Heap (Rep headers addressOf carve carved granted availList need isTaken size store)

/-- A pointer to a taken block between the sentinels. -/
def IsLive (h : Heap) (p : ℕ) : Prop :=
  ∃ i ∈ headers h, i ≠ 0 ∧ i ≠ h.len - 2 ∧ h.array i < 0 ∧ p = addressOf h (i + 1)

instance (h : Heap) (p : ℕ) : Decidable (IsLive h p) :=
  inferInstanceAs (Decidable (∃ i ∈ headers h, _))

/-- The indices of the payload of the block that `p` points into. -/
def payload (h : Heap) (p : ℕ) : Set ℤ := Set.Icc (indexOf h p + 1) (indexOf h p + size h (indexOf h p) - 2)

instance (h : Heap) (p : ℕ) (i : ℤ) : Decidable (i ∈ payload h p) :=
  inferInstanceAs (Decidable (_ ≤ i ∧ i ≤ _))

def payloadBytes (h : Heap) (p : ℕ) : ℤ := 4 * (size h (indexOf h p) - 2)

/-- Clients pass null, live pointers and, to `free`, the zero-size pointer. -/
def enabled (h : Heap) : UserCall → Prop
  | .malloc bytes => bytes < 2 ^ 32
  | .free p => p = 0 ∨ p = h.base ∨ IsLive h p
  | .realloc p newSize => (p = 0 ∨ IsLive h p) ∧ newSize < 2 ^ 32
  | .write p i _ => IsLive h p ∧ i ∈ payload h p

/-- The heap that a call returns with. -/
def after (h : Heap) (r : Except Stop (ℕ × Heap)) : Heap :=
  match r with
  | .ok (_, h') => h'
  | .error _ => h

def next (h : Heap) : UserCall → Heap
  | .malloc bytes => after h (malloc h bytes)
  | .free p => free h p
  | .realloc p newSize => after h (realloc h p newSize)
  | .write _ i x => store h i x

instance (h : Heap) (c : UserCall) : Decidable (enabled h c) := by
  cases c <;> unfold enabled <;> infer_instance

end UserHeap

/-- A program of which the array lies in the 32-bit address space. -/
def userHeapMachine : Machine Heap UserCall where
  init h := 0 < h.base ∧ h.base + 4 * UserHeap.INTS ≤ 2 ^ 32 ∧ h = UserHeap.heapInit h.base
  enabled := UserHeap.enabled
  next := UserHeap.next

instance (h : Heap) (c : UserCall) : Decidable (userHeapMachine.enabled h c) :=
  inferInstanceAs (Decidable (UserHeap.enabled h c))

namespace UserHeap
open Heap (Rep headers addressOf carve carved granted availList need isTaken size store)

variable {h h' : Heap} {segs pre post : List Seg} {fl : List ℤ} {k : ℤ} {p bytes i m n : ℕ}

/-! `malloc`: the first fit is cut like the best fit of the kernel. -/

theorem carved_eq (him : i ≤ m) :
    (if (m : ℤ) - i ≥ 4 then Heap.makeAvail (Heap.makeTaken (remove h k) k i) (k + i) (m - i)
      else Heap.makeTaken (remove h k) k m) = carved h k i m := by
  have hcut := Heap.take_eq (h := h) (k := k) him
  rw [remove_eq] at hcut
  exact (Prod.mk.inj (Except.ok.inj hcut)).2

/-- The walk over the rest `xs` of the list finds no block, or the first one that is large enough. -/
theorem search_cases (hr : Rep h segs fl) {l xs : List ℤ} (hfl : fl = l ++ xs) {fuel : ℕ} (hfuel : xs.length < fuel) :
    (search h i fuel (xs.headD 0) = .ok (0, h) ∧ ∀ x ∈ xs, size h x < i) ∨
      ∃ pre m post, segs = pre ++ .avail m :: post ∧ i ≤ m ∧ (total pre : ℤ) ∈ xs ∧
        search h i fuel (xs.headD 0) = .ok (addressOf h (total pre + 1), carved h (total pre) i m) := by
  induction xs generalizing l fuel with
  | nil =>
    obtain ⟨fuel, rfl⟩ : ∃ f, fuel = f + 1 := ⟨fuel - 1, by simp at hfuel; omega⟩
    exact .inl ⟨by simp [search], by simp⟩
  | cons x xs ih =>
    obtain ⟨fuel, rfl⟩ : ∃ f, fuel = f + 1 := ⟨fuel - 1, by simp at hfuel; omega⟩
    obtain ⟨m, -, hpos, hx⟩ := hr.layout.listed_size (k := x) (by simp [hfl])
    have hnext : h.array (x + 1) = xs.headD 0 := (hfl ▸ hr.layout).next_listed
    have hsize : size h x = m := hr.size_eq hx
    simp only [List.headD_cons, search, if_neg hpos.ne', hsize]
    by_cases hfit : (m : ℤ) ≥ i
    · have him : i ≤ m := by exact_mod_cast hfit
      obtain ⟨pre, post, hsegs, hk⟩ := exists_cut hx
      rw [zero_add] at hk
      subst hk
      refine .inr ⟨pre, m, post, hsegs, him, by simp, ?_⟩
      rw [if_pos hfit, carved_eq him, HeapRun.addressOf_congr Heap.carved_base]
    · rw [if_neg hfit, next1, sanity_eq, hnext]
      rcases ih (l := l ++ [x]) (by simp [hfl]) (by simpa using hfuel) with
        ⟨hs, hsmall⟩ | ⟨pre, m', post, hsegs, him, hin, hs⟩
      · refine .inl ⟨hs, fun y hy => ?_⟩
        rcases List.mem_cons.mp hy with rfl | hy
        · rw [hsize]
          omega
        · exact hsmall y hy
      · exact .inr ⟨pre, m', post, hsegs, him, by simp [hin], hs⟩

theorem malloc_cases (hr : Rep h segs fl) (hb : bytes ≠ 0) :
    (malloc h bytes = .ok (0, h) ∧ ∀ x ∈ fl, size h x < Heap.intsFor bytes) ∨
      ∃ pre m post i, segs = pre ++ .avail m :: post ∧ Heap.intsFor bytes = (i : ℕ) ∧ 4 ≤ i ∧ i ≤ m ∧
        (total pre : ℤ) ∈ fl ∧ malloc h bytes = .ok (addressOf h (total pre + 1), carved h (total pre) i m) := by
  obtain ⟨i, hi, hi4⟩ := Heap.intsFor_spec bytes
  have hwalk := search_cases hr (i := i) (l := []) rfl (Nat.lt_add_one_of_le hr.length_le)
  rw [← hr.layout.head_eq] at hwalk
  rw [malloc, if_neg hb, hi, sanity_eq]
  rcases hwalk with hnone | ⟨pre, m, post, hsegs, him, hin, hs⟩
  · exact .inl hnone
  · exact .inr ⟨pre, m, post, i, hsegs, rfl, hi4, him, hin, hs⟩

/-- The taken blocks after `malloc`: the new one and those before. -/
theorem taken_after_carve (him : i ≤ m) :
    (k, Seg.taken n) ∈ placed 0 (pre ++ (carve i m ++ post)) ↔
      (k, Seg.taken n) ∈ placed 0 (pre ++ .avail m :: post) ∨ (k = total pre ∧ n = granted i m) := by
  simp only [placed_append, placed_cons, List.mem_append, List.mem_cons, Prod.mk.injEq, zero_add, reduceCtorEq, and_false,
    false_or, HeapRun.taken_carve, Heap.total_carve him, Seg.size_avail, granted]
  tauto

/-! The pointers of the clients. -/

theorem isLive_iff (hr : Rep h segs fl) :
    IsLive h p ↔ ∃ k n, (k, Seg.taken n) ∈ placed 0 segs ∧ 4 ≤ n ∧ p = addressOf h (k + 1) :=
  hr.taken_iff.symm

/-- The array of the user heap is smaller than half of the address space. -/
theorem indexOf_addressOf (hr : Rep h segs fl) (hlen : h.len = INTS) {s : Seg} (hk : (k, s) ∈ placed 0 segs) :
    indexOf h (addressOf h (k + 1)) = k := by
  have hb := placed_bounds hk
  have hs := hr.size_ge_two (mem_of_placed hk)
  have htotal := hr.len_eq
  simp only [hlen, INTS] at htotal
  obtain ⟨j, rfl⟩ : ∃ j : ℕ, k = j := ⟨k.toNat, by omega⟩
  have hkernel := hr.indexOf_addressOf (i := j) (by omega)
  rw [indexOf_eq, hkernel]
  · unfold addressOf
    omega
  · unfold addressOf
    omega

theorem isTaken_of_placed (hr : Rep h segs fl) (hn : 4 ≤ n) (hk : (k, Seg.taken n) ∈ placed 0 segs) :
    isTaken h k = true := by
  rw [isTaken, (hr.layout.tagged _ _ _ hk rfl).1]
  exact decide_eq_true (by omega)

/-- `free` keeps the other taken blocks and the words inside them. -/
theorem free_keeps (hr : Rep h segs fl) (hlen : h.len = INTS) (hk : (k, Seg.taken n) ∈ placed 0 segs) (hn : 4 ≤ n) :
    ∃ segs' fl', Rep (free h (addressOf h (k + 1))) segs' fl' ∧ (free h (addressOf h (k + 1))).len = h.len ∧
      (free h (addressOf h (k + 1))).base = h.base ∧
      (∀ l m, (l, Seg.taken m) ∈ placed 0 segs' ↔ (l, Seg.taken m) ∈ placed 0 segs ∧ l ≠ k) ∧
      ∀ l m, (l, Seg.taken m) ∈ placed 0 segs → l ≠ k → ∀ w, l < w → w < l + m - 1 →
        (free h (addressOf h (k + 1))).array w = h.array w := by
  obtain ⟨segs', h', fl', hf, hrep, hl, hb, htaken, hwords⟩ := hr.free_keeps hk hn
  have hidx := indexOf_addressOf hr hlen hk
  have hkernel : Heap.indexOf h (addressOf h (k + 1)) = k := by
    have hb := placed_bounds hk
    simp only [Seg.size_taken] at hb
    obtain ⟨j, rfl⟩ : ∃ j : ℕ, k = j := ⟨k.toNat, by omega⟩
    exact hr.indexOf_addressOf (by omega)
  have hsame := free_eq (hidx.trans hkernel.symm) (by rw [hidx]; exact isTaken_of_placed hr hn hk)
  obtain rfl : h' = free h (addressOf h (k + 1)) := Except.ok.inj (hf.symm.trans hsame)
  exact ⟨segs', fl', hrep, hl, hb, htaken, hwords⟩

/-! The bytes of the array. -/

section
variable {a c j dest src count : ℕ}

theorem loadByte_congr (hbase : h'.base = h.base)
    (hword : h'.array (((a : ℤ) - h.base) / 4) = h.array (((a : ℤ) - h.base) / 4)) : loadByte h' a = loadByte h a := by
  rw [loadByte, loadByte, hbase, hword]

theorem loadByte_storeByte (h : Heap) (a c : ℕ) (v : UInt8) :
    loadByte (storeByte h a v) c = if c = a then v else loadByte h c := by
  have hbyte : (((c : ℤ) - h.base) % 4).toNat < 4 := by omega
  by_cases hword : ((c : ℤ) - h.base) / 4 = ((a : ℤ) - h.base) / 4
  · have hsame : (((c : ℤ) - h.base) % 4).toNat = (((a : ℤ) - h.base) % 4).toNat ↔ c = a := by omega
    have hcell : (storeByte h a v).array (((c : ℤ) - h.base) / 4) =
        setByte (h.array (((c : ℤ) - h.base) / 4)) (((a : ℤ) - h.base) % 4).toNat v := by
      rw [hword]
      exact Function.update_self ..
    have hbase : (storeByte h a v).base = h.base := rfl
    rw [loadByte, hbase, hcell, byteOf_setByte _ hbyte]
    simp only [hsame]
    rfl
  · rw [if_neg (fun he => hword (by rw [he]))]
    exact loadByte_congr rfl (Function.update_of_ne hword _ _)

@[simp] theorem copyBytes_base : (copyBytes h dest src count).base = h.base := by
  induction count with
  | zero => rfl
  | succ count ih => exact ih

@[simp] theorem copyBytes_len : (copyBytes h dest src count).len = h.len := by
  induction count with
  | zero => rfl
  | succ count ih => exact ih

theorem copyBytes_outside (hout : c < dest ∨ dest + count ≤ c) :
    loadByte (copyBytes h dest src count) c = loadByte h c := by
  induction count with
  | zero => rfl
  | succ count ih =>
    rw [copyBytes, loadByte_storeByte, if_neg (by omega)]
    exact ih (by omega)

/-- Between ranges that do not overlap, the bytes arrive as they were. -/
theorem copyBytes_inside (hapart : src + count ≤ dest ∨ dest + count ≤ src) (hj : j < count) :
    loadByte (copyBytes h dest src count) (dest + j) = loadByte h (src + j) := by
  induction count with
  | zero => omega
  | succ count ih =>
    rw [copyBytes, loadByte_storeByte]
    by_cases hlast : j = count
    · subst hlast
      rw [if_pos rfl, copyBytes_outside (by omega)]
    · rw [if_neg (by omega)]
      exact ih (by omega) (by omega)

/-- Only the words with a byte of the destination change. -/
theorem copyBytes_word {w : ℤ} (hout : ∀ j < count, ((dest + j : ℕ) - h.base : ℤ) / 4 ≠ w) :
    (copyBytes h dest src count).array w = h.array w := by
  induction count with
  | zero => rfl
  | succ count ih =>
    have hne : w ≠ ((dest + count : ℕ) - (copyBytes h dest src count).base : ℤ) / 4 := by
      rw [copyBytes_base]
      exact (hout count (by omega)).symm
    rw [copyBytes]
    exact (Function.update_of_ne hne _ _).trans (ih fun j hj => hout j (by omega))

theorem copyBytes_rep (hr : Rep h segs fl) (hin : ∀ j < count, InTaken segs (((dest + j : ℕ) - h.base : ℤ) / 4)) :
    Rep (copyBytes h dest src count) segs fl := by
  induction count with
  | zero => exact hr
  | succ count ih =>
    have hword := hin count (by omega)
    have hrep := ih fun j hj => hin j (by omega)
    rw [copyBytes]
    refine hrep.store_inTaken ?_ _
    rw [copyBytes_base]
    exact hword

end

/-- The word of byte `j` behind the header at `k`. -/
theorem word_of_byte (hk : 0 ≤ k) (j : ℕ) : ((addressOf h (k + 1) + j : ℕ) - h.base : ℤ) / 4 = k + 1 + (j / 4 : ℕ) := by
  unfold addressOf
  omega

/-- A copy into the payload of a taken block leaves the words outside of it alone. -/
theorem copyBytes_payload (hr : Rep h segs fl) {t : ℤ} {g count : ℕ} (src : ℕ) (ht : (t, Seg.taken g) ∈ placed 0 segs)
    (hcount : count ≤ 4 * (g - 2)) :
    Rep (copyBytes h (addressOf h (t + 1)) src count) segs fl ∧
      ∀ w, w ≤ t ∨ t + g - 1 ≤ w → (copyBytes h (addressOf h (t + 1)) src count).array w = h.array w := by
  have hpos := (placed_bounds ht).1
  constructor
  · refine copyBytes_rep hr fun j hj => ?_
    rw [word_of_byte hpos]
    exact ⟨t, g, ht, by omega, by omega⟩
  · intro w hw
    refine copyBytes_word fun j hj => ?_
    rw [word_of_byte hpos]
    omega

/-- It was not taken before. -/
theorem taken_outside_cut (hk : (k, Seg.taken n) ∈ placed 0 (pre ++ .avail m :: post)) :
    k + n ≤ total pre ∨ total pre + m ≤ k := by
  have hcut : ((total pre : ℤ), Seg.avail m) ∈ placed 0 (pre ++ .avail m :: post) := by simp
  rcases placed_separate hk hcut with ⟨-, hs⟩ | hs
  · cases hs
  · exact hs

/-- What `realloc` leaves behind when it returns the new block of `g` words at `t` for the old one of `n` at `k`. -/
structure Moved (h h' : Heap) (segs segs' : List Seg) (fl' : List ℤ) (k t : ℤ) (n g newSize : ℕ) : Prop where
  rep : Rep h' segs' fl'
  len_eq : h'.len = h.len
  base_eq : h'.base = h.base
  room : 4 ≤ g ∧ newSize ≤ 4 * (g - 2)
  apart : t ≠ k
  taken : ∀ l m, (l, Seg.taken m) ∈ placed 0 segs' ↔ ((l, Seg.taken m) ∈ placed 0 segs ∨ (l = t ∧ m = g)) ∧ l ≠ k
  words : ∀ l m, (l, Seg.taken m) ∈ placed 0 segs → l ≠ k → ∀ w, l < w → w < l + m - 1 → h'.array w = h.array w
  bytes : ∀ j < min (4 * (n - 2)) newSize,
    loadByte h' (addressOf h (t + 1) + j) = loadByte h (addressOf h (k + 1) + j)

/-- The heap after the new block has been cut, filled and the old one given back. -/
theorem moved_after (hr : Rep h (pre ++ .avail m :: post) fl) (hlen : h.len = INTS)
    (hk : (k, Seg.taken n) ∈ placed 0 (pre ++ .avail m :: post)) (hn : 4 ≤ n) {newSize : ℕ} (hmax : newSize ≤ 0xFFFFFFFC)
    (hints : Heap.intsFor newSize = i) (hi4 : 4 ≤ i) (him : i ≤ m) {count : ℕ} (hcount : count = min newSize (4 * n)) :
    ∃ segs' fl', Moved h (free (copyBytes (carved h (total pre) i m) (addressOf h (total pre + 1)) (addressOf h (k + 1))
      count) (addressOf h (k + 1))) (pre ++ .avail m :: post) segs' fl' k (total pre) n (granted i m) newSize := by
  have hkb := placed_bounds hk
  have hfits := Heap.granted_covers hmax hints him
  have hgm := Heap.granted_le him
  obtain ⟨hrep₁, hframe₁⟩ := hr.after_carve (i := i) hi4
  have hig := Heap.le_granted him
  have hmem {l : ℤ} {x : ℕ} : (l, Seg.taken x) ∈ placed 0 (pre ++ (carve i m ++ post)) ↔
      (l, Seg.taken x) ∈ placed 0 (pre ++ .avail m :: post) ∨ (l = total pre ∧ x = granted i m) := taken_after_carve him
  have hsep := taken_outside_cut hk
  -- the three heaps: after `malloc`, after `memcpy` and after `free`
  obtain ⟨h₁, hh₁⟩ : ∃ h₁, h₁ = carved h (total pre) i m := ⟨_, rfl⟩
  rw [← hh₁] at hrep₁ hframe₁ ⊢
  have hbase₁ : h₁.base = h.base := hh₁ ▸ Heap.carved_base
  have hlen₁ : h₁.len = h.len := hh₁ ▸ Heap.carved_len
  have haddr₁ := HeapRun.addressOf_congr hbase₁
  have hcount' : count ≤ 4 * (granted i m - 2) := by omega
  have hcopy := copyBytes_payload hrep₁ (addressOf h (k + 1)) (hmem.mpr (.inr ⟨rfl, rfl⟩)) hcount'
  have hbytes : ∀ j < count, loadByte (copyBytes h₁ (addressOf h (total pre + 1)) (addressOf h (k + 1)) count)
      (addressOf h (total pre + 1) + j) = loadByte h₁ (addressOf h (k + 1) + j) := by
    intro j hj
    refine copyBytes_inside ?_ hj
    unfold addressOf
    omega
  rw [haddr₁] at hcopy
  obtain ⟨h₂, hh₂⟩ : ∃ h₂, h₂ = copyBytes h₁ (addressOf h (total pre + 1)) (addressOf h (k + 1)) count := ⟨_, rfl⟩
  rw [← hh₂] at hcopy hbytes ⊢
  have hbase₂ : h₂.base = h.base := by simp [hh₂, hbase₁]
  have hlen₂ : h₂.len = h.len := by simp [hh₂, hlen₁]
  obtain ⟨segs', fl', hrep₃, hlen₃, hbase₃, htaken₃, hwords₃⟩ :=
    free_keeps hcopy.1 (hlen₂.trans hlen) (hmem.mpr (.inl hk)) hn
  rw [HeapRun.addressOf_congr hbase₂] at hrep₃ hlen₃ hbase₃ hwords₃
  refine ⟨segs', fl', hrep₃, hlen₃.trans hlen₂, hbase₃.trans hbase₂, ⟨by omega, hfits⟩, by omega, fun l x => ?_, ?_, ?_⟩
  · rw [htaken₃, hmem]
  · intro l x hl hlk w hlo hhi
    have := taken_outside_cut hl
    rw [hwords₃ l x (hmem.mpr (.inl hl)) hlk w hlo hhi, hcopy.2 w (by omega), hframe₁ w ⟨l, x, hl, hlo, hhi⟩]
  · intro j hj
    have hthere : loadByte h₁ (addressOf h (k + 1) + j) = loadByte h (addressOf h (k + 1) + j) := by
      refine loadByte_congr hbase₁ (hframe₁ _ ?_)
      rw [word_of_byte hkb.1]
      exact ⟨k, n, hk, by omega, by omega⟩
    rw [← hthere, ← hbytes j (by omega)]
    refine loadByte_congr (hbase₃.trans rfl) (hwords₃ _ _ (hmem.mpr (.inr ⟨rfl, rfl⟩)) (by omega) _ ?_ ?_)
    · rw [hbase₂, word_of_byte (by omega)]
      omega
    · rw [hbase₂, word_of_byte (by omega)]
      omega

/-- When `malloc` finds a block, `realloc` moves the bytes there. Otherwise it gives the old block back all the same. -/
theorem realloc_cases (hr : Rep h segs fl) (hlen : h.len = INTS) (hk : (k, Seg.taken n) ∈ placed 0 segs) (hn : 4 ≤ n)
    {newSize : ℕ} (h0 : 0 < newSize) (hmax : newSize ≤ 0xFFFFFFFC) :
    (realloc h (addressOf h (k + 1)) newSize = .ok (0, free h (addressOf h (k + 1))) ∧
        ∀ x ∈ fl, size h x < Heap.intsFor newSize) ∨
      ∃ t g h' segs' fl', realloc h (addressOf h (k + 1)) newSize = .ok (addressOf h (t + 1), h') ∧ 0 ≤ t ∧
        (∃ x ∈ fl, Heap.intsFor newSize ≤ size h x) ∧ Moved h h' segs segs' fl' k t n g newSize := by
  have hne := HeapRun.addressOf_ne (h := h) hr.base_pos (placed_bounds hk).1
  have hidx := indexOf_addressOf hr hlen hk
  have htaken := isTaken_of_placed hr hn hk
  have hsize : size h k = n := hr.size_eq hk
  have hcount : (if (newSize : ℤ) > (n : ℤ) * 4 then (n : ℤ) * 4 else newSize).toNat = min newSize (4 * n) := by
    split_ifs <;> omega
  simp only [realloc, if_neg hne.1, if_neg (Nat.pos_iff_ne_zero.mp h0), hidx, htaken, hsize, Bool.true_eq_false, if_false,
    hcount, bind, Except.bind]
  rcases malloc_cases hr (Nat.pos_iff_ne_zero.mp h0) with ⟨hm, hsmall⟩ | ⟨pre, m, post, i, hsegs, hints, hi4, him, hin, hm⟩
  · refine .inl ⟨?_, hsmall⟩
    rw [hm]
    rfl
  · subst hsegs
    obtain ⟨segs', fl', hmoved⟩ := moved_after hr hlen hk hn hmax hints hi4 him rfl
    have hq := (HeapRun.addressOf_ne (h := h) hr.base_pos (i := total pre) (by omega)).1
    have hfits : Heap.intsFor newSize ≤ size h (total pre) := by
      rw [hints, hr.size_eq (s := .avail m) (by simp)]
      exact_mod_cast him
    have hsmall : min newSize (4 * n) < 2 ^ 31 := by
      have hb := placed_bounds hk
      have htotal := hr.len_eq
      simp only [hlen, INTS, Seg.size_taken] at htotal hb
      omega
    refine .inr ⟨total pre, granted i m, _, segs', fl', ?_, by omega, ⟨_, hin, hfits⟩, hmoved⟩
    rw [hm]
    simp only [if_pos hq, memcpy, if_pos hsmall, pure, Except.pure]

/-! Runs of the user heap. -/

/-- A size from 2³² − 3 on wraps to a small block, and `realloc` then copies the old block over its end. -/
def NoWrap : UserCall → Prop
  | .realloc p newSize => p ≠ 0 → newSize ≤ 0xFFFFFFFC
  | .malloc _ | .free _ | .write _ _ _ => True

instance (c : UserCall) : Decidable (NoWrap c) := by
  cases c <;> unfold NoWrap <;> infer_instance

def Inv (h : Heap) : Prop := h.len = INTS ∧ ∃ segs fl, Rep h segs fl

theorem init_inv (hpos : 0 < h.base) (hfits : h.base + 4 * INTS ≤ 2 ^ 32) (hinit : h = heapInit h.base) : Inv h := by
  have hints : 4 * INTS / 4 = INTS := by decide
  have hlarge : 8 ≤ 4 * INTS / 4 := by decide
  have hr := HeapRun.setup_rep (fun _ => 0) hlarge hpos (by rwa [hints])
  rw [← heapInit_eq, ← hinit] at hr
  refine ⟨?_, _, _, hr⟩
  rw [hinit]
  rfl

theorem malloc_inv (hi : Inv h) (bytes : ℕ) : Inv (after h (malloc h bytes)) := by
  obtain ⟨hlen, segs, fl, hr⟩ := hi
  by_cases h0 : bytes = 0
  · rw [malloc, if_pos h0]
    exact ⟨hlen, segs, fl, hr⟩
  · rcases malloc_cases hr h0 with ⟨hm, -⟩ | ⟨pre, m, post, i, hsegs, -, hi4, -, -, hm⟩
    · rw [hm]
      exact ⟨hlen, segs, fl, hr⟩
    · subst hsegs
      rw [hm]
      exact ⟨Heap.carved_len.trans hlen, _, _, (hr.after_carve hi4).1⟩

theorem free_null (hp : p = 0 ∨ p = h.base) : free h p = h := by
  unfold free
  rcases hp with h0 | hbase
  · rw [if_pos h0]
  · split_ifs
    · rfl
    · rfl

theorem free_inv (hi : Inv h) (hp : IsLive h p) : Inv (free h p) := by
  obtain ⟨hlen, segs, fl, hr⟩ := hi
  obtain ⟨k, n, hk, hn, rfl⟩ := (isLive_iff hr).mp hp
  obtain ⟨segs', fl', hrep, hlen', -⟩ := free_keeps hr hlen hk hn
  exact ⟨hlen'.trans hlen, segs', fl', hrep⟩

theorem realloc_inv (hi : Inv h) {newSize : ℕ} (hp : p = 0 ∨ IsLive h p) (hmax : p ≠ 0 → newSize ≤ 0xFFFFFFFC) :
    Inv (after h (realloc h p newSize)) := by
  by_cases h0 : p = 0
  · rw [realloc, if_pos h0]
    exact malloc_inv hi newSize
  have hlive := hp.resolve_left h0
  by_cases hzero : newSize = 0
  · rw [realloc, if_neg h0, if_pos hzero]
    exact free_inv hi hlive
  have hfreed := free_inv hi hlive
  obtain ⟨hlen, segs, fl, hr⟩ := hi
  obtain ⟨k, n, hk, hn, rfl⟩ := (isLive_iff hr).mp hlive
  rcases realloc_cases hr hlen hk hn (Nat.pos_of_ne_zero hzero) (hmax h0) with
    ⟨hm, -⟩ | ⟨t, g, h', segs', fl', hm, -, -, hmoved⟩
  · rw [hm]
    exact hfreed
  · rw [hm]
    exact ⟨hmoved.len_eq.trans hlen, segs', fl', hmoved.rep⟩

theorem write_inv (hi : Inv h) {w x : ℤ} (hp : IsLive h p) (hw : w ∈ payload h p) : Inv (store h w x) := by
  obtain ⟨hlen, segs, fl, hr⟩ := hi
  obtain ⟨k, n, hk, -, rfl⟩ := (isLive_iff hr).mp hp
  rw [payload, indexOf_addressOf hr hlen hk, hr.size_eq hk, Seg.size_taken, Set.mem_Icc] at hw
  exact ⟨hlen, segs, fl, hr.store_inTaken ⟨k, n, hk, by omega, by omega⟩ x⟩

theorem step_inv (hi : Inv h) {c : UserCall} (hc : enabled h c) (hwrap : NoWrap c) : Inv (next h c) := by
  cases c with
  | malloc bytes => exact malloc_inv hi bytes
  | free p =>
    rcases hc with h0 | hbase | hlive
    · rw [next, free_null (.inl h0)]
      exact hi
    · rw [next, free_null (.inr hbase)]
      exact hi
    · exact free_inv hi hlive
  | realloc p newSize => exact realloc_inv hi hc.1 hwrap
  | write p w x => exact write_inv hi hc.1 hc.2

theorem reachable_inv (hs : (userHeapMachine.restrict fun _ c => NoWrap c).Reachable h) : Inv h := by
  refine hs.invariant (I := Inv) ?_ ?_
  · rintro h ⟨hpos, hfits, hinit⟩
    exact init_inv hpos hfits hinit
  · rintro h c hi ⟨hc, hwrap⟩
    exact step_inv hi hc hwrap

/-- What the caller of `realloc` relies on, whether it gets a new block or not. -/
def ReallocSafe (h : Heap) (p newSize : ℕ) : Prop :=
  ∃ q h', realloc h p newSize = .ok (q, h') ∧
    (q ≠ 0 →
      (∀ j : ℕ, (j : ℤ) < min (payloadBytes h p) newSize → loadByte h' (q + j) = loadByte h (p + j)) ∧
        (newSize : ℤ) ≤ payloadBytes h' q ∧ IsLive h' q ∧ ¬ IsLive h' p ∧
        ∀ r, IsLive h r → r ≠ p →
          IsLive h' r ∧ payload h' r = payload h r ∧ Set.EqOn h'.array h.array (payload h r)) ∧
    (q = 0 → IsLive h' p ∧ payload h' p = payload h p ∧ Set.EqOn h'.array h.array (payload h p))

theorem Moved.safe (hr : Rep h segs fl) (hlen : h.len = INTS) (hk : (k, Seg.taken n) ∈ placed 0 segs) {t : ℤ}
    {g newSize : ℕ} {segs' : List Seg} {fl' : List ℤ} (ht : 0 ≤ t)
    (hm : realloc h (addressOf h (k + 1)) newSize = .ok (addressOf h (t + 1), h'))
    (hmoved : Moved h h' segs segs' fl' k t n g newSize) : ReallocSafe h (addressOf h (k + 1)) newSize := by
  obtain ⟨hrep, hlen', hbase, hroom, hapart, htaken, hwords, hbytes⟩ := hmoved
  have hkpos := (placed_bounds hk).1
  have hnew : (t, Seg.taken g) ∈ placed 0 segs' := (htaken t g).mpr ⟨.inr ⟨rfl, rfl⟩, hapart⟩
  have haddr (i : ℤ) := HeapRun.addressOf_congr hbase i
  have hidx {l : ℤ} {m : ℕ} (hl : (l, Seg.taken m) ∈ placed 0 segs') : indexOf h' (addressOf h (l + 1)) = l := by
    rw [← haddr]
    exact indexOf_addressOf hrep (hlen'.trans hlen) hl
  have hq := (HeapRun.addressOf_ne (h := h) hr.base_pos ht).1
  refine ⟨_, h', hm, fun _ => ⟨fun j hj => ?_, ?_, ?_, ?_, fun r hlive hne => ?_⟩, fun h0 => absurd h0 hq⟩
  · rw [payloadBytes, indexOf_addressOf hr hlen hk, hr.size_eq hk, Seg.size_taken] at hj
    exact hbytes j (by omega)
  · rw [payloadBytes, hidx hnew, hrep.size_eq hnew, Seg.size_taken]
    omega
  · exact (isLive_iff hrep).mpr ⟨t, g, hnew, hroom.1, (haddr _).symm⟩
  · intro hlive
    obtain ⟨l, m, hl, -, hp⟩ := (isLive_iff hrep).mp hlive
    rw [haddr, HeapRun.addressOf_inj (by omega) (by have := (placed_bounds hl).1; omega)] at hp
    exact ((htaken l m).mp hl).2 (by omega)
  · obtain ⟨l, m, hl, hm4, rfl⟩ := (isLive_iff hr).mp hlive
    have hlk : l ≠ k := fun he => hne (by rw [he])
    have hl' : (l, Seg.taken m) ∈ placed 0 segs' := (htaken l m).mpr ⟨.inl hl, hlk⟩
    have hpay : payload h (addressOf h (l + 1)) = Set.Icc (l + 1) (l + m - 2) := by
      rw [payload, indexOf_addressOf hr hlen hl, hr.size_eq hl, Seg.size_taken]
    refine ⟨(isLive_iff hrep).mpr ⟨l, m, hl', hm4, (haddr _).symm⟩, ?_, fun w hw => ?_⟩
    · rw [hpay, payload, hidx hl', hrep.size_eq hl', Seg.size_taken]
    · rw [hpay, Set.mem_Icc] at hw
      exact hwords l m hl hlk w (by omega) (by omega)

/-- `realloc` keeps its promise just when an available block is large enough: it frees the old block even when it has
none to return. -/
theorem reallocSafe_iff (hs : (userHeapMachine.restrict fun _ c => NoWrap c).Reachable h) (hp : IsLive h p)
    {newSize : ℕ} (h0 : 0 < newSize) (hmax : newSize < 2 ^ 31) :
    ReallocSafe h p newSize ↔ ∃ x ∈ availList h, need newSize ≤ size h x := by
  obtain ⟨hlen, segs, fl, hr⟩ := reachable_inv hs
  obtain ⟨k, n, hk, hn, rfl⟩ := (isLive_iff hr).mp hp
  rw [hr.availList_eq, ← Heap.intsFor_eq_need (by omega)]
  rcases realloc_cases hr hlen hk hn h0 (by omega) with ⟨hm, hsmall⟩ | ⟨t, g, h', segs', fl', hm, ht, hfits, hmoved⟩
  · refine iff_of_false ?_ ?_
    · rintro ⟨q, h', hq, -, hnull⟩
      obtain ⟨rfl, rfl⟩ := Prod.mk.inj (Except.ok.inj (hm.symm.trans hq))
      obtain ⟨segs', fl', hrep, -, hbase, htaken, -⟩ := free_keeps hr hlen hk hn
      obtain ⟨l, m, hl, -, hp⟩ := (isLive_iff hrep).mp (hnull rfl).1
      have hkpos := (placed_bounds hk).1
      have hlpos := (placed_bounds hl).1
      rw [HeapRun.addressOf_congr hbase, HeapRun.addressOf_inj (by omega) (by omega)] at hp
      exact ((htaken l m).mp hl).2 (by omega)
    · rintro ⟨x, hx, hfit⟩
      have := hsmall x hx
      omega
  · exact iff_of_true (hmoved.safe hr hlen hk ht hm) hfits

/-- A program whose array begins at 0x80010000, after its first allocation. -/
theorem firstBlock_run : ∃ h, (userHeapMachine.restrict fun _ c => NoWrap c).Run (heapInit 0x80010000) [.malloc 8] h ∧
    decide (IsLive h 0x8001000C ∧ availList h = [6] ∧ size h 6 = 0xFFFF8) = true :=
  Machine.exists_run_of_replay (by decide)

theorem firstBlock_moved : ∃ h, (userHeapMachine.restrict fun _ c => NoWrap c).Run (heapInit 0x80010000) [.malloc 8] h ∧
    ReallocSafe h 0x8001000C 100 := by
  obtain ⟨h, hrun, hcheck⟩ := firstBlock_run
  obtain ⟨hlive, hlist, hsize⟩ := of_decide_eq_true hcheck
  have hs := hrun.reachable (.init ⟨by decide, by decide, rfl⟩)
  refine ⟨h, hrun, (reallocSafe_iff hs hlive (by decide) (by decide)).mpr ⟨6, by simp [hlist], ?_⟩⟩
  rw [hsize]
  decide

/-- A request for more than the heap has: null is returned, and the block is gone. -/
theorem firstBlock_lost : ¬ ∀ h, userHeapMachine.Reachable h → ∀ p, IsLive h p → ∀ newSize, 0 < newSize →
    newSize < 2 ^ 31 → ReallocSafe h p newSize := by
  intro hall
  obtain ⟨h, hrun, hcheck⟩ := firstBlock_run
  obtain ⟨hlive, hlist, hsize⟩ := of_decide_eq_true hcheck
  have hs := hrun.reachable (.init ⟨by decide, by decide, rfl⟩)
  have hsafe := hall h hs.of_restrict _ hlive 0x400000 (by decide) (by decide)
  obtain ⟨x, hx, hfit⟩ := (reallocSafe_iff hs hlive (by decide) (by decide)).mp hsafe
  rw [hlist, List.mem_singleton] at hx
  rw [hx, hsize] at hfit
  exact absurd hfit (by decide)

end UserHeap
end AudioKernel
