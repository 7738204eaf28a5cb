import AudioKernel.Lib.LinkedList
import Mathlib.Data.List.Chain
import Mathlib.Tactic.Ring
import Mathlib.Tactic.SplitIfs
import Mathlib.Algebra.BigOperators.Group.List.Basic

/-! Boundary-tag memory: an array cut into segments whose first and last word repeat a signed size,
negative for a taken segment, with a doubly linked list through the available ones. -/
namespace AudioKernel.Lib

/-- A segment of the array and its length in words. The tags of a hole are not set. -/
inductive Seg
  | taken (n : ℕ)
  | avail (n : ℕ)
  | hole (n : ℕ)
  deriving DecidableEq, Repr

namespace Seg

def size : Seg → ℕ
  | taken n | avail n | hole n => n

def tag? : Seg → Option ℤ
  | taken n => some (-n)
  | avail n => some n
  | hole _ => none

def isAvail : Seg → Bool
  | avail _ => true
  | taken _ | hole _ => false

/-- Room for the tags, and for the two links of an available segment. -/
def Wide : Seg → Prop
  | taken n => 2 ≤ n
  | avail n => 4 ≤ n
  | hole _ => True

variable (n : ℕ)

@[simp] theorem size_taken : (taken n).size = n := rfl
@[simp] theorem size_avail : (avail n).size = n := rfl
@[simp] theorem size_hole : (hole n).size = n := rfl
@[simp] theorem tag?_taken : (taken n).tag? = some (-(n : ℤ)) := rfl
@[simp] theorem tag?_avail : (avail n).tag? = some (n : ℤ) := rfl
@[simp] theorem isAvail_taken : (taken n).isAvail = false := rfl
@[simp] theorem isAvail_avail : (avail n).isAvail = true := rfl
@[simp] theorem wide_taken : (taken n).Wide ↔ 2 ≤ n := Iff.rfl
@[simp] theorem wide_avail : (avail n).Wide ↔ 4 ≤ n := Iff.rfl

end Seg

def total : List Seg → ℕ
  | [] => 0
  | s :: segs => s.size + total segs

@[simp] theorem total_nil : total [] = 0 := rfl

@[simp] theorem total_cons (s : Seg) (segs : List Seg) : total (s :: segs) = s.size + total segs := rfl

@[simp] theorem total_append (xs ys : List Seg) : total (xs ++ ys) = total xs + total ys := by
  induction xs with
  | nil => simp
  | cons s xs ih => simp [ih, Nat.add_assoc]

/-- The segments with the index at which each begins. -/
def placed : ℤ → List Seg → List (ℤ × Seg)
  | _, [] => []
  | i, s :: segs => (i, s) :: placed (i + s.size) segs

@[simp] theorem placed_nil (i : ℤ) : placed i [] = [] := rfl

@[simp] theorem placed_cons (i : ℤ) (s : Seg) (segs : List Seg) :
    placed i (s :: segs) = (i, s) :: placed (i + s.size) segs := rfl

@[simp] theorem placed_append (i : ℤ) (xs ys : List Seg) :
    placed i (xs ++ ys) = placed i xs ++ placed (i + total xs) ys := by
  induction xs generalizing i with
  | nil => simp
  | cons s xs ih => simp [ih, add_assoc]

theorem placed_bounds {i k : ℤ} {s : Seg} {segs : List Seg} (h : (k, s) ∈ placed i segs) :
    i ≤ k ∧ k + s.size ≤ i + total segs := by
  induction segs generalizing i with
  | nil => simp at h
  | cons t segs ih =>
    simp only [placed_cons, List.mem_cons, Prod.mk.injEq, total_cons, Nat.cast_add] at h ⊢
    rcases h with ⟨rfl, rfl⟩ | h
    · omega
    · have := ih h
      omega

/-- A placed segment cuts the list in two. -/
theorem exists_cut {i k : ℤ} {s : Seg} {segs : List Seg} (h : (k, s) ∈ placed i segs) :
    ∃ pre post, segs = pre ++ s :: post ∧ k = i + total pre := by
  induction segs generalizing i with
  | nil => simp at h
  | cons t segs ih =>
    simp only [placed_cons, List.mem_cons, Prod.mk.injEq] at h
    rcases h with ⟨rfl, rfl⟩ | h
    · exact ⟨[], segs, rfl, by simp⟩
    · obtain ⟨pre, post, rfl, rfl⟩ := ih h
      exact ⟨t :: pre, post, rfl, by simp [add_assoc]⟩

/-- Two placed segments are the same or do not overlap. -/
theorem placed_separate {i k l : ℤ} {s t : Seg} {segs : List Seg} (hs : (k, s) ∈ placed i segs)
    (ht : (l, t) ∈ placed i segs) :
    (k = l ∧ s = t) ∨ k + s.size ≤ l ∨ l + t.size ≤ k := by
  induction segs generalizing i with
  | nil => simp at hs
  | cons u segs ih =>
    simp only [placed_cons, List.mem_cons, Prod.mk.injEq] at hs ht
    rcases hs with ⟨rfl, rfl⟩ | hs <;> rcases ht with ⟨rfl, rfl⟩ | ht
    · exact .inl ⟨rfl, rfl⟩
    · exact .inr (.inl (placed_bounds ht).1)
    · exact .inr (.inr (placed_bounds hs).1)
    · exact ih hs ht

theorem map_snd_placed (i : ℤ) (segs : List Seg) : (placed i segs).map Prod.snd = segs := by
  induction segs generalizing i with
  | nil => rfl
  | cons s segs ih => simp [ih]

/-- Each segment begins where the one before it ends. -/
theorem placed_adjacent (i : ℤ) (segs : List Seg) :
    (placed i segs).IsChain fun a b : ℤ × Seg => b.1 = a.1 + a.2.size := by
  induction segs generalizing i with
  | nil => exact .nil
  | cons s segs ih =>
    rw [placed_cons, List.isChain_cons]
    refine ⟨fun b hb => ?_, ih _⟩
    cases segs with
    | nil => simp at hb
    | cons t segs =>
      simp only [placed_cons, List.head?_cons, Option.mem_def, Option.some.injEq] at hb
      rw [← hb]

/-- Every segment that has a tag carries it in its first and in its last word. -/
def Tagged (mem : ℤ → ℤ) (i : ℤ) (segs : List Seg) : Prop :=
  ∀ k s v, (k, s) ∈ placed i segs → s.tag? = some v → mem k = v ∧ mem (k + s.size - 1) = v

/-- The words of an array are laid out as `segs`, with the list `fl` through available segments. -/
structure Layout (mem : ℤ → ℤ) (head : ℤ) (segs : List Seg) (fl : List ℤ) : Prop where
  wide : ∀ s ∈ segs, s.Wide
  tagged : Tagged mem 0 segs
  listed : ∀ k ∈ fl, 0 < k ∧ ∃ n, (k, Seg.avail n) ∈ placed 0 segs
  nodup : fl.Nodup
  head_eq : head = fl.headD 0
  links : Linked 0 (fun k => mem (k + 1)) (fun k => mem (k + 2)) 0 fl

theorem mem_of_placed {i k : ℤ} {s : Seg} {segs : List Seg} (h : (k, s) ∈ placed i segs) : s ∈ segs := by
  obtain ⟨pre, post, rfl, _⟩ := exists_cut h
  simp

namespace Layout

variable {mem mem' : ℤ → ℤ} {head k : ℤ} {segs pre mid post : List Seg} {fl l r : List ℤ}

theorem listed_size (h : Layout mem head segs fl) {k : ℤ} (hk : k ∈ fl) :
    ∃ n : ℕ, 4 ≤ n ∧ 0 < k ∧ (k, Seg.avail n) ∈ placed 0 segs := by
  obtain ⟨hpos, n, hn⟩ := h.listed k hk
  exact ⟨n, h.wide _ (mem_of_placed hn), hpos, hn⟩

/-- The links of two listed segments are words of their own. -/
theorem listed_apart (h : Layout mem head segs fl) {k l : ℤ} (hk : k ∈ fl) (hl : l ∈ fl) :
    k = l ∨ k + 4 ≤ l ∨ l + 4 ≤ k := by
  obtain ⟨n, hn, -, hkn⟩ := h.listed_size hk
  obtain ⟨m, hm, -, hlm⟩ := h.listed_size hl
  rcases placed_separate hkn hlm with ⟨rfl, -⟩ | hs | hs
  · exact .inl rfl
  · simp only [Seg.size] at hs
    omega
  · simp only [Seg.size] at hs
    omega

/-- A word that no tag and no link depends on: it lies strictly between the tags of a taken
segment. -/
def InTaken (segs : List Seg) (w : ℤ) : Prop :=
  ∃ k n, (k, Seg.taken n) ∈ placed 0 segs ∧ k < w ∧ w < k + n - 1

/-- The layout depends on the tags and on the links of the listed segments only. -/
theorem congr (h : Layout mem head segs fl)
    (htag : ∀ k s v, (k, s) ∈ placed 0 segs → s.tag? = some v →
      mem' k = mem k ∧ mem' (k + s.size - 1) = mem (k + s.size - 1))
    (hlink : ∀ k ∈ fl, mem' (k + 1) = mem (k + 1) ∧ mem' (k + 2) = mem (k + 2)) :
    Layout mem' head segs fl where
  wide := h.wide
  tagged k s v hk hv := by
    rw [(htag k s v hk hv).1, (htag k s v hk hv).2]
    exact h.tagged k s v hk hv
  listed := h.listed
  nodup := h.nodup
  head_eq := h.head_eq
  links := h.links.congr (fun k hk => (hlink k hk).1) (fun k hk => (hlink k hk).2)

def IsLink (fl : List ℤ) (w : ℤ) : Prop := ∃ k ∈ fl, w = k + 1 ∨ w = k + 2

theorem size_ge_two {s : Seg} {v : ℤ} (hw : s.Wide) (hv : s.tag? = some v) : 2 ≤ s.size := by
  cases s with
  | taken n => exact hw
  | avail n => exact le_trans (by omega) hw
  | hole n => cases hv

theorem tag_not_isLink (h : Layout mem head segs fl) {k v : ℤ} {s : Seg} (hk : (k, s) ∈ placed 0 segs)
    (hv : s.tag? = some v) : ¬ IsLink fl k ∧ ¬ IsLink fl (k + s.size - 1) := by
  have hs := size_ge_two (h.wide s (mem_of_placed hk)) hv
  have hlink : ∀ l ∈ fl, k ≠ l + 1 ∧ k ≠ l + 2 ∧ k + s.size - 1 ≠ l + 1 ∧ k + s.size - 1 ≠ l + 2 := by
    intro l hl
    obtain ⟨m, hm, -, hlm⟩ := h.listed_size hl
    rcases placed_separate hk hlm with ⟨rfl, rfl⟩ | ha | ha <;> simp only [Seg.size] at * <;> omega
  constructor
  · rintro ⟨l, hl, he⟩
    have := hlink l hl
    omega
  · rintro ⟨l, hl, he⟩
    have := hlink l hl
    omega

theorem inTaken_not_isLink (h : Layout mem head segs fl) {w : ℤ} (hw : InTaken segs w) :
    ¬ IsLink fl w := by
  obtain ⟨k, n, hk, hlo, hhi⟩ := hw
  rintro ⟨l, hl, he⟩
  obtain ⟨m, hm, -, hlm⟩ := h.listed_size hl
  rcases placed_separate hk hlm with ⟨-, hne⟩ | ha | ha
  · cases hne
  · simp only [Seg.size] at ha
    omega
  · simp only [Seg.size] at ha
    omega

theorem inTaken_not_tag (h : Layout mem head segs fl) {w k v : ℤ} {s : Seg} (hw : InTaken segs w)
    (hk : (k, s) ∈ placed 0 segs) (hv : s.tag? = some v) : k ≠ w ∧ k + s.size - 1 ≠ w := by
  obtain ⟨l, n, hl, hlo, hhi⟩ := hw
  have hs := size_ge_two (h.wide s (mem_of_placed hk)) hv
  rcases placed_separate hl hk with ⟨rfl, rfl⟩ | ha | ha <;> simp only [Seg.size] at * <;> omega

/-- A store strictly inside a taken segment does not disturb the layout. -/
theorem store_inTaken (h : Layout mem head segs fl) {w : ℤ} (hw : InTaken segs w) (v : ℤ) :
    Layout (Function.update mem w v) head segs fl := by
  refine h.congr (fun k s u hk hu => ?_) (fun k hk => ?_)
  · have hne := h.inTaken_not_tag hw hk hu
    rw [Function.update_of_ne hne.1, Function.update_of_ne hne.2]
    exact ⟨rfl, rfl⟩
  · have hnl := h.inTaken_not_isLink hw
    have h1 : k + 1 ≠ w := fun he => hnl ⟨k, hk, .inl he.symm⟩
    have h2 : k + 2 ≠ w := fun he => hnl ⟨k, hk, .inr he.symm⟩
    rw [Function.update_of_ne h1, Function.update_of_ne h2]
    exact ⟨rfl, rfl⟩

/-! Taking a segment out of the list. -/

/-- The words after the segment at `k` has been taken out of the list. -/
def unlinked (mem : ℤ → ℤ) (k : ℤ) : ℤ → ℤ :=
  let mem₁ := if mem (k + 2) = 0 then mem else Function.update mem (mem (k + 2) + 1) (mem (k + 1))
  if mem (k + 1) = 0 then mem₁ else Function.update mem₁ (mem (k + 1) + 2) (mem (k + 2))

/-- The first listed segment after the one at `k` has been taken out. -/
def unlinkedHead (mem : ℤ → ℤ) (head k : ℤ) : ℤ := if mem (k + 2) = 0 then mem (k + 1) else head

theorem prev_listed (h : Layout mem head segs (l ++ k :: r)) : mem (k + 2) = l.getLastD 0 :=
  h.links.prev_eq

theorem next_listed (h : Layout mem head segs (l ++ k :: r)) : mem (k + 1) = r.headD 0 :=
  h.links.next_eq

theorem zero_not_listed (h : Layout mem head segs fl) : (0 : ℤ) ∉ fl :=
  fun h0 => lt_irrefl 0 (h.listed 0 h0).1

theorem headD_listed {x : ℤ} {xs : List ℤ} (h : x = xs.headD 0) : x = 0 ∨ x ∈ xs := by
  cases xs with
  | nil => exact .inl h
  | cons y ys => exact .inr (by simp [h])

theorem getLastD_listed {x : ℤ} {xs : List ℤ} (h : x = xs.getLastD 0) : x = 0 ∨ x ∈ xs := by
  have := getLastD_mem_cons xs 0
  rw [← h, List.mem_cons] at this
  exact this

/-- Taking a segment out of the list stores to link words only. -/
theorem unlinked_of_not_isLink (h : Layout mem head segs (l ++ k :: r)) {w : ℤ}
    (hw : ¬ IsLink (l ++ r) w) : unlinked mem k w = mem w := by
  have hp : mem (k + 2) ≠ 0 → w ≠ mem (k + 2) + 1 := by
    intro h0 he
    have := (getLastD_listed h.prev_listed).resolve_left h0
    exact hw ⟨_, List.mem_append_left _ this, .inl he⟩
  have hn : mem (k + 1) ≠ 0 → w ≠ mem (k + 1) + 2 := by
    intro h0 he
    have := (headD_listed h.next_listed).resolve_left h0
    exact hw ⟨_, List.mem_append_right _ this, .inr he⟩
  unfold unlinked
  split_ifs with h1 h2 h2
  · rfl
  · exact Function.update_of_ne (hp h2) _ _
  · exact Function.update_of_ne (hn h1) _ _
  · rw [Function.update_of_ne (hn h1), Function.update_of_ne (hp h2)]

theorem isLink_mono {fl' : List ℤ} (hsub : ∀ k ∈ fl, k ∈ fl') {w : ℤ} (hw : IsLink fl w) :
    IsLink fl' w := by
  obtain ⟨k, hk, he⟩ := hw
  exact ⟨k, hsub k hk, he⟩

/-- The link words after `unlinked` are those of the abstract list. -/
private theorem unlinked_links (h : Layout mem head segs (l ++ k :: r)) {x : ℤ} (hx : x ∈ l ++ k :: r) :
    unlinked mem k (x + 1) = unlinkNext 0 (fun k => mem (k + 1)) (fun k => mem (k + 2)) k x ∧
      unlinked mem k (x + 2) = unlinkPrev 0 (fun k => mem (k + 1)) (fun k => mem (k + 2)) k x := by
  have hp : mem (k + 2) ≠ 0 → x + 2 ≠ mem (k + 2) + 1 := by
    intro h0
    have hm := (getLastD_listed h.prev_listed).resolve_left h0
    have := h.listed_apart hx (List.mem_append_left _ hm)
    omega
  have hn : mem (k + 1) ≠ 0 → x + 1 ≠ mem (k + 1) + 2 := by
    intro h0
    have hm := (headD_listed h.next_listed).resolve_left h0
    have := h.listed_apart hx (List.mem_append_right l (List.mem_cons_of_mem k hm))
    omega
  constructor
  · unfold unlinked unlinkNext
    split_ifs with h1 h2 h2
    · rfl
    · simp only [Function.update_apply, add_left_inj]
    · exact Function.update_of_ne (hn h1) _ _
    · rw [Function.update_of_ne (hn h1)]
      simp only [Function.update_apply, add_left_inj]
  · unfold unlinked unlinkPrev
    split_ifs with h1 h2 h2
    · rfl
    · exact Function.update_of_ne (hp h2) _ _
    · simp only [Function.update_apply, add_left_inj]
    · simp only [Function.update_apply, add_left_inj, if_neg (hp h2)]

theorem unlink (h : Layout mem head segs (l ++ k :: r)) :
    Layout (unlinked mem k) (unlinkedHead mem head k) segs (l ++ r) := by
  have hsub : ∀ x ∈ l ++ r, x ∈ l ++ k :: r := by
    intro x hx
    simp only [List.mem_append, List.mem_cons] at hx ⊢
    tauto
  refine ⟨h.wide, ?_, fun x hx => h.listed x (hsub x hx), ?_, ?_, ?_⟩
  · intro x s v hx hv
    have hnl := h.tag_not_isLink hx hv
    rw [h.unlinked_of_not_isLink (fun hc => hnl.1 (isLink_mono hsub hc)),
      h.unlinked_of_not_isLink (fun hc => hnl.2 (isLink_mono hsub hc))]
    exact h.tagged x s v hx hv
  · exact h.nodup.sublist (List.Sublist.append_left (List.sublist_cons_self k r) l)
  · have hprev := h.prev_listed
    have hnext := h.next_listed
    cases l with
    | nil =>
      rw [unlinkedHead, if_pos (show mem (k + 2) = 0 from hprev)]
      exact hnext
    | cons x l =>
      rw [List.getLastD_cons] at hprev
      have hne : mem (k + 2) ≠ 0 := fun h0 =>
        h.zero_not_listed (List.mem_append_left _ (by rw [← h0, hprev]; exact getLastD_mem_cons l x))
      rw [unlinkedHead, if_neg hne]
      exact h.head_eq
  · have hl := h.links.unlink h.nodup h.zero_not_listed h.zero_not_listed
    exact hl.congr (fun x hx => (h.unlinked_links (hsub x hx)).1)
      (fun x hx => (h.unlinked_links (hsub x hx)).2)

/-- Taking a listed segment out, with the remaining list as `erase` gives it. -/
theorem unlink_erase (h : Layout mem head segs fl) (hk : k ∈ fl) :
    Layout (unlinked mem k) (unlinkedHead mem head k) segs (fl.erase k) := by
  obtain ⟨l, r, -, rfl, he⟩ := List.exists_erase_eq hk
  rw [he]
  exact h.unlink

theorem mem_erase (h : Layout mem head segs fl) {x : ℤ} : x ∈ fl.erase k ↔ x ∈ fl ∧ x ≠ k := by
  rw [h.nodup.mem_erase_iff, and_comm]

theorem unlinked_inTaken (h : Layout mem head segs fl) (hk : k ∈ fl) {w : ℤ} (hw : InTaken segs w) :
    unlinked mem k w = mem w := by
  obtain ⟨l, r, rfl⟩ := List.append_of_mem hk
  refine h.unlinked_of_not_isLink (fun hc => h.inTaken_not_isLink hw (isLink_mono ?_ hc))
  intro x hx
  simp only [List.mem_append, List.mem_cons] at hx ⊢
  tauto

/-! Giving up the tags of unlisted segments, and setting the tags of a hole. -/

/-- Segments that are not listed may be forgotten: their words become holes. -/
theorem dig (h : Layout mem head (pre ++ (mid ++ post)) fl) (holes : List ℕ)
    (hsum : total (holes.map Seg.hole) = total mid)
    (hfl : ∀ k ∈ fl, k < total pre ∨ total pre + total mid ≤ k) :
    Layout mem head (pre ++ (holes.map Seg.hole ++ post)) fl := by
  have hhole : ∀ {i k : ℤ} {s : Seg}, (k, s) ∈ placed i (holes.map Seg.hole) → ∃ n, s = .hole n := by
    intro i k s hs
    obtain ⟨n, -, rfl⟩ := List.mem_map.mp (mem_of_placed hs)
    exact ⟨n, rfl⟩
  refine ⟨?_, ?_, ?_, h.nodup, h.head_eq, h.links⟩
  · intro s hs
    simp only [List.mem_append, List.mem_map] at hs
    rcases hs with hs | ⟨n, -, rfl⟩ | hs
    · exact h.wide s (by simp [hs])
    · trivial
    · exact h.wide s (by simp [hs])
  · intro k s v hk hv
    simp only [placed_append, List.mem_append, hsum] at hk
    rcases hk with hk | hk | hk
    · exact h.tagged k s v (by simp only [placed_append, List.mem_append, hk, true_or]) hv
    · obtain ⟨n, rfl⟩ := hhole hk
      cases hv
    · exact h.tagged k s v (by simp only [placed_append, List.mem_append, hk, or_true]) hv
  · intro k hk
    obtain ⟨n, hn, hpos, hm⟩ := h.listed_size hk
    refine ⟨hpos, n, ?_⟩
    simp only [placed_append, List.mem_append, hsum] at hm ⊢
    rcases hm with hm | hm | hm
    · exact .inl hm
    · have := placed_bounds hm
      have := hfl k hk
      simp only [Seg.size] at *
      omega
    · exact .inr (.inr hm)

/-- A tagged segment on either side of a hole does not reach into it. -/
theorem outside_hole {n : ℕ} {s : Seg} (hs : (k, s) ∈ placed 0 pre ∨ (k, s) ∈ placed (total pre + n) post) :
    k + s.size ≤ total pre ∨ total pre + n ≤ k := by
  rcases hs with hs | hs
  · have := placed_bounds hs
    omega
  · have := placed_bounds hs
    omega

/-- Filling a hole with one segment: the other tags and the links are untouched by the stores. -/
theorem fill {n : ℕ} {s : Seg} (h : Layout mem head (pre ++ .hole n :: post) fl) (hs : s.size = n)
    (hw : s.Wide) (htag : ∀ v, s.tag? = some v → mem' (total pre) = v ∧ mem' (total pre + n - 1) = v)
    (hframe : ∀ w : ℤ, w < total pre ∨ total pre + n ≤ w → ¬ IsLink fl w → mem' w = mem w) :
    (∀ t ∈ pre ++ s :: post, t.Wide) ∧ Tagged mem' 0 (pre ++ s :: post) ∧
      ∀ k ∈ fl, 0 < k ∧ ∃ m, (k, Seg.avail m) ∈ placed 0 (pre ++ s :: post) := by
  have hmem : ∀ {k : ℤ} {t : Seg}, (k, t) ∈ placed 0 pre ∨ (k, t) ∈ placed (total pre + n) post →
      (k, t) ∈ placed 0 (pre ++ .hole n :: post) := by
    intro k t hk
    simp only [placed_append, placed_cons, List.mem_append, List.mem_cons, zero_add, Seg.size]
    tauto
  refine ⟨?_, ?_, ?_⟩
  · intro t ht
    simp only [List.mem_append, List.mem_cons] at ht
    rcases ht with ht | rfl | ht
    · exact h.wide t (by simp [ht])
    · exact hw
    · exact h.wide t (by simp [ht])
  · intro k t v hk hv
    simp only [placed_append, placed_cons, List.mem_append, List.mem_cons, zero_add, Prod.mk.injEq, hs] at hk
    by_cases hmid : k = total pre ∧ t = s
    · obtain ⟨rfl, rfl⟩ := hmid
      rw [hs]
      exact htag v hv
    · have hout : (k, t) ∈ placed 0 pre ∨ (k, t) ∈ placed (total pre + n) post := by tauto
      have hb := outside_hole hout
      have hsize := size_ge_two (h.wide t (mem_of_placed (hmem hout))) hv
      have hnl := h.tag_not_isLink (hmem hout) hv
      rw [hframe k (by omega) hnl.1, hframe _ (by omega) hnl.2]
      exact h.tagged k t v (hmem hout) hv
  · intro k hk
    obtain ⟨m, hm, hpos, hp⟩ := h.listed_size hk
    refine ⟨hpos, m, ?_⟩
    simp only [placed_append, placed_cons, List.mem_append, List.mem_cons, zero_add, Prod.mk.injEq,
      Seg.size, reduceCtorEq, and_false, false_or] at hp
    simp only [placed_append, placed_cons, List.mem_append, List.mem_cons, zero_add, hs]
    tauto

/-- The words after both tags of a taken segment of `n` words have been set. -/
def takenAt (mem : ℤ → ℤ) (i : ℤ) (n : ℕ) : ℤ → ℤ :=
  Function.update (Function.update mem i (-n)) (i + n - 1) (-n)

theorem takenAt_of_ne {i w : ℤ} {n : ℕ} (h1 : w ≠ i) (h2 : w ≠ i + n - 1) : takenAt mem i n w = mem w := by
  rw [takenAt, Function.update_of_ne h2, Function.update_of_ne h1]

/-- A listed segment lies on one side of a hole. -/
theorem listed_outside {n : ℕ} (h : Layout mem head (pre ++ .hole n :: post) fl) (hk : k ∈ fl) :
    0 < k ∧ (k + 4 ≤ total pre ∨ total pre + n ≤ k) := by
  obtain ⟨m, hm, hpos, hp⟩ := h.listed_size hk
  simp only [placed_append, placed_cons, List.mem_append, List.mem_cons, zero_add, Prod.mk.injEq,
    Seg.size, reduceCtorEq, and_false, false_or] at hp
  have := outside_hole hp
  simp only [Seg.size] at this
  omega

theorem fill_taken {n : ℕ} (h : Layout mem head (pre ++ .hole n :: post) fl) (hn : 2 ≤ n) :
    Layout (takenAt mem (total pre) n) head (pre ++ .taken n :: post) fl := by
  have hwords (v : ℤ) (hv : (Seg.taken n).tag? = some v) :
      takenAt mem (total pre) n (total pre) = v ∧ takenAt mem (total pre) n (total pre + n - 1) = v := by
    cases hv
    simp only [takenAt, Function.update_apply]
    split_ifs <;> simp_all
  have hframe (w : ℤ) (hw : w < total pre ∨ total pre + n ≤ w) (_ : ¬ IsLink fl w) :
      takenAt mem (total pre) n w = mem w := takenAt_of_ne (by omega) (by omega)
  obtain ⟨hwide, htag, hlisted⟩ := h.fill (s := .taken n) rfl hn hwords hframe
  refine ⟨hwide, htag, hlisted, h.nodup, h.head_eq, h.links.congr ?_ ?_⟩
  · intro k hk
    have := h.listed_outside hk
    exact takenAt_of_ne (by omega) (by omega)
  · intro k hk
    have := h.listed_outside hk
    exact takenAt_of_ne (by omega) (by omega)

/-- The words after an available segment of `n` words has been set up at `i` and put in front of
the list that begins at `head`. -/
def availAt (mem : ℤ → ℤ) (head i : ℤ) (n : ℕ) : ℤ → ℤ :=
  let mem₁ := Function.update (Function.update mem i n) (i + n - 1) n
  let mem₂ := Function.update (Function.update mem₁ (i + 1) head) (i + 2) 0
  if head = 0 then mem₂ else Function.update mem₂ (head + 2) i

theorem availAt_of_ne {i w : ℤ} {n : ℕ} (h1 : w ≠ i) (h2 : w ≠ i + n - 1) (h3 : w ≠ i + 1) (h4 : w ≠ i + 2)
    (h5 : head ≠ 0 → w ≠ head + 2) : availAt mem head i n w = mem w := by
  unfold availAt
  split_ifs with h0
  · rw [Function.update_of_ne h4, Function.update_of_ne h3, Function.update_of_ne h2, Function.update_of_ne h1]
  · rw [Function.update_of_ne (h5 h0), Function.update_of_ne h4, Function.update_of_ne h3,
      Function.update_of_ne h2, Function.update_of_ne h1]

section
variable {i : ℤ} {n : ℕ}

/-- The words of the segment that `availAt` sets up: both tags, then the two links. -/
theorem availAt_words (hn : 4 ≤ n) (hout : head ≠ 0 → head + 4 ≤ i ∨ i + n ≤ head) :
    (availAt mem head i n i = n ∧ availAt mem head i n (i + n - 1) = n) ∧
      availAt mem head i n (i + 1) = head ∧ availAt mem head i n (i + 2) = 0 := by
  unfold availAt
  split_ifs with h0
  · simp only [Function.update_apply]
    refine ⟨⟨?_, ?_⟩, ?_, ?_⟩ <;> split_ifs <;> omega
  · have := hout h0
    simp only [Function.update_apply]
    refine ⟨⟨?_, ?_⟩, ?_, ?_⟩ <;> split_ifs <;> omega

theorem availAt_prev_head (h0 : head ≠ 0) : availAt mem head i n (head + 2) = i := by
  unfold availAt
  rw [if_neg h0, Function.update_self]

end

theorem fill_avail {n : ℕ} (h : Layout mem head (pre ++ .hole n :: post) fl) (hn : 4 ≤ n)
    (hpos : 0 < total pre) :
    Layout (availAt mem head (total pre) n) (total pre) (pre ++ .avail n :: post) (total pre :: fl) := by
  have hhead : head ≠ 0 → head ∈ fl := fun h0 => (headD_listed h.head_eq).resolve_left h0
  have hout : head ≠ 0 → head + 4 ≤ total pre ∨ total pre + n ≤ head :=
    fun h0 => (h.listed_outside (hhead h0)).2
  have hnew : (total pre : ℤ) ∉ fl := fun hc => by
    have := h.listed_outside hc
    omega
  have hframe (w : ℤ) (hw : w < total pre ∨ total pre + n ≤ w) (hl : ¬ IsLink fl w) :
      availAt mem head (total pre) n w = mem w :=
    availAt_of_ne (by omega) (by omega) (by omega) (by omega) fun h0 he => hl ⟨head, hhead h0, .inr he⟩
  have hwords (v : ℤ) (hv : (Seg.avail n).tag? = some v) :
      availAt mem head (total pre) n (total pre) = v ∧ availAt mem head (total pre) n (total pre + n - 1) = v := by
    cases hv
    exact (availAt_words (by omega) hout).1
  obtain ⟨hwide, htag, hlisted⟩ := h.fill (s := .avail n) rfl hn hwords hframe
  refine ⟨hwide, htag, ?_, List.nodup_cons.mpr ⟨hnew, h.nodup⟩, rfl, ?_⟩
  · intro k hk
    rcases List.mem_cons.mp hk with rfl | hk
    · exact ⟨by omega, n, by simp⟩
    · exact hlisted k hk
  · refine h.links.push ?_ ?_ (fun k hk => ?_) (fun k hk => ?_) (fun k hk => ?_)
    · exact (availAt_words (by omega) hout).2.1.trans h.head_eq
    · exact (availAt_words (by omega) hout).2.2
    · have := h.listed_outside hk
      refine availAt_of_ne (by omega) (by omega) (by omega) (by omega) (fun h0 => ?_)
      have := h.listed_apart hk (hhead h0)
      omega
    · obtain rfl : head = k := by rw [h.head_eq, List.headD_eq_head?_getD, hk, Option.getD_some]
      have := h.listed (head) (List.mem_of_mem_head? hk)
      exact availAt_prev_head (by omega)
    · have hk' := List.mem_of_mem_tail hk
      have := h.listed_outside hk'
      refine availAt_of_ne (by omega) (by omega) (by omega) (by omega) (fun h0 => ?_)
      have hne : k ≠ head := by
        have hd := h.nodup
        have he := h.head_eq
        cases fl with
        | nil => cases hk
        | cons x xs =>
          rintro rfl
          obtain rfl : k = x := he
          exact (List.nodup_cons.mp hd).1 hk
      omega

/-! Which words hold no negative number: a tag of an available segment, a link, and what was there before. -/

theorem link_nonneg (h : Layout mem head segs fl) (hk : k ∈ fl) : 0 ≤ mem (k + 1) ∧ 0 ≤ mem (k + 2) := by
  obtain ⟨l, r, rfl⟩ := List.append_of_mem hk
  constructor
  · rcases headD_listed h.next_listed with h0 | hr
    · exact h0.ge
    · exact (h.listed _ (by simp [hr])).1.le
  · rcases getLastD_listed h.prev_listed with h0 | hl
    · exact h0.ge
    · exact (h.listed _ (by simp [hl])).1.le

theorem head_nonneg (h : Layout mem head segs fl) : 0 ≤ head := by
  rcases headD_listed h.head_eq with h0 | hin
  · exact h0.ge
  · exact (h.listed _ hin).1.le

theorem unlinked_nonneg (h : Layout mem head segs fl) (hk : k ∈ fl) (w : ℤ) : 0 ≤ unlinked mem k w ↔ 0 ≤ mem w := by
  by_cases hw : ∃ l r, fl = l ++ k :: r ∧ ¬ IsLink (l ++ r) w
  · obtain ⟨l, r, rfl, hnot⟩ := hw
    rw [h.unlinked_of_not_isLink hnot]
  · -- a link word of another segment holds a link before and after
    push Not at hw
    obtain ⟨l, r, -, rfl, he⟩ := List.exists_erase_eq hk
    obtain ⟨x, hx, hxw⟩ := hw l r rfl
    have hin : x ∈ l ++ k :: r := by
      simp only [List.mem_append, List.mem_cons] at hx ⊢
      tauto
    have hbefore := h.link_nonneg hin
    have hafter := (he ▸ h.unlink_erase hk).link_nonneg hx
    rcases hxw with rfl | rfl
    · exact iff_of_true hafter.1 hbefore.1
    · exact iff_of_true hafter.2 hbefore.2

theorem takenAt_nonneg {i : ℤ} {n : ℕ} (hn : 0 < n) (w : ℤ) :
    0 ≤ takenAt mem i n w ↔ w ≠ i ∧ w ≠ i + n - 1 ∧ 0 ≤ mem w := by
  by_cases htag : w = i ∨ w = i + n - 1
  · have hword : takenAt mem i n w = -n := by
      simp only [takenAt, Function.update_apply]
      split_ifs <;> simp_all
    rw [hword]
    constructor
    · omega
    · omega
  · push Not at htag
    rw [takenAt_of_ne htag.1 htag.2]
    exact ⟨fun h => ⟨htag.1, htag.2, h⟩, fun h => h.2.2⟩

theorem availAt_nonneg {i : ℤ} {n : ℕ} (hi : 0 ≤ i) (hhead : 0 ≤ head) (hlink : head ≠ 0 → 0 ≤ mem (head + 2)) (w : ℤ) :
    0 ≤ availAt mem head i n w ↔ w = i ∨ w = i + 1 ∨ w = i + 2 ∨ w = i + n - 1 ∨ 0 ≤ mem w := by
  unfold availAt
  split_ifs with h0
  · simp only [Function.update_apply]
    split_ifs <;> simp_all
  · have := hlink h0
    simp only [Function.update_apply]
    split_ifs <;> simp_all

/-! Turning a stretch of unlisted segments into one or two new ones. -/

theorem occupy (h : Layout mem head (pre ++ (mid ++ post)) fl) (hmid : 2 ≤ total mid)
    (hfl : ∀ k ∈ fl, k < total pre ∨ total pre + total mid ≤ k) :
    Layout (takenAt mem (total pre) (total mid)) head (pre ++ .taken (total mid) :: post) fl :=
  (h.dig [total mid] (by simp) hfl).fill_taken hmid

theorem release (h : Layout mem head (pre ++ (mid ++ post)) fl) (hmid : 4 ≤ total mid) (hpos : 0 < total pre)
    (hfl : ∀ k ∈ fl, k < total pre ∨ total pre + total mid ≤ k) :
    Layout (availAt mem head (total pre) (total mid)) (total pre) (pre ++ .avail (total mid) :: post)
      (total pre :: fl) :=
  (h.dig [total mid] (by simp) hfl).fill_avail hmid hpos

theorem split (h : Layout mem head (pre ++ (mid ++ post)) fl) {m n : ℕ} (hmid : m + n = total mid)
    (hm : 2 ≤ m) (hn : 4 ≤ n) (hfl : ∀ k ∈ fl, k < total pre ∨ total pre + total mid ≤ k) :
    Layout (availAt (takenAt mem (total pre) m) head (total pre + m) n) (total pre + m)
      (pre ++ .taken m :: .avail n :: post) ((total pre + m) :: fl) := by
  have h1 := (h.dig [m, n] (by simpa using hmid) hfl).fill_taken hm
  have h2 : Layout (takenAt mem (total pre) m) head ((pre ++ [.taken m]) ++ .hole n :: post) fl := by
    simpa using h1
  have ht : total (pre ++ [.taken m]) = total pre + m := by simp
  have h3 := h2.fill_avail hn (by omega)
  rw [ht] at h3
  simpa using h3

end Layout
end AudioKernel.Lib
