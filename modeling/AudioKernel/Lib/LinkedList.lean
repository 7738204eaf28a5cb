import Mathlib.Logic.Function.Basic
import Mathlib.Data.List.Nodup

/-! Doubly linked lists given by two link functions and a null node. -/
namespace AudioKernel.Lib

variable {α : Type*} {null : α} {next prev next' prev' : α → α}

/-- The nodes of the list are chained by `next`, and `prev` is its inverse; the node before the
first is `p`. -/
def Linked (null : α) (next prev : α → α) : α → List α → Prop
  | _, [] => True
  | p, x :: xs => prev x = p ∧ next x = xs.headD null ∧ Linked null next prev x xs

theorem Linked.congr {p : α} {xs : List α} (h : Linked null next prev p xs)
    (hn : ∀ x ∈ xs, next' x = next x) (hp : ∀ x ∈ xs, prev' x = prev x) :
    Linked null next' prev' p xs := by
  induction xs generalizing p with
  | nil => trivial
  | cons x xs ih =>
    obtain ⟨hx, hx', ht⟩ := h
    refine ⟨(hp x (by simp)).trans hx, (hn x (by simp)).trans hx', ih ht ?_ ?_⟩
    · exact fun y hy => hn y (by simp [hy])
    · exact fun y hy => hp y (by simp [hy])

theorem Linked.suffix {p : α} {l r : List α} (h : Linked null next prev p (l ++ r)) :
    Linked null next prev (l.getLastD p) r := by
  induction l generalizing p with
  | nil => exact h
  | cons x l ih =>
    rw [List.getLastD_cons]
    exact ih h.2.2

theorem Linked.prev_eq {p x : α} {l r : List α} (h : Linked null next prev p (l ++ x :: r)) :
    prev x = l.getLastD p := h.suffix.1

theorem Linked.next_eq {p x : α} {l r : List α} (h : Linked null next prev p (l ++ x :: r)) :
    next x = r.headD null := h.suffix.2.1

theorem getLastD_mem_cons (l : List α) (a : α) : l.getLastD a ∈ a :: l := by
  induction l generalizing a with
  | nil => simp
  | cons b l ih =>
    rw [List.getLastD_cons]
    exact List.mem_cons_of_mem a (ih b)

variable [DecidableEq α]

/-- The `next` links after the node `x` has been taken out. -/
def unlinkNext (null : α) (next prev : α → α) (x : α) : α → α :=
  if prev x = null then next else Function.update next (prev x) (next x)

/-- The `prev` links after the node `x` has been taken out. -/
def unlinkPrev (null : α) (next prev : α → α) (x : α) : α → α :=
  if next x = null then prev else Function.update prev (next x) (prev x)

private theorem unlinkNext_of_ne {x y : α} (h : y ≠ prev x) : unlinkNext null next prev x y = next y := by
  unfold unlinkNext
  split_ifs
  · rfl
  · exact Function.update_of_ne h _ _

private theorem unlinkPrev_of_ne {x y : α} (h : y ≠ next x) : unlinkPrev null next prev x y = prev y := by
  unfold unlinkPrev
  split_ifs
  · rfl
  · exact Function.update_of_ne h _ _

/-- Taking a node out leaves the other nodes chained in the same order. -/
theorem Linked.unlink {p x : α} {l r : List α} (h : Linked null next prev p (l ++ x :: r))
    (hd : (l ++ x :: r).Nodup) (hnull : null ∉ l ++ x :: r) (hp : p ∉ l ++ x :: r) :
    Linked null (unlinkNext null next prev x) (unlinkPrev null next prev x) p (l ++ r) := by
  induction l generalizing p with
  | nil =>
    obtain ⟨hx, hx', ht⟩ := h
    simp only [List.nil_append, List.mem_cons, not_or, List.nodup_cons] at hd hnull hp ⊢
    cases r with
    | nil => trivial
    | cons y r =>
      obtain ⟨hy, hy', hr⟩ := ht
      simp only [List.headD_cons] at hx'
      simp only [List.mem_cons, not_or, List.nodup_cons] at hd hnull hp
      refine ⟨?_, ?_, hr.congr ?_ ?_⟩
      · simp only [unlinkPrev, hx', if_neg (Ne.symm hnull.2.1), Function.update_self, hx]
      · rw [unlinkNext_of_ne (by rw [hx]; exact Ne.symm hp.2.1), hy']
      · exact fun z hz => unlinkNext_of_ne (by rw [hx]; rintro rfl; exact hp.2.2 hz)
      · exact fun z hz => unlinkPrev_of_ne (by rw [hx']; rintro rfl; exact hd.2.1 hz)
  | cons y l ih =>
    have hpx := h.prev_eq
    have hnx := h.next_eq
    obtain ⟨hy, hy', ht⟩ := h
    simp only [List.cons_append, List.mem_cons, not_or, List.nodup_cons] at hd hnull hp
    refine ⟨?_, ?_, ih ht hd.2 hnull.2 hd.1⟩
    · rw [unlinkPrev_of_ne, hy]
      rintro rfl
      cases r with
      | nil => exact hnull.1 hnx.symm
      | cons z r => exact hd.1 (by simp [hnx])
    · rw [List.getLastD_cons] at hpx
      cases l with
      | nil =>
        change unlinkNext null next prev x y = r.headD null
        simp only [List.getLastD_nil] at hpx
        simp only [unlinkNext, hpx, if_neg (Ne.symm hnull.1), Function.update_self, hnx]
      | cons z l =>
        have hne : y ≠ prev x := by
          rintro rfl
          rw [List.getLastD_cons] at hpx
          exact hd.1 (List.mem_append_left _ (hpx ▸ getLastD_mem_cons l z))
        rw [unlinkNext_of_ne hne, hy']
        rfl

omit [DecidableEq α] in
/-- Adding a node in front. -/
theorem Linked.push {x : α} {xs : List α} (h : Linked null next prev null xs)
    (hnx : next' x = xs.headD null) (hpx : prev' x = null) (hn : ∀ y ∈ xs, next' y = next y)
    (hhead : ∀ y ∈ xs.head?, prev' y = x) (hp : ∀ y ∈ xs.tail, prev' y = prev y) :
    Linked null next' prev' null (x :: xs) := by
  refine ⟨hpx, hnx, ?_⟩
  cases xs with
  | nil => trivial
  | cons y ys =>
    obtain ⟨_, hy', ht⟩ := h
    refine ⟨hhead y (by simp), (hn y (by simp)).trans hy', ht.congr ?_ ?_⟩
    · exact fun z hz => hn z (by simp [hz])
    · exact fun z hz => hp z (by simpa using hz)

end AudioKernel.Lib
