import AudioKernel.Debug
import AudioKernel.Lib.Counting
import AudioKernel.Shared.Model

/-! Assignments of `Shared<T>` when the objects own handles themselves, which their destructors release. -/
namespace AudioKernel
open Lib

variable {H O : Type}

/-- Where the handles point, and which of them an object owns, in the order in which its destructor releases them. An
object is deleted from the `delete` on. -/
structure ObjectGraph (H O : Type) where
  ptr : H → Option O
  ref_count : O → ℕ
  members : O → List H
  deleted : O → Bool

/-- What is left to do in the calls of `drop` on the stack: a whole call, or the store to `ptr` after its `delete`. -/
inductive DropStep (H : Type)
  | drop (h : H)
  | clear (h : H)
  deriving DecidableEq

def DropStep.drop? : DropStep H → Option H
  | drop h => some h
  | clear _ => none

namespace ObjectGraph

section

variable [DecidableEq H] [DecidableEq O] (g : ObjectGraph H O)

def setPtr (h : H) (p : Option O) : ObjectGraph H O := { g with ptr := Function.update g.ptr h p }

def setCount (x : O) (c : ℕ) : ObjectGraph H O := { g with ref_count := Function.update g.ref_count x c }

def delete (x : O) : ObjectGraph H O := { g with deleted := Function.update g.deleted x true }

/-- The handle was a member of an object that has been deleted. -/
def Gone (h : H) : Prop := ∃ c, h ∈ g.members c ∧ g.deleted c = true

instance [Fintype O] (h : H) : Decidable (g.Gone h) :=
  inferInstanceAs (Decidable (∃ c, h ∈ g.members c ∧ g.deleted c = true))

/-- The calls of `drop`, of which a `delete` makes more. The count of a deleted object is out of bounds. -/
def runDrops : ℕ → ObjectGraph H O → List (DropStep H) → Except Stop (ObjectGraph H O)
  | 0, _, _ => .error .diverge
  | _ + 1, g, [] => .ok g
  | fuel + 1, g, .clear h :: rest => runDrops fuel (g.setPtr h none) rest
  | fuel + 1, g, .drop h :: rest =>
    match g.ptr h with
    | none => runDrops fuel g rest
    | some x =>
      if g.deleted x then .error .wild
      else
        let new_count := (g.ref_count x + 2 ^ 32 - 1) % 2 ^ 32
        let g := g.setCount x new_count
        if new_count = 0 then runDrops fuel (g.delete x) ((g.members x).map .drop ++ .clear h :: rest)
        else runDrops fuel g rest

/-- The calls that the objects can still cause. -/
def work [Fintype O] : ℕ := ∑ x, if g.deleted x then 0 else (g.members x).length + 1

def drop [Fintype O] (h : H) : Except Stop (ObjectGraph H O) := runDrops (g.work + 2) g [.drop h]

def add [Fintype O] (h : H) : Except Stop (ObjectGraph H O) :=
  if g.Gone h then .error .wild
  else
    match g.ptr h with
    | none => .ok g
    | some x => if g.deleted x then .error .wild else .ok (g.setCount x ((g.ref_count x + 1) % 2 ^ 32))

def copyAssign [Fintype O] (d s : H) : Except Stop (ObjectGraph H O) :=
  let other_ptr := g.ptr s
  if g.ptr d ≠ other_ptr then do
    let g ← g.drop d
    (g.setPtr d other_ptr).add d
  else .ok g

/-- `d = s` for an rvalue `s`, whose `ptr` is read after `drop`. -/
def moveAssign [Fintype O] (d s : H) : Except Stop (ObjectGraph H O) := do
  let g ← g.drop d
  if g.Gone s then .error .wild else return (g.setPtr d (g.ptr s)).setPtr s none

/-- All objects are alive, and each has as many references as there are handles to it. -/
structure Valid [Fintype H] : Prop where
  alive : ∀ x, g.deleted x = false
  counted : ∀ x, g.ref_count x = tally Finset.univ g.ptr x
  nodup : ∀ x, (g.members x).Nodup
  owned_once : ∀ x y h, h ∈ g.members x → h ∈ g.members y → x = y

/-- The handles that are released when `d` is: `d`, and those of an object to which no other handles lead. -/
inductive Released (g : ObjectGraph H O) (d : H) : H → Prop
  | self : Released g d d
  | member {c : O} {h h₀ : H} : h ∈ g.members c → g.ptr h₀ = some c →
      (∀ h', g.ptr h' = some c → Released g d h') → Released g d h

/-- The object loses its last handle when `d` is released. -/
def Dies (d : H) (x : O) : Prop := (∃ h, g.ptr h = some x) ∧ ∀ h, g.ptr h = some x → g.Released d h

/-- The handle is in no object that dies when `d` is released. -/
def Outlives (d h : H) : Prop := ∀ c, h ∈ g.members c → ¬ g.Dies d c

/-- After the assignment `d` is there and refers to the object that `s` referred to, which is there as well. -/
def Keeps (d s : H) (r : Except Stop (ObjectGraph H O)) : Prop :=
  ∃ g', r = .ok g' ∧ ¬ g'.Gone d ∧ g'.ptr d = g.ptr s ∧ ∀ x, g.ptr s = some x → g'.deleted x = false

end

variable {g g' : ObjectGraph H O} {d h : H} {todo rest : List (DropStep H)} {held : H → Option O} {x : O}

theorem not_keeps_error (d s : H) (e : Stop) : ¬ g.Keeps d s (.error e) := by
  rintro ⟨g', hg', -⟩
  cases hg'

theorem Dies.released (hx : g.Dies d x) (hh : h ∈ g.members x) : g.Released d h := by
  obtain ⟨⟨h₀, hh₀⟩, hall⟩ := hx
  exact .member hh hh₀ hall

theorem mem_drops {h : H} : h ∈ todo.filterMap DropStep.drop? ↔ .drop h ∈ todo := by
  rw [List.mem_filterMap]
  constructor
  · rintro ⟨t, ht, hdrop⟩
    cases t with
    | drop h' =>
      obtain rfl := Option.some.inj hdrop
      exact ht
    | clear h' => cases hdrop
  · exact fun ht => ⟨_, ht, rfl⟩

theorem drops_of_delete (hs : List H) : (hs.map DropStep.drop ++ .clear h :: rest).filterMap DropStep.drop? =
    hs ++ rest.filterMap DropStep.drop? := by
  rw [List.filterMap_append, List.filterMap_map, show DropStep.drop? ∘ DropStep.drop = (some : H → Option H) from rfl,
    List.filterMap_some]
  rfl

/-- The references that are left once that of `h` is gone. -/
theorem held_update [DecidableEq H] {h' : H} {y : O} : Function.update held h none h' = some y ↔
    h' ≠ h ∧ held h' = some y := by
  by_cases hne : h' = h
  · rw [hne, Function.update_self]
    simp
  · rw [Function.update_of_ne hne]
    simp [hne]

theorem setPtr_work [DecidableEq H] [Fintype O] {p : Option O} : (g.setPtr h p).work = g.work := rfl

variable [DecidableEq O]

theorem setCount_work [Fintype O] {c : ℕ} : (g.setCount x c).work = g.work := rfl

theorem delete_work [Fintype O] (hx : g.deleted x = false) : (g.delete x).work + ((g.members x).length + 1) = g.work := by
  have hsum := sum_update id (fun y => if g.deleted y then 0 else (g.members y).length + 1) x 0
  have hweight : ∀ y, (if Function.update g.deleted x true y then 0 else (g.members y).length + 1) =
      id (Function.update (fun y => if g.deleted y then 0 else (g.members y).length + 1) x 0 y) := by
    intro y
    by_cases hy : y = x
    · rw [hy, Function.update_self, Function.update_self]
      rfl
    · rw [Function.update_of_ne hy, Function.update_of_ne hy]
      rfl
  have hwork : (g.delete x).work =
      ∑ y, id (Function.update (fun y => if g.deleted y then 0 else (g.members y).length + 1) x 0 y) :=
    Finset.sum_congr rfl fun y _ => hweight y
  rw [hx] at hsum
  rw [hwork]
  exact hsum

theorem delete_deleted {y : O} : (g.delete x).deleted y = true ↔ y = x ∨ g.deleted y = true := by
  show Function.update g.deleted x true y = true ↔ _
  by_cases hy : y = x
  · rw [hy, Function.update_self]
    simp
  · rw [Function.update_of_ne hy]
    simp [hy]

theorem delete_gone : (g.delete x).Gone h ↔ h ∈ g.members x ∨ g.Gone h := by
  constructor
  · rintro ⟨c, hc, hdeleted⟩
    rcases delete_deleted.mp hdeleted with rfl | hdeleted
    · exact .inl hc
    · exact .inr ⟨c, hc, hdeleted⟩
  · rintro (hc | ⟨c, hc, hdeleted⟩)
    · exact ⟨x, hc, delete_deleted.mpr (.inl rfl)⟩
    · exact ⟨c, hc, delete_deleted.mpr (.inr hdeleted)⟩

theorem Valid.not_gone [Fintype H] (hg : g.Valid) : ¬ g.Gone h := by
  rintro ⟨c, -, hc⟩
  rw [hg.alive] at hc
  cases hc

/-! What the calls of `drop` keep. -/

def Dropped (g' : ObjectGraph H O) (d h : H) : Prop := h = d ∨ g'.Gone h

/-- `held` are the references that are still counted: all but those of the handles that have been dropped. -/
structure Inv [Fintype H] (g : ObjectGraph H O) (d : H) (g' : ObjectGraph H O) (todo : List (DropStep H))
    (held : H → Option O) : Prop where
  members : g'.members = g.members
  away : ¬ g'.Gone d
  counted : ∀ x, g'.ref_count x = tally Finset.univ held x
  held_ptr : ∀ h x, held h = some x → g.ptr h = some x
  waiting : ∀ h, ¬ Dropped g' d h ∨ .drop h ∈ todo → g'.ptr h = g.ptr h ∧ held h = g.ptr h
  dropped : ∀ h, Dropped g' d h → held h = none ∨ .drop h ∈ todo
  nodup : (todo.filterMap DropStep.drop?).Nodup
  drop_mem : ∀ h, .drop h ∈ todo → Dropped g' d h
  clear_mem : ∀ h, .clear h ∈ todo → Dropped g' d h ∧ .drop h ∉ todo
  dies : ∀ x, g'.deleted x = true → g.Dies d x
  deleted_iff : ∀ h x, g.ptr h = some x → (g'.deleted x = true ↔ ∀ h, held h ≠ some x)

namespace Inv

variable [Fintype H]

theorem released (hi : Inv g d g' todo held) (hh : Dropped g' d h) : g.Released d h := by
  rcases hh with rfl | ⟨c, hc, hdeleted⟩
  · exact .self
  · rw [hi.members] at hc
    exact (hi.dies c hdeleted).released hc

theorem start (hg : g.Valid) : Inv g d g [.drop d] g.ptr := by
  constructor
  case members => rfl
  case away => exact hg.not_gone
  case counted => exact hg.counted
  case held_ptr => exact fun _ _ h => h
  case waiting => exact fun _ _ => ⟨rfl, rfl⟩
  case dropped =>
    rintro h (rfl | hh)
    · exact .inr List.mem_cons_self
    · exact absurd hh hg.not_gone
  case nodup => exact List.nodup_singleton d
  case drop_mem =>
    intro h hh
    rw [List.mem_singleton] at hh
    exact .inl (DropStep.drop.inj hh)
  case clear_mem =>
    intro h hh
    rw [List.mem_singleton] at hh
    cases hh
  case dies =>
    intro x hx
    rw [hg.alive] at hx
    cases hx
  case deleted_iff =>
    intro h x hh
    rw [hg.alive]
    exact iff_of_false Bool.false_ne_true fun hall => hall h hh

/-- A handle that is next is not dropped again later. -/
theorem not_again (hi : Inv g d g' (.drop h :: rest) held) : .drop h ∉ rest := by
  have hnodup : (h :: rest.filterMap DropStep.drop?).Nodup := hi.nodup
  intro hmem
  exact (List.nodup_cons.mp hnodup).1 (mem_drops.mpr hmem)

/-- Who is next has its pointer, and its reference is counted. -/
theorem next_held (hi : Inv g d g' (.drop h :: rest) held) : held h = g'.ptr h := by
  have hold := hi.waiting h (.inr List.mem_cons_self)
  rw [hold.1, hold.2]

/-- The object of the handle that is next has not been deleted. -/
theorem next_alive (hi : Inv g d g' (.drop h :: rest) held) (hx : g'.ptr h = some x) : g'.deleted x = false := by
  have hheld : held h = some x := hi.next_held.trans hx
  have hall := hi.deleted_iff h x (hi.held_ptr h x hheld)
  cases hdeleted : g'.deleted x with
  | false => rfl
  | true => exact absurd hheld (hall.mp hdeleted h)

/-- A null handle. -/
theorem drop_null (hi : Inv g d g' (.drop h :: rest) held) (hnull : g'.ptr h = none) : Inv g d g' rest held := by
  have hheld : held h = none := hi.next_held.trans hnull
  have hnodup : (h :: rest.filterMap DropStep.drop?).Nodup := hi.nodup
  refine { hi with
    waiting := ?_, dropped := ?_, nodup := (List.nodup_cons.mp hnodup).2, drop_mem := ?_, clear_mem := ?_ }
  · exact fun h' hh' => hi.waiting h' (hh'.imp_right (List.mem_cons_of_mem _))
  · intro h' hh'
    rcases hi.dropped h' hh' with hnone | hmem
    · exact .inl hnone
    · rcases List.mem_cons.mp hmem with heq | hmem
      · obtain rfl := DropStep.drop.inj heq
        exact .inl hheld
      · exact .inr hmem
  · exact fun h' hh' => hi.drop_mem h' (List.mem_cons_of_mem _ hh')
  · intro h' hh'
    have hold := hi.clear_mem h' (List.mem_cons_of_mem _ hh')
    exact ⟨hold.1, fun hmem => hold.2 (List.mem_cons_of_mem _ hmem)⟩

/-- The members of an object that is there have not been dropped, `d` apart. -/
theorem member_waits (hg : g.Valid) (hi : Inv g d g' todo held) (hx : g'.deleted x = false) (hd : d ∉ g.members x)
    (hh : h ∈ g.members x) : ¬ Dropped g' d h := by
  rintro (rfl | ⟨c, hc, hdeleted⟩)
  · exact hd hh
  · rw [hi.members] at hc
    obtain rfl := hg.owned_once c x h hc hh
    rw [hx] at hdeleted
    cases hdeleted

/-- At the end the handles that have been dropped are the released ones. -/
theorem dropped_iff (hi : Inv g d g' [] held) : Dropped g' d h ↔ g.Released d h := by
  refine ⟨hi.released, fun hr => ?_⟩
  induction hr with
  | self => exact .inl rfl
  | @member c h h₀ hc hh₀ hall ih =>
    refine .inr ⟨c, hi.members ▸ hc, (hi.deleted_iff h₀ c hh₀).mpr fun h' hh' => ?_⟩
    have hnone := (hi.dropped h' (ih h' (hi.held_ptr h' c hh'))).resolve_right List.not_mem_nil
    rw [hnone] at hh'
    cases hh'

theorem deleted_iff_dies (hi : Inv g d g' [] held) : g'.deleted x = true ↔ g.Dies d x := by
  refine ⟨hi.dies x, ?_⟩
  rintro ⟨⟨h₀, hh₀⟩, hall⟩
  refine (hi.deleted_iff h₀ x hh₀).mpr fun h' hh' => ?_
  have hnone := (hi.dropped h' (hi.dropped_iff.mpr (hall h' (hi.held_ptr h' x hh')))).resolve_right List.not_mem_nil
  rw [hnone] at hh'
  cases hh'

theorem gone_iff (hi : Inv g d g' [] held) : g'.Gone h ↔ ¬ g.Outlives d h := by
  unfold Gone Outlives
  push Not
  rw [hi.members]
  exact exists_congr fun c => and_congr_right fun _ => hi.deleted_iff_dies

/-- A handle that is not dropped keeps its pointer. -/
theorem ptr_eq (hi : Inv g d g' [] held) (hd : h ≠ d) (hh : g.Outlives d h) : g'.ptr h = g.ptr h := by
  refine (hi.waiting h (.inl ?_)).1
  rintro (heq | hgone)
  · exact hd heq
  · exact hi.gone_iff.mp hgone hh

variable [DecidableEq H]

/-- The handles that are neither the next one nor dropped before have their pointers. -/
theorem waiting_update (hi : Inv g d g' (.drop h :: rest) held) {h' : H} (hh' : ¬ Dropped g' d h' ∨ .drop h' ∈ rest) :
    g'.ptr h' = g.ptr h' ∧ Function.update held h none h' = g.ptr h' := by
  have hne : h' ≠ h := by
    rintro rfl
    rcases hh' with hh' | hh'
    · exact hh' (hi.drop_mem h' List.mem_cons_self)
    · exact hi.not_again hh'
  rw [Function.update_of_ne hne]
  exact hi.waiting h' (hh'.imp_right (List.mem_cons_of_mem _))

theorem dropped_update (hi : Inv g d g' (.drop h :: rest) held) {h' : H} (hh' : Dropped g' d h') :
    Function.update held h none h' = none ∨ .drop h' ∈ rest := by
  by_cases hne : h' = h
  · rw [hne, Function.update_self]
    exact .inl rfl
  · rw [Function.update_of_ne hne]
    refine (hi.dropped h' hh').imp_right fun hmem => ?_
    exact (List.mem_cons.mp hmem).resolve_left fun heq => hne (DropStep.drop.inj heq)

/-- The references to other objects. -/
theorem deleted_other (hi : Inv g d g' (.drop h :: rest) held) (hheld : held h = some x) {h₀ : H} {y : O}
    (hy : g.ptr h₀ = some y) (hyx : y ≠ x) : g'.deleted y = true ↔ ∀ h', Function.update held h none h' ≠ some y := by
  rw [hi.deleted_iff h₀ y hy]
  refine forall_congr' fun h' => not_congr ?_
  rw [held_update]
  refine (and_iff_right_of_imp fun hh' => ?_).symm
  rintro rfl
  exact hyx (Option.some.inj (hh'.symm.trans hheld))

/-- One reference less. -/
theorem counted_less (hi : Inv g d g' (.drop h :: rest) held) (hcard : Fintype.card H < 2 ^ 32) (hx : g'.ptr h = some x) :
    (g'.ref_count x + 2 ^ 32 - 1) % 2 ^ 32 = tally Finset.univ (Function.update held h none) x := by
  have hheld : held h = some x := hi.next_held.trans hx
  have hupdate := tally_update held (Finset.mem_univ h) none x
  rw [if_pos hheld, if_neg (by simp)] at hupdate
  have hle : tally Finset.univ held x ≤ Fintype.card H := tally_le_card
  rw [hi.counted x]
  omega

theorem counted_update (hi : Inv g d g' (.drop h :: rest) held) (hcard : Fintype.card H < 2 ^ 32) (hx : g'.ptr h = some x)
    (y : O) : (g'.setCount x ((g'.ref_count x + 2 ^ 32 - 1) % 2 ^ 32)).ref_count y =
      tally Finset.univ (Function.update held h none) y := by
  have hheld : held h = some x := hi.next_held.trans hx
  show Function.update g'.ref_count x _ y = _
  by_cases hy : y = x
  · rw [hy, Function.update_self]
    exact hi.counted_less hcard hx
  · have hupdate := tally_update held (Finset.mem_univ h) none y
    have hother : ¬ held h = some y := by
      rw [hheld]
      exact fun heq => hy (Option.some.inj heq).symm
    rw [if_neg hother, if_neg (by simp)] at hupdate
    rw [Function.update_of_ne hy, hi.counted y]
    omega

/-- An object that keeps a reference. -/
theorem drop_shared (hi : Inv g d g' (.drop h :: rest) held) (hcard : Fintype.card H < 2 ^ 32) (hx : g'.ptr h = some x)
    (hcount : (g'.ref_count x + 2 ^ 32 - 1) % 2 ^ 32 ≠ 0) :
    Inv g d (g'.setCount x ((g'.ref_count x + 2 ^ 32 - 1) % 2 ^ 32)) rest (Function.update held h none) := by
  have hheld : held h = some x := hi.next_held.trans hx
  have hnodup : (h :: rest.filterMap DropStep.drop?).Nodup := hi.nodup
  refine { hi with
    counted := hi.counted_update hcard hx, held_ptr := ?_, waiting := fun h' => hi.waiting_update
    dropped := fun h' => hi.dropped_update, nodup := (List.nodup_cons.mp hnodup).2, drop_mem := ?_, clear_mem := ?_
    deleted_iff := ?_ }
  · exact fun h' y hh' => hi.held_ptr h' y (held_update.mp hh').2
  · exact fun h' hh' => hi.drop_mem h' (List.mem_cons_of_mem _ hh')
  · intro h' hh'
    have hold := hi.clear_mem h' (List.mem_cons_of_mem _ hh')
    exact ⟨hold.1, fun hmem => hold.2 (List.mem_cons_of_mem _ hmem)⟩
  · intro h₀ y hy
    by_cases hyx : y = x
    · have halive : g'.deleted y = false := hyx ▸ hi.next_alive hx
      rw [hi.counted_less hcard hx, tally_ne_zero_iff] at hcount
      obtain ⟨h', -, hh'⟩ := hcount
      show g'.deleted y = true ↔ _
      rw [halive, hyx]
      exact iff_of_false Bool.false_ne_true fun hall => hall h' hh'
    · exact hi.deleted_other hheld hy hyx

/-- No other handle has a reference. -/
theorem last_held (hi : Inv g d g' (.drop h :: rest) held) (hcard : Fintype.card H < 2 ^ 32) (hx : g'.ptr h = some x)
    (hcount : (g'.ref_count x + 2 ^ 32 - 1) % 2 ^ 32 = 0) (h' : H) : Function.update held h none h' ≠ some x := by
  intro hh'
  rw [hi.counted_less hcard hx] at hcount
  exact tally_ne_zero_iff.mpr ⟨h', Finset.mem_univ h', hh'⟩ hcount

theorem last_dies (hi : Inv g d g' (.drop h :: rest) held) (hcard : Fintype.card H < 2 ^ 32) (hx : g'.ptr h = some x)
    (hcount : (g'.ref_count x + 2 ^ 32 - 1) % 2 ^ 32 = 0) : g.Dies d x := by
  have hheld : held h = some x := hi.next_held.trans hx
  refine ⟨⟨h, hi.held_ptr h x hheld⟩, fun h' hh' => ?_⟩
  by_cases hdropped : Dropped g' d h'
  · exact hi.released hdropped
  · refine absurd ?_ (hi.last_held hcard hx hcount h')
    rw [(hi.waiting_update (.inl hdropped)).2]
    exact hh'

theorem clear (hi : Inv g d g' (.clear h :: rest) held) : Inv g d (g'.setPtr h none) rest held := by
  obtain ⟨hdropped, hnot⟩ := hi.clear_mem h List.mem_cons_self
  refine { hi with waiting := ?_, dropped := ?_, nodup := hi.nodup, drop_mem := ?_, clear_mem := ?_ }
  · intro h' hh'
    have hold := hi.waiting h' (hh'.imp_right (List.mem_cons_of_mem _))
    have hne : h' ≠ h := by
      rintro rfl
      rcases hh' with hh' | hh'
      · exact hh' hdropped
      · exact hnot (List.mem_cons_of_mem _ hh')
    refine ⟨?_, hold.2⟩
    rw [← hold.1]
    exact Function.update_of_ne hne ..
  · intro h' hh'
    refine (hi.dropped h' hh').imp_right fun hmem => ?_
    exact (List.mem_cons.mp hmem).resolve_left fun h => nomatch h
  · exact fun h' hh' => hi.drop_mem h' (List.mem_cons_of_mem _ hh')
  · intro h' hh'
    have hold := hi.clear_mem h' (List.mem_cons_of_mem _ hh')
    exact ⟨hold.1, fun hmem => hold.2 (List.mem_cons_of_mem _ hmem)⟩

/-- An object that loses its last reference, and does not own `d`. -/
theorem drop_last (hg : g.Valid) (hi : Inv g d g' (.drop h :: rest) held) (hcard : Fintype.card H < 2 ^ 32)
    (hx : g'.ptr h = some x) (hcount : (g'.ref_count x + 2 ^ 32 - 1) % 2 ^ 32 = 0) (hd : d ∉ g.members x) :
    Inv g d ((g'.setCount x ((g'.ref_count x + 2 ^ 32 - 1) % 2 ^ 32)).delete x)
      ((g.members x).map .drop ++ .clear h :: rest) (Function.update held h none) := by
  have hheld : held h = some x := hi.next_held.trans hx
  have halive := hi.next_alive hx
  have hmember : ∀ h', h' ∈ g.members x → ¬ Dropped g' d h' := fun h' => hi.member_waits hg halive hd
  have hnext : Dropped g' d h := hi.drop_mem h List.mem_cons_self
  have hmem : ∀ h', .drop h' ∈ (g.members x).map DropStep.drop ++ .clear h :: rest ↔
      h' ∈ g.members x ∨ .drop h' ∈ rest := by
    intro h'
    rw [List.mem_append, List.mem_cons, List.mem_map]
    simp
  have hgone : ∀ h', ((g'.setCount x ((g'.ref_count x + 2 ^ 32 - 1) % 2 ^ 32)).delete x).Gone h' ↔
      h' ∈ g.members x ∨ g'.Gone h' := by
    intro h'
    rw [← hi.members]
    exact delete_gone
  constructor
  case members => exact hi.members
  case away => exact fun hbad => ((hgone d).mp hbad).elim hd hi.away
  case counted => exact hi.counted_update hcard hx
  case held_ptr => exact fun h' y hh' => hi.held_ptr h' y (held_update.mp hh').2
  case waiting =>
    intro h' hh'
    refine hi.waiting_update ?_
    rcases hh' with hh' | hh'
    · exact .inl fun hbad => hh' (hbad.imp_right fun hb => (hgone h').mpr (.inr hb))
    · exact ((hmem h').mp hh').imp_left (hmember h')
  case dropped =>
    intro h' hh'
    rw [hmem]
    rcases hh' with hh' | hh'
    · exact (hi.dropped_update (.inl hh')).imp_right .inr
    · rcases (hgone h').mp hh' with hc | hc
      · exact .inr (.inl hc)
      · exact (hi.dropped_update (.inr hc)).imp_right .inr
  case nodup =>
    have hnodup : (h :: rest.filterMap DropStep.drop?).Nodup := hi.nodup
    rw [drops_of_delete]
    refine List.Nodup.append (hg.nodup x) (List.nodup_cons.mp hnodup).2 fun h' hh' hrest => ?_
    exact hmember h' hh' (hi.drop_mem h' (List.mem_cons_of_mem _ (mem_drops.mp hrest)))
  case drop_mem =>
    intro h' hh'
    rcases (hmem h').mp hh' with hc | hrest
    · exact .inr ((hgone h').mpr (.inl hc))
    · exact (hi.drop_mem h' (List.mem_cons_of_mem _ hrest)).imp_right fun hb => (hgone h').mpr (.inr hb)
  case clear_mem =>
    intro h' hh'
    have hold : Dropped g' d h' ∧ .drop h' ∉ rest := by
      rcases List.mem_append.mp hh' with hh' | hh'
      · obtain ⟨h'', -, heq⟩ := List.mem_map.mp hh'
        cases heq
      · rcases List.mem_cons.mp hh' with heq | hrest
        · obtain rfl := DropStep.clear.inj heq
          exact ⟨hnext, hi.not_again⟩
        · have hold := hi.clear_mem h' (List.mem_cons_of_mem _ hrest)
          exact ⟨hold.1, fun hm => hold.2 (List.mem_cons_of_mem _ hm)⟩
    refine ⟨hold.1.imp_right fun hb => (hgone h').mpr (.inr hb), fun hm => ?_⟩
    exact ((hmem h').mp hm).elim (fun hc => hmember h' hc hold.1) hold.2
  case dies =>
    intro y hy
    rcases delete_deleted.mp hy with rfl | hy
    · exact hi.last_dies hcard hx hcount
    · exact hi.dies y hy
  case deleted_iff =>
    intro h₀ y hy
    show Function.update g'.deleted x true y = true ↔ _
    by_cases hyx : y = x
    · rw [hyx]
      exact iff_of_true (by simp) (hi.last_held hcard hx hcount)
    · rw [Function.update_of_ne hyx]
      exact hi.deleted_other hheld hy hyx

end Inv

variable [DecidableEq H]

theorem runDrops_null {fuel : ℕ} (hnull : g.ptr h = none) :
    runDrops (fuel + 1) g (.drop h :: rest) = runDrops fuel g rest := by
  rw [runDrops, hnull]

theorem runDrops_object {fuel : ℕ} (hx : g.ptr h = some x) :
    runDrops (fuel + 1) g (.drop h :: rest) =
      if g.deleted x then .error .wild
      else if (g.ref_count x + 2 ^ 32 - 1) % 2 ^ 32 = 0 then
        runDrops fuel ((g.setCount x ((g.ref_count x + 2 ^ 32 - 1) % 2 ^ 32)).delete x)
          ((g.members x).map .drop ++ .clear h :: rest)
      else runDrops fuel (g.setCount x ((g.ref_count x + 2 ^ 32 - 1) % 2 ^ 32)) rest := by
  rw [runDrops, hx]
  rfl

/-- Deleted objects stay deleted. -/
theorem runDrops_mono {fuel : ℕ} {g'' : ObjectGraph H O} (hrun : runDrops fuel g todo = .ok g'') :
    g''.members = g.members ∧ ∀ c, g.deleted c = true → g''.deleted c = true := by
  induction fuel generalizing g todo with
  | zero => cases hrun
  | succ fuel ih =>
    cases todo with
    | nil =>
      obtain rfl := Except.ok.inj hrun
      exact ⟨rfl, fun _ hc => hc⟩
    | cons t rest =>
      cases t with
      | clear h => exact ih (g := g.setPtr h none) hrun
      | drop h =>
        cases hx : g.ptr h with
        | none => exact ih (runDrops_null hx ▸ hrun)
        | some x =>
          rw [runDrops_object hx] at hrun
          split_ifs at hrun with hdeleted hcount
          · obtain ⟨hmembers, hmono⟩ := ih hrun
            exact ⟨hmembers, fun c hc => hmono c (delete_deleted.mpr (.inr hc))⟩
          · exact ih (g := g.setCount x _) hrun

variable [Fintype O] [Fintype H]

/-- Either the calls end, or one of them deletes the object that owns `d`. -/
theorem Inv.run (hg : g.Valid) (hcard : Fintype.card H < 2 ^ 32) {fuel : ℕ} (hi : Inv g d g' todo held)
    (hfuel : g'.work + todo.length < fuel) :
    (∃ g'' held', runDrops fuel g' todo = .ok g'' ∧ Inv g d g'' [] held') ∨
      ∃ c, d ∈ g.members c ∧ g.Dies d c ∧ ∀ g'', runDrops fuel g' todo = .ok g'' → g''.deleted c = true := by
  induction fuel generalizing g' todo held with
  | zero => omega
  | succ fuel ih =>
    cases todo with
    | nil => exact .inl ⟨g', held, rfl, hi⟩
    | cons t rest =>
      rw [List.length_cons] at hfuel
      cases t with
      | clear h =>
        refine ih hi.clear ?_
        rw [setPtr_work]
        omega
      | drop h =>
        cases hx : g'.ptr h with
        | none =>
          rw [runDrops_null hx]
          exact ih (hi.drop_null hx) (by omega)
        | some x =>
          have halive := hi.next_alive hx
          rw [runDrops_object hx, halive, if_neg Bool.false_ne_true]
          split_ifs with hcount
          · by_cases hd : d ∈ g.members x
            · refine .inr ⟨x, hd, hi.last_dies hcard hx hcount, fun g'' hrun => ?_⟩
              exact (runDrops_mono hrun).2 x (delete_deleted.mpr (.inl rfl))
            · have hwork : (((g'.setCount x ((g'.ref_count x + 2 ^ 32 - 1) % 2 ^ 32)).delete x).work) +
                  ((g'.members x).length + 1) = g'.work := delete_work halive
              rw [hi.members] at hwork ⊢
              refine ih (hi.drop_last hg hcard hx hcount hd) ?_
              rw [List.length_append, List.length_map, List.length_cons]
              omega
          · refine ih (hi.drop_shared hcard hx hcount) ?_
            rw [setCount_work]
            omega

theorem drop_returns (hg : g.Valid) (hcard : Fintype.card H < 2 ^ 32) (hd : g.Outlives d d) :
    ∃ g' held, g.drop d = .ok g' ∧ Inv g d g' [] held := by
  rcases (Inv.start hg).run hg hcard (Nat.lt_succ_self _) with hend | ⟨c, hc, hdies, -⟩
  · exact hend
  · exact absurd hdies (hd c hc)

/-- The handle itself is in an object that dies. -/
theorem drop_gone (hg : g.Valid) (hcard : Fintype.card H < 2 ^ 32) (hd : ¬ g.Outlives d d) (hrun : g.drop d = .ok g') :
    g'.Gone d := by
  rcases (Inv.start hg).run hg hcard (Nat.lt_succ_self _) with ⟨g'', held, hend, hi⟩ | ⟨c, hc, -, hdeleted⟩
  · exact absurd (hi.gone_iff.mpr hd) hi.away
  · exact ⟨c, (runDrops_mono hrun).1 ▸ hc, hdeleted g' hrun⟩

/-- `d` outlives the objects that die with its old reference, and the object that `s` refers to does not die. -/
def CopySafe (g : ObjectGraph H O) (d s : H) : Prop :=
  g.ptr d = g.ptr s ∨ g.Outlives d d ∧ ∀ x, g.ptr s = some x → ¬ g.Dies d x

/-- `d` and `s` outlive the objects that die with the old reference of `d`. -/
def MoveSafe (g : ObjectGraph H O) (d s : H) : Prop := g.Outlives d d ∧ g.Outlives d s

/-- The store and the `add` after the calls of `drop` in a copy. -/
theorem add_keeps_iff {s : H} (hi : Inv g d g' [] held) :
    g.Keeps d s ((g'.setPtr d (g.ptr s)).add d) ↔ ∀ x, g.ptr s = some x → ¬ g.Dies d x := by
  have haway : ¬ (g'.setPtr d (g.ptr s)).Gone d := hi.away
  have hset : (g'.setPtr d (g.ptr s)).ptr d = g.ptr s := Function.update_self ..
  unfold add
  rw [if_neg haway, hset]
  cases hs : g.ptr s with
  | none =>
    have hnone : ∀ x, ¬ g.ptr s = some x := by
      intro x
      rw [hs]
      exact nofun
    exact iff_of_true ⟨_, rfl, hs ▸ haway, hs ▸ hset, fun x hx => absurd hx (hnone x)⟩ fun x hx => nomatch hx
  | some x =>
    dsimp only
    by_cases hdies : g.Dies d x
    · rw [if_pos (show (g'.setPtr d (some x)).deleted x = true from hi.deleted_iff_dies.mpr hdies)]
      exact iff_of_false (not_keeps_error d s _) fun hlives => hlives x rfl hdies
    · have hdeleted : ¬ g'.deleted x = true := fun hx => hdies (hi.deleted_iff_dies.mp hx)
      rw [if_neg (show ¬ (g'.setPtr d (some x)).deleted x = true from hdeleted)]
      refine iff_of_true ⟨_, rfl, hs ▸ haway, hs ▸ hset, fun y hy => ?_⟩ fun y hy => ?_
      · obtain rfl := Option.some.inj (hs.symm.trans hy)
        exact Bool.eq_false_of_not_eq_true hdeleted
      · obtain rfl := Option.some.inj hy
        exact hdies

theorem copyAssign_keeps_iff (hg : g.Valid) (hcard : Fintype.card H < 2 ^ 32) {s : H} :
    g.Keeps d s (g.copyAssign d s) ↔ g.CopySafe d s := by
  unfold copyAssign CopySafe
  dsimp only
  by_cases hptr : g.ptr d = g.ptr s
  · rw [if_neg (not_not.mpr hptr)]
    exact iff_of_true ⟨g, rfl, hg.not_gone, hptr, fun x _ => hg.alive x⟩ (.inl hptr)
  · rw [if_pos hptr, or_iff_right hptr]
    by_cases hout : g.Outlives d d
    · obtain ⟨g', held, hdrop, hi⟩ := drop_returns hg hcard hout
      rw [hdrop, ok_bind, and_iff_right hout]
      exact add_keeps_iff hi
    · refine iff_of_false ?_ fun hsafe => hout hsafe.1
      cases hdrop : g.drop d with
      | error e => exact not_keeps_error d s e
      | ok g' =>
        have hgone := drop_gone hg hcard hout hdrop
        rw [ok_bind]
        unfold add
        rw [if_pos (show (g'.setPtr d (g.ptr s)).Gone d from hgone)]
        exact not_keeps_error d s _

theorem moveAssign_keeps_iff (hg : g.Valid) (hcard : Fintype.card H < 2 ^ 32) {s : H} (hne : d ≠ s) :
    g.Keeps d s (g.moveAssign d s) ↔ g.MoveSafe d s := by
  unfold moveAssign
  by_cases hout : g.Outlives d d
  · obtain ⟨g', held, hdrop, hi⟩ := drop_returns hg hcard hout
    rw [hdrop, ok_bind]
    by_cases hs : g.Outlives d s
    · have hptr : g'.ptr s = g.ptr s := hi.ptr_eq hne.symm hs
      rw [if_neg fun hgone => hi.gone_iff.mp hgone hs]
      refine iff_of_true ⟨_, rfl, hi.away, ?_, fun x hx => ?_⟩ ⟨hout, hs⟩
      · show Function.update (Function.update g'.ptr d (g'.ptr s)) s none d = g.ptr s
        rw [Function.update_of_ne hne, Function.update_self, hptr]
      · -- `s` itself is a reference that is not released
        refine Bool.eq_false_of_not_eq_true fun hdeleted => ?_
        have hreleased := (hi.deleted_iff_dies.mp hdeleted).2 s hx
        rcases hi.dropped_iff.mpr hreleased with heq | hgone
        · exact hne heq.symm
        · exact hi.gone_iff.mp hgone hs
    · rw [if_pos (hi.gone_iff.mpr hs)]
      exact iff_of_false (not_keeps_error d s _) fun hsafe => hs hsafe.2
  · refine iff_of_false ?_ fun hsafe => hout hsafe.1
    cases hdrop : g.drop d with
    | error e => exact not_keeps_error d s e
    | ok g' =>
      have hgone := drop_gone hg hcard hout hdrop
      rw [ok_bind]
      split_ifs with hs
      · exact not_keeps_error d s _
      · rintro ⟨g'', hg'', haway, -⟩
        obtain rfl := Except.ok.inj hg''
        exact haway hgone

/-- Assignments keep the new target exactly when the release of the old one reaches neither the handles nor that target:
`drop` comes before the reference is taken, and a move reads `rhs.ptr` after it. -/
theorem assign_keeps_iff (handles : Finset HandlePtr) (g : ObjectGraph {h // h ∈ handles} O) (hg : g.Valid)
    (d s : {h // h ∈ handles}) (hne : d ≠ s) :
    (g.Keeps d s (g.copyAssign d s) ↔ g.CopySafe d s) ∧ (g.Keeps d s (g.moveAssign d s) ↔ g.MoveSafe d s) := by
  have hcard : Fintype.card {h // h ∈ handles} < 2 ^ 32 := by
    have hle : Fintype.card {h // h ∈ handles} ≤ Fintype.card HandlePtr := Fintype.card_subtype_le _
    rw [Fintype.card_fin] at hle
    omega
  exact ⟨copyAssign_keeps_iff hg hcard, moveAssign_keeps_iff hg hcard hne⟩

theorem outer_lt : 0 < 2 ^ 30 := by decide
theorem inner_lt : 1 < 2 ^ 30 := by decide
theorem apart_lt : 2 < 2 ^ 30 := by decide

def chainHandles : Finset HandlePtr := {⟨0, outer_lt⟩, ⟨1, inner_lt⟩, ⟨2, apart_lt⟩}

theorem outer_mem : ⟨0, outer_lt⟩ ∈ chainHandles := by decide
theorem inner_mem : ⟨1, inner_lt⟩ ∈ chainHandles := by decide
theorem apart_mem : ⟨2, apart_lt⟩ ∈ chainHandles := by decide

abbrev ChainHandle := {h // h ∈ chainHandles}

def outer : ChainHandle := ⟨⟨0, outer_lt⟩, outer_mem⟩
def inner : ChainHandle := ⟨⟨1, inner_lt⟩, inner_mem⟩
def apart : ChainHandle := ⟨⟨2, apart_lt⟩, apart_mem⟩

/-- `outer` has the only reference to an object that owns `inner`, which has the only one to another object. -/
def chain : ObjectGraph ChainHandle (Fin 3) where
  ptr h := if h = outer then some 0 else if h = inner then some 1 else some 2
  ref_count _ := 1
  members x := if x = 0 then [inner] else []
  deleted _ := false

theorem chain_valid : chain.Valid := by
  constructor
  · decide
  · decide
  · decide
  · decide

theorem outer_outlives : chain.Outlives outer outer := by
  intro c hc
  have hfree : ∀ c, outer ∉ chain.members c := by decide
  exact absurd hc (hfree c)

theorem apart_free : ∀ c, apart ∉ chain.members c := by decide

/-- Nothing releases `apart`. -/
theorem apart_safe : chain.CopySafe outer apart := by
  refine .inr ⟨outer_outlives, fun x hx hdies => ?_⟩
  have hreleased := hdies.2 apart hx
  cases hreleased with
  | member hc _ _ => exact apart_free _ hc

theorem apart_kept : chain.Keeps outer apart (chain.copyAssign outer apart) ∧
    chain.Keeps outer apart (chain.moveAssign outer apart) := by
  obtain ⟨hcopy, hmove⟩ := assign_keeps_iff chainHandles chain chain_valid outer apart (by decide)
  exact ⟨hcopy.mpr apart_safe, hmove.mpr ⟨outer_outlives, fun c hc => absurd hc (apart_free c)⟩⟩

/-- The assignment of `inner` counts a reference of an object that has been deleted, or reads `inner` in one. -/
theorem inner_not_kept : chain.Valid ∧ outer ≠ inner ∧ chain.copyAssign outer inner = .error .wild ∧
    chain.moveAssign outer inner = .error .wild ∧ ¬ chain.Keeps outer inner (chain.copyAssign outer inner) ∧
    ¬ chain.Keeps outer inner (chain.moveAssign outer inner) := by
  have hcopy : chain.copyAssign outer inner = .error .wild := by rfl
  have hmove : chain.moveAssign outer inner = .error .wild := by rfl
  refine ⟨chain_valid, by decide, hcopy, hmove, ?_, ?_⟩
  · rw [hcopy]
    exact not_keeps_error outer inner _
  · rw [hmove]
    exact not_keeps_error outer inner _

end ObjectGraph
end AudioKernel
