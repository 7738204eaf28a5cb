import AudioKernel.Lib.Places

/-! Threads that wait in a queue until another thread takes them from it, and then wakes them. -/
namespace AudioKernel.Lib

variable {T : Type*}

/-- Where a waiting thread can be: in the queue, or in the hands of the thread that has taken it from there. -/
inductive WaitPlace (T : Type*)
  | queue
  | hands (u : T)
  deriving DecidableEq

def waitPlaces (queue : List T) (hands : T → Option T) : WaitPlace T → List T
  | .queue => queue
  | .hands u => (hands u).toList

/-- Every waiting thread is in the queue once, or in the hands of one thread. -/
structure WaitQueue (queue : List T) (hands : T → Option T) (waits : T → Prop) : Prop where
  placed : ∃ place, Placed (waitPlaces queue hands) waits place

namespace WaitQueue

variable {queue queue' : List T} {hands hands' : T → Option T} {waits waits' : T → Prop} {t u v x : T}

theorem empty (hwaits : ∀ t, ¬ waits t) : WaitQueue [] (fun _ : T => none) waits := by
  refine ⟨fun _ => .queue, fun i x => ?_, fun i => ?_⟩
  · cases i <;> simp [waitPlaces, hwaits]
  · cases i <;> simp [waitPlaces]

theorem nodup (h : WaitQueue queue hands waits) : queue.Nodup := by
  obtain ⟨place, hplace⟩ := h.placed
  exact hplace.nodup .queue

theorem waits_of_mem (h : WaitQueue queue hands waits) (ht : t ∈ queue) : waits t := by
  obtain ⟨place, hplace⟩ := h.placed
  have hmem : t ∈ waitPlaces queue hands .queue := ht
  exact hplace.live_of_mem hmem

theorem waits_of_hands (h : WaitQueue queue hands waits) (hu : hands u = some t) : waits t := by
  obtain ⟨place, hplace⟩ := h.placed
  have hmem : t ∈ waitPlaces queue hands (.hands u) := Option.mem_toList.mpr hu
  exact hplace.live_of_mem hmem

theorem not_hands (h : WaitQueue queue hands waits) (ht : t ∈ queue) (u : T) : hands u ≠ some t := by
  intro hu
  obtain ⟨place, hplace⟩ := h.placed
  cases hplace.unique (i := .queue) (j := .hands u) ht (Option.mem_toList.mpr hu)

theorem hands_unique (h : WaitQueue queue hands waits) (hu : hands u = some t) (hv : hands v = some t) : u = v := by
  obtain ⟨place, hplace⟩ := h.placed
  have he := hplace.unique (i := .hands u) (j := .hands v) (Option.mem_toList.mpr hu) (Option.mem_toList.mpr hv)
  exact WaitPlace.hands.inj he

theorem mem_or_hands (h : WaitQueue queue hands waits) (ht : waits t) : t ∈ queue ∨ ∃ u, hands u = some t := by
  obtain ⟨place, hplace⟩ := h.placed
  obtain ⟨i, hi, -⟩ := hplace.existsUnique ht
  cases i with
  | queue => exact .inl hi
  | hands u => exact .inr ⟨u, Option.mem_toList.mp hi⟩

theorem congr (h : WaitQueue queue hands waits) (hhands : ∀ u, hands' u = hands u) (hwaits : ∀ u, waits' u ↔ waits u) :
    WaitQueue queue hands' waits' := by
  obtain ⟨place, hplace⟩ := h.placed
  refine ⟨place, hplace.same (fun i => ?_) hwaits⟩
  cases i with
  | queue => exact .refl _
  | hands u => exact .of_eq (congrArg Option.toList (hhands u))

/-- `t` wakes the thread that it has taken. -/
theorem wake (h : WaitQueue queue hands waits) (ht : hands t = some x) (hself : hands' t = none)
    (hhands : ∀ u, u ≠ t → hands' u = hands u) (hwaits : ∀ u, waits' u ↔ waits u ∧ u ≠ x) :
    WaitQueue queue hands' waits' := by
  obtain ⟨place, hplace⟩ := h.placed
  refine ⟨_, hplace.leaves (x := x) (i := .hands t) ⟨?_, fun k hk => ?_⟩ hwaits⟩
  · change (hands t).toList.Perm (x :: (hands' t).toList)
    rw [hself, ht]
    exact .refl _
  · cases k with
    | queue => exact .refl _
    | hands u => exact .of_eq (congrArg Option.toList (hhands u fun he => hk (by rw [he])).symm)

section
variable [DecidableEq T]

theorem enqueue (h : WaitQueue queue hands waits) (ht : ¬ waits t) (hhands : ∀ u, hands' u = hands u)
    (hwaits : ∀ u, waits' u ↔ waits u ∨ u = t) : WaitQueue (queue ++ [t]) hands' waits' := by
  obtain ⟨place, hplace⟩ := h.placed
  refine ⟨_, hplace.enters (x := t) (j := .queue) ⟨?_, fun k hk => ?_⟩ ht hwaits⟩
  · exact List.perm_append_singleton ..
  · cases k with
    | queue => exact absurd rfl hk
    | hands u => exact .of_eq (congrArg Option.toList (hhands u))

/-- `t` takes the first thread of the queue. -/
theorem take (h : WaitQueue (x :: queue) hands waits) (ht : hands t = none) (hself : hands' t = some x)
    (hhands : ∀ u, u ≠ t → hands' u = hands u) (hwaits : ∀ u, waits' u ↔ waits u) : WaitQueue queue hands' waits' := by
  obtain ⟨place, hplace⟩ := h.placed
  refine ⟨_, hplace.moves (x := x) (i := .queue) (j := .hands t) ⟨(by simp), ?_, ?_, fun k hk hk' => ?_⟩ hwaits⟩
  · exact .refl _
  · change (hands' t).toList.Perm (x :: (hands t).toList)
    rw [hself, ht]
    exact .refl _
  · cases k with
    | queue => exact absurd rfl hk
    | hands u => exact .of_eq (congrArg Option.toList (hhands u fun he => hk' (by rw [he])))

end
end WaitQueue
end AudioKernel.Lib
