import AudioKernel.Vm.Frames

/-! Who holds each frame, and the pool of those that nobody holds. -/
namespace AudioKernel
open Lib

/-- What a frame is used for. -/
inductive Owner
  /-- not handed out yet, or no frame at all -/
  | unused
  | free
  | kernel
  /-- the directory of a process -/
  | dir (p : ℕ)
  /-- the page table of a process for entry `i` of its directory -/
  | table (p i : ℕ)
  /-- the page of a process with these two indices -/
  | data (p i j : ℕ)
  /-- handed out, and in no address space -/
  | held
  deriving DecidableEq

namespace Owner

def Loose (o : Owner) : Prop := (∀ p, o ≠ .dir p) ∧ (∀ p i, o ≠ .table p i) ∧ ∀ p i j, o ≠ .data p i j

/-- The process whose address space the frame belongs to. -/
def process? : Owner → Option ℕ
  | dir p | table p _ | data p _ _ => some p
  | _ => none

@[simp] theorem loose_unused : Loose .unused := by simp [Loose]

@[simp] theorem loose_free : Loose .free := by simp [Loose]

@[simp] theorem loose_kernel : Loose .kernel := by simp [Loose]

@[simp] theorem loose_held : Loose .held := by simp [Loose]

end Owner

namespace PhysMem

/-- The pool and the owners of the frames: the free list has the free frames, each once, and the frames below `avail`
have been handed out. -/
structure Pool (m : PhysMem) (own : ℕ → Owner) (free : List ℕ) : Prop where
  chained : Chained (fun f => m.mem f 0) m.firstFree free
  nodup : free.Nodup
  mem_free : ∀ f, f ∈ free ↔ own f = .free
  used : ∀ f, own f ≠ .unused ↔ f % 4096 = 0 ∧ VMM_FRAMES ≤ f ∧ f < m.avail
  avail : VMM_FRAMES ≤ m.avail ∧ m.avail ≤ m.limit ∧ m.avail % 4096 = 0
  limit : m.limit ≤ 0x80000000 ∧ m.limit % 4096 = 0

namespace Pool

variable {m m' : PhysMem} {own own' : ℕ → Owner} {free : List ℕ} {f i v : ℕ} {words : ℕ → ℕ}

/-- The address of a frame that has been handed out. -/
theorem aligned (h : Pool m own free) (hf : own f ≠ .unused) : f % 4096 = 0 := ((h.used f).mp hf).1

theorem lt (h : Pool m own free) (hf : own f ≠ .unused) : f < 2 ^ 32 := by
  have hlt := ((h.used f).mp hf).2.2
  have hle := h.avail.2.1
  have hlimit := h.limit.1
  omega

theorem ne_zero (h : Pool m own free) (hf : own f ≠ .unused) : f ≠ 0 := by
  have hle := ((h.used f).mp hf).2.1
  unfold VMM_FRAMES at hle
  omega

theorem frameOf_or (h : Pool m own free) (hf : own f ≠ .unused) : frameOf (f ||| 7) = f :=
  PhysMem.frameOf_or (h.aligned hf) (h.lt hf)

theorem present_or (h : Pool m own free) (hf : own f ≠ .unused) : present (f ||| 7) = true :=
  PhysMem.present_or (h.aligned hf)

/-- Words of frames that are not free do not matter. -/
theorem congr (h : Pool m own free) (hmem : ∀ f, own f = .free → m'.mem f = m.mem f)
    (hfirst : m'.firstFree = m.firstFree) (havail : m'.avail = m.avail) (hlimit : m'.limit = m.limit) :
    Pool m' own free where
  chained := by
    rw [hfirst]
    exact h.chained.congr fun f hf => congrFun (hmem f ((h.mem_free f).mp hf)) 0
  nodup := h.nodup
  mem_free := h.mem_free
  used f := by rw [h.used f, havail]
  avail := by rw [havail, hlimit]; exact h.avail
  limit := by rw [hlimit]; exact h.limit

theorem fill (h : Pool m own free) (hf : own f ≠ .free) : Pool (m.fill f words) own free :=
  h.congr (fun _ hg => Function.update_of_ne (by rintro rfl; exact hf hg) ..) rfl rfl rfl

theorem store (h : Pool m own free) (hf : own f ≠ .free) : Pool (m.store f i v) own free :=
  h.congr (fun _ hg => Function.update_of_ne (by rintro rfl; exact hf hg) ..) rfl rfl rfl

/-- A frame may change hands. -/
theorem retag (h : Pool m own free) (hfree : ∀ f, own' f = .free ↔ own f = .free)
    (hunused : ∀ f, own' f = .unused ↔ own f = .unused) : Pool m own' free :=
  { h with
    mem_free := fun f => (h.mem_free f).trans (hfree f).symm
    used := fun f => (not_congr (hunused f)).trans (h.used f) }

/-- The frames that somebody has. -/
theorem frames (h : Pool m own free) : Frames VMM_FRAMES m (fun f => own f ≠ .unused ∧ own f ≠ .free) free where
  chained := h.chained
  nodup := h.nodup
  disjoint f hf hf' := hf'.2 ((h.mem_free f).mp hf)
  covers f := by
    rw [← h.used f, h.mem_free f]
    by_cases hfree : own f = .free
    · simp [hfree]
    · simp [hfree]
  start_pos := by decide
  avail := h.avail
  limit := h.limit.2

/-- The owners of the frames after a change in the pool. -/
theorem of_frames {allocated : ℕ → Prop} {free' : List ℕ} (h : Frames VMM_FRAMES m' allocated free')
    (hfree : ∀ f, f ∈ free' ↔ own' f = .free) (hallocated : ∀ f, allocated f ↔ own' f ≠ .unused ∧ own' f ≠ .free)
    (hlimit : m'.limit ≤ 0x80000000) : Pool m' own' free' where
  chained := h.chained
  nodup := h.nodup
  mem_free := hfree
  used f := by
    rw [← h.covers f, hfree, hallocated]
    by_cases hf : own' f = .free
    · simp [hf]
    · simp [hf]
  avail := h.avail
  limit := ⟨hlimit, h.limit⟩

/-- A frame that is taken out of the pool has been cleared, and nobody has had it. -/
theorem alloc (h : Pool m own free) {r : ℕ × PhysMem} (hr : m.allocFrame = some r) :
    (own r.1 = .free ∨ own r.1 = .unused) ∧ r.2.mem = Function.update m.mem r.1 (fun _ => 0) ∧
      ∃ free', Pool r.2 (Function.update own r.1 .held) free' := by
  obtain ⟨hnew, hmem, hlimit, free', hframes, hfree⟩ := h.frames.alloc hr
  refine ⟨by tauto, hmem, free', of_frames hframes ?_ ?_ (hlimit ▸ h.limit.1)⟩
  · intro f
    rw [hfree, h.mem_free, Function.update_apply]
    split_ifs with hf
    · simp [hf]
    · simp [hf]
  · intro f
    rw [Function.update_apply]
    split_ifs with hf
    · simp [hf]
    · simp [hf]

/-- A frame that nobody uses goes back into the pool. -/
theorem dealloc (h : Pool m own free) (hf : own f = .held) :
    ∃ m', m.deallocFrame f = some m' ∧ Pool m' (Function.update own f .free) (f :: free) ∧
      (∀ g, g ≠ f → m'.mem g = m.mem g) := by
  obtain ⟨m', hm', hframes, hlimit, hmem⟩ := h.frames.dealloc (f := f) (by simp [hf])
  refine ⟨m', hm', of_frames hframes ?_ ?_ (hlimit ▸ h.limit.1), hmem⟩
  · intro g
    rw [List.mem_cons, Function.update_apply]
    split_ifs with hg
    · simp [hg]
    · simp [hg, h.mem_free g]
  · intro g
    rw [Function.update_apply]
    split_ifs with hg
    · simp [hg]
    · simp [hg]

end Pool
end PhysMem
end AudioKernel
