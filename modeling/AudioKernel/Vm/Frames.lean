import AudioKernel.Lib.FreeList
import AudioKernel.Vm.Pages

/-! The pool of frames of `physmem.cc` and its clients. -/
namespace AudioKernel
open Lib PhysMem

/-- The frames from `start` on: those below `avail` are in the free list or allocated, each of them in one of the
two. -/
structure Frames (start : ℕ) (m : PhysMem) (allocated : ℕ → Prop) (free : List ℕ) : Prop where
  chained : Chained (fun f => m.mem f 0) m.firstFree free
  nodup : free.Nodup
  disjoint : ∀ f, f ∈ free → ¬ allocated f
  covers : ∀ f, f ∈ free ∨ allocated f ↔ f % 4096 = 0 ∧ start ≤ f ∧ f < m.avail
  start_pos : 0 < start
  avail : start ≤ m.avail ∧ m.avail ≤ m.limit ∧ m.avail % 4096 = 0
  limit : m.limit % 4096 = 0

namespace PhysMem

theorem take_eq {m : PhysMem} {p : ℕ} {r : ℕ × PhysMem} (hr : m.take p = some r) :
    r = (p, m.fill p fun _ => 0) := by
  unfold PhysMem.take at hr
  split_ifs at hr
  exact (Option.some.inj hr).symm

theorem take_of_aligned (m : PhysMem) {p : ℕ} (hp : p % 4096 = 0) : m.take p = some (p, m.fill p fun _ => 0) := by
  unfold PhysMem.take
  rw [if_pos ((offset_eq p).trans hp)]

end PhysMem

namespace Frames

variable {start f i v : ℕ} {m m' : PhysMem} {allocated allocated' : ℕ → Prop} {free : List ℕ}

/-- Words of frames that are not free do not matter. -/
theorem congr (h : Frames start m allocated free) (hmem : ∀ f, f ∈ free → m'.mem f = m.mem f)
    (hfirst : m'.firstFree = m.firstFree) (havail : m'.avail = m.avail) (hlimit : m'.limit = m.limit) :
    Frames start m' allocated free where
  chained := by
    rw [hfirst]
    exact h.chained.congr fun f hf => congrFun (hmem f hf) 0
  nodup := h.nodup
  disjoint := h.disjoint
  covers f := by rw [h.covers f, havail]
  start_pos := h.start_pos
  avail := by rw [havail, hlimit]; exact h.avail
  limit := by rw [hlimit]; exact h.limit

/-- Whoever has a frame may store anything to it. -/
theorem store (h : Frames start m allocated free) (hf : allocated f) : Frames start (m.store f i v) allocated free := by
  refine h.congr ?_ rfl rfl rfl
  intro g hg
  apply Function.update_of_ne
  rintro rfl
  exact h.disjoint g hg hf

theorem aligned (h : Frames start m allocated free) (hf : f ∈ free ∨ allocated f) : f % 4096 = 0 :=
  ((h.covers f).mp hf).1

theorem ne_zero (h : Frames start m allocated free) (hf : f ∈ free ∨ allocated f) : f ≠ 0 := by
  have hpos := h.start_pos
  have hle := ((h.covers f).mp hf).2.1
  omega

/-- The first free frame is taken. -/
theorem allocFree (h : Frames start m allocated free) (hfirst : m.firstFree ≠ 0) :
    ∃ free', free = m.firstFree :: free' ∧
      Frames start ({ m with firstFree := m.mem m.firstFree 0 }.fill m.firstFree fun _ => 0)
        (fun f => f = m.firstFree ∨ allocated f) free' := by
  obtain ⟨l, hl, hchained⟩ := h.chained.pop hfirst
  have hnodup := h.nodup
  rw [hl, List.nodup_cons] at hnodup
  refine ⟨l, hl, ?_, hnodup.2, ?_, ?_, h.start_pos, h.avail, h.limit⟩
  · apply hchained.congr
    intro f hf
    have hne : f ≠ m.firstFree := by
      rintro rfl
      exact hnodup.1 hf
    exact congrFun (Function.update_of_ne hne ..) 0
  · rintro f hf (rfl | hf')
    · exact hnodup.1 hf
    · exact h.disjoint f (by rw [hl]; exact List.mem_cons_of_mem _ hf) hf'
  · intro f
    show f ∈ l ∨ f = m.firstFree ∨ allocated f ↔ f % 4096 = 0 ∧ start ≤ f ∧ f < m.avail
    rw [← h.covers f, hl, List.mem_cons, or_left_comm, or_assoc]

/-- The next frame that has never been handed out is taken. -/
theorem allocAvail (h : Frames start m allocated free) (havail : m.avail ≠ m.limit) :
    m.avail ∉ free ∧ ¬ allocated m.avail ∧
      Frames start ({ m with avail := m.avail + FRAME_SIZE }.fill m.avail fun _ => 0)
        (fun f => f = m.avail ∨ allocated f) free := by
  obtain ⟨hlo, hle, hmod⟩ := h.avail
  have hnew : ¬ (m.avail ∈ free ∨ allocated m.avail) := by
    rw [h.covers]
    exact fun hlt => lt_irrefl _ hlt.2.2
  rw [not_or] at hnew
  refine ⟨hnew.1, hnew.2, ?_, h.nodup, ?_, ?_, h.start_pos, ?_, h.limit⟩
  · apply h.chained.congr
    intro f hf
    have hne : f ≠ m.avail := by
      rintro rfl
      exact hnew.1 hf
    exact congrFun (Function.update_of_ne hne ..) 0
  · rintro f hf (rfl | hf')
    · exact hnew.1 hf
    · exact h.disjoint f hf hf'
  · intro f
    show f ∈ free ∨ f = m.avail ∨ allocated f ↔ f % 4096 = 0 ∧ start ≤ f ∧ f < m.avail + 4096
    rw [or_left_comm, h.covers f]
    omega
  · have hlimit := h.limit
    show start ≤ m.avail + 4096 ∧ m.avail + 4096 ≤ m.limit ∧ (m.avail + 4096) % 4096 = 0
    omega

/-- A frame that is taken out of the pool has been cleared, and nobody has it. -/
theorem alloc (h : Frames start m allocated free) {r : ℕ × PhysMem} (hr : m.allocFrame = some r) :
    ¬ allocated r.1 ∧ r.2.mem = Function.update m.mem r.1 (fun _ => 0) ∧ r.2.limit = m.limit ∧
      ∃ free', Frames start r.2 (fun f => f = r.1 ∨ allocated f) free' ∧ ∀ f, f ∈ free' ↔ f ∈ free ∧ f ≠ r.1 := by
  unfold allocFrame at hr
  split_ifs at hr with hfirst havail
  · obtain rfl := take_eq hr
    obtain ⟨free', hfree, hframes⟩ := h.allocFree hfirst
    have hnodup := h.nodup
    rw [hfree, List.nodup_cons] at hnodup
    refine ⟨h.disjoint _ (by simp [hfree]), rfl, rfl, free', hframes, ?_⟩
    intro f
    rw [hfree, List.mem_cons]
    constructor
    · intro hf
      exact ⟨.inr hf, by rintro rfl; exact hnodup.1 hf⟩
    · rintro ⟨hf, hne⟩
      exact hf.resolve_left hne
  · obtain rfl := take_eq hr
    obtain ⟨hnot, hnew, hframes⟩ := h.allocAvail havail
    refine ⟨hnew, rfl, rfl, free, hframes, ?_⟩
    intro f
    exact ⟨fun hf => ⟨hf, by rintro rfl; exact hnot hf⟩, fun hf => hf.1⟩

/-- A frame can be had while there is one that nobody has. -/
theorem alloc_isSome (h : Frames start m allocated free) (hf : f % 4096 = 0 ∧ start ≤ f ∧ f < m.limit)
    (hnot : ¬ allocated f) : m.allocFrame.isSome = true := by
  unfold allocFrame
  by_cases hfirst : m.firstFree = 0
  · have havail : m.avail ≠ m.limit := by
      intro havail
      have hmem := (h.covers f).mpr (by rw [havail]; exact hf)
      cases free with
      | nil => exact hnot (hmem.resolve_left List.not_mem_nil)
      | cons g free => exact h.chained.2.1 hfirst
    rw [if_neg (not_not.mpr hfirst), if_neg havail, take_of_aligned _ h.avail.2.2]
    rfl
  · obtain ⟨free', hfree, -⟩ := h.chained.pop hfirst
    have halign := h.aligned (f := m.firstFree) (.inl (by rw [hfree]; exact List.mem_cons_self))
    rw [if_pos hfirst, take_of_aligned _ halign]
    rfl

/-- A frame goes back into the pool. -/
theorem dealloc (h : Frames start m allocated free) (hf : allocated f) :
    ∃ m', m.deallocFrame f = some m' ∧ Frames start m' (fun g => allocated g ∧ g ≠ f) (f :: free) ∧
      m'.limit = m.limit ∧ ∀ g, g ≠ f → m'.mem g = m.mem g := by
  have hnot : f ∉ free := fun hmem => h.disjoint f hmem hf
  have hlink : (fun g => (m.store f 0 m.firstFree).mem g 0) = Function.update (fun g => m.mem g 0) f m.firstFree := by
    funext g
    by_cases hg : g = f
    · subst hg
      simp [PhysMem.store]
    · simp [PhysMem.store, hg]
  unfold deallocFrame
  rw [if_pos ((offset_eq f).trans (h.aligned (.inr hf)))]
  refine ⟨_, rfl, ⟨?_, List.nodup_cons.mpr ⟨hnot, h.nodup⟩, ?_, ?_, h.start_pos, h.avail, h.limit⟩, rfl,
    fun g hg => Function.update_of_ne hg ..⟩
  · show Chained (fun g => (m.store f 0 m.firstFree).mem g 0) f (f :: free)
    rw [hlink]
    exact h.chained.push (h.ne_zero (.inr hf)) hnot
  · rintro g hg ⟨hg', hne⟩
    exact h.disjoint g ((List.mem_cons.mp hg).resolve_left hne) hg'
  · intro g
    show g ∈ f :: free ∨ allocated g ∧ g ≠ f ↔ g % 4096 = 0 ∧ start ≤ g ∧ g < m.avail
    rw [← h.covers g, List.mem_cons]
    by_cases hg : g = f
    · subst hg
      simp [hf]
    · simp [hg]

end Frames

/-- The pool with the frames that its clients have. -/
structure FrameUse where
  phys : PhysMem
  allocated : List ℕ

inductive FrameAct
  | alloc
  | dealloc (f : ℕ)
  /-- a client stores to word `i` of a frame -/
  | store (f i v : ℕ)

namespace FrameUse

/-- What an action does; `none` where it cannot happen, or ends in a panic. -/
def step (s : FrameUse) : FrameAct → Option FrameUse
  | .alloc => s.phys.allocFrame.map fun r => { phys := r.2, allocated := r.1 :: s.allocated }
  | .dealloc f =>
    if f ∈ s.allocated then (s.phys.deallocFrame f).map fun m => { phys := m, allocated := s.allocated.erase f } else none
  | .store f i v => if f ∈ s.allocated then some { s with phys := s.phys.store f i v } else none

end FrameUse

/-- After `init`, frames are taken, overwritten and given back in any order. -/
def frameMachine (start size : ℕ) : Machine FrameUse FrameAct where
  init s := ∃ mem, PhysMem.init mem start size = some s.phys ∧ s.allocated = []
  enabled s a := (s.step a).isSome = true
  next s a := (s.step a).getD s

instance (start size : ℕ) (s : FrameUse) (a : FrameAct) : Decidable ((frameMachine start size).enabled s a) :=
  inferInstanceAs (Decidable (_ = true))

namespace FrameUse

variable {start size : ℕ} {s t : FrameUse} {a : FrameAct}

/-- The frames that have never been handed out. -/
def Untouched (s : FrameUse) (f : ℕ) : Prop := f % 4096 = 0 ∧ s.phys.avail ≤ f ∧ f < s.phys.limit

/-- The frames of `[start, start + size)` are free, allocated or untouched, and each is one of the three only;
`alloc_frame` hands out one of those that are not allocated. -/
structure Exclusive (start size : ℕ) (s : FrameUse) : Prop where
  frames : ∃ free, Chained (fun f => s.phys.mem f 0) s.phys.firstFree free ∧ free.Nodup ∧
    (∀ f, f ∈ free → f ∉ s.allocated ∧ ¬ s.Untouched f) ∧ (∀ f, f ∈ s.allocated → ¬ s.Untouched f) ∧
    ∀ f, f ∈ free ∨ f ∈ s.allocated ∨ s.Untouched f ↔ f % 4096 = 0 ∧ start ≤ f ∧ f < start + size
  once : s.allocated.Nodup
  alloc : ∀ f m, s.phys.allocFrame = some (f, m) → f % 4096 = 0 ∧ f ∉ s.allocated ∧ ∀ i, m.mem f i = 0
  full : s.phys.allocFrame = none → ∀ f, f % 4096 = 0 → start ≤ f → f < start + size → f ∈ s.allocated
  dealloc : ∀ f, f ∈ s.allocated → (s.phys.deallocFrame f).isSome = true

/-- What every action keeps. -/
structure Inv (start size : ℕ) (s : FrameUse) (free : List ℕ) : Prop where
  frames : Frames start s.phys (fun f => f ∈ s.allocated) free
  once : s.allocated.Nodup
  limit : s.phys.limit = start + size

theorem Inv.init (hstart : 0 < start) (hend : start + size < 2 ^ 32) (h : (frameMachine start size).init s) :
    Inv start size s [] := by
  obtain ⟨mem, hm, halloc⟩ := h
  unfold PhysMem.init at hm
  split_ifs at hm with hoff
  rw [offset_eq, offset_eq] at hoff
  obtain ⟨phys, allocated⟩ := s
  obtain rfl : [] = allocated := halloc.symm
  obtain rfl := Option.some.inj hm
  refine ⟨⟨rfl, List.nodup_nil, by simp, ?_, hstart, ⟨le_rfl, ?_, hoff.1⟩, ?_⟩, List.nodup_nil, Nat.mod_eq_of_lt hend⟩
  · intro f
    simp only [List.not_mem_nil, or_self, false_iff]
    omega
  · show start ≤ (start + size) % 2 ^ 32
    omega
  · show (start + size) % 2 ^ 32 % 4096 = 0
    omega

theorem Inv.step {free : List ℕ} (h : Inv start size s free) (hr : s.step a = some t) :
    ∃ free', Inv start size t free' := by
  cases a with
  | alloc =>
    obtain ⟨r, halloc, rfl⟩ := Option.map_eq_some_iff.mp hr
    obtain ⟨hnew, -, hlimit, free', hframes, -⟩ := h.frames.alloc halloc
    refine ⟨free', ⟨?_, List.nodup_cons.mpr ⟨hnew, h.once⟩, hlimit.trans h.limit⟩⟩
    simpa only [List.mem_cons] using hframes
  | dealloc f =>
    simp only [FrameUse.step] at hr
    split_ifs at hr with hf
    obtain ⟨m, hm, rfl⟩ := Option.map_eq_some_iff.mp hr
    obtain ⟨m', hm', hframes, hlimit, -⟩ := h.frames.dealloc hf
    obtain rfl : m' = m := Option.some.inj (hm'.symm.trans hm)
    refine ⟨f :: free, ⟨?_, h.once.erase f, hlimit.trans h.limit⟩⟩
    simpa only [h.once.mem_erase_iff, and_comm] using hframes
  | store f i v =>
    simp only [FrameUse.step] at hr
    split_ifs at hr with hf
    obtain rfl := Option.some.inj hr
    exact ⟨free, h.frames.store hf, h.once, h.limit⟩

theorem inv_of_reachable (hstart : 0 < start) (hend : start + size < 2 ^ 32)
    (hs : (frameMachine start size).Reachable s) : ∃ free, Inv start size s free := by
  apply hs.invariant
  · intro s h
    exact ⟨[], .init hstart hend h⟩
  · rintro s a ⟨free, h⟩ he
    obtain ⟨t, ht⟩ := Option.isSome_iff_exists.mp he
    show ∃ free, Inv start size ((s.step a).getD s) free
    rw [ht, Option.getD_some]
    exact h.step ht

theorem Inv.exclusive {free : List ℕ} (h : Inv start size s free) : s.Exclusive start size where
  frames := by
    obtain ⟨hlo, hle, hmod⟩ := h.frames.avail
    have hbelow : ∀ f, f ∈ free ∨ f ∈ s.allocated → ¬ s.Untouched f := by
      rintro f hf ⟨-, hge, -⟩
      exact absurd ((h.frames.covers f).mp hf).2.2 (Nat.not_lt_of_le hge)
    refine ⟨free, h.frames.chained, h.frames.nodup, ?_, fun f hf => hbelow f (.inr hf), ?_⟩
    · exact fun f hf => ⟨h.frames.disjoint f hf, hbelow f (.inl hf)⟩
    · intro f
      rw [← or_assoc, h.frames.covers f, Untouched, h.limit]
      have hlimit := h.limit
      omega
  once := h.once
  alloc f m hr := by
    obtain ⟨hnew, hmem, -, free', hframes, -⟩ := h.frames.alloc hr
    refine ⟨hframes.aligned (.inr (.inl rfl)), hnew, ?_⟩
    intro i
    rw [hmem, Function.update_self]
  full hnone f hmod hlo hhi := by
    by_contra hnot
    have hsome := h.frames.alloc_isSome ⟨hmod, hlo, by rw [h.limit]; exact hhi⟩ hnot
    rw [hnone] at hsome
    cases hsome
  dealloc f hf := by
    obtain ⟨m', hm', -⟩ := h.frames.dealloc hf
    rw [hm']
    rfl

/-- No frame is handed out twice. -/
theorem exclusive_of_reachable (start size : ℕ) (hstart : 0 < start) (hend : start + size < 2 ^ 32) (s : FrameUse)
    (hs : (frameMachine start size).Reachable s) : s.Exclusive start size := by
  obtain ⟨free, h⟩ := inv_of_reachable hstart hend hs
  exact h.exclusive

/-- Two frames, given back in the order in which they were taken; the first word of a free frame is then the link. -/
theorem exclusive_twoFrames : ∃ s, (frameMachine 4096 8192).Reachable s ∧ s.phys.firstFree = 8192 ∧
    s.phys.mem 8192 0 = 4096 ∧ s.Exclusive 4096 8192 := by
  obtain ⟨m, hm⟩ : ∃ m, PhysMem.init (fun _ _ => 7) 4096 8192 = some m := Option.isSome_iff_exists.mp (by decide)
  have hrun : ∃ s, (frameMachine 4096 8192).Run { phys := m, allocated := [] }
      [.alloc, .alloc, .store 4096 3 5, .dealloc 4096, .dealloc 8192] s ∧
      (s.phys.firstFree == 8192 && s.phys.mem 8192 0 == 4096) = true := by
    cases hm
    exact Machine.exists_run_of_replay (by decide +kernel)
  obtain ⟨s, hrun, hcheck⟩ := hrun
  obtain ⟨hfirst, hlink⟩ := Bool.and_eq_true_iff.mp hcheck
  have hs : (frameMachine 4096 8192).Reachable s := hrun.reachable (.init ⟨_, hm, rfl⟩)
  exact ⟨s, hs, beq_iff_eq.mp hfirst, beq_iff_eq.mp hlink,
    exclusive_of_reachable 4096 8192 (by decide) (by decide) s hs⟩

end FrameUse
end AudioKernel
