import AudioKernel.Sys.Isolation
import AudioKernel.Vm.Invariant

/-! `PhysMem::init` and `VMM::global_init` leave the frames as the processes expect them. -/
namespace AudioKernel
open Lib PhysMem

namespace VmConfig

def pc (memSize : ℕ) (h : memSize ≤ 0x80000000) : VmConfig where
  toConfig := World.pcConfig
  memSize := memSize
  memSize_le := h
  localAPIC_page := by decide
  ioAPIC_page := by decide
  localAPIC_private := by decide
  ioAPIC_private := by decide

def pc128M : VmConfig := pc 0x8000000 (by decide)

/-- The memory ends just where private space begins. -/
def pc2G : VmConfig := pc 0x80000000 (by decide)

end VmConfig

namespace PhysMem

/-- The kernel's directory, with every page of the memory but the first mapped to itself. -/
def globalInit (memSize : ℕ) (m : PhysMem) : Option (ℕ × PhysMem) := do
  let (shared, m) ← m.allocFrame
  let m ← forLoop (fun k m => m.map shared (k * FRAME_SIZE) (k * FRAME_SIZE)) 1 ((memSize - 1) / FRAME_SIZE) m
  return (shared, m)

/-- While no frame has been given back, the next one is taken. -/
theorem allocFrame_fresh {m : PhysMem} {r : ℕ × PhysMem} (hfirst : m.firstFree = 0) (hr : m.allocFrame = some r) :
    m.avail ≠ m.limit ∧ r = (m.avail, { m with avail := m.avail + FRAME_SIZE }.fill m.avail fun _ => 0) := by
  unfold allocFrame at hr
  rw [if_neg (not_not.mpr hfirst)] at hr
  split_ifs at hr with havail
  exact ⟨havail, take_eq hr⟩

end PhysMem

namespace Vm

def boot (cfg : VmConfig) (mem : ℕ → ℕ → ℕ) : Option Vm := do
  let m ← PhysMem.init mem VMM_FRAMES (cfg.memSize - VMM_FRAMES)
  let (shared, phys) ← m.globalInit cfg.memSize
  return { phys, shared, pd := fun _ => none, spaces := 0 }

/-- The kernel's directory and its tables while `global_init` runs. -/
structure Booting (shared top : ℕ) (m : PhysMem) : Prop where
  firstFree : m.firstFree = 0
  avail : shared < m.avail ∧ m.avail ≤ m.limit ∧ m.avail % 4096 = 0
  limit : m.limit = top ∧ top ≤ 0x80000000 ∧ top % 4096 = 0
  low : ∀ i, i < 512 → m.mem shared i = 0 ∨ ∃ t, m.mem shared i = t ||| 7 ∧ t % 4096 = 0 ∧ shared < t ∧ t < m.avail
  high : ∀ i, 512 ≤ i → m.mem shared i = 0

namespace Booting

variable {shared top va pa : ℕ} {m m' : PhysMem}

/-- A frame is taken while the kernel boots. -/
theorem alloc (h : Booting shared top m) {r : ℕ × PhysMem} (hr : m.allocFrame = some r) :
    r.1 = m.avail ∧ r.2.avail = m.avail + 4096 ∧ Booting shared top r.2 := by
  obtain ⟨hlo, hle, hmod⟩ := h.avail
  obtain ⟨hlimit, -, htop⟩ := h.limit
  obtain ⟨havail, rfl⟩ := allocFrame_fresh h.firstFree hr
  have hmem : Function.update m.mem m.avail (fun _ => 0) shared = m.mem shared :=
    Function.update_of_ne (Nat.ne_of_lt hlo) ..
  refine ⟨rfl, rfl, h.firstFree, ?_, h.limit, ?_, ?_⟩
  · show shared < m.avail + 4096 ∧ m.avail + 4096 ≤ m.limit ∧ (m.avail + 4096) % 4096 = 0
    omega
  · intro i hi
    show Function.update m.mem m.avail _ shared i = 0 ∨ ∃ t, Function.update m.mem m.avail _ shared i = t ||| 7 ∧
      t % 4096 = 0 ∧ shared < t ∧ t < m.avail + 4096
    rw [hmem]
    rcases h.low i hi with hzero | ⟨t, he, ht, hst, hlt⟩
    · exact .inl hzero
    · exact .inr ⟨t, he, ht, hst, Nat.lt_add_right 4096 hlt⟩
  · intro i hi
    show Function.update m.mem m.avail _ shared i = 0
    rw [hmem, h.high i hi]

/-- A store to a table. -/
theorem store (h : Booting shared top m) {f : ℕ} (hf : f ≠ shared) (i v : ℕ) : Booting shared top (m.store f i v) := by
  have hmem : (m.store f i v).mem shared = m.mem shared := Function.update_of_ne hf.symm ..
  refine ⟨h.firstFree, h.avail, h.limit, ?_, ?_⟩
  · rw [hmem]
    exact h.low
  · rw [hmem]
    exact h.high

/-- A table is put into the directory. -/
theorem link (h : Booting shared top m) {t i : ℕ} (hi : i < 512) (ht : t % 4096 = 0 ∧ shared < t ∧ t < m.avail) :
    Booting shared top (m.store shared i (t ||| 7)) := by
  have hstored := store_stored m shared i (t ||| 7)
  refine ⟨h.firstFree, h.avail, h.limit, ?_, ?_⟩
  · intro k hk
    rw [hstored]
    split_ifs
    · exact .inr ⟨t, rfl, ht⟩
    · exact h.low k hk
  · intro k hk
    rw [hstored, if_neg (by omega), h.high k hk]

/-- One page below private space is mapped. -/
theorem map (h : Booting shared top m) (hva : pdiOf va < 512) (hr : m.map shared va pa = some m') :
    Booting shared top m' := by
  obtain ⟨hlo, hle, hmod⟩ := h.avail
  obtain ⟨hlimit, htop, -⟩ := h.limit
  obtain ⟨r, htable, rfl⟩ := Option.map_eq_some_iff.mp hr
  unfold PhysMem.tableFor at htable
  dsimp only at htable
  rcases h.low (pdiOf va) hva with hzero | ⟨t, he, ht, hst, hlt⟩
  · rw [hzero, present_zero, if_neg Bool.false_ne_true, Option.map_eq_some_iff] at htable
    obtain ⟨a, ha, rfl⟩ := htable
    obtain ⟨hfirst, havail, halloc⟩ := h.alloc ha
    rw [hfirst, frameOf_or hmod (by omega)]
    exact (halloc.link hva ⟨hmod, hlo, by omega⟩).store (Nat.ne_of_gt hlo) _ _
  · rw [he, PhysMem.present_or ht, if_pos rfl] at htable
    obtain rfl := Option.some.inj htable
    rw [frameOf_or ht (by omega)]
    exact h.store (Nat.ne_of_gt hst) _ _

end Booting

/-- A kernel that has enough memory for its frames has its directory and its tables when it has booted. -/
theorem boot_booting {cfg : VmConfig} {mem : ℕ → ℕ → ℕ} {s : Vm} (hmem : VMM_FRAMES ≤ cfg.memSize)
    (h : boot cfg mem = some s) :
    Booting VMM_FRAMES cfg.memSize s.phys ∧ s.shared = VMM_FRAMES ∧ (∀ p, s.pd p = none) ∧ s.spaces = 0 := by
  have hsize := cfg.memSize_le
  obtain ⟨m, hm, h⟩ := Option.bind_eq_some_iff.mp h
  obtain ⟨r, hr, h⟩ := Option.bind_eq_some_iff.mp h
  obtain rfl := Option.some.inj h
  obtain ⟨a, ha, hr⟩ := Option.bind_eq_some_iff.mp hr
  obtain ⟨m', hm', hr⟩ := Option.bind_eq_some_iff.mp hr
  obtain rfl : (a.1, m') = r := Option.some.inj hr
  unfold PhysMem.init at hm
  split_ifs at hm with hoff
  obtain rfl := Option.some.inj hm
  obtain ⟨havail, rfl⟩ := allocFrame_fresh rfl ha
  obtain ⟨-, hoff⟩ := hoff
  rw [offset_eq] at hoff
  have hlimit : (VMM_FRAMES + (cfg.memSize - VMM_FRAMES)) % 2 ^ 32 = cfg.memSize := by omega
  rw [hlimit] at havail hm'
  dsimp only at havail hm' ⊢
  have hframes : VMM_FRAMES % 4096 = 0 := rfl
  have hstart : Booting VMM_FRAMES cfg.memSize
      (PhysMem.fill ⟨mem, 0, VMM_FRAMES + FRAME_SIZE, cfg.memSize⟩ VMM_FRAMES fun _ => 0) := by
    have hzero : ∀ i, Function.update mem VMM_FRAMES (fun _ => 0) VMM_FRAMES i = 0 := by
      intro i
      rw [Function.update_self]
    refine ⟨rfl, ?_, ?_, fun i _ => .inl (hzero i), fun i _ => hzero i⟩
    · show VMM_FRAMES < VMM_FRAMES + 4096 ∧ VMM_FRAMES + 4096 ≤ cfg.memSize ∧ (VMM_FRAMES + 4096) % 4096 = 0
      omega
    · show cfg.memSize = cfg.memSize ∧ _
      omega
  refine ⟨?_, rfl, fun _ => rfl, rfl⟩
  refine forLoop_invariant (P := fun _ => Booting VMM_FRAMES cfg.memSize) hstart ?_ hm'
  intro k m₁ m₂ hk h₁ hr
  apply h₁.map ?_ hr
  rw [pdiOf_eq]
  unfold FRAME_SIZE at hk ⊢
  omega

/-- Then the kernel is in an initial state. -/
theorem boot_booted {cfg : VmConfig} {mem : ℕ → ℕ → ℕ} {s : Vm} (hmem : VMM_FRAMES ≤ cfg.memSize)
    (h : boot cfg mem = some s) : Booted cfg s := by
  obtain ⟨hbooting, hshared, hnone, hspaces⟩ := boot_booting hmem h
  obtain ⟨hlo, hle, hmod⟩ := hbooting.avail
  obtain ⟨hlimit, -, htop⟩ := hbooting.limit
  refine ⟨hbooting.firstFree, ⟨hlo.le, hle, hmod⟩, ?_, ?_, ?_, hnone, hspaces⟩
  · omega
  · rw [hshared]
    exact ⟨le_rfl, hlo, rfl⟩
  · rw [hshared]
    exact hbooting.high

/-- The kernel's directory and its tables, in the order in which `global_init` takes frames for them. -/
def kernelMem (cfg : VmConfig) (f i : ℕ) : ℕ :=
  if f < VMM_FRAMES then 0
  else if f = VMM_FRAMES then if i < cfg.sharedEntries then (f + (i + 1) * FRAME_SIZE) ||| 7 else 0
  else
    let va := pageAt ((f - VMM_FRAMES) / FRAME_SIZE - 1) i
    if va = 0 ∨ cfg.memSize ≤ va then 0 else va ||| 7

/-- What a kernel boots into when its memory was clear. -/
def booted (cfg : VmConfig) : Vm where
  phys :=
    { mem := kernelMem cfg
      firstFree := 0
      avail := VMM_FRAMES + (cfg.sharedEntries + 1) * FRAME_SIZE
      limit := cfg.memSize }
  shared := VMM_FRAMES
  pd _ := none
  spaces := 0

theorem booted_booted {cfg : VmConfig} (hmem : VMM_FRAMES + (cfg.sharedEntries + 1) * FRAME_SIZE ≤ cfg.memSize)
    (halign : cfg.memSize % 4096 = 0) : Booted cfg (booted cfg) where
  firstFree := rfl
  avail := by
    refine ⟨Nat.le_add_right .., hmem, ?_⟩
    show (6 * 1024 * 1024 + (cfg.sharedEntries + 1) * 4096) % 4096 = 0
    omega
  limit := ⟨le_rfl, halign⟩
  shared := ⟨le_rfl, Nat.lt_add_of_pos_right (Nat.mul_pos (Nat.succ_pos _) (by decide)),
    show VMM_FRAMES % 4096 = 0 by decide⟩
  entries i hi := by
    have hle := cfg.sharedEntries_le
    show kernelMem cfg VMM_FRAMES i = 0
    rw [kernelMem, if_neg (lt_irrefl _), if_pos rfl, if_neg (by omega)]
  none _ := rfl
  spaces := rfl

end Vm
end AudioKernel
