import AudioKernel.Memory
import Mathlib.Data.List.Nodup
import Mathlib.Data.List.ProdSigma
import Mathlib.Data.UInt

/-! `pci_init` of `pci.cc`: the functions that answer on the PCI bus, and the table that it stores them in. -/
namespace AudioKernel

/-- A device that the enumeration has found. The pointer to its driver may be null. -/
structure PciDevice where
  vendor : UInt32
  device : UInt32
  func : UInt32
  driver : Option ℕ
  deriving DecidableEq

/-- Where a function is. -/
structure PciLocation where
  bus : UInt16
  slot : UInt16
  func : UInt16
  deriving DecidableEq

/-- `pciDevices` is what lies in memory from the array on: 32 slots, and then what is not part of it. `stores` are the
indices of the slots that have been stored to, in turn. -/
structure Pci where
  pciDevices : ℕ → Option PciDevice
  devices : ℕ
  stores : List ℕ

namespace Pci

def configAddress (bus slot func offset : UInt8) : UInt32 :=
  let lbus := bus.toUInt32
  let lslot := slot.toUInt32
  let lfunc := func.toUInt32
  (lbus <<< 16) ||| (lslot <<< 11) ||| (lfunc <<< 8) ||| (offset &&& 0xFC).toUInt32 ||| 0x80000000

section Enumeration

-- What the configuration space answers to an address, in the read for the word at an offset.
variable (space : UInt32 → UInt8 → UInt32)

def pciConfigReadWord (bus slot func offset : UInt8) : UInt16 :=
  (space (configAddress bus slot func offset) offset >>> ((offset &&& 2) * 8).toUInt32 &&& 0xFFFF).toUInt16

def getVendorId (bus slot func : UInt16) : UInt16 :=
  pciConfigReadWord space bus.toUInt8 slot.toUInt8 func.toUInt8 0

def getDeviceId (bus slot func : UInt16) : UInt16 :=
  pciConfigReadWord space bus.toUInt8 slot.toUInt8 func.toUInt8 2

def addDevice (device : PciDevice) (s : Pci) : Pci where
  pciDevices := Function.update s.pciDevices s.devices (some device)
  devices := s.devices + 1
  stores := s.stores ++ [s.devices]

def parseFunction (s : Pci) (l : PciLocation) : Pci :=
  let vendorId := getVendorId space l.bus l.slot l.func
  if vendorId = 0xFFFF then s
  else
    let deviceId := getDeviceId space l.bus l.slot l.func
    s.addDevice ⟨vendorId.toUInt32, deviceId.toUInt32, l.func.toUInt32, none⟩

def parseDevices (s : Pci) : Pci :=
  (List.range 256).foldl (fun s bus =>
    (List.range 32).foldl (fun s slot =>
      (List.range 8).foldl (fun s func =>
        parseFunction space s ⟨UInt16.ofNat bus, UInt16.ofNat slot, UInt16.ofNat func⟩) s) s) s

/-- The vendor, device and function of every line that `pci_debug` prints. -/
def pciDebug (s : Pci) : List (UInt32 × UInt32 × UInt32) :=
  (List.range s.devices).filterMap fun i => do
    let device ← s.pciDevices i
    if device.driver.isSome then none else some (device.vendor, device.device, device.func)

/-- `pci_init`, over what lay in memory where the array is allocated, with what it prints. -/
def pciInit (memory : ℕ → Option PciDevice) : List (UInt32 × UInt32 × UInt32) × Pci :=
  let s := parseDevices space { pciDevices := memory, devices := 0, stores := [] }
  (s.pciDebug, s)

def scanOrder : List PciLocation :=
  (List.range 256).flatMap fun bus => (List.range 32).flatMap fun slot => (List.range 8).map fun func =>
    ⟨UInt16.ofNat bus, UInt16.ofNat slot, UInt16.ofNat func⟩

def Responds (l : PciLocation) : Prop := getVendorId space l.bus l.slot l.func ≠ 0xFFFF

instance (l : PciLocation) : Decidable (Responds space l) := inferInstanceAs (Decidable (_ ≠ _))

def responding : List PciLocation := scanOrder.filter (Responds space ·)

def entry (l : PciLocation) : PciDevice where
  vendor := (getVendorId space l.bus l.slot l.func).toUInt32
  device := (getDeviceId space l.bus l.slot l.func).toUInt32
  func := l.func.toUInt32
  driver := none

end Enumeration

/-- The table holds these devices, and they have been stored one after the other. -/
structure Holds (s : Pci) (xs : List PciDevice) : Prop where
  devices_eq : s.devices = xs.length
  stores_eq : s.stores = List.range xs.length
  slot : ∀ i < xs.length, s.pciDevices i = xs[i]?

/-- Every store was to one of the slots, and the functions that respond are recorded once each in scan order, as far as
the slots go. -/
structure Enumerates (space : UInt32 → UInt8 → UInt32) (s : Pci) : Prop where
  inBounds : ∀ i ∈ s.stores, i < 32
  once : (responding space).Nodup
  records : s.Holds (((responding space).take 32).map (entry space))

variable {space : UInt32 → UInt8 → UInt32} {s : Pci} {xs : List PciDevice}

theorem ofNat_inj {m n : ℕ} (hm : m < 2 ^ 16) (hn : n < 2 ^ 16) : UInt16.ofNat m = UInt16.ofNat n ↔ m = n := by
  rw [← UInt16.toNat_inj, UInt16.toNat_ofNat_of_lt' hm, UInt16.toNat_ofNat_of_lt' hn]

/-- Lists of places that differ in what the outer loop counts. -/
theorem nodup_flatMap_range {n : ℕ} {f : ℕ → List PciLocation} (part : PciLocation → UInt16) (hn : n ≤ 2 ^ 16)
    (hnodup : ∀ k < n, (f k).Nodup) (hpart : ∀ k, ∀ l ∈ f k, part l = UInt16.ofNat k) :
    ((List.range n).flatMap f).Nodup := by
  refine List.nodup_flatMap.mpr ⟨fun k hk => hnodup k (List.mem_range.mp hk), ?_⟩
  refine List.nodup_range.pairwise_of_forall_ne fun j hj k hk hne => ?_
  intro l hlj hlk
  have heq : UInt16.ofNat j = UInt16.ofNat k := (hpart j l hlj).symm.trans (hpart k l hlk)
  have hj := List.mem_range.mp hj
  have hk := List.mem_range.mp hk
  exact hne ((ofNat_inj (by omega) (by omega)).mp heq)

theorem scanOrder_nodup : scanOrder.Nodup := by
  refine nodup_flatMap_range PciLocation.bus (by decide) (fun bus _ => ?_) ?_
  · refine nodup_flatMap_range PciLocation.slot (by decide) (fun slot _ => ?_) ?_
    · refine List.Nodup.map_on ?_ List.nodup_range
      intro j hj k hk heq
      have hj := List.mem_range.mp hj
      have hk := List.mem_range.mp hk
      exact (ofNat_inj (by omega) (by omega)).mp (PciLocation.mk.inj heq).2.2
    · intro slot l hl
      obtain ⟨func, -, rfl⟩ := List.mem_map.mp hl
      rfl
  · intro bus l hl
    obtain ⟨slot, -, hl⟩ := List.mem_flatMap.mp hl
    obtain ⟨func, -, rfl⟩ := List.mem_map.mp hl
    rfl

/-- Every function of every slot of every bus is asked. -/
theorem mem_scanOrder {bus slot func : ℕ} (hbus : bus < 256) (hslot : slot < 32) (hfunc : func < 8) :
    ⟨UInt16.ofNat bus, UInt16.ofNat slot, UInt16.ofNat func⟩ ∈ scanOrder :=
  List.mem_flatMap.mpr ⟨bus, List.mem_range.mpr hbus, List.mem_flatMap.mpr ⟨slot, List.mem_range.mpr hslot,
    List.mem_map.mpr ⟨func, List.mem_range.mpr hfunc, rfl⟩⟩⟩

namespace Holds

theorem addDevice (h : s.Holds xs) (device : PciDevice) : (s.addDevice device).Holds (xs ++ [device]) where
  devices_eq := by rw [Pci.addDevice, h.devices_eq, List.length_append, List.length_singleton]
  stores_eq := by
    rw [Pci.addDevice, h.stores_eq, h.devices_eq, List.length_append, List.length_singleton, List.range_succ]
  slot i hi := by
    rw [List.length_append, List.length_singleton] at hi
    show Function.update s.pciDevices s.devices (some device) i = _
    rw [h.devices_eq]
    by_cases heq : i = xs.length
    · rw [heq, Function.update_self, List.getElem?_concat_length]
    · have hlt : i < xs.length := by omega
      rw [Function.update_of_ne heq, h.slot i hlt, List.getElem?_append_left hlt]

/-- One turn records the function if it responds. -/
theorem parseFunction (h : s.Holds xs) (l : PciLocation) :
    (parseFunction space s l).Holds (xs ++ ([l].filter (Responds space ·)).map (entry space)) := by
  unfold Pci.parseFunction
  dsimp only
  split_ifs with hvendor
  · have hnone : [l].filter (Responds space ·) = [] := by
      rw [List.filter_singleton, decide_eq_false (show ¬ Responds space l from not_not_intro hvendor)]
      rfl
    rw [hnone, List.map_nil, List.append_nil]
    exact h
  · have hone : [l].filter (Responds space ·) = [l] := by
      rw [List.filter_singleton, decide_eq_true (show Responds space l from hvendor)]
      rfl
    rw [hone]
    exact h.addDevice _

theorem foldl (h : s.Holds xs) (ls : List PciLocation) :
    (ls.foldl (Pci.parseFunction space) s).Holds (xs ++ (ls.filter (Responds space ·)).map (entry space)) := by
  induction ls generalizing s xs with
  | nil =>
    rw [List.filter_nil, List.map_nil, List.append_nil]
    exact h
  | cons l ls ih =>
    have hturn : (Pci.parseFunction space s l).Holds _ := h.parseFunction l
    have hrest := ih hturn
    rw [List.append_assoc, ← List.map_append, ← List.filter_append] at hrest
    exact hrest

end Holds

/-- The three loops are one pass over the places. -/
theorem parseDevices_eq (s : Pci) : parseDevices space s = scanOrder.foldl (parseFunction space) s := by
  unfold parseDevices scanOrder
  simp only [List.foldl_flatMap, List.foldl_map]

/-- Whatever answers, every function that responds gets the next index. -/
theorem pciInit_holds (space : UInt32 → UInt8 → UInt32) (memory : ℕ → Option PciDevice) :
    (pciInit space memory).2.Holds ((responding space).map (entry space)) := by
  have hempty : Pci.Holds ⟨memory, 0, []⟩ [] := ⟨rfl, rfl, fun i hi => absurd hi (Nat.not_lt_zero i)⟩
  unfold pciInit
  dsimp only
  rw [parseDevices_eq]
  exact hempty.foldl scanOrder

/-- The table is not made for more functions than it has slots. -/
theorem enumerates_iff (space : UInt32 → UInt8 → UInt32) (memory : ℕ → Option PciDevice) :
    Enumerates space (pciInit space memory).2 ↔ (responding space).length ≤ 32 := by
  have h := pciInit_holds space memory
  constructor
  · intro hgood
    have hlen := h.devices_eq.symm.trans hgood.records.devices_eq
    rw [List.length_map, List.length_map, List.length_take] at hlen
    omega
  · intro hle
    refine ⟨?_, scanOrder_nodup.filter _, ?_⟩
    · intro i hi
      rw [h.stores_eq, List.length_map, List.mem_range] at hi
      omega
    · rw [List.take_of_length_le hle]
      exact h

/-- Five devices with one function each, which take no notice of which function they are asked for. -/
def fiveDevices (address : UInt32) (_ : UInt8) : UInt32 := if address < 0x80002800 then 0x24158086 else 0xFFFFFFFF

/-- The five devices are found forty times. -/
theorem stored_behind_the_slots : 32 ∈ (pciInit fiveDevices fun _ => none).2.stores ∧
    ¬ ∀ space memory, Enumerates space (pciInit space memory).2 := by
  have hfound : ∀ l ∈ (List.range 40).map fun k => PciLocation.mk 0 (UInt16.ofNat (k / 8)) (UInt16.ofNat (k % 8)),
      l ∈ responding fiveDevices := by
    intro l hl
    obtain ⟨k, hk, rfl⟩ := List.mem_map.mp hl
    have hk := List.mem_range.mp hk
    have hscan := mem_scanOrder (show 0 < 256 by decide) (show k / 8 < 32 by omega) (show k % 8 < 8 by omega)
    refine List.mem_filter.mpr ⟨hscan, decide_eq_true ?_⟩
    revert k
    decide
  have hcount := (List.subperm_of_subset (by decide) hfound).length_le
  rw [List.length_map, List.length_range] at hcount
  refine ⟨?_, fun hall => ?_⟩
  · rw [(pciInit_holds fiveDevices _).stores_eq, List.length_map, List.mem_range]
    omega
  · have hle := (enumerates_iff fiveDevices fun _ => none).mp (hall _ _)
    omega

end Pci
end AudioKernel
