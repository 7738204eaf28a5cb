import AudioKernel.Boot.ConfigInit

/-! The loop of `configInit` over tables of any content: when it ends, and which elements of `apicInfo` it stores to. -/
namespace AudioKernel.Acpi

section Tables

variable (mem : ℕ → UInt8)

/-- The indices in `apicInfo` that the first turns of the loop store to. -/
def stores : ℕ → ℕ → ℤ → Config → List ℕ
  | 0, _, _, _ => []
  | turns + 1, entryPtr, bytesForEntries, config =>
    if bytesForEntries > 0 then
      let len := load mem (entryPtr + 1) 1
      let entryPtr := (entryPtr + len) % 2 ^ 32
      (if (apic mem entryPtr).isSome then [config.nOtherProcs] else []) ++
        stores turns entryPtr (bytesForEntries - len) (record mem entryPtr config)
    else []

/-- What is left for the entries of the table at `madt`. -/
def entryBytes (madt : ℕ) : ℤ := ((load mem (madt + 4) 4 : ℤ) - 44).bmod (2 ^ 32)

/-- The loop ends, no store has gone behind `apicInfo`, and no more processors are counted than have a place in it. -/
structure Robust (madt : ℕ) (config : Config) : Prop where
  returns : ∃ config', parseEntries mem madt config = .ok config' ∧ config'.nOtherProcs ≤ 16
  inBounds : ∀ turns, ∀ i ∈ stores mem turns ((madt + 44) % 2 ^ 32) (entryBytes mem madt) { config with nOtherProcs := 0 },
    i < 16

/-- The bytes are used up by entries that are not empty, with something at the addresses `ps` behind each of them. -/
inductive Walk : ℕ → ℤ → List ℕ → Prop
  | done {p : ℕ} {bytes : ℤ} (le_zero : bytes ≤ 0) : Walk p bytes []
  | entry {p : ℕ} {bytes : ℤ} {ps : List ℕ} (pos : 0 < bytes) (len_ne : load mem (p + 1) 1 ≠ 0) :
      Walk ((p + load mem (p + 1) 1) % 2 ^ 32) (bytes - load mem (p + 1) 1) ps →
      Walk p bytes ((p + load mem (p + 1) 1) % 2 ^ 32 :: ps)

/-- No entry is empty, and at most 16 processors come behind one. -/
def Fits (madt : ℕ) : Prop :=
  ∃ ps, Walk mem ((madt + 44) % 2 ^ 32) (entryBytes mem madt) ps ∧ (ps.filterMap (apic mem)).length ≤ 16

end Tables

variable {mem : ℕ → UInt8} {p madt : ℕ} {bytes : ℤ} {ps : List ℕ}

theorem Walk.length_le (h : Walk mem p bytes ps) : ps.length ≤ bytes.toNat := by
  induction h with
  | done _ => exact Nat.zero_le _
  | entry pos len_ne _ ih =>
    rw [List.length_cons]
    omega

theorem Walk.entriesLoop_eq (h : Walk mem p bytes ps) {fuel : ℕ} (hfuel : ps.length < fuel) (config : Config) :
    entriesLoop mem fuel p bytes config = .ok (ps.foldl (fun c p => record mem p c) config) := by
  induction h generalizing fuel config with
  | done le_zero =>
    obtain ⟨fuel, rfl⟩ : ∃ n, fuel = n + 1 := ⟨fuel - 1, by omega⟩
    rw [entriesLoop, if_neg (Int.not_lt.mpr le_zero)]
    rfl
  | entry pos len_ne _ ih =>
    rw [List.length_cons] at hfuel
    obtain ⟨fuel, rfl⟩ : ∃ n, fuel = n + 1 := ⟨fuel - 1, by omega⟩
    rw [entriesLoop, if_pos pos]
    exact ih (by omega) _

/-- A loop that has ended has met no empty entry: the next turn would be at the same place. -/
theorem exists_walk {fuel : ℕ} {config config' : Config} (hp : p < 2 ^ 32)
    (h : entriesLoop mem fuel p bytes config = .ok config') : ∃ ps, Walk mem p bytes ps := by
  induction fuel generalizing p bytes config with
  | zero => cases h
  | succ fuel ih =>
    rw [entriesLoop] at h
    split_ifs at h with hpos
    · obtain ⟨ps, hwalk⟩ := ih (Nat.mod_lt _ (by decide)) h
      by_cases hlen : load mem (p + 1) 1 = 0
      · rw [hlen, Nat.add_zero, Nat.mod_eq_of_lt hp, Int.natCast_zero, Int.sub_zero] at hwalk
        exact ⟨ps, hwalk⟩
      · exact ⟨_, .entry hpos hlen hwalk⟩
    · exact ⟨[], .done (Int.not_lt.mp hpos)⟩

theorem Walk.parseEntries_eq (h : Walk mem ((madt + 44) % 2 ^ 32) (entryBytes mem madt) ps) (config : Config) :
    parseEntries mem madt config = .ok (ps.foldl (fun c p => record mem p c) { config with nOtherProcs := 0 }) :=
  h.entriesLoop_eq (Nat.lt_succ_of_le h.length_le) _

theorem entriesLoop_cases (fuel p : ℕ) (bytes : ℤ) (config : Config) :
    (∃ config', entriesLoop mem fuel p bytes config = .ok config') ∨
      entriesLoop mem fuel p bytes config = .error .diverge := by
  induction fuel generalizing p bytes config with
  | zero => exact .inr rfl
  | succ fuel ih =>
    rw [entriesLoop]
    split_ifs with hpos
    · exact ih _ _ _
    · exact .inl ⟨config, rfl⟩

/-- The turns that `parseEntries` allows are enough: if the loop has not ended by then, it never does. -/
theorem parseEntries_diverges_iff (config : Config) : parseEntries mem madt config = .error .diverge ↔
    ∀ fuel, entriesLoop mem fuel ((madt + 44) % 2 ^ 32) (entryBytes mem madt) { config with nOtherProcs := 0 } =
      .error .diverge := by
  constructor
  · intro hdiverge fuel
    rcases entriesLoop_cases fuel _ _ _ with ⟨config', hok⟩ | hloop
    · obtain ⟨ps, hwalk⟩ := exists_walk (Nat.mod_lt _ (by decide)) hok
      rw [hwalk.parseEntries_eq config] at hdiverge
      cases hdiverge
    · exact hloop
  · exact fun hloop => hloop _

theorem length_listed (config : Config) : config.listed.length = config.nOtherProcs := by
  rw [Config.listed, List.length_map, List.length_range]

theorem record_count (mem : ℕ → UInt8) (p : ℕ) {config : Config} (h : config.nOtherProcs < 2 ^ 32 - 1) :
    (record mem p config).nOtherProcs = config.nOtherProcs + (apic mem p).toList.length := by
  have hlisted : (record mem p config).listed = config.listed ++ (apic mem p).toList :=
    listed_record p (Nat.add_lt_of_lt_sub h)
  rw [← length_listed, hlisted, List.length_append, length_listed]

/-- Every store has an index of its own, and there are no more of them than processors. -/
theorem Walk.stores_lt (h : Walk mem p bytes ps) {config : Config}
    (hroom : config.nOtherProcs + (ps.filterMap (apic mem)).length ≤ 16) (turns : ℕ) :
    ∀ i ∈ stores mem turns p bytes config, i < 16 := by
  induction h generalizing turns config with
  | done le_zero =>
    cases turns with
    | zero => exact fun i hi => absurd hi List.not_mem_nil
    | succ turns =>
      rw [stores, if_neg (Int.not_lt.mpr le_zero)]
      exact fun i hi => absurd hi List.not_mem_nil
  | @entry p bytes ps pos len_ne _ ih =>
    cases turns with
    | zero => exact fun i hi => absurd hi List.not_mem_nil
    | succ turns =>
      have hcount := record_count mem ((p + load mem (p + 1) 1) % 2 ^ 32) (show config.nOtherProcs < 2 ^ 32 - 1 by omega)
      rw [stores, if_pos pos]
      dsimp only
      intro i hi
      rcases List.mem_append.mp hi with hi | hi
      · split_ifs at hi with hproc
        · obtain ⟨info, hinfo⟩ := Option.isSome_iff_exists.mp hproc
          rw [List.filterMap_cons_some hinfo, List.length_cons] at hroom
          rw [List.mem_singleton.mp hi]
          omega
        · cases hi
      · refine ih ?_ turns i hi
        rw [hcount]
        cases hproc : apic mem ((p + load mem (p + 1) 1) % 2 ^ 32) with
        | none =>
          rw [List.filterMap_cons_none hproc] at hroom
          exact hroom
        | some info =>
          rw [List.filterMap_cons_some hproc, List.length_cons] at hroom
          rw [Option.toList_some, List.length_singleton]
          omega

theorem Walk.count_eq (h : Walk mem ((madt + 44) % 2 ^ 32) (entryBytes mem madt) ps) (config : Config) :
    (ps.foldl (fun c p => record mem p c) { config with nOtherProcs := 0 }).nOtherProcs =
      (ps.filterMap (apic mem)).length := by
  have hlength := h.length_le
  have hbytes : entryBytes mem madt < 2 ^ 31 := Int.bmod_lt (by decide)
  have hlisted := @listed_foldl mem ps { config with nOtherProcs := 0 } (by
    show 0 + _ < _
    omega)
  have hempty : ({ config with nOtherProcs := 0 } : Config).listed = [] := rfl
  rw [hempty, List.nil_append] at hlisted
  rw [← hlisted, length_listed]

/-- Any table is parsed within bounds just when no entry is empty and the processors behind the entries fit. -/
theorem robust_iff (mem : ℕ → UInt8) (madt : ℕ) (config : Config) : Robust mem madt config ↔ Fits mem madt := by
  constructor
  · rintro ⟨⟨config', hok, hcount⟩, -⟩
    obtain ⟨ps, hwalk⟩ := exists_walk (Nat.mod_lt _ (by decide)) hok
    rw [hwalk.parseEntries_eq] at hok
    obtain rfl := Except.ok.inj hok
    rw [hwalk.count_eq] at hcount
    exact ⟨ps, hwalk, hcount⟩
  · rintro ⟨ps, hwalk, hroom⟩
    refine ⟨⟨_, hwalk.parseEntries_eq config, ?_⟩, hwalk.stores_lt ?_⟩
    · rw [hwalk.count_eq]
      exact hroom
    · show 0 + _ ≤ 16
      omega

def processors (n : ℕ) : List UInt8 := (List.replicate n [0, 8, 1, 1, 1, 0, 0, 0]).flatten

theorem emptyEntry_diverges : parseEntries (tables [0, 0]) 0x2000 zeroConfig = .error .diverge := by
  have hnone : (parseEntries (tables [0, 0]) 0x2000 zeroConfig).toOption.isNone = true := by decide +kernel
  rcases @entriesLoop_cases (tables [0, 0]) _ _ _ _ with ⟨config', hok⟩ | hloop
  · rw [show parseEntries (tables [0, 0]) 0x2000 zeroConfig = .ok config' from hok] at hnone
    cases hnone
  · exact hloop

/-- The loop stays at an entry of length 0 for ever, and it stores the 17th processor behind the array. -/
theorem tables_not_robust :
    (findSDT (tables [0, 0]) (findRSD (tables [0, 0])) madtSignature = 0x2000 ∧
      parseEntries (tables [0, 0]) 0x2000 zeroConfig = .error .diverge ∧ ¬ Robust (tables [0, 0]) 0x2000 zeroConfig) ∧
    findSDT (tables (processors 18)) (findRSD (tables (processors 18))) madtSignature = 0x2000 ∧
      16 ∈ stores (tables (processors 18)) 18 0x202C 144 zeroConfig ∧
      ¬ Robust (tables (processors 18)) 0x2000 zeroConfig := by
  have hstore : 16 ∈ stores (tables (processors 18)) 18 0x202C 144 zeroConfig := by decide +kernel
  have hbytes : entryBytes (tables (processors 18)) 0x2000 = 144 := by decide +kernel
  refine ⟨⟨by decide +kernel, emptyEntry_diverges, ?_⟩, by decide +kernel, hstore, ?_⟩
  · rintro ⟨⟨config', hok, -⟩, -⟩
    rw [emptyEntry_diverges] at hok
    cases hok
  · intro hrobust
    have hlt := hrobust.inBounds 18
    rw [hbytes] at hlt
    exact absurd (hlt 16 hstore) (by decide)

end AudioKernel.Acpi
