import AudioKernel.Heap.Model
import AudioKernel.Memory
import Mathlib.Data.Nat.ModEq

/-! `BlockIO::read` and `BlockIO::read_all` of `block_io.cc` over a virtual `read_block`, and the slice they deliver. -/
namespace AudioKernel

theorem smallestBlock_pos : 0 < 1024 := by decide

theorem smallestBlock_le : 1024 ≤ 2 ^ 31 := by decide

/-- What a read returns, the bytes it stores to the buffer of its caller, and the block numbers it
passes to `read_block`. -/
structure ReadResult where
  count : ℤ
  stores : Stores
  blocks : List ℕ

def assert (invariant : Bool) (text : String) : Except Stop Unit :=
  if invariant then .ok () else .error (.panic text)

theorem assert_pos {p : Prop} [Decidable p] (hp : p) (text : String) : assert (decide p) text = .ok () := by
  simp [assert, hp]

theorem assert_ne_diverge (invariant : Bool) (text : String) : assert invariant text ≠ .error .diverge := by
  unfold assert
  split_ifs
  · exact fun h => nomatch h
  · exact fun h => nomatch h

/-- The `memcpy` of `machine.S` counts down in a signed register. -/
def memcpy (dest : ℕ) (src : ℕ → UInt8) (n : ℕ) : Stores := if n < 2 ^ 31 then Stores.consecutive dest src n else []

/-- `operator new[]`, which panics where `malloc` finds no block. -/
def newArray (granted : Bool) : Except Stop Unit := if granted then .ok () else .error (.panic "out of memory")

/-- Something with block IO: `block k` gives the bytes of block `k`, or stops. `granted k` says whether `malloc` finds the
buffer that a read of a part of block `k` asks for. -/
structure BlockReader where
  blockSize : ℕ
  sizeInBytes : ℕ
  block : ℕ → Except Stop (ℕ → UInt8)
  granted : ℕ → Bool
  blockSize_pos : 0 < blockSize
  blockSize_le : blockSize ≤ 2 ^ 31
  sizeInBytes_lt : sizeInBytes < 2 ^ 32

/-- What the loop of `read_all` has done when it ends: its stores are there also when it stops. -/
structure Reading where
  count : Except Stop ℤ
  stores : Stores
  blocks : List ℕ

def Reading.returned (x : Reading) : Except Stop ReadResult := x.count.map fun count => ⟨count, x.stores, x.blocks⟩

namespace BlockReader

variable (d : BlockReader)

/-- `temp` is private to the call, so that only what goes to `buffer` is recorded. -/
def read (offset desiredN buffer : ℕ) : Except Stop ReadResult :=
  let sz := d.sizeInBytes
  if offset > sz then .ok ⟨-1, [], []⟩
  else if offset = sz then .ok ⟨0, [], []⟩
  else do
    let n := min desiredN (sz - offset)
    let blockNumber := offset / d.blockSize
    let offsetInBlock := offset % d.blockSize
    let actualN := min (d.blockSize - offsetInBlock) n
    assert (actualN ≤ n) "actual_n <= n"
    assert ((offset + actualN) % 2 ^ 32 ≤ sz) "offset + actual_n <= sz"
    if actualN = d.blockSize then
      assert (offsetInBlock = 0) "offset_in_block == 0"
      let bytes ← d.block blockNumber
      return ⟨actualN, Stores.consecutive buffer bytes d.blockSize, [blockNumber]⟩
    else
      assert ((offsetInBlock + actualN) % 2 ^ 32 ≤ d.blockSize) "offset_in_block + actual_n <= block_size"
      newArray (d.granted blockNumber)
      let temp ← d.block blockNumber
      return ⟨actualN, memcpy buffer (fun i => temp (offsetInBlock + i)) actualN, [blockNumber]⟩

/-- The loop of `read_all`, with the stores and the block numbers so far. -/
def readLoop : ℕ → ℕ → ℕ → ℕ → ℤ → Stores → List ℕ → Reading
  | 0, _, _, _, _, stores, blocks => ⟨.error .diverge, stores, blocks⟩
  | fuel + 1, offset, n, buffer, totalCount, stores, blocks =>
    if n > 0 then
      match d.read offset n buffer with
      | .error e => ⟨.error e, stores, blocks⟩
      | .ok r =>
        let stores := stores ++ r.stores
        let blocks := blocks ++ r.blocks
        if r.count < 0 then ⟨.ok r.count, stores, blocks⟩
        else if r.count = 0 then ⟨.ok totalCount, stores, blocks⟩
        else
          let cnt := r.count.toNat
          readLoop fuel ((offset + cnt) % 2 ^ 32) ((n + 2 ^ 32 - cnt) % 2 ^ 32) ((buffer + cnt) % 2 ^ 32)
            (totalCount + r.count) stores blocks
    else ⟨.ok totalCount, stores, blocks⟩

/-- The loop reads a byte in every turn, or ends: `n + 1` turns are enough. -/
def reading (offset n buffer : ℕ) : Reading := d.readLoop (n + 1) offset n buffer 0 [] []

def readAll (offset n buffer : ℕ) : Except Stop ReadResult := (d.reading offset n buffer).returned

/-- `read(offset, thing)` for an unsigned number of `n` bytes. -/
def readUInt (offset n : ℕ) : Except Stop ℕ := do
  let r ← d.readAll offset n 0
  assert (r.count = n) "cnt == sizeof(T)"
  return uintAt (r.stores.apply fun _ => 0) 0 n

/-- Byte `j` of the blocks in a row. A block that cannot be read has none. -/
def byte (j : ℕ) : UInt8 :=
  match d.block (j / d.blockSize) with
  | .ok bytes => bytes (j % d.blockSize)
  | .error _ => 0

/-- The stores that deliver the `r` bytes from `offset` on. -/
def slice (offset buffer r : ℕ) : Stores := Stores.consecutive buffer (fun i => d.byte (offset + i)) r

def Readable (k : ℕ) : Prop := ∃ bytes, d.block k = .ok bytes

/-- The blocks of the `r` bytes from `offset` on can be read. -/
def ReadableAt (offset r : ℕ) : Prop := ∀ i < r, d.Readable ((offset + i) / d.blockSize)

/-- All of block `k` is among the `m` bytes from `offset` on: it needs no buffer of its own. -/
def InPlace (offset m k : ℕ) : Prop := offset ≤ k * d.blockSize ∧ (k + 1) * d.blockSize ≤ offset + m

instance (offset m k : ℕ) : Decidable (d.InPlace offset m k) := inferInstanceAs (Decidable (_ ∧ _))

/-- The blocks of which only a part is read get their buffers. -/
def Buffered (offset m : ℕ) : Prop :=
  ∀ i < m, d.InPlace offset m ((offset + i) / d.blockSize) ∨ d.granted ((offset + i) / d.blockSize) = true

/-- Block `k` as `read` gets it when `m` bytes from `offset` on are asked for. -/
def fetch (offset m k : ℕ) : Except Stop (ℕ → UInt8) := do
  if d.InPlace offset m k then d.block k
  else
    newArray (d.granted k)
    d.block k

/-- Byte `i` of the `m` bytes from `offset` on is delivered, as far as its own block is concerned. -/
def Served (offset m i : ℕ) : Prop := ∃ bytes, d.fetch offset m ((offset + i) / d.blockSize) = .ok bytes

def chunk (offset n : ℕ) : ℕ := min (d.blockSize - offset % d.blockSize) (min n (d.sizeInBytes - offset))

variable {d}

theorem fetch_eq_ok_iff {offset m k : ℕ} {bytes : ℕ → UInt8} : d.fetch offset m k = .ok bytes ↔
    d.block k = .ok bytes ∧ (d.InPlace offset m k ∨ d.granted k = true) := by
  unfold fetch
  split_ifs with hplace
  · simp [hplace]
  · cases hgranted : d.granted k with
    | true => simp [newArray, bind, Except.bind]
    | false => simp [newArray, hplace, bind, Except.bind]

theorem served_iff {offset m i : ℕ} : d.Served offset m i ↔ d.Readable ((offset + i) / d.blockSize) ∧
    (d.InPlace offset m ((offset + i) / d.blockSize) ∨ d.granted ((offset + i) / d.blockSize) = true) := by
  simp only [Served, Readable, fetch_eq_ok_iff, exists_and_right]

theorem forall_served_iff {offset m : ℕ} :
    (∀ i < m, d.Served offset m i) ↔ d.ReadableAt offset m ∧ d.Buffered offset m := by
  simp only [served_iff, ReadableAt, Buffered, forall_and]

/-- A block that is not delivered is one that stops, or one that gets no buffer. -/
theorem fetch_error {offset m k : ℕ} {e : Stop} (h : d.fetch offset m k = .error e) :
    d.block k = .error e ∨ e = .panic "out of memory" ∧ d.granted k = false := by
  unfold fetch at h
  split_ifs at h
  · exact .inl h
  · cases hgranted : d.granted k with
    | true =>
      rw [hgranted] at h
      exact .inl h
    | false =>
      rw [hgranted] at h
      exact .inr ⟨(Except.error.inj h).symm, rfl⟩

theorem slice_append (offset buffer m n : ℕ) :
    d.slice offset buffer m ++ d.slice (offset + m) ((buffer + m) % 2 ^ 32) n = d.slice offset buffer (m + n) := by
  have h := Stores.consecutive_append buffer (fun i => d.byte (offset + i)) m n
  simp only [← Nat.add_assoc] at h
  exact h

theorem byte_of_block {j : ℕ} {bytes : ℕ → UInt8} (h : d.block (j / d.blockSize) = .ok bytes) :
    d.byte j = bytes (j % d.blockSize) := by
  rw [byte, h]

theorem div_in_block (offset i : ℕ) (hi : offset % d.blockSize + i < d.blockSize) :
    (offset + i) / d.blockSize = offset / d.blockSize ∧ (offset + i) % d.blockSize = offset % d.blockSize + i := by
  have hsplit : offset + i = d.blockSize * (offset / d.blockSize) + (offset % d.blockSize + i) := by
    rw [← Nat.add_assoc, Nat.div_add_mod]
  constructor
  · rw [hsplit, Nat.mul_add_div d.blockSize_pos, Nat.div_eq_of_lt hi, Nat.add_zero]
  · rw [hsplit, Nat.mul_add_mod, Nat.mod_eq_of_lt hi]

theorem slice_in_block {offset r : ℕ} {bytes : ℕ → UInt8} (buffer : ℕ)
    (hblock : d.block (offset / d.blockSize) = .ok bytes) (hr : offset % d.blockSize + r ≤ d.blockSize) :
    Stores.consecutive buffer (fun i => bytes (offset % d.blockSize + i)) r = d.slice offset buffer r := by
  apply Stores.consecutive_congr
  intro i hi
  obtain ⟨hdiv, hmod⟩ := div_in_block (d := d) offset i (by omega)
  rw [byte, hdiv, hmod, hblock]

theorem chunk_bounds {offset : ℕ} (n : ℕ) (hoff : offset < d.sizeInBytes) :
    offset % d.blockSize + d.chunk offset n ≤ d.blockSize ∧ offset + d.chunk offset n ≤ d.sizeInBytes ∧
      d.chunk offset n ≤ min n (d.sizeInBytes - offset) := by
  have hmod : offset % d.blockSize < d.blockSize := Nat.mod_lt _ d.blockSize_pos
  unfold chunk
  omega

/-- `read` reads in place just when it reads all of a block. -/
theorem inPlace_iff (offset n : ℕ) : d.InPlace offset (min n (d.sizeInBytes - offset)) (offset / d.blockSize) ↔
    d.chunk offset n = d.blockSize := by
  have hsplit := Nat.div_add_mod offset d.blockSize
  have hmod : offset % d.blockSize < d.blockSize := Nat.mod_lt _ d.blockSize_pos
  rw [InPlace, Nat.add_mul, Nat.one_mul, Nat.mul_comm, chunk]
  omega

/-- Inside the file a read stops just when it does not get its block. -/
theorem read_spec {offset : ℕ} (n buffer : ℕ) (hoff : offset < d.sizeInBytes) :
    d.read offset n buffer = (d.fetch offset (min n (d.sizeInBytes - offset)) (offset / d.blockSize)).map fun _ =>
      ⟨d.chunk offset n, d.slice offset buffer (d.chunk offset n), [offset / d.blockSize]⟩ := by
  have hb := d.blockSize_le
  have hs := d.sizeInBytes_lt
  have hmod : offset % d.blockSize < d.blockSize := Nat.mod_lt _ d.blockSize_pos
  obtain ⟨hin, hend, hle⟩ := d.chunk_bounds n hoff
  have hchunk : min (d.blockSize - offset % d.blockSize) (min n (d.sizeInBytes - offset)) = d.chunk offset n := rfl
  have h1 : ¬ offset > d.sizeInBytes := by omega
  have h2 : ¬ offset = d.sizeInBytes := by omega
  simp only [read, if_neg h1, if_neg h2, hchunk, fetch, inPlace_iff]
  rw [assert_pos (by omega), assert_pos (by omega)]
  by_cases hwhole : d.chunk offset n = d.blockSize
  · have h0 : offset % d.blockSize = 0 := by omega
    rw [if_pos hwhole, if_pos hwhole, assert_pos h0]
    cases hblock : d.block (offset / d.blockSize) with
    | error e => rfl
    | ok bytes =>
      have hslice := d.slice_in_block buffer hblock hin
      simp only [h0, Nat.zero_add] at hslice
      rw [← hslice, hwhole]
      rfl
  · rw [if_neg hwhole, if_neg hwhole, assert_pos (by omega)]
    cases hgranted : d.granted (offset / d.blockSize) with
    | false => rfl
    | true =>
      cases hblock : d.block (offset / d.blockSize) with
      | error e => rfl
      | ok bytes =>
        have hcopy : memcpy buffer (fun i => bytes (offset % d.blockSize + i)) (d.chunk offset n) =
            d.slice offset buffer (d.chunk offset n) := by
          rw [memcpy, if_pos (by omega), d.slice_in_block buffer hblock hin]
        rw [← hcopy]
        rfl

/-- The loop has delivered the rest of the bytes, or those before the first block that it has not got. -/
def Delivers (d : BlockReader) (offset n buffer : ℕ) (total : ℤ) (stores : Stores) (blocks : List ℕ)
    (x : Reading) : Prop :=
  let m := min n (d.sizeInBytes - offset)
  ∃ more, x.blocks = blocks ++ more ∧ (∀ k ∈ more, k * d.blockSize < d.sizeInBytes) ∧
    (((∀ i < m, d.Served offset m i) ∧ x.count = .ok (total + m) ∧ x.stores = stores ++ d.slice offset buffer m) ∨
      ∃ e j, j < m ∧ (∀ i < j, d.Served offset m i) ∧ d.fetch offset m ((offset + j) / d.blockSize) = .error e ∧
        x.count = .error e ∧ x.stores = stores ++ d.slice offset buffer j)

/-- Behind the end of a block nothing changes for the blocks to come. -/
theorem fetch_next {offset m c : ℕ} (i : ℕ) (hc : c ≤ m) (hend : (offset + c) % d.blockSize = 0) :
    d.fetch (offset + c) (m - c) ((offset + c + i) / d.blockSize) = d.fetch offset m ((offset + (c + i)) / d.blockSize) := by
  rw [← Nat.add_assoc]
  have hstart : offset + c ≤ (offset + c + i) / d.blockSize * d.blockSize := by
    obtain ⟨q, hq⟩ := Nat.dvd_of_mod_eq_zero hend
    rw [hq, Nat.mul_add_div d.blockSize_pos, Nat.mul_comm]
    exact Nat.mul_le_mul_right _ (Nat.le_add_right ..)
  have hplace : d.InPlace (offset + c) (m - c) ((offset + c + i) / d.blockSize) ↔
      d.InPlace offset m ((offset + c + i) / d.blockSize) := by
    unfold InPlace
    omega
  simp only [fetch, hplace]

/-- The whole loop, by induction on the number of turns: `offset` stays within the file. -/
theorem readLoop_delivers {fuel : ℕ} (offset n buffer : ℕ) (total : ℤ) (stores : Stores) (blocks : List ℕ)
    (hfuel : n < fuel) (hn : n < 2 ^ 32) (hoff : offset ≤ d.sizeInBytes) :
    d.Delivers offset n buffer total stores blocks (d.readLoop fuel offset n buffer total stores blocks) := by
  have hs := d.sizeInBytes_lt
  induction fuel generalizing offset n buffer total stores blocks with
  | zero => omega
  | succ fuel ih =>
    by_cases hzero : n = 0
    · subst hzero
      refine ⟨[], ?_, by simp, .inl ⟨fun i hi => absurd hi (by omega), ?_⟩⟩
      · simp [readLoop]
      · simp [readLoop, slice, Stores.consecutive]
    rw [readLoop, if_pos (by omega)]
    by_cases heof : offset = d.sizeInBytes
    · subst heof
      have hread : d.read d.sizeInBytes n buffer = .ok ⟨0, [], []⟩ := by simp [read]
      refine ⟨[], ?_, by simp, .inl ⟨fun i hi => absurd hi (by omega), ?_⟩⟩
      · simp [hread]
      · simp [hread, slice, Stores.consecutive]
    have hlt : offset < d.sizeInBytes := by omega
    have hread := d.read_spec n buffer hlt
    obtain ⟨m, hm⟩ : ∃ m, min n (d.sizeInBytes - offset) = m := ⟨_, rfl⟩
    have hmod : offset % d.blockSize < d.blockSize := Nat.mod_lt _ d.blockSize_pos
    rw [hm] at hread
    cases hblock : d.fetch offset m (offset / d.blockSize) with
    | error e =>
      rw [hblock] at hread
      refine ⟨[], ?_, by simp, .inr ⟨e, 0, by omega, fun i hi => absurd hi (by omega), ?_, ?_⟩⟩
      · simp [hread, Except.map]
      · rw [hm, Nat.add_zero, hblock]
      · simp [hread, Except.map, slice, Stores.consecutive]
    | ok bytes =>
      -- the turn delivers `c` bytes, and the loop goes on behind them
      obtain ⟨hin, hend, hle⟩ := d.chunk_bounds n hlt
      obtain ⟨c, hc⟩ : ∃ c, d.chunk offset n = c := ⟨_, rfl⟩
      have hcut : c = d.blockSize - offset % d.blockSize ∨ c = m := by
        rw [← hc, chunk]
        omega
      have hpos : 0 < c := by omega
      rw [hc] at hin hend hle
      rw [hblock, hc] at hread
      have hnext : (offset + c) % 2 ^ 32 = offset + c := Nat.mod_eq_of_lt (by omega)
      have hrest : (n + 2 ^ 32 - c) % 2 ^ 32 = n - c := by omega
      have hleft : min (n - c) (d.sizeInBytes - (offset + c)) = m - c := by omega
      have hsplit : c + (m - c) = m := by omega
      have hfirst : ∀ i < c, d.Served offset m i := by
        intro i hi
        rw [Served, (div_in_block (d := d) offset i (by omega)).1]
        exact ⟨bytes, hblock⟩
      have hblockEnd (hlt : c < m) : (offset + c) % d.blockSize = 0 := by
        have hwhole : offset + c = d.blockSize * (offset / d.blockSize + 1) := by
          have hdiv := Nat.div_add_mod offset d.blockSize
          rw [Nat.mul_add, Nat.mul_one]
          omega
        rw [hwhole, Nat.mul_mod_right]
      have hall : ∀ j ≤ m - c, (∀ i < j, d.Served (offset + c) (m - c) i) → ∀ i < c + j, d.Served offset m i := by
        intro j hj hserved i hi
        by_cases hlo : i < c
        · exact hfirst i hlo
        · have hi' : i - c < j := by omega
          have hserve := hserved (i - c) hi'
          rw [Served, fetch_next _ (by omega) (hblockEnd (by omega))] at hserve
          rwa [Nat.add_sub_cancel' (by omega)] at hserve
      have hturn : d.readLoop (fuel + 1) offset n buffer total stores blocks =
          d.readLoop fuel (offset + c) (n - c) ((buffer + c) % 2 ^ 32) (total + c)
            (stores ++ d.slice offset buffer c) (blocks ++ [offset / d.blockSize]) := by
        rw [readLoop, if_pos (by omega), hread]
        simp only [Except.map]
        rw [if_neg (by omega), if_neg (by omega), Int.toNat_natCast, hnext, hrest]
      rw [readLoop, if_pos (by omega)] at hturn
      rw [hturn]
      obtain ⟨more, hmore, hin', hrun⟩ := ih (offset + c) (n - c) ((buffer + c) % 2 ^ 32) (total + c)
        (stores ++ d.slice offset buffer c) (blocks ++ [offset / d.blockSize]) (by omega) (by omega) (by omega)
      rw [hleft] at hrun
      refine ⟨offset / d.blockSize :: more, ?_, ?_, ?_⟩
      · rw [hmore, List.append_assoc]
        rfl
      · intro k hk
        rcases List.mem_cons.mp hk with rfl | hk
        · exact lt_of_le_of_lt (Nat.div_mul_le_self ..) hlt
        · exact hin' k hk
      rw [hm]
      rcases hrun with ⟨hserved, hcount, hstores⟩ | ⟨e, j, hj, hserved, hfail, hcount, hstores⟩
      · refine .inl ⟨?_, ?_, ?_⟩
        · have hserved' := hall (m - c) (Nat.le_refl _) hserved
          rwa [hsplit] at hserved'
        · have htotal : (c : ℤ) + (m - c : ℕ) = m := by omega
          rw [hcount, add_assoc, htotal]
        · rw [hstores, List.append_assoc, slice_append, hsplit]
      · refine .inr ⟨e, c + j, by omega, hall j (by omega) hserved, ?_, hcount, ?_⟩
        · rw [← hfail, fetch_next _ (by omega) (hblockEnd (by omega))]
        · rw [hstores, List.append_assoc, slice_append]

theorem reading_delivers {offset n : ℕ} (buffer : ℕ) (hn : n < 2 ^ 32) (hoff : offset ≤ d.sizeInBytes) :
    d.Delivers offset n buffer 0 [] [] (d.reading offset n buffer) :=
  d.readLoop_delivers offset n buffer 0 [] [] (Nat.lt_succ_self n) hn hoff

/-- `read_all` delivers the bytes that there are, if it gets their blocks. -/
theorem readAll_served {offset n : ℕ} (buffer : ℕ) (hn : n < 2 ^ 32) (hoff : offset ≤ d.sizeInBytes)
    (hserved : ∀ i < min n (d.sizeInBytes - offset), d.Served offset (min n (d.sizeInBytes - offset)) i) :
    ∃ blocks, d.readAll offset n buffer =
        .ok ⟨(min n (d.sizeInBytes - offset) : ℕ), d.slice offset buffer (min n (d.sizeInBytes - offset)), blocks⟩ ∧
      ∀ k ∈ blocks, k * d.blockSize < d.sizeInBytes := by
  obtain ⟨more, hmore, hin, ⟨-, hcount, hstores⟩ | ⟨e, j, hj, -, hfail, -⟩⟩ := d.reading_delivers buffer hn hoff
  · refine ⟨more, ?_, hin⟩
    rw [readAll, Reading.returned, hcount, hstores, hmore, zero_add]
    rfl
  · obtain ⟨bytes, hbytes⟩ := hserved j hj
    rw [hbytes] at hfail
    cases hfail

theorem readAll_ok {offset n : ℕ} (buffer : ℕ) (hn : n < 2 ^ 32) (hoff : offset ≤ d.sizeInBytes)
    (hreadable : d.ReadableAt offset (min n (d.sizeInBytes - offset)))
    (hbuffered : d.Buffered offset (min n (d.sizeInBytes - offset))) : ∃ blocks, d.readAll offset n buffer =
      .ok ⟨(min n (d.sizeInBytes - offset) : ℕ), d.slice offset buffer (min n (d.sizeInBytes - offset)), blocks⟩ := by
  obtain ⟨blocks, hread, -⟩ := d.readAll_served buffer hn hoff (forall_served_iff.mpr ⟨hreadable, hbuffered⟩)
  exact ⟨blocks, hread⟩

/-- And it stops if there is one among them that it does not get. -/
theorem readAll_stops {offset n : ℕ} (buffer : ℕ) (hn : n < 2 ^ 32) (hoff : offset ≤ d.sizeInBytes)
    (hnot : ¬ ∀ i < min n (d.sizeInBytes - offset), d.Served offset (min n (d.sizeInBytes - offset)) i) :
    ∃ e k, d.readAll offset n buffer = .error e ∧ d.fetch offset (min n (d.sizeInBytes - offset)) k = .error e := by
  obtain ⟨more, hmore, hin, ⟨hserved, -⟩ | ⟨e, j, hj, -, hfail, hcount, -⟩⟩ := d.reading_delivers buffer hn hoff
  · exact absurd hserved hnot
  · refine ⟨e, _, ?_, hfail⟩
    rw [readAll, Reading.returned, hcount]
    rfl

theorem served_of_readAll {offset n buffer : ℕ} {r : ReadResult} (hn : n < 2 ^ 32) (hoff : offset ≤ d.sizeInBytes)
    (h : d.readAll offset n buffer = .ok r) :
    d.ReadableAt offset (min n (d.sizeInBytes - offset)) ∧ d.Buffered offset (min n (d.sizeInBytes - offset)) := by
  rw [← forall_served_iff]
  by_contra hnot
  obtain ⟨e, k, hstop, -⟩ := d.readAll_stops buffer hn hoff hnot
  rw [h] at hstop
  cases hstop

theorem reading_past_end {offset n : ℕ} (buffer : ℕ) (hn : 0 < n) (hoff : offset > d.sizeInBytes) :
    d.reading offset n buffer = ⟨.ok (-1), [], []⟩ := by
  simp [reading, readLoop, read, hoff, hn]

theorem readAll_past_end {offset n : ℕ} (buffer : ℕ) (hn : 0 < n) (hoff : offset > d.sizeInBytes) :
    d.readAll offset n buffer = .ok ⟨-1, [], []⟩ := by
  rw [readAll, reading_past_end buffer hn hoff]
  rfl

/-- A read that stops has met a block that stops, or one without a buffer. -/
theorem block_of_readAll {offset n buffer : ℕ} {e : Stop} (hn : n < 2 ^ 32)
    (h : d.readAll offset n buffer = .error e) : (∃ k, d.block k = .error e) ∨ e = .panic "out of memory" := by
  by_cases hoff : offset ≤ d.sizeInBytes
  · by_cases hall : ∀ i < min n (d.sizeInBytes - offset), d.Served offset (min n (d.sizeInBytes - offset)) i
    · obtain ⟨blocks, hread, -⟩ := d.readAll_served buffer hn hoff hall
      rw [h] at hread
      cases hread
    · obtain ⟨e', k, hstop, hfail⟩ := d.readAll_stops buffer hn hoff hall
      obtain rfl := Except.error.inj (h.symm.trans hstop)
      rcases fetch_error hfail with hblock | ⟨hpanic, -⟩
      · exact .inl ⟨k, hblock⟩
      · exact .inr hpanic
  · by_cases hzero : n = 0
    · subst hzero
      cases h
    · rw [readAll_past_end buffer (by omega) (by omega)] at h
      cases h

theorem readAll_ne_diverge {offset n buffer : ℕ} (hn : n < 2 ^ 32) (hblock : ∀ k, d.block k ≠ .error .diverge) :
    d.readAll offset n buffer ≠ .error .diverge := by
  intro h
  rcases block_of_readAll hn h with ⟨k, hk⟩ | hpanic
  · exact hblock k hk
  · cases hpanic

/-- Where only buffers are missing, the read ends with the panic of `operator new[]`. -/
theorem readAll_unbuffered {offset n : ℕ} (buffer : ℕ) (hn : n < 2 ^ 32) (hoff : offset ≤ d.sizeInBytes)
    (hreadable : d.ReadableAt offset (min n (d.sizeInBytes - offset)))
    (hnot : ¬ d.Buffered offset (min n (d.sizeInBytes - offset))) :
    d.readAll offset n buffer = .error (.panic "out of memory") := by
  obtain ⟨more, -, -, ⟨hserved, -⟩ | ⟨e, j, hj, -, hfail, hcount, -⟩⟩ := d.reading_delivers buffer hn hoff
  · exact absurd (forall_served_iff.mp hserved).2 hnot
  · obtain ⟨bytes, hbytes⟩ := hreadable j hj
    rcases fetch_error hfail with hblock | ⟨rfl, -⟩
    · rw [hbytes] at hblock
      cases hblock
    · rw [readAll, Reading.returned, hcount]
      rfl

/-- Where `malloc` finds every buffer, a read stops at blocks only. -/
theorem buffered_of_granted (hgranted : ∀ k, d.granted k = true) (offset m : ℕ) : d.Buffered offset m :=
  fun _ _ => .inr (hgranted _)

end BlockReader

/-- A device, file or directory all of whose blocks can be read: `block k i` is byte `i` of block `k`. -/
structure BlockIO where
  blockSize : ℕ
  sizeInBytes : ℕ
  block : ℕ → ℕ → UInt8
  blockSize_pos : 0 < blockSize
  blockSize_le : blockSize ≤ 2 ^ 31
  sizeInBytes_lt : sizeInBytes < 2 ^ 32

namespace BlockIO

variable (d : BlockIO)

def readBlock (k buffer : ℕ) : Stores := Stores.consecutive buffer (d.block k) d.blockSize

/-- The device, and whether `malloc` finds the buffers. -/
def readerIn (granted : ℕ → Bool) : BlockReader where
  blockSize := d.blockSize
  sizeInBytes := d.sizeInBytes
  block k := .ok (d.block k)
  granted := granted
  blockSize_pos := d.blockSize_pos
  blockSize_le := d.blockSize_le
  sizeInBytes_lt := d.sizeInBytes_lt

/-- The device when `malloc` finds every buffer. -/
def reader : BlockReader := d.readerIn fun _ => true

def readAll (offset n buffer : ℕ) : Except Stop ReadResult := d.reader.readAll offset n buffer

def byte (j : ℕ) : UInt8 := d.block (j / d.blockSize) (j % d.blockSize)

/-- The stores that deliver the `r` bytes from `offset` on. -/
def slice (offset buffer r : ℕ) : Stores := Stores.consecutive buffer (fun i => d.byte (offset + i)) r

variable {d} {granted : ℕ → Bool}

theorem readerIn_byte (j : ℕ) : (d.readerIn granted).byte j = d.byte j := rfl

theorem readable (k : ℕ) : (d.readerIn granted).Readable k := ⟨_, rfl⟩

theorem readableAt (d : BlockIO) (offset m : ℕ) : (d.readerIn granted).ReadableAt offset m := fun _ _ => readable _

theorem buffered (d : BlockIO) (offset m : ℕ) : d.reader.Buffered offset m :=
  d.reader.buffered_of_granted (fun _ => rfl) offset m

theorem readAll_spec {offset n : ℕ} (buffer : ℕ) (hn : n < 2 ^ 32) (hoff : offset ≤ d.sizeInBytes) :
    ∃ blocks, d.readAll offset n buffer =
        .ok ⟨(min n (d.sizeInBytes - offset) : ℕ), d.slice offset buffer (min n (d.sizeInBytes - offset)), blocks⟩ ∧
      ∀ k ∈ blocks, k * d.blockSize < d.sizeInBytes :=
  d.reader.readAll_served buffer hn hoff (BlockReader.forall_served_iff.mpr ⟨d.readableAt _ _, d.buffered _ _⟩)

theorem readAll_past_end {offset n : ℕ} (buffer : ℕ) (hn : 0 < n) (hoff : offset > d.sizeInBytes) :
    d.readAll offset n buffer = .ok ⟨-1, [], []⟩ := d.reader.readAll_past_end buffer hn hoff

end BlockIO

/-- Whether `operator new[]` finds a block of so many bytes in this heap. -/
def Heap.grants (h : Heap) (bytes : ℕ) : Bool := (operatorNew h bytes).isOk

/-- The heap of the kernel, five megabytes from 0x100000 on, when `heapInit` has returned. -/
def Heap.kernel : Heap :=
  match heapInit (fun _ => 0) 0x100000 0x500000 with
  | .ok (_, h) => h
  | .error _ => heapSetup (fun _ => 0) 0x100000 0x500000

namespace BlockReader

/-- `read_all` delivers the requested bytes, as far as there are any, to the buffer and to no other address, just when
the blocks that it reads in part get their buffers. No `ASSERT` fails, and it reads only blocks that begin before the
end. -/
theorem readAll_delivers (d : BlockReader) (offset n buffer : ℕ) (mem : ℕ → UInt8) (hn : 0 < n) (hn' : n < 2 ^ 32)
    (hblocks : ∀ k, k * d.blockSize < d.sizeInBytes → d.Readable k) :
    (offset > d.sizeInBytes → d.readAll offset n buffer = .ok ⟨-1, [], []⟩) ∧
      (offset ≤ d.sizeInBytes → d.Buffered offset (min n (d.sizeInBytes - offset)) → ∃ stores blocks,
        d.readAll offset n buffer = .ok ⟨(min n (d.sizeInBytes - offset) : ℕ), stores, blocks⟩ ∧
        (∀ i < min n (d.sizeInBytes - offset), stores.apply mem ((buffer + i) % 2 ^ 32) = d.byte (offset + i)) ∧
        (∀ a ∈ stores.map Prod.fst, ∃ i < min n (d.sizeInBytes - offset), a = (buffer + i) % 2 ^ 32) ∧
        ∀ k ∈ blocks, k * d.blockSize < d.sizeInBytes) ∧
      (offset ≤ d.sizeInBytes → ¬ d.Buffered offset (min n (d.sizeInBytes - offset)) →
        d.readAll offset n buffer = .error (.panic "out of memory")) := by
  have hreadable : d.ReadableAt offset (min n (d.sizeInBytes - offset)) := by
    intro i hi
    apply hblocks
    exact lt_of_le_of_lt (Nat.div_mul_le_self ..) (by omega)
  refine ⟨d.readAll_past_end buffer hn, ?_, fun hoff hnot => d.readAll_unbuffered buffer hn' hoff hreadable hnot⟩
  intro hoff hbuffered
  obtain ⟨blocks, hread, hin⟩ := d.readAll_served buffer hn' hoff (forall_served_iff.mpr ⟨hreadable, hbuffered⟩)
  refine ⟨_, blocks, hread, ?_, fun a ha => Stores.mem_consecutive.mp ha, hin⟩
  intro i hi
  exact Stores.apply_consecutive mem buffer _ (by omega) hi

end BlockReader

namespace BlockIO

/-- A file of ten bytes in blocks of four. -/
def tenBytes : BlockIO where
  blockSize := 4
  sizeInBytes := 10
  block k i := UInt8.ofNat (4 * k + i)
  blockSize_pos := by decide
  blockSize_le := by decide
  sizeInBytes_lt := by decide

/-- A partial head, a whole block and the short last block, to a buffer that wraps. -/
theorem tenBytes_delivers : ∃ stores blocks,
    (tenBytes.readerIn fun _ => Heap.kernel.grants 4).readAll 3 20 0xFFFFFFFE = .ok ⟨7, stores, blocks⟩ ∧
      Stores.apply (fun _ => 0) stores 0 = 5 := by
  have hgranted : Heap.kernel.grants 4 = true := by decide +kernel
  have hall := (tenBytes.readerIn fun _ => Heap.kernel.grants 4).readAll_delivers 3 20 0xFFFFFFFE (fun _ => 0)
    (by decide) (by decide) fun _ _ => readable _
  obtain ⟨stores, blocks, hread, hbytes, -⟩ := hall.2.1 (by decide)
    (BlockReader.buffered_of_granted (fun _ => hgranted) _ _)
  exact ⟨stores, blocks, hread, hbytes 2 (by decide)⟩

def hugeBlock : BlockIO where
  blockSize := 2 ^ 23
  sizeInBytes := 2 ^ 23
  block _ _ := 7
  blockSize_pos := by decide
  blockSize_le := by decide
  sizeInBytes_lt := by decide

/-- The heap has no buffer for it, and a read of its first byte halts the kernel. -/
theorem hugeBlock_panics : (hugeBlock.readerIn fun _ => Heap.kernel.grants (2 ^ 23)).readAll 0 1 0 =
    .error (.panic "out of memory") := by
  have hrefused : Heap.kernel.grants (2 ^ 23) = false := by decide +kernel
  refine BlockReader.readAll_unbuffered 0 (by decide) (by decide) (hugeBlock.readableAt _ _) ?_
  intro hbuffered
  rcases hbuffered 0 (by decide) with hplace | hgranted
  · exact absurd hplace.2 (by decide)
  · exact absurd (hrefused.symm.trans hgranted) (by decide)

end BlockIO
end AudioKernel
