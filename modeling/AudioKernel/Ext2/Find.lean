import AudioKernel.Ext2.Names
import AudioKernel.Lib.Traced
import Mathlib.Data.List.TakeWhile

/-! `Ext2::get_node` and `Ext2::find`, which follows a path from node to node. -/
namespace AudioKernel
open Lib

def slash : UInt8 := 0x2F

/-- What a `const char*` leads to, up to the NUL at least. -/
structure Path where
  bytes : List UInt8
  terminated : 0 ∈ bytes
  fits : bytes.length ≤ 2 ^ 32

namespace Path

variable (path : Path)

def text : List UInt8 := cString path.bytes

def char (idx : ℕ) : UInt8 := path.bytes.getD idx 0

end Path

/-- The maximal parts of a string without a slash that are not empty, in order. -/
def components (s : List UInt8) : List (List UInt8) := (s.splitOn slash).filter (· ≠ [])

/-- The file system on a device. -/
structure Ext2 where
  sectors : ℕ → ℕ → UInt8
  blockSize : ℕ
  numberOfNodes : ℕ
  numberOfBlocks : ℕ
  iNodeSize : ℕ
  nGroups : ℕ
  iNodeTables : ℕ → ℕ
  iNodesPerGroup : ℕ
  blockSize_pos : 0 < blockSize
  blockSize_le : blockSize ≤ 2 ^ 31

namespace Ext2

variable (fs : Ext2)

def ide : BlockIO := Ide fs.sectors

/-- The i-node whose `NodeData` lies at the head of a buffer. -/
def node (buffer : ℕ → UInt8) : INode where
  sectors := fs.sectors
  blockSize := fs.blockSize
  data := {
    sizeLow := uintAt buffer 4 4
    nSectors := uintAt buffer 28 4
    direct := fun i => uintAt buffer (40 + 4 * i.val) 4
    indirect1 := uintAt buffer 88 4
    mode := uintAt buffer 0 2
    indirect2 := uintAt buffer 92 4
    indirect3 := uintAt buffer 96 4
    sizeLow_lt := uintAt_lt buffer 4 4 }
  blockSize_pos := fs.blockSize_pos
  blockSize_le := fs.blockSize_le

/-- The kernel has no handler for a division by zero. -/
def getNode (number : ℕ) : Except Stop INode := do
  assert (number > 0) "number > 0"
  assert (number ≤ fs.numberOfNodes) "number <= numberOfNodes"
  let index := number - 1
  if fs.iNodesPerGroup = 0 then .error .wild
  else do
    let groupIndex := index / fs.iNodesPerGroup
    assert (groupIndex < fs.nGroups) "groupIndex < nGroups"
    let indexInGroup := index % fs.iNodesPerGroup
    let iTableBase := fs.iNodeTables groupIndex
    assert (iTableBase ≤ fs.numberOfBlocks) "iTableBase <= numberOfBlocks"
    let nodeOffset := (iTableBase * fs.blockSize + indexInGroup * fs.iNodeSize) % 2 ^ 32
    let r ← fs.ide.readAll nodeOffset 128 0
    assert (r.count = 128) "cnt == sizeof(T)"
    return fs.node (r.stores.apply fun _ => 0)

variable (path : Path)

/-- `while (path[idx] == '/') idx++`. -/
def skipSlashes : ℕ → ℕ → Except Stop ℕ
  | 0, _ => .error .diverge
  | fuel + 1, idx => if path.char idx = slash then skipSlashes fuel ((idx + 1) % 2 ^ 32) else .ok idx

/-- The loop that copies a component to `part`. The events are the places of `part` that are stored to. -/
def copyPart : ℕ → ℕ → ℕ → (ℕ → UInt8) → Traced ℕ Stop (ℕ × ℕ × (ℕ → UInt8))
  | 0, _, _, _ => Traced.lift (.error .diverge)
  | fuel + 1, idx, i, part =>
    let c := path.char idx
    if c = 0 ∨ c = slash then pure (idx, i, part)
    else do
      Traced.lift (assert (i < 256) "i < 256")
      Traced.note i
      copyPart fuel ((idx + 1) % 2 ^ 32) (i + 1) (Function.update part i c)

/-- The outer loop of `find`; `none` is the null reference. -/
def findLoop : ℕ → Option INode → ℕ → (ℕ → UInt8) → Traced ℕ Stop (Option INode)
  | 0, _, _, _ => Traced.lift (.error .diverge)
  | fuel + 1, current, idx, part => do
    let idx ← Traced.lift (skipSlashes path (2 ^ 32) idx)
    match current with
    | none => return none
    | some dir =>
      if path.char idx = 0 then return some dir
      else do
        let (idx, i, part) ← copyPart path (2 ^ 32) idx 0 part
        Traced.note i
        let part := Function.update part i 0
        let number ← Traced.lift (dir.find ((List.range 257).map part))
        if number = 0 then return none
        else do
          let next ← Traced.lift (fs.getNode number)
          findLoop fuel (some next) idx part

/-- `part` has what `new` found there. An index has 32 bits: a loop that has not ended after `2 ^ 32` turns goes on for
ever. -/
def find (current : Option INode) (part : ℕ → UInt8) : Traced ℕ Stop (Option INode) :=
  fs.findLoop path (2 ^ 32) current 0 part

/-- What a component of a path comes to: it is looked up in the current directory, and is null if it is absent. -/
def lookup (current : Option INode) (name : List UInt8) : Except Stop (Option INode) :=
  match current with
  | none => .ok none
  | some dir =>
    if name.length > 256 then .error (.panic "i < 256")
    else do
      let number ← dir.find (name ++ [0])
      if number = 0 then return none
      else some <$> fs.getNode number


end Ext2

/-- A slash ends one component and begins the next. -/
theorem components_append (a b : List UInt8) : components (a ++ slash :: b) = components a ++ components b := by
  unfold components
  rw [List.splitOn_append_cons_self, List.filter_append]

@[simp] theorem components_nil : components [] = [] := rfl

theorem components_slash (s : List UInt8) : components (slash :: s) = components s := components_append [] s

theorem components_dropSlashes (s : List UInt8) : components (s.dropWhile (· = slash)) = components s := by
  induction s with
  | nil => rfl
  | cons c s ih =>
    rw [List.dropWhile_cons]
    split_ifs with hc
    · obtain rfl : c = slash := of_decide_eq_true hc
      rw [ih, components_slash]
    · rfl

/-- What is left from the first slash or NUL on. -/
theorem dropWhile_ne (a : UInt8) (s : List UInt8) :
    s.dropWhile (· ≠ a) = [] ∨ ∃ rest, s.dropWhile (· ≠ a) = a :: rest := by
  induction s with
  | nil => exact .inl rfl
  | cons c s ih =>
    by_cases hc : c = a
    · exact .inr ⟨s, by simp [hc]⟩
    · simpa [hc] using ih

theorem notMem_takeWhile (a : UInt8) (s : List UInt8) : a ∉ s.takeWhile (· ≠ a) :=
  fun h => by simpa using List.mem_takeWhile_imp h

/-- The first component of what does not begin with a slash. -/
theorem components_cons {c : UInt8} {s : List UInt8} (hc : c ≠ slash) : components (c :: s) =
    (c :: s).takeWhile (· ≠ slash) :: components ((c :: s).dropWhile (· ≠ slash)) := by
  have hname : components ((c :: s).takeWhile (· ≠ slash)) = [(c :: s).takeWhile (· ≠ slash)] := by
    unfold components
    rw [List.splitOn_eq_singleton (notMem_takeWhile slash _)]
    simp [hc]
  have hall := List.takeWhile_append_dropWhile (p := (· ≠ slash)) (l := c :: s)
  rcases dropWhile_ne slash (c :: s) with hrest | ⟨rest, hrest⟩
  · rw [hrest, components_nil, ← hname]
    rw [hrest, List.append_nil] at hall
    rw [hall]
  · rw [hrest, components_slash]
    rw [hrest] at hall
    calc components (c :: s) = components ((c :: s).takeWhile (· ≠ slash) ++ slash :: rest) := by rw [hall]
      _ = components ((c :: s).takeWhile (· ≠ slash)) ++ components rest := components_append _ _
      _ = (c :: s).takeWhile (· ≠ slash) :: components rest := by rw [hname, List.singleton_append]

/-- A slash next to another one, or at either end, makes no difference. -/
theorem components_slash_between {a b : List UInt8}
    (h : a = [] ∨ b = [] ∨ a.getLast? = some slash ∨ b.head? = some slash) :
    components (a ++ slash :: b) = components (a ++ b) := by
  rcases h with rfl | rfl | hlast | hhead
  · exact components_slash b
  · rw [components_append, components_nil, List.append_nil, List.append_nil]
  · obtain ⟨a', rfl⟩ := List.getLast?_eq_some_iff.mp hlast
    rw [components_append, components_append, components_nil, List.append_nil, List.append_assoc,
      List.singleton_append, components_append]
  · obtain ⟨b', rfl⟩ := List.head?_eq_some_iff.mp hhead
    rw [components_append, components_append, components_slash]

namespace Path

variable {path : Path} {idx : ℕ} {rest : List UInt8}

/-- What the path still has at an index, up to its NUL. -/
def Rest (path : Path) (idx : ℕ) (rest : List UInt8) : Prop :=
  0 ∉ rest ∧ ∃ more, path.bytes.drop idx = rest ++ 0 :: more

theorem rest_zero (path : Path) : path.Rest 0 path.text := by
  have hall := List.takeWhile_append_dropWhile (p := (· ≠ 0)) (l := path.bytes)
  rcases dropWhile_ne 0 path.bytes with hrest | ⟨more, hrest⟩
  · have hzero := List.dropWhile_eq_nil_iff.mp hrest 0 path.terminated
    exact absurd rfl (of_decide_eq_true hzero)
  · rw [hrest] at hall
    exact ⟨notMem_takeWhile 0 _, more, hall.symm⟩

/-- The index of what is left lies in the path. -/
theorem Rest.length_le (h : path.Rest idx rest) : idx + rest.length + 1 ≤ path.bytes.length := by
  obtain ⟨-, more, hdrop⟩ := h
  have hlength := congrArg List.length hdrop
  rw [List.length_drop, List.length_append, List.length_cons] at hlength
  omega

theorem Rest.char_eq (h : path.Rest idx rest) : path.char idx = rest.headD 0 := by
  obtain ⟨-, more, hdrop⟩ := h
  have hhead : path.bytes[idx]? = (rest ++ 0 :: more).head? := by rw [← hdrop, List.head?_drop]
  unfold char
  rw [List.getD_eq_getElem?_getD, hhead]
  cases rest <;> rfl

theorem Rest.next {c : UInt8} (h : path.Rest idx (c :: rest)) : path.Rest ((idx + 1) % 2 ^ 32) rest := by
  have hlength := h.length_le
  have hfits := path.fits
  rw [List.length_cons] at hlength
  obtain ⟨hzero, more, hdrop⟩ := h
  rw [Nat.mod_eq_of_lt (by omega)]
  refine ⟨fun hmem => hzero (List.mem_cons_of_mem _ hmem), more, ?_⟩
  rw [← List.drop_drop, hdrop]
  rfl

theorem Rest.ne_zero {c : UInt8} (h : path.Rest idx (c :: rest)) : c ≠ 0 :=
  fun hc => h.1 (hc ▸ List.mem_cons_self)

end Path

namespace Ext2

variable {fs : Ext2} {path : Path} {idx : ℕ} {rest : List UInt8}

theorem skipSlashes_spec (fuel : ℕ) (hrest : path.Rest idx rest) (hfuel : rest.length < fuel) :
    ∃ idx', skipSlashes path fuel idx = .ok idx' ∧ path.Rest idx' (rest.dropWhile (· = slash)) := by
  induction rest generalizing fuel idx with
  | nil =>
    obtain ⟨fuel, rfl⟩ : ∃ m, fuel = m + 1 := ⟨fuel - 1, by omega⟩
    refine ⟨idx, ?_, hrest⟩
    rw [skipSlashes, hrest.char_eq]
    exact if_neg (by decide)
  | cons c rest ih =>
    obtain ⟨fuel, rfl⟩ : ∃ m, fuel = m + 1 := ⟨fuel - 1, by omega⟩
    rw [skipSlashes, hrest.char_eq, List.headD_cons, List.dropWhile_cons]
    rw [List.length_cons] at hfuel
    by_cases hc : c = slash
    · rw [if_pos hc, if_pos (decide_eq_true hc)]
      exact ih fuel hrest.next (by omega)
    · rw [if_neg hc, if_neg (by simpa using hc)]
      exact ⟨idx, rfl, hrest⟩

/-- The copy of a component, which stops at the character that has no place. -/
theorem copyPart_spec (fuel i : ℕ) (part : ℕ → UInt8) (hrest : path.Rest idx rest) (hfuel : rest.length < fuel)
    (hi : i ≤ 256) :
    (copyPart path fuel idx i part).All (· < 256) ∧
      if i + (rest.takeWhile (· ≠ slash)).length ≤ 256 then
        ∃ idx' part', (copyPart path fuel idx i part).result =
            .ok (idx', i + (rest.takeWhile (· ≠ slash)).length, part') ∧
          path.Rest idx' (rest.dropWhile (· ≠ slash)) ∧
          (List.range (i + (rest.takeWhile (· ≠ slash)).length)).map part' =
            (List.range i).map part ++ rest.takeWhile (· ≠ slash)
      else (copyPart path fuel idx i part).result = .error (.panic "i < 256") := by
  induction rest generalizing fuel idx i part with
  | nil =>
    obtain ⟨fuel, rfl⟩ : ∃ m, fuel = m + 1 := ⟨fuel - 1, by omega⟩
    have hcopy : copyPart path (fuel + 1) idx i part = pure (idx, i, part) := by
      rw [copyPart, hrest.char_eq]
      rfl
    rw [hcopy, List.takeWhile_nil, List.dropWhile_nil, List.length_nil, Nat.add_zero, if_pos hi, List.append_nil]
    exact ⟨Traced.all_pure _, idx, part, rfl, hrest, rfl⟩
  | cons c rest ih =>
    obtain ⟨fuel, rfl⟩ : ∃ m, fuel = m + 1 := ⟨fuel - 1, by omega⟩
    rw [List.length_cons] at hfuel
    rw [copyPart, hrest.char_eq, List.headD_cons]
    by_cases hc : c = slash
    · have htake : (c :: rest).takeWhile (· ≠ slash) = [] := by simp [hc]
      have hdrop : (c :: rest).dropWhile (· ≠ slash) = c :: rest := by simp [hc]
      rw [if_pos (.inr hc), htake, hdrop, List.length_nil, Nat.add_zero, if_pos hi, List.append_nil]
      exact ⟨Traced.all_pure _, idx, part, rfl, hrest, rfl⟩
    · have htake : (c :: rest).takeWhile (· ≠ slash) = c :: rest.takeWhile (· ≠ slash) := by simp [hc]
      have hdrop : (c :: rest).dropWhile (· ≠ slash) = rest.dropWhile (· ≠ slash) := by simp [hc]
      have hlength : i + (rest.takeWhile (· ≠ slash)).length.succ = i + 1 + (rest.takeWhile (· ≠ slash)).length := by
        omega
      rw [if_neg (not_or.mpr ⟨hrest.ne_zero, hc⟩), htake, hdrop, List.length_cons, hlength]
      by_cases hroom : i < 256
      · obtain ⟨hstores, hcopy⟩ := ih fuel (i + 1) (Function.update part i c) hrest.next (by omega) hroom
        have hstart : (List.range (i + 1)).map (Function.update part i c) = (List.range i).map part ++ [c] := by
          rw [List.range_succ, List.map_append, List.map_singleton, Function.update_self]
          congr 1
          apply List.map_congr_left
          intro j hj
          exact Function.update_of_ne (Nat.ne_of_lt (List.mem_range.mp hj)) _ _
        rw [assert_pos hroom]
        refine ⟨by simpa using ⟨hroom, hstores⟩, ?_⟩
        simpa [hstart, Except.bind] using hcopy
      · rw [if_neg (by omega), decide_eq_false hroom]
        exact ⟨by simp [assert], rfl⟩

/-- The buffer that `Node::find` gets has the component as its string. -/
theorem cString_part {part : ℕ → UInt8} {name : List UInt8} (hzero : 0 ∉ name) (hlength : name.length ≤ 256)
    (hname : (List.range name.length).map part = name) :
    0 ∈ (List.range 257).map (Function.update part name.length 0) ∧
      cString ((List.range 257).map (Function.update part name.length 0)) = name := by
  have hcopied : (List.range name.length).map (Function.update part name.length 0) = name := by
    conv_rhs => rw [← hname]
    apply List.map_congr_left
    intro j hj
    exact Function.update_of_ne (Nat.ne_of_lt (List.mem_range.mp hj)) _ _
  obtain ⟨more, hmore⟩ : ∃ more, (List.range 257).map (Function.update part name.length 0) = name ++ 0 :: more := by
    obtain ⟨r, hr⟩ : ∃ r, 257 = name.length + 1 + r := ⟨256 - name.length, by omega⟩
    rw [hr, List.range_add, List.range_succ, List.map_append, List.map_append, hcopied, List.map_singleton,
      Function.update_self, List.append_assoc]
    exact ⟨_, rfl⟩
  rw [hmore]
  refine ⟨by simp, ?_⟩
  unfold cString
  have hne (c : UInt8) (hc : c ∈ name) : decide (c ≠ 0) = true := decide_eq_true (ne_of_mem_of_not_mem hc hzero)
  rw [List.takeWhile_append_of_pos hne]
  simp

/-- `find` looks at the string in the buffer only. -/
theorem streq_congr {a b : List UInt8} (ha : 0 ∈ a) (hb : 0 ∈ b) (h : cString a = cString b) (nm : List UInt8) :
    streq a nm = streq b nm := by
  induction nm generalizing a b with
  | nil => cases a <;> cases b <;> rfl
  | cons y nm ih =>
    cases a with
    | nil => cases ha
    | cons x a =>
      cases b with
      | nil => cases hb
      | cons x' b =>
        unfold cString at h
        rw [List.takeWhile_cons, List.takeWhile_cons] at h
        by_cases hx : x = 0
        · by_cases hx' : x' = 0
          · subst hx hx'
            simp [streq]
          · simp [hx, hx'] at h
        · by_cases hx' : x' = 0
          · simp [hx, hx'] at h
          · rw [if_pos (decide_eq_true hx), if_pos (decide_eq_true hx')] at h
            obtain ⟨rfl, hrest⟩ := List.cons.inj h
            have ha' : 0 ∈ a := (List.mem_cons.mp ha).resolve_left (Ne.symm hx)
            have hb' : 0 ∈ b := (List.mem_cons.mp hb).resolve_left (Ne.symm hx)
            simp only [streq, ih ha' hb' hrest]

theorem find_congr (n : INode) {a b : List UInt8} (ha : 0 ∈ a) (hb : 0 ∈ b) (h : cString a = cString b) :
    n.find a = n.find b := by
  unfold INode.find
  congr 1
  funext out number nm
  rw [streq_congr ha hb h]

theorem foldlM_lookup_none (names : List (List UInt8)) : names.foldlM fs.lookup none = .ok none := by
  induction names with
  | nil => rfl
  | cons name names ih => exact ih

/-- Every round of the loop looks one component up. -/
theorem findLoop_spec (fuel : ℕ) (current : Option INode) (part : ℕ → UInt8) (hrest : path.Rest idx rest)
    (hfuel : rest.length < fuel) :
    (fs.findLoop path fuel current idx part).result = (components rest).foldlM fs.lookup current ∧
      (fs.findLoop path fuel current idx part).All (· ≤ 256) := by
  induction fuel generalizing current idx part rest with
  | zero => exact absurd hfuel (Nat.not_lt_zero _)
  | succ fuel ih =>
    have hfits := path.fits
    have hlength := hrest.length_le
    obtain ⟨idx', hskip, hrest'⟩ := skipSlashes_spec (2 ^ 32) hrest (by omega)
    have hshort := List.length_dropWhile_le (· = slash) rest
    rw [← components_dropSlashes]
    rw [findLoop, hskip, Traced.ok_bind]
    cases current with
    | none => exact ⟨(foldlM_lookup_none _).symm, Traced.all_pure _⟩
    | some dir =>
      show (ite _ _ _ : Traced ℕ Stop (Option INode)).result = _ ∧ (ite _ _ _ : Traced ℕ Stop (Option INode)).All _
      rw [hrest'.char_eq]
      cases hleft : rest.dropWhile (· = slash) with
      | nil => exact ⟨rfl, Traced.all_pure _⟩
      | cons c s =>
        rw [hleft] at hrest' hshort
        have hc : c ≠ slash := by
          have hhead := List.head_dropWhile_not (p := (· = slash)) (l := rest) (by rw [hleft]; exact List.cons_ne_nil _ _)
          simpa [hleft] using hhead
        rw [List.headD_cons, if_neg hrest'.ne_zero, components_cons hc, List.foldlM_cons]
        rw [List.length_cons] at hshort
        obtain ⟨hstores, hcopy⟩ := copyPart_spec (2 ^ 32) 0 part hrest' (by rw [List.length_cons]; omega) (Nat.zero_le _)
        have hplaces : (copyPart path (2 ^ 32) idx' 0 part).All (· ≤ 256) := fun i hi => Nat.le_of_lt (hstores i hi)
        have hshorter : ((c :: s).dropWhile (· ≠ slash)).length ≤ s.length := by
          simpa [hc] using List.length_dropWhile_le (· ≠ slash) s
        have hzero : 0 ∉ (c :: s).takeWhile (· ≠ slash) :=
          fun hmem => hrest'.1 ((List.takeWhile_prefix _).subset hmem)
        generalize (c :: s).takeWhile (· ≠ slash) = name at hcopy hzero ⊢
        rw [Nat.zero_add] at hcopy
        by_cases hlength : name.length ≤ 256
        · rw [if_pos hlength] at hcopy
          obtain ⟨idx'', part', hresult, hrest'', hname⟩ := hcopy
          obtain ⟨hterminated, hstring⟩ := cString_part hzero hlength hname
          have hfind : dir.find ((List.range 257).map (Function.update part' name.length 0)) = dir.find (name ++ [0]) := by
            refine find_congr dir hterminated (by simp) ?_
            rw [hstring, INode.cString_concat, cString, List.takeWhile_eq_self_iff.mpr]
            exact fun c hc => decide_eq_true (ne_of_mem_of_not_mem hc hzero)
          have hlast : (Traced.note name.length : Traced ℕ Stop Unit).All (· ≤ 256) := (Traced.all_note _).mpr hlength
          rw [Traced.result_of_ok hresult, Traced.all_of_ok hresult, and_iff_right hplaces,
            Traced.result_of_ok (Traced.result_note _), Traced.all_of_ok (Traced.result_note _), and_iff_right hlast]
          dsimp only
          rw [hfind, lookup, if_neg (Nat.not_lt.mpr hlength)]
          cases dir.find (name ++ [0]) with
          | error e => exact ⟨rfl, Traced.all_lift _⟩
          | ok number =>
            rw [Traced.ok_bind]
            by_cases habsent : number = 0
            · rw [if_pos habsent]
              refine ⟨?_, Traced.all_pure _⟩
              show _ = (ite _ _ _ : Except Stop (Option INode)) >>= _
              rw [if_pos habsent]
              exact (foldlM_lookup_none _).symm
            · rw [if_neg habsent]
              show _ = (ite _ _ _ : Except Stop (Option INode)) >>= _ ∧ _
              rw [if_neg habsent]
              cases fs.getNode number with
              | error e => exact ⟨rfl, Traced.all_lift _⟩
              | ok next =>
                rw [Traced.ok_bind]
                exact ih (some next) _ hrest'' (by omega)
        · rw [if_neg hlength] at hcopy
          rw [Traced.result_of_error hcopy, Traced.all_of_error hcopy]
          refine ⟨?_, hplaces⟩
          rw [lookup, if_pos (by omega)]
          rfl

theorem lookup_some (fs : Ext2) (dir : INode) (name : List UInt8) : fs.lookup (some dir) name =
    if name.length > 256 then .error (.panic "i < 256")
    else dir.find (name ++ [0]) >>= fun number => if number = 0 then pure none else some <$> fs.getNode number := rfl

theorem lookup_panics {dir : INode} {name : List UInt8} (h : name.length > 256 ∨ dir.data.isDir = false) :
    ∃ msg, fs.lookup (some dir) name = .error (.panic msg) := by
  rw [lookup_some]
  by_cases hlong : name.length > 256
  · exact ⟨_, if_pos hlong⟩
  · rw [if_neg hlong]
    unfold INode.find INode.entries
    rw [h.resolve_left hlong]
    exact ⟨_, rfl⟩

theorem getNode_ne_diverge (fs : Ext2) (number : ℕ) : fs.getNode number ≠ .error .diverge := by
  unfold getNode
  refine bind_ne_diverge (assert_ne_diverge _ _) fun _ _ => ?_
  refine bind_ne_diverge (assert_ne_diverge _ _) fun _ _ => ?_
  split_ifs
  · exact fun h => nomatch h
  · refine bind_ne_diverge (assert_ne_diverge _ _) fun _ _ => ?_
    refine bind_ne_diverge (assert_ne_diverge _ _) fun _ _ => ?_
    refine bind_ne_diverge (BlockReader.readAll_ne_diverge (by decide) fun k h => nomatch h) fun r _ => ?_
    refine bind_ne_diverge (assert_ne_diverge _ _) fun _ _ => ?_
    exact fun h => nomatch h

/-- A component leads to null or to a node of the file system. -/
theorem lookup_cases {dir : INode} {name : List UInt8} {next : Option INode} (h : fs.lookup (some dir) name = .ok next) :
    next = none ∨ ∃ node number, next = some node ∧ fs.getNode number = .ok node := by
  rw [lookup_some] at h
  split_ifs at h
  obtain ⟨number, -, h⟩ := bind_eq_ok h
  split_ifs at h
  · exact .inl (Except.ok.inj h).symm
  · obtain ⟨node, hnode, h⟩ := bind_eq_ok h
    exact .inr ⟨node, number, (Except.ok.inj h).symm, hnode⟩

theorem lookup_ne_diverge {dir : INode} (hreturns : ∀ name, 0 ∈ name → dir.find name ≠ .error .diverge)
    (name : List UInt8) : fs.lookup (some dir) name ≠ .error .diverge := by
  rw [lookup_some]
  split_ifs
  · exact fun h => nomatch h
  · refine bind_ne_diverge (hreturns _ (by simp)) fun number _ => ?_
    split_ifs
    · exact fun h => nomatch h
    · exact bind_ne_diverge (fs.getNode_ne_diverge number) fun node _ h => nomatch h

/-- A path comes to an end if every lookup does, in the node that it starts from and in those of the file system. -/
theorem foldlM_lookup_ne_diverge (names : List (List UInt8)) (current : Option INode)
    (hreturns : ∀ dir, current = some dir ∨ (∃ number, fs.getNode number = .ok dir) →
      ∀ name, 0 ∈ name → dir.find name ≠ .error .diverge) : names.foldlM fs.lookup current ≠ .error .diverge := by
  induction names generalizing current with
  | nil => exact fun h => nomatch h
  | cons name names ih =>
    cases current with
    | none =>
      rw [foldlM_lookup_none]
      exact fun h => nomatch h
    | some dir =>
      rw [List.foldlM_cons]
      refine bind_ne_diverge (lookup_ne_diverge (hreturns dir (.inl rfl)) name) fun next hnext => ?_
      refine ih next fun dir' hdir' => hreturns dir' (.inr ?_)
      rcases hdir' with hsome | hnode
      · rcases lookup_cases hnext with hnone | ⟨node, number, hnext', hnode⟩
        · rw [hnone] at hsome
          cases hsome
        · obtain rfl := Option.some.inj (hnext'.symm.trans hsome)
          exact ⟨number, hnode⟩
      · exact hnode

/-- `find` is the fold of the lookups of the components. It stores to the places of `part` only, and returns or panics if
the lookups do. Slashes only separate components, and a path in two parts can be followed in two parts. -/
theorem find_eq_fold (fs : Ext2) (path : Path) (current : Option INode) (part : ℕ → UInt8) :
    (fs.find path current part).result = (components path.text).foldlM fs.lookup current ∧
    (∀ dir name, name.length > 256 ∨ dir.data.isDir = false → ∃ msg, fs.lookup (some dir) name = .error (.panic msg)) ∧
    (fs.find path current part).All (· ≤ 256) ∧
    ((∀ dir, current = some dir ∨ (∃ number, fs.getNode number = .ok dir) →
      ∀ name, 0 ∈ name → dir.find name ≠ .error .diverge) →
      (fs.find path current part).result ≠ .error .diverge) ∧
    (∀ (other : Path) (part' : ℕ → UInt8) (a b : List UInt8),
      path.text = a ++ slash :: b → a = [] ∨ b = [] ∨ a.getLast? = some slash ∨ b.head? = some slash →
      other.text = a ++ b → (fs.find path current part).result = (fs.find other current part').result) ∧
    ∀ (p q : Path) (part' : ℕ → UInt8), path.text = p.text ++ slash :: q.text →
      (fs.find path current part).result =
        (fs.find p current part').result >>= fun next => (fs.find q next part').result := by
  have hspec (path : Path) (current : Option INode) (part : ℕ → UInt8) :
      (fs.find path current part).result = (components path.text).foldlM fs.lookup current ∧
        (fs.find path current part).All (· ≤ 256) := by
    have hlength := path.rest_zero.length_le
    have hfits := path.fits
    exact findLoop_spec (2 ^ 32) current part path.rest_zero (by omega)
  refine ⟨(hspec path current part).1, fun dir name => lookup_panics, (hspec path current part).2, ?_, ?_, ?_⟩
  · intro hreturns
    rw [(hspec path current part).1]
    exact foldlM_lookup_ne_diverge _ _ hreturns
  · intro other part' a b hpath hslash hother
    rw [(hspec path current part).1, (hspec other current part').1, hpath, hother, components_slash_between hslash]
  · intro p q part' hpath
    simp only [(hspec _ _ _).1]
    rw [hpath, components_append, List.foldlM_append]

theorem getNode_le {number : ℕ} {node : INode} (h : fs.getNode number = .ok node) : number ≤ fs.numberOfNodes := by
  unfold getNode at h
  obtain ⟨_, -, h⟩ := bind_eq_ok h
  obtain ⟨_, hle, _⟩ := bind_eq_ok h
  by_contra hgt
  rw [decide_eq_false hgt] at hle
  cases hle

def oneNameDisk : Ext2 where
  sectors := INode.oneName.sectors
  blockSize := 1024
  numberOfNodes := 11
  numberOfBlocks := 100
  iNodeSize := 128
  nGroups := 1
  iNodeTables _ := 5
  iNodesPerGroup := 11
  blockSize_pos := INode.oneName.blockSize_pos
  blockSize_le := INode.oneName.blockSize_le

def slashedName : Path where
  bytes := [slash, slash, 97, slash, 0]
  terminated := by decide
  fits := by decide

def trimmedName : Path where
  bytes := [slash, 97, slash, 0]
  terminated := by decide
  fits := by decide

/-- The lookup of "a" gives the node that its record names. -/
theorem slashedName_found :
    (oneNameDisk.find slashedName (some INode.oneName) fun _ => 7).result ≠ .error .diverge ∧
      (oneNameDisk.find slashedName (some INode.oneName) fun _ => 7).result = some <$> oneNameDisk.getNode 11 ∧
      (oneNameDisk.getNode 11).toOption.isSome ∧
      (oneNameDisk.find slashedName (some INode.oneName) fun _ => 7).result =
        (oneNameDisk.find trimmedName (some INode.oneName) fun _ => 0).result := by
  obtain ⟨hfold, -, -, hreturns, hslash, -⟩ := find_eq_fold oneNameDisk slashedName (some INode.oneName) fun _ => 7
  refine ⟨hreturns ?_, ?_, by decide +kernel, hslash trimmedName _ [] [slash, 97, slash] rfl (.inl rfl) rfl⟩
  · rintro dir (hstart | ⟨number, hnode⟩) name -
    · obtain rfl := Option.some.inj hstart
      exact ((INode.oneName.entries_terminates_iff rfl _ 0).2 (by decide)).mpr INode.oneName_moves
    · -- no node of this disk is a directory
      have hnone : ∀ number ≤ 11, (oneNameDisk.getNode number).toOption.all fun dir => dir.data.isDir = false := by
        decide +kernel
      have hdir := hnone number (getNode_le hnode)
      rw [hnode] at hdir
      have hpanic : dir.find name = .error (.panic "is_dir()") := by
        unfold INode.find INode.entries
        rw [of_decide_eq_true hdir]
        rfl
      rw [hpanic]
      exact fun h => nomatch h
  · have hname : components slashedName.text = [[97]] := by decide
    have hfind : INode.oneName.find [97, 0] = .ok 11 := by
      have heleven : (INode.oneName.find [97, 0]).toOption = some 11 := by decide +kernel
      cases hrecord : INode.oneName.find [97, 0] with
      | error e =>
        rw [hrecord] at heleven
        cases heleven
      | ok number =>
        rw [hrecord] at heleven
        rw [Option.some.inj heleven]
    rw [hfold, hname, List.foldlM_cons, lookup_some, if_neg (by decide), List.singleton_append, hfind]
    show (some <$> oneNameDisk.getNode 11) >>= _ = _
    cases oneNameDisk.getNode 11 <;> rfl

end Ext2
end AudioKernel
