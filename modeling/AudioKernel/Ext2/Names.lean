import AudioKernel.Ext2.Directory

/-! What `Node::find` and `Node::entry_count` answer on a well-formed directory with unused records. -/
namespace AudioKernel

/-- An unused record has i-node 0. -/
abbrev DirRecord.Live (e : DirRecord) : Prop := e.inode ≠ 0

def DirRecord.text (e : DirRecord) : List UInt8 := cString e.name

/-- The record at an offset of a directory with the given contents. -/
def recordAt (contents : ℕ → UInt8) (offset : ℕ) : DirRecord where
  inode := uintAt contents offset 4
  totalSize := uintAt contents (offset + 4) 2
  name := (List.range (contents (offset + 6)).toNat).map fun i => contents (offset + 8 + i)

/-- Records fill the directory from `offset` up to `size`. -/
inductive Records (contents : ℕ → UInt8) (size : ℕ) : ℕ → List DirRecord → Prop
  | nil : Records contents size size []
  | cons {offset : ℕ} {es : List DirRecord} :
      8 + (recordAt contents offset).name.length ≤ (recordAt contents offset).totalSize →
      offset + (recordAt contents offset).totalSize ≤ size →
      Records contents size (offset + (recordAt contents offset).totalSize) es →
      Records contents size offset (recordAt contents offset :: es)

namespace INode

variable (n : INode)

/-- What the blocks that can be read have of the contents. -/
def Shows (contents : ℕ → UInt8) : Prop :=
  ∀ j < n.data.sizeLow, n.reader.Readable (j / n.blockSize) → n.reader.byte j = contents j

/-- A well-formed directory: its contents, as far as they can be read, are records, and the live ones have names of
their own. -/
structure Directory (contents : ℕ → UInt8) (es : List DirRecord) : Prop where
  isDir : n.data.isDir = true
  shows : n.Shows contents
  records : Records contents n.data.sizeLow 0 es
  distinct : (es.filter fun e => e.Live).Pairwise fun e e' => e.text ≠ e'.text

/-- The bytes of a record that `entries` reads lie in blocks that can be read. Byte 7, the type, is not looked at. -/
def LegibleAt (offset : ℕ) (e : DirRecord) : Prop :=
  n.reader.ReadableAt offset 7 ∧ n.reader.ReadableAt (offset + 8) e.name.length

/-- All the records, from `offset` on, can be read. -/
def Legible : ℕ → List DirRecord → Prop
  | _, [] => True
  | offset, e :: es => n.LegibleAt offset e ∧ Legible (offset + e.totalSize) es

/-- The answer of `find`: the i-node of the live record with the name, and 0 if there is none. -/
structure Finds (es : List DirRecord) (name : List UInt8) (out : ℕ) : Prop where
  live : ∀ e ∈ es, e.Live → e.text = name → out = e.inode
  absent : (∀ e ∈ es, e.Live → e.text ≠ name) → out = 0

/-- No unused record behind a live one still carries its name. -/
def NoStale (es : List DirRecord) (name : List UInt8) : Prop :=
  ∀ pre e post, es = pre ++ e :: post → e.Live → e.text = name → ∀ u ∈ post, ¬ u.Live → u.text ≠ name

variable {n} {contents : ℕ → UInt8} {es : List DirRecord} {offset : ℕ}

theorem uintAt_one (bytes : ℕ → UInt8) (a : ℕ) : uintAt bytes a 1 = (bytes a).toNat := by
  rw [uintAt, uintAt, Nat.mul_zero, Nat.add_zero]

theorem readableAt_mono {i m r : ℕ} (h : n.reader.ReadableAt offset r) (him : i + m ≤ r) :
    n.reader.ReadableAt (offset + i) m := by
  intro j hj
  rw [Nat.add_assoc]
  exact h (i + j) (by omega)

theorem Shows.readUInt (h : n.Shows contents) {m : ℕ} (hm : m < 2 ^ 32) (hend : offset + m ≤ n.data.sizeLow)
    (hreadable : n.reader.ReadableAt offset m) : n.reader.readUInt offset m = .ok (uintAt contents offset m) := by
  rw [BlockReader.readUInt_ok hm hend hreadable (n.reader_buffered _ _)]
  congr 1
  apply uintAt_congr
  intro j hlo hhi
  have hblock := hreadable (j - offset) (by omega)
  rw [Nat.add_sub_cancel' hlo] at hblock
  exact h j (by omega) hblock

/-- A record is read just when the blocks of its bytes can be read. -/
theorem Shows.readRecord_ok (h : n.Shows contents)
    (hend : offset + 8 + (recordAt contents offset).name.length ≤ n.data.sizeLow)
    (hlegible : n.LegibleAt offset (recordAt contents offset)) :
    n.readRecord offset = .ok (recordAt contents offset) := by
  have hsize := n.data.sizeLow_lt
  have hlength : (recordAt contents offset).name.length = (contents (offset + 6)).toNat := by simp [recordAt]
  obtain ⟨hhead, hblocks⟩ := hlegible
  rw [hlength] at hend hblocks
  have hbyte := (contents (offset + 6)).toNat_lt
  have hinode := h.readUInt (m := 4) (by decide) (show offset + 4 ≤ n.data.sizeLow by omega)
    (readableAt_mono (i := 0) hhead (by omega))
  have htotal := h.readUInt (m := 2) (by decide) (show offset + 4 + 2 ≤ n.data.sizeLow by omega)
    (readableAt_mono hhead (by omega))
  have hname := h.readUInt (m := 1) (by decide) (show offset + 6 + 1 ≤ n.data.sizeLow by omega)
    (readableAt_mono hhead (by omega))
  have hmin : min (contents (offset + 6)).toNat (n.reader.sizeInBytes - (offset + 8)) = (contents (offset + 6)).toNat := by
    show min _ (n.data.sizeLow - _) = _
    omega
  obtain ⟨blocks, hread⟩ := n.reader.readAll_ok 0
    (show (contents (offset + 6)).toNat < 2 ^ 32 by omega) (show offset + 8 ≤ n.data.sizeLow by omega)
    (by rwa [hmin]) (n.reader_buffered _ _)
  rw [hmin] at hread
  have hbytes : (List.range (contents (offset + 6)).toNat).map
      ((n.reader.slice (offset + 8) 0 (contents (offset + 6)).toNat).apply fun _ => 0) =
      (recordAt contents offset).name := by
    apply List.map_congr_left
    intro i hi
    rw [List.mem_range] at hi
    exact (Stores.consecutive_zero (by omega) hi).trans (h _ (by omega) (hblocks i hi))
  unfold readRecord
  rw [Nat.mod_eq_of_lt (show offset + 4 < 2 ^ 32 by omega), Nat.mod_eq_of_lt (show offset + 6 < 2 ^ 32 by omega),
    Nat.mod_eq_of_lt (show offset + 8 < 2 ^ 32 by omega), hinode, htotal, hname, uintAt_one]
  simp only [bind, Except.bind, hread]
  rw [assert_pos trivial, hbytes]
  rfl

theorem Shows.legibleAt_of_readRecord (h : n.Shows contents) {e : DirRecord}
    (hend : offset + 8 + (recordAt contents offset).name.length ≤ n.data.sizeLow) (hread : n.readRecord offset = .ok e) :
    n.LegibleAt offset (recordAt contents offset) := by
  have hsize := n.data.sizeLow_lt
  have hbyte := (contents (offset + 6)).toNat_lt
  have hlength : (recordAt contents offset).name.length = (contents (offset + 6)).toNat := by simp [recordAt]
  unfold LegibleAt
  rw [hlength] at hend ⊢
  unfold readRecord at hread
  rw [Nat.mod_eq_of_lt (show offset + 4 < 2 ^ 32 by omega), Nat.mod_eq_of_lt (show offset + 6 < 2 ^ 32 by omega),
    Nat.mod_eq_of_lt (show offset + 8 < 2 ^ 32 by omega)] at hread
  obtain ⟨inode, hinode, hread⟩ := bind_eq_ok hread
  obtain ⟨totalSize, htotal, hread⟩ := bind_eq_ok hread
  obtain ⟨nameLength, hname, hread⟩ := bind_eq_ok hread
  obtain ⟨r, hbytes, -⟩ := bind_eq_ok hread
  have hinode := BlockReader.readableAt_of_readUInt (by decide) (show offset + 4 ≤ n.data.sizeLow by omega) hinode
  have htotal := BlockReader.readableAt_of_readUInt (by decide) (show offset + 4 + 2 ≤ n.data.sizeLow by omega) htotal
  have hlast := BlockReader.readableAt_of_readUInt (by decide) (show offset + 6 + 1 ≤ n.data.sizeLow by omega) hname
  have hvalue := h.readUInt (by decide) (show offset + 6 + 1 ≤ n.data.sizeLow by omega) hlast
  rw [hname, uintAt_one] at hvalue
  obtain rfl := Except.ok.inj hvalue
  constructor
  · intro i hi
    by_cases hfirst : i < 4
    · exact hinode i hfirst
    by_cases hsecond : i < 6
    · have hblock := htotal (i - 4) (by omega)
      rwa [Nat.add_assoc, Nat.add_sub_cancel' (by omega)] at hblock
    · have hblock := hlast (i - 6) (by omega)
      rwa [Nat.add_assoc, Nat.add_sub_cancel' (by omega)] at hblock
  · have hname := (BlockReader.served_of_readAll (show (contents (offset + 6)).toNat < 2 ^ 32 by omega)
      (show offset + 8 ≤ n.data.sizeLow by omega) hbytes).1
    have hmin : min (contents (offset + 6)).toNat (n.reader.sizeInBytes - (offset + 8)) =
        (contents (offset + 6)).toNat := by
      show min _ (n.data.sizeLow - _) = _
      omega
    rwa [hmin] at hname

variable {β : Type} {work : β → ℕ → List UInt8 → β}

/-- The loop hands every record to `work`, or stops at one that cannot be read. -/
theorem entriesLoop_cases (h : n.Shows contents) (hrecords : Records contents n.data.sizeLow offset es) (fuel : ℕ)
    (hfuel : es.length < fuel) (b : β) :
    (n.Legible offset es ∧
      n.entriesLoop work fuel offset b = .ok (es.foldl (fun b e => work b e.inode (e.name ++ [0])) b)) ∨
      ¬ n.Legible offset es ∧ ∃ e, n.entriesLoop work fuel offset b = .error e := by
  have hsize := n.data.sizeLow_lt
  induction hrecords generalizing fuel b with
  | nil =>
    obtain ⟨fuel, rfl⟩ : ∃ m, fuel = m + 1 := ⟨fuel - 1, by omega⟩
    rw [entriesLoop, if_neg (Nat.lt_irrefl _)]
    exact .inl ⟨trivial, rfl⟩
  | @cons offset es hfits hinside _ ih =>
    obtain ⟨fuel, rfl⟩ : ∃ m, fuel = m + 1 := ⟨fuel - 1, by omega⟩
    rw [List.length_cons] at hfuel
    rw [entriesLoop, if_pos (by omega)]
    cases hread : n.readRecord offset with
    | error e =>
      refine .inr ⟨?_, e, rfl⟩
      intro hlegible
      rw [h.readRecord_ok (by omega) hlegible.1] at hread
      cases hread
    | ok e =>
      have hlegible := h.legibleAt_of_readRecord (by omega) hread
      rw [h.readRecord_ok (by omega) hlegible] at hread
      obtain rfl := Except.ok.inj hread
      have hnext : (offset + (recordAt contents offset).totalSize) % 2 ^ 32 =
          offset + (recordAt contents offset).totalSize := Nat.mod_eq_of_lt (by omega)
      show (_ ∧ n.entriesLoop work fuel _ _ = _) ∨ _ ∧ ∃ e, n.entriesLoop work fuel _ _ = _
      rw [hnext]
      rcases ih fuel (by omega) (work b (recordAt contents offset).inode ((recordAt contents offset).name ++ [0])) with
        ⟨hrest, hok⟩ | ⟨hnot, herror⟩
      · exact .inl ⟨⟨hlegible, hrest⟩, hok⟩
      · exact .inr ⟨fun hall => hnot hall.2, herror⟩

theorem records_length (hrecords : Records contents n.data.sizeLow offset es) :
    8 * es.length + offset ≤ n.data.sizeLow := by
  induction hrecords with
  | nil => simp
  | cons hfits hinside _ ih =>
    rw [List.length_cons]
    omega

theorem Directory.entries_cases (h : n.Directory contents es) (work : β → ℕ → List UInt8 → β) (b : β) :
    (n.Legible 0 es ∧ n.entries work b = .ok (es.foldl (fun b e => work b e.inode (e.name ++ [0])) b)) ∨
      ¬ n.Legible 0 es ∧ ∃ e, n.entries work b = .error e := by
  have hsize := n.data.sizeLow_lt
  have hlength := records_length h.records
  have hentries : n.entries work b = n.entriesLoop work (2 ^ 32) 0 b := by
    rw [entries, h.isDir]
    rfl
  rw [hentries]
  exact entriesLoop_cases h.shows h.records (2 ^ 32) (by omega) b

theorem streq_iff {a b : List UInt8} (ha : 0 ∈ a) (hb : 0 ∈ b) : streq a b = true ↔ cString a = cString b := by
  induction a generalizing b with
  | nil => cases ha
  | cons x a ih =>
    cases b with
    | nil => cases hb
    | cons y b =>
      rw [streq]
      by_cases hxy : x = y
      · subst hxy
        rw [if_neg (not_not.mpr rfl)]
        by_cases hx : x = 0
        · simp [cString, hx]
        · have ha' : 0 ∈ a := (List.mem_cons.mp ha).resolve_left (Ne.symm hx)
          have hb' : 0 ∈ b := (List.mem_cons.mp hb).resolve_left (Ne.symm hx)
          have hrest := ih ha' hb'
          simp only [cString] at hrest
          simp [cString, hx, hrest]
      · rw [if_pos hxy]
        refine iff_of_false Bool.false_ne_true ?_
        unfold cString
        rw [List.takeWhile_cons, List.takeWhile_cons]
        split_ifs with hx hy hy
        · exact fun h => hxy (List.cons.inj h).1
        · exact fun h => nomatch h
        · exact fun h => nomatch h
        · simp only [ne_eq, decide_not, Bool.not_eq_eq_eq_not, Bool.not_true, decide_eq_false_iff_not, not_not] at hx hy
          exact absurd (hx.trans hy.symm) hxy

/-- The buffer that `work` gets has the name of the record as its string. -/
theorem cString_concat (name : List UInt8) : cString (name ++ [0]) = cString name := by
  unfold cString
  induction name with
  | nil => rfl
  | cons c name ih => rw [List.cons_append, List.takeWhile_cons, List.takeWhile_cons, ih]

/-- The scan keeps the i-node of the last record with the name. -/
def lastMatch (name : List UInt8) (es : List DirRecord) (out : ℕ) : ℕ :=
  es.foldl (fun out e => if e.text = name then e.inode else out) out

theorem foldl_streq {name : List UInt8} (hname : 0 ∈ name) (es : List DirRecord) (out : ℕ) :
    es.foldl (fun out e => if streq name (e.name ++ [0]) then e.inode else out) out = lastMatch (cString name) es out := by
  unfold lastMatch
  congr 1
  funext out e
  have hiff : streq name (e.name ++ [0]) = true ↔ e.text = cString name := by
    rw [streq_iff hname (by simp), cString_concat, DirRecord.text, eq_comm]
  by_cases htext : e.text = cString name
  · rw [if_pos htext, if_pos (hiff.mpr htext)]
  · rw [if_neg htext, if_neg fun h => htext (hiff.mp h)]

theorem lastMatch_cases (name : List UInt8) (es : List DirRecord) (out : ℕ) :
    (∃ e ∈ es, e.text = name ∧ lastMatch name es out = e.inode) ∨
      (∀ e ∈ es, e.text ≠ name) ∧ lastMatch name es out = out := by
  unfold lastMatch
  induction es generalizing out with
  | nil => exact .inr ⟨fun e he => absurd he List.not_mem_nil, rfl⟩
  | cons x es ih =>
    rw [List.foldl_cons]
    rcases ih (if x.text = name then x.inode else out) with ⟨e, he, htext, hlast⟩ | ⟨hnone, hlast⟩
    · exact .inl ⟨e, List.mem_cons_of_mem _ he, htext, hlast⟩
    · by_cases hx : x.text = name
      · rw [if_pos hx] at hlast ⊢
        exact .inl ⟨x, List.mem_cons_self, hx, hlast⟩
      · rw [if_neg hx] at hlast ⊢
        exact .inr ⟨List.forall_mem_cons.mpr ⟨hx, hnone⟩, hlast⟩

/-- The records behind a live one have other names, those that are live. -/
theorem Directory.text_ne (h : n.Directory contents es) {pre post : List DirRecord} {e u : DirRecord}
    (hes : es = pre ++ e :: post) (he : e.Live) (hu : u ∈ post) (hlive : u.Live) : u.text ≠ e.text := by
  have hdistinct := h.distinct
  rw [hes, List.filter_append, List.filter_cons_of_pos (by simpa using he)] at hdistinct
  have htail := (List.pairwise_append.mp hdistinct).2.1
  exact ((List.pairwise_cons.mp htail).1 u (List.mem_filter.mpr ⟨hu, by simpa using hlive⟩)).symm

theorem Directory.finds_iff (h : n.Directory contents es) (name : List UInt8) :
    Finds es name (lastMatch name es 0) ↔ NoStale es name := by
  constructor
  · intro hfinds pre e post hes he hname u hu hdead hstale
    have hout := hfinds.live e (by rw [hes]; simp) he hname
    have hsplit : lastMatch name es 0 = lastMatch name post e.inode := by
      rw [hes]
      unfold lastMatch
      rw [List.foldl_append, List.foldl_cons, if_pos hname]
    rcases lastMatch_cases name post e.inode with ⟨l, hl, htext, hlast⟩ | ⟨hnone, -⟩
    · -- the last match is behind `e`: it is not live, so that the scan has ended with 0
      have hdead : ¬ l.Live := fun hlive => h.text_ne hes he hl hlive (htext.trans hname.symm)
      have hsame : l.inode = e.inode := by rw [← hlast, ← hsplit, hout]
      rw [DirRecord.Live, hsame] at hdead
      exact hdead he
    · exact hnone u hu hstale
  · intro hfresh
    constructor
    · intro e he hlive hname
      obtain ⟨pre, post, hes⟩ := List.append_of_mem he
      have hsplit : lastMatch name es 0 = lastMatch name post e.inode := by
        rw [hes]
        unfold lastMatch
        rw [List.foldl_append, List.foldl_cons, if_pos hname]
      rw [hsplit]
      rcases lastMatch_cases name post e.inode with ⟨l, hl, htext, -⟩ | ⟨-, hlast⟩
      · exfalso
        by_cases hl' : l.Live
        · exact h.text_ne hes hlive hl hl' (htext.trans hname.symm)
        · exact hfresh pre e post hes hlive hname l hl hl' htext
      · exact hlast
    · intro habsent
      rcases lastMatch_cases name es 0 with ⟨l, hl, htext, hlast⟩ | ⟨-, hlast⟩
      · rw [hlast]
        by_contra hlive
        exact habsent l hl hlive htext
      · exact hlast

theorem foldl_count (es : List DirRecord) (count : ℕ) (h : count + es.length < 2 ^ 32) :
    es.foldl (fun count _ => (count + 1) % 2 ^ 32) count = count + es.length := by
  induction es generalizing count with
  | nil => rfl
  | cons e es ih =>
    rw [List.length_cons] at h ⊢
    rw [List.foldl_cons, Nat.mod_eq_of_lt (by omega), ih _ (by omega)]
    omega

/-- On a well-formed directory `find` gives the right answer just when the records can be read and no unused record behind
the live one has the same name; `entry_count` counts the live records just when there are no others. -/
theorem lookup_right_iff (n : INode) (contents : ℕ → UInt8) (es : List DirRecord) (h : n.Directory contents es)
    (name : List UInt8) (hname : 0 ∈ name) :
    ((∃ out, n.find name = .ok out ∧ Finds es (cString name) out) ↔ n.Legible 0 es ∧ NoStale es (cString name)) ∧
      (n.entryCount = .ok (es.filter fun e => e.Live).length ↔ n.Legible 0 es ∧ ∀ e ∈ es, e.Live) := by
  constructor
  · unfold find
    rcases h.entries_cases (fun out number nm => if streq name nm then number else out) 0 with
      ⟨hlegible, hok⟩ | ⟨hnot, e, herror⟩
    · rw [hok, foldl_streq hname]
      constructor
      · rintro ⟨out, hout, hfinds⟩
        obtain rfl := Except.ok.inj hout
        exact ⟨hlegible, (h.finds_iff _).mp hfinds⟩
      · rintro ⟨-, hfresh⟩
        exact ⟨_, rfl, (h.finds_iff _).mpr hfresh⟩
    · refine iff_of_false ?_ fun hboth => hnot hboth.1
      rintro ⟨out, hout, -⟩
      rw [herror] at hout
      cases hout
  · have hentries : n.entryCount = n.entries (fun count _ _ => (count + 1) % 2 ^ 32) 0 := by
      rw [entryCount, h.isDir]
      rfl
    have hsize := n.data.sizeLow_lt
    have hlength := records_length h.records
    rw [hentries]
    rcases h.entries_cases (fun count _ _ => (count + 1) % 2 ^ 32) 0 with ⟨hlegible, hok⟩ | ⟨hnot, e, herror⟩
    · rw [hok, foldl_count es 0 (by omega), Nat.zero_add]
      constructor
      · intro hcount
        refine ⟨hlegible, ?_⟩
        have hall := List.length_filter_eq_length_iff.mp (Except.ok.inj hcount).symm
        exact fun e he => by simpa using hall e he
      · rintro ⟨-, hall⟩
        have hsame : (es.filter fun e => e.Live).length = es.length :=
          List.length_filter_eq_length_iff.mpr fun e he => by simpa using hall e he
        rw [hsame]
    · refine iff_of_false ?_ fun hboth => hnot hboth.1
      intro hcount
      rw [herror] at hcount
      cases hcount

theorem blockDirectory_reached (bytes : List UInt8) : (blockDirectory bytes).Reached 0 where
  counted := show 0 < 2 / (1024 / 512) by decide
  mapped := show 0 < 12 + 1024 / 4 by decide
  indirectOnDisk := fun h => absurd h (by decide)
  onDisk := show 1 * 1024 % 2 ^ 32 + 1024 < 2 ^ 32 by decide

theorem blockDirectory_ge (bytes : List UInt8) : 512 ≤ (blockDirectory bytes).blockSize :=
  show 512 ≤ 1024 by decide

theorem blockDirectory_byte (bytes : List UInt8) (a : ℕ) :
    (blockDirectory bytes).ide.byte a = bytes.getD (a % 512 % 512) 0 := rfl

theorem blockDirectory_shows (bytes : List UInt8) : (blockDirectory bytes).Shows fun j => bytes.getD j 0 := by
  intro j hj _
  have hj' : j < 512 := hj
  have hblock : j / (blockDirectory bytes).blockSize = 0 :=
    Nat.div_eq_of_lt (Nat.lt_trans hj' (show 512 < 1024 by decide))
  have hin : j % (blockDirectory bytes).blockSize = j :=
    Nat.mod_eq_of_lt (Nat.lt_trans hj' (show 512 < 1024 by decide))
  have hpointer : (blockDirectory bytes).pointer 0 * (blockDirectory bytes).blockSize % 2 ^ 32 = 1024 :=
    show 1 * 1024 % 2 ^ 32 = 1024 by decide
  have hreached : (blockDirectory bytes).Reached (j / (blockDirectory bytes).blockSize) := by
    rw [hblock]
    exact blockDirectory_reached bytes
  have hsector : (1024 + j) % 512 % 512 = j := by omega
  rw [reader_byte (blockDirectory_ge bytes) hreached, hblock, hin, blockBytes, hpointer, blockDirectory_byte, hsector]

theorem blockDirectory_readableAt (bytes : List UInt8) {offset m : ℕ} (h : offset + m ≤ 1024) :
    (blockDirectory bytes).reader.ReadableAt offset m := by
  intro i hi
  have hblock : (offset + i) / 1024 = 0 := Nat.div_eq_of_lt (by omega)
  refine (readable_iff (blockDirectory_ge bytes)).mpr ?_
  show (blockDirectory bytes).Reached ((offset + i) / 1024)
  rw [hblock]
  exact blockDirectory_reached bytes

/-- An unused record that is still called "a" stands before the live one of that name. -/
def staleFirst : INode := blockDirectory [0, 0, 0, 0, 12, 0, 1, 2, 97, 0, 0, 0, 11, 0, 0, 0, 0xF4, 1, 1, 2, 97]

theorem staleFirst_directory :
    staleFirst.Directory (fun j => [0, 0, 0, 0, 12, 0, 1, 2, 97, 0, 0, 0, 11, 0, 0, 0, 0xF4, 1, 1, 2, 97].getD j 0)
      [⟨0, 12, [97]⟩, ⟨11, 500, [97]⟩] where
  isDir := rfl
  shows := blockDirectory_shows _
  records := .cons (by decide) (by decide) (.cons (by decide) (by decide) .nil)
  distinct := by simp

theorem staleFirst_found : staleFirst.find [97, 0] = .ok 11 := by
  have hlegible : staleFirst.Legible 0 [⟨0, 12, [97]⟩, ⟨11, 500, [97]⟩] := by
    refine ⟨⟨?_, ?_⟩, ⟨?_, ?_⟩, trivial⟩
    · exact blockDirectory_readableAt _ (show 0 + 7 ≤ 1024 by decide)
    · exact blockDirectory_readableAt _ (show 0 + 8 + 1 ≤ 1024 by decide)
    · exact blockDirectory_readableAt _ (show 0 + 12 + 7 ≤ 1024 by decide)
    · exact blockDirectory_readableAt _ (show 0 + 12 + 8 + 1 ≤ 1024 by decide)
  have hfresh : NoStale [⟨0, 12, [97]⟩, ⟨11, 500, [97]⟩] [97] := by
    intro pre e post hes hlive _ u hu
    cases pre with
    | nil =>
      rw [← (List.cons.inj hes).1] at hlive
      exact absurd rfl hlive
    | cons x pre =>
      cases pre with
      | nil =>
        rw [← (List.cons.inj (List.cons.inj hes).2).2] at hu
        exact absurd hu List.not_mem_nil
      | cons y pre => exact absurd (congrArg List.length hes) (by simp)
  obtain ⟨out, hout, hfinds⟩ := (lookup_right_iff staleFirst _ _ staleFirst_directory [97, 0] (by simp)).1.mpr
    ⟨hlegible, hfresh⟩
  rw [hout, hfinds.live ⟨11, 500, [97]⟩ (by simp) (by decide) rfl]

def staleLast : INode := blockDirectory [11, 0, 0, 0, 12, 0, 1, 2, 97, 0, 0, 0, 0, 0, 0, 0, 0xF4, 1, 1, 2, 97]

/-- `find` ends with the i-node of the unused record, which is none. -/
theorem staleLast_missed :
    staleLast.Directory (fun j => [11, 0, 0, 0, 12, 0, 1, 2, 97, 0, 0, 0, 0, 0, 0, 0, 0xF4, 1, 1, 2, 97].getD j 0)
      [⟨11, 12, [97]⟩, ⟨0, 500, [97]⟩] ∧
    ¬ ∃ out, staleLast.find [97, 0] = .ok out ∧ Finds [⟨11, 12, [97]⟩, ⟨0, 500, [97]⟩] (cString [97, 0]) out := by
  have hdir : staleLast.Directory
      (fun j => [11, 0, 0, 0, 12, 0, 1, 2, 97, 0, 0, 0, 0, 0, 0, 0, 0xF4, 1, 1, 2, 97].getD j 0)
      [⟨11, 12, [97]⟩, ⟨0, 500, [97]⟩] :=
    ⟨rfl, blockDirectory_shows _, .cons (by decide) (by decide) (.cons (by decide) (by decide) .nil), by simp⟩
  refine ⟨hdir, ?_⟩
  rintro ⟨out, hout, hfinds⟩
  have heleven : out = 11 := hfinds.live ⟨11, 12, [97]⟩ (by simp) (by decide) rfl
  unfold find at hout
  rcases hdir.entries_cases (fun out number nm => if streq [97, 0] nm then number else out) 0 with
    ⟨-, hok⟩ | ⟨-, e, herror⟩
  · rw [hok] at hout
    have hzero : 0 = out := Except.ok.inj hout
    omega
  · rw [herror] at hout
    cases hout

end INode
end AudioKernel
