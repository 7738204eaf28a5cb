import AudioKernel.Sys.Isolation

/-! Which user memory `write`, `wait` and `read` access, and when all of it is private to the process. -/
namespace AudioKernel
open Lib

/-- Private memory outside the pages of the two interrupt controllers. -/
def Confined (cfg : Config) (a : ℕ) : Prop :=
  0x80000000 ≤ a ∧ a < 2 ^ 32 ∧ ¬ (cfg.localAPIC ≤ a ∧ a < cfg.localAPIC + 4096) ∧
    ¬ (cfg.ioAPIC ≤ a ∧ a < cfg.ioAPIC + 4096)

/-- `n` bytes from `a` on neither go past the end of memory nor touch one of the two pages. -/
def Clear (cfg : Config) (a n : ℕ) : Prop :=
  n = 0 ∨ (a + n ≤ 2 ^ 32 ∧ (a + n ≤ cfg.localAPIC ∨ cfg.localAPIC + 4096 ≤ a) ∧
    (a + n ≤ cfg.ioAPIC ∨ cfg.ioAPIC + 4096 ≤ a))

/-- Every access of the call, if it returns, is confined. -/
def AccessesConfined (cfg : Config) (r : Except Stop Outcome) : Prop :=
  ∀ o, r = .ok o → ∀ a ∈ o.accesses, Confined cfg a

namespace Clear

variable {cfg : Config} {a m n : ℕ}

theorem mono (h : Clear cfg a n) (hmn : m ≤ n) : Clear cfg a m := by
  unfold Clear at *
  omega

/-- A transfer of consecutive bytes that begins in private memory is confined when it is clear. -/
theorem iff_confined (ha : 0x80000000 ≤ a) (ha' : a < 2 ^ 32) :
    (∀ i < n, Confined cfg ((a + i) % 2 ^ 32)) ↔ Clear cfg a n := by
  constructor
  · intro h
    by_cases hzero : n = 0
    · exact .inl hzero
    right
    have hwrap : a + n ≤ 2 ^ 32 := by
      by_contra hlt
      have := (h (2 ^ 32 - a) (by omega)).1
      omega
    -- a page that is touched holds the start, or the first byte of the page is transferred
    have hpage : ∀ base, (∀ i < n, ¬ (base ≤ (a + i) % 2 ^ 32 ∧ (a + i) % 2 ^ 32 < base + 4096)) →
        a + n ≤ base ∨ base + 4096 ≤ a := by
      intro base hbase
      by_contra hmeet
      by_cases hle : base ≤ a
      · have := hbase 0 (by omega)
        omega
      · have := hbase (base - a) (by omega)
        omega
    exact ⟨hwrap, hpage _ fun i hi => (h i hi).2.2.1, hpage _ fun i hi => (h i hi).2.2.2⟩
  · intro h i hi
    unfold Clear at h
    unfold Confined
    omega

end Clear

namespace World

variable {cfg : Config} {w : World} {p fnum buffer nbyte : ℕ}

theorem accessesConfined_fail : AccessesConfined cfg (.ok w.fail) := by
  intro o ho a ha
  cases ho
  simp [Outcome.accesses, fail] at ha

theorem accessesConfined_error (e : Stop) : AccessesConfined cfg (.error e) := by
  intro o ho
  cases ho

/-- The distance up to the page at `base`, in `uint32_t` arithmetic. -/
def gap (base buffer : ℕ) : ℕ := (base + 2 ^ 32 - buffer) % 2 ^ 32

/-- What `read` looks at the end of: the bytes up to the end of the file, but all `nbyte` of them when
`offset + nbyte` overflows. -/
def asked (size offset nbyte : ℕ) : ℕ := if offset + nbyte < 2 ^ 32 then min nbyte (size - offset) else nbyte

theorem inWindow_iff {base a : ℕ} : inWindow base a = true ↔ base ≤ a ∧ a < (base + 4096) % 2 ^ 32 := by
  simp [inWindow]

theorem add_gap {base : ℕ} (hbase : base < 2 ^ 32) (hbuf : buffer < 2 ^ 32) : (buffer + gap base buffer) % 2 ^ 32 = base := by
  unfold gap
  omega

theorem clamp_eq {size offset : ℕ} (hsize : size < 2 ^ 32) (hoff : offset ≤ size) (hn : nbyte < 2 ^ 32)
    (hbuf : buffer < 2 ^ 32) :
    clamp cfg size offset buffer nbyte =
      let last := (buffer + asked size offset nbyte) % 2 ^ 32
      if inWindow cfg.ioAPIC last then
        if inWindow cfg.localAPIC cfg.ioAPIC then gap cfg.localAPIC buffer else gap cfg.ioAPIC buffer
      else if inWindow cfg.localAPIC last then gap cfg.localAPIC buffer else asked size offset nbyte := by
  have hasked : (if (offset + nbyte) % 2 ^ 32 ≥ size then (size + 2 ^ 32 - offset) % 2 ^ 32 else nbyte) =
      asked size offset nbyte := by
    unfold asked
    split_ifs <;> omega
  have hio := add_gap cfg.ioAPIC_lt hbuf
  unfold clamp
  simp only [hasked]
  change (if inWindow cfg.localAPIC ((buffer + if inWindow cfg.ioAPIC _ then gap _ _ else _) % 2 ^ 32) then gap _ _
    else if inWindow cfg.ioAPIC _ then gap _ _ else _) = _
  by_cases hlast : inWindow cfg.ioAPIC ((buffer + asked size offset nbyte) % 2 ^ 32) = true
  · simp only [if_pos hlast, hio]
  · simp only [if_neg hlast]

theorem clamp_lt (cfg : Config) (size offset buffer : ℕ) (hn : nbyte < 2 ^ 32) :
    clamp cfg size offset buffer nbyte < 2 ^ 32 := by
  unfold clamp
  dsimp only
  split_ifs <;> omega

/-- The call of `read` gets as far as `read_all`, for descriptor `k` and file `f`. -/
structure ReadReaches (cfg : Config) (w : World) (p fnum buffer k f : ℕ) : Prop where
  fnum_le : fnum ≤ 9
  bound : w.fdAt p fnum = some k
  unreserved : (w.desc k).reserved = false
  buffer_ok : badBuffer cfg buffer = false
  file_eq : (w.desc k).file = some f

theorem read_of_not_reaches (h : ∀ k f, ¬ ReadReaches cfg w p fnum buffer k f) :
    AccessesConfined cfg (w.read cfg p fnum buffer nbyte) := by
  unfold read
  by_cases hfnum : fnum > 9
  · rw [if_pos hfnum]
    exact accessesConfined_fail
  rw [if_neg hfnum]
  cases hk : w.fdAt p fnum with
  | none => exact accessesConfined_fail
  | some k =>
    dsimp only
    split_ifs with hres hbuf
    · exact accessesConfined_fail
    · exact accessesConfined_fail
    · cases hf : (w.desc k).file with
      | none => exact accessesConfined_error .wild
      | some f => exact absurd ⟨by omega, hk, by simpa using hres, by simpa using hbuf, hf⟩ (h k f)

end World
end AudioKernel
