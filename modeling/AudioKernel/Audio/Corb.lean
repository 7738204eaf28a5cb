import AudioKernel.Audio.Controller

/-! `corb_write` against a controller that takes its steps at any time: verbs are executed in order, and none is lost. -/
namespace AudioKernel.Audio
open Lib Interact

variable {c : Controller} {d : HdaDevice} {vs all : List ℕ}

/-- What holds at every access: every pending verb is where the controller will find it, and no other ones are there. -/
def Ordered (c : Controller) (all : List ℕ) (m : Rings) (log : List Access) : Prop :=
  (∃ xs hidden, CorbInv c m (stored log) xs hidden) ∧ stored log <+: all

/-- The driver has written the verbs `vs`, and the controller has been told of them. -/
def Written (c : Controller) (vs : List ℕ) (m : Rings) (log : List Access) : Prop :=
  stored log = vs ∧ ∃ xs, CorbInv c m vs xs 0

theorem Written.ordered {m : Rings} {log : List Access} (h : Written c vs m log) (hvs : vs <+: all) :
    Ordered c all m log := by
  obtain ⟨hstored, xs, hinv⟩ := h
  refine ⟨⟨xs, 0, ?_⟩, by rwa [hstored]⟩
  rwa [hstored]

theorem Written.advance {m : Rings} {log : List Access} (h : Written c vs m log) : Written c vs (c.advance m) log := by
  obtain ⟨hstored, xs, hinv⟩ := h
  exact ⟨hstored, hinv.advance⟩

/-- Reading a register, and writing one that is none of the rings'. -/
theorem Written.quiet {m : Rings} {log : List Access} (h : Written c vs m log) {a : Access} (hstored : stored [a] = [])
    (hserve : (Controller.serve (c.advance m) a).2 = c.advance m) : Written c vs (c.respond m a).2 (log ++ [a]) := by
  obtain ⟨hvs, hinv⟩ := h.advance
  refine ⟨by rw [stored_append, hstored, List.append_nil, hvs], ?_⟩
  unfold Controller.respond
  rwa [hserve]

theorem triple_corbWrite (hsize : 2 ≤ c.corbSize) (hsize' : c.corbSize ≤ 2 ^ 8) (hd : d.corbEntries = c.corbSize)
    (verb : ℕ) (hall : vs ++ [verb] <+: all) :
    Triple c.respond (Written c vs) (corbWrite d verb) (fun _ => Written c (vs ++ [verb])) (Ordered c all) := by
  have hvs : vs <+: all := (List.prefix_append vs [verb]).trans hall
  have hbyte {v : ℕ} (hv : v < c.corbSize) : v % 2 ^ 16 % 2 ^ 8 = v := by omega
  unfold corbWrite
  refine .bind (Q := fun w m log => w % 2 ^ 8 = m.corbWp ∧ Written c vs m log) ?_ fun w => ?_
  · refine triple_inw (fun m log h => h.ordered hvs) fun m log h => ?_
    obtain ⟨-, xs, hinv⟩ := h.advance
    exact ⟨hbyte hinv.corbWp_lt, h.quiet rfl rfl⟩
  rw [hd, if_neg (by omega)]
  generalize hnext : (w % 2 ^ 8 + 1) % c.corbSize % 2 ^ 16 = next
  have hnext' : next = (w % 2 ^ 8 + 1) % c.corbSize := by
    have hlt : (w % 2 ^ 8 + 1) % c.corbSize < c.corbSize := Nat.mod_lt _ (by omega)
    rw [← hnext, Nat.mod_eq_of_lt (by omega)]
  refine .bind (Q := fun _ m log => Room c m ∧ w % 2 ^ 8 = m.corbWp ∧ Written c vs m log) ?_ fun _ => ?_
  · -- the loop is left when there is room for the verb
    refine .poll (fun m log h => h.2.ordered hvs) ?_
    refine .bind (Q := fun a m log => a % 2 ^ 8 = m.corbRp ∧ w % 2 ^ 8 = m.corbWp ∧ Written c vs m log) ?_ fun a => ?_
    · refine triple_inw (fun m log h => h.2.ordered hvs) fun m log h => ?_
      obtain ⟨-, xs, hinv⟩ := h.2.advance
      exact ⟨hbyte hinv.corbRp_lt, h.1.trans (advance_corbWp c m).symm, h.2.quiet rfl rfl⟩
    · refine .pure fun m log h => ?_
      by_cases hfull : next = a % 2 ^ 8
      · rw [if_pos (decide_eq_true hfull)]
        exact h.2
      · rw [if_neg (by simpa using hfull)]
        obtain ⟨hrp, hwp, hstored, xs, hinv⟩ := h
        refine ⟨hinv.room ?_, hwp, hstored, xs, hinv⟩
        rw [← hwp, ← hrp, ← hnext']
        exact hfull
  refine .bind (Q := fun _ m log => w % 2 ^ 8 = m.corbWp ∧ stored log = vs ++ [verb] ∧
    ∃ xs, CorbInv c m (vs ++ [verb]) xs 1) ?_ fun _ => ?_
  · refine .access (fun m log h => h.2.2.ordered hvs) fun m log h => ?_
    obtain ⟨hstored, xs, hinv⟩ := h.2.2.advance
    have hwp := h.2.1.trans (advance_corbWp c m).symm
    have hstore := hinv.store h.1.advance verb
    rw [← hwp, ← hnext'] at hstore
    refine ⟨hwp, ?_, _, hstore⟩
    rw [stored_append, hstored]
    rfl
  · refine triple_outw (fun m log h => ?_) fun m log h => ?_
    · obtain ⟨-, hstored, xs, hinv⟩ := h
      exact ⟨⟨xs, 1, by rwa [hstored]⟩, by rwa [hstored]⟩
    · obtain ⟨hwp, hstored, xs, hinv⟩ := h
      obtain ⟨ys, hys⟩ := hinv.advance
      have htell := hys.tell
      rw [advance_corbWp, ← hwp, ← hnext'] at htell
      refine ⟨?_, ys, htell⟩
      rw [stored_append, hstored]
      exact List.append_nil _

theorem triple_corbWrites (hsize : 2 ≤ c.corbSize) (hsize' : c.corbSize ≤ 2 ^ 8) (hd : d.corbEntries = c.corbSize)
    (verbs : List ℕ) (hall : vs ++ verbs <+: all) :
    Triple c.respond (Written c vs) (verbs.forM (corbWrite d)) (fun _ => Written c (vs ++ verbs)) (Ordered c all) := by
  induction verbs generalizing vs with
  | nil =>
    rw [List.append_nil]
    exact .pure fun m log h => h
  | cons verb verbs ih =>
    have hfirst : vs ++ [verb] <+: all := (List.prefix_append_right_inj vs).mpr (by simp) |>.trans hall
    show Triple _ _ (corbWrite d verb >>= fun _ => verbs.forM (corbWrite d)) _ _
    refine .bind (triple_corbWrite hsize hsize' hd verb hfirst) fun _ => ?_
    have hrest : Triple c.respond (Written c (vs ++ [verb])) (verbs.forM (corbWrite d))
        (fun _ => Written c (vs ++ [verb] ++ verbs)) (Ordered c all) := ih (by simpa using hall)
    rwa [List.append_assoc, List.singleton_append] at hrest

/-- Where the driver and the rings are after so many accesses, if the driver has not returned before. -/
def corbRun (c : Controller) (d : HdaDevice) (m : Rings) (verbs : List ℕ) (budget : ℕ) : World Access Rings :=
  ((verbs.forM (corbWrite d)) c.respond ⟨m, budget, []⟩).world

/-- Wherever the driver is interrupted, and whatever steps the controller takes then, the verbs that have been executed
are the first ones of those stored, which are the first ones of those passed to `corb_write`; and none was overwritten.
When the driver has returned, all of them have been stored. -/
theorem corbWrites_ordered (c : Controller) (d : HdaDevice) (m : Rings) (verbs : List ℕ) (budget n : ℕ)
    (hsize : 2 ≤ c.corbSize) (hsize' : c.corbSize ≤ 2 ^ 8) (hd : d.corbEntries = c.corbSize) (hstart : m.Start c) :
    (c.steps n (corbRun c d m verbs budget).env).executed <+: stored (corbRun c d m verbs budget).log ∧
      stored (corbRun c d m verbs budget).log <+: verbs ∧
      (c.steps n (corbRun c d m verbs budget).env).lost = [] ∧
      (((verbs.forM (corbWrite d)) c.respond ⟨m, budget, []⟩).result.isSome →
        stored (corbRun c d m verbs budget).log = verbs) := by
  have hordered {m : Rings} {log : List Access} (h : Ordered c verbs m log) :
      (c.steps n m).executed <+: stored log ∧ stored log <+: verbs ∧ (c.steps n m).lost = [] := by
    obtain ⟨⟨xs, hidden, hinv⟩, hverbs⟩ := h
    obtain ⟨ys, hys⟩ := hinv.steps n
    exact ⟨⟨ys, hys.executed⟩, hverbs, hys.lost⟩
  have hwritten : Written c [] m [] := ⟨rfl, [], .start hstart⟩
  have hsat := triple_corbWrites hsize hsize' hd verbs List.prefix_rfl ⟨m, budget, []⟩ hwritten
  unfold corbRun
  cases hrun : (verbs.forM (corbWrite d)) c.respond ⟨m, budget, []⟩ with
  | done a w =>
    rw [hrun] at hsat
    obtain ⟨hexecuted, hstored, hlost⟩ := hordered (Written.ordered hsat List.prefix_rfl)
    exact ⟨hexecuted, hstored, hlost, fun _ => hsat.1⟩
  | paused w =>
    rw [hrun] at hsat
    obtain ⟨hexecuted, hstored, hlost⟩ := hordered hsat
    exact ⟨hexecuted, hstored, hlost, nofun⟩
  | fault e w =>
    rw [hrun] at hsat
    obtain ⟨hexecuted, hstored, hlost⟩ := hordered hsat
    exact ⟨hexecuted, hstored, hlost, nofun⟩

/-- Two slots, and a controller that takes a step before every other access. -/
def twoSlots : Controller where
  corbSize := 2
  rirbSize := 2
  answer executed := (executed.length + 100, 7)
  schedule now := now % 2

def emptyRings : Rings where
  corb _ := 0
  corbRp := 1
  corbWp := 1
  rirb _ := 0
  rirbWp := 0
  phase := .idle
  executed := []
  pending _ := false
  lost := []
  now := 0

theorem emptyRings_start : emptyRings.Start twoSlots := ⟨by decide, rfl, rfl, rfl, rfl, rfl⟩

/-- After seven accesses one verb has been executed and another one stored, and after twenty the driver has returned. -/
theorem twoSlots_ordered :
    let early := corbRun twoSlots ⟨none, 2, 2, 0⟩ emptyRings [5, 6, 7] 7
    stored early.log = [5, 6] ∧ (twoSlots.steps 3 early.env).executed <+: [5, 6] ∧ [5, 6] <+: [5, 6, 7] ∧
      (twoSlots.steps 3 early.env).lost = [] ∧
      stored (corbRun twoSlots ⟨none, 2, 2, 0⟩ emptyRings [5, 6, 7] 20).log = [5, 6, 7] := by
  have hall (budget : ℕ) := corbWrites_ordered twoSlots ⟨none, 2, 2, 0⟩ emptyRings [5, 6, 7] budget 3 (by decide)
    (by decide) rfl emptyRings_start
  have hearly : stored (corbRun twoSlots ⟨none, 2, 2, 0⟩ emptyRings [5, 6, 7] 7).log = [5, 6] := by decide
  obtain ⟨hexecuted, hstored, hlost, -⟩ := hall 7
  rw [hearly] at hexecuted hstored
  exact ⟨hearly, hexecuted, hstored, hlost, (hall 20).2.2.2 (by decide)⟩

end AudioKernel.Audio
