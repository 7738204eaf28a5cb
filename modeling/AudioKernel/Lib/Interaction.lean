import Mathlib.Tactic.SplitIfs
import Mathlib.Data.Nat.Notation
import Mathlib.Data.List.Infix

/-! Programs that make accesses to what surrounds them, and rules for what holds at every access and in the end. -/
namespace AudioKernel.Lib

/-- What a program runs in: the state of what answers it, how many accesses it may still make, and those so far. -/
structure World (A E : Type) where
  env : E
  budget : ℕ
  log : List A

/-- A program returns, or is interrupted when it has made as many accesses as it may, or stops for good. -/
inductive Outcome (W ε α : Type)
  | done (a : α) (w : W)
  | paused (w : W)
  | fault (e : ε) (w : W)

def Outcome.world {W ε α : Type} : Outcome W ε α → W
  | done _ w => w
  | paused w => w
  | fault _ w => w

def Outcome.result {W ε α : Type} : Outcome W ε α → Option α
  | done a _ => some a
  | _ => none

/-- A program that makes accesses `A` to what answers them. -/
def Interact (A E ε α : Type) : Type := (E → A → ℕ × E) → World A E → Outcome (World A E) ε α

namespace Interact

variable {A E ε α β : Type}

def andThen (x : Interact A E ε α) (f : α → Interact A E ε β) : Interact A E ε β := fun respond w =>
  match x respond w with
  | .done a w => f a respond w
  | .paused w => .paused w
  | .fault e w => .fault e w

instance : Monad (Interact A E ε) where
  pure a := fun _ w => .done a w
  bind := andThen

def access (a : A) : Interact A E ε ℕ := fun respond w =>
  match w.budget with
  | 0 => .paused w
  | budget + 1 => .done (respond w.env a).1 ⟨(respond w.env a).2, budget, w.log ++ [a]⟩

/-- A load from memory, which is answered but neither counted nor recorded. -/
def load (a : A) : Interact A E ε ℕ := fun respond w => .done (respond w.env a).1 ⟨(respond w.env a).2, w.budget, w.log⟩

def stop (e : ε) : Interact A E ε α := fun _ w => .fault e w

def doWhile (x : Interact A E ε α) (again : α → Bool) : ℕ → Interact A E ε α
  | 0 => fun _ w => .paused w
  | fuel + 1 => do
    let a ← x
    if again a then doWhile x again fuel else pure a

/-- A loop that makes an access in every turn, so that there are no more turns than accesses. -/
def poll (x : Interact A E ε α) (again : α → Bool) : Interact A E ε α := fun respond w =>
  doWhile x again (w.budget + 1) respond w

variable {respond : E → A → ℕ × E} {x : Interact A E ε α} {f : α → Interact A E ε β} {w w' : World A E} {a : α}

theorem bind_done (h : x respond w = .done a w') : (x >>= f) respond w = f a respond w' := by
  show andThen x f respond w = _
  rw [andThen, h]

theorem bind_paused (h : x respond w = .paused w') : (x >>= f) respond w = .paused w' := by
  show andThen x f respond w = _
  rw [andThen, h]

theorem bind_fault {e : ε} (h : x respond w = .fault e w') : (x >>= f) respond w = .fault e w' := by
  show andThen x f respond w = _
  rw [andThen, h]

theorem bind_eq_done {b : β} (h : (x >>= f) respond w = .done b w') :
    ∃ a v, x respond w = .done a v ∧ f a respond v = .done b w' := by
  change andThen x f respond w = _ at h
  unfold andThen at h
  cases hx : x respond w with
  | done a v =>
    rw [hx] at h
    exact ⟨a, v, rfl, h⟩
  | paused v =>
    rw [hx] at h
    cases h
  | fault e v =>
    rw [hx] at h
    cases h

theorem bind_assoc' {γ : Type} (x : Interact A E ε α) (f : α → Interact A E ε β) (g : β → Interact A E ε γ) :
    (x >>= f) >>= g = x >>= fun a => f a >>= g := by
  funext respond w
  show andThen (andThen x f) g respond w = andThen x (fun a => andThen (f a) g) respond w
  simp only [andThen]
  cases x respond w <;> rfl

instance : LawfulMonad (Interact A E ε) := LawfulMonad.mk' _
  (by
    intro α x
    funext respond w
    show andThen x (fun a => pure a) respond w = x respond w
    unfold andThen
    cases x respond w <;> rfl)
  (fun _ _ => rfl)
  bind_assoc'

/-- What holds of the surroundings and the accesses so far: `Q` if the program returns, `R` if it does not. -/
def Outcome.Sat (o : Outcome (World A E) ε α) (Q : α → E → List A → Prop) (R : E → List A → Prop) : Prop :=
  match o with
  | .done a w => Q a w.env w.log
  | .paused w => R w.env w.log
  | .fault _ w => R w.env w.log

/-- From `P` the program comes to `Q`, and wherever it is interrupted `R` holds. -/
def Triple (respond : E → A → ℕ × E) (P : E → List A → Prop) (x : Interact A E ε α) (Q : α → E → List A → Prop)
    (R : E → List A → Prop) : Prop :=
  ∀ w, P w.env w.log → Outcome.Sat (x respond w) Q R

section Triples

variable {P P' I R : E → List A → Prop} {Q Q' : α → E → List A → Prop} {S : β → E → List A → Prop}

theorem Triple.pure (h : ∀ e log, P e log → Q a e log) : Triple respond P (pure a : Interact A E ε α) Q R :=
  fun w hw => h w.env w.log hw

theorem Triple.stop (e : ε) (h : ∀ e log, P e log → R e log) : Triple respond P (stop e : Interact A E ε α) Q R :=
  fun w hw => h w.env w.log hw

theorem Triple.bind (hx : Triple respond P x Q R) (hf : ∀ a, Triple respond (Q a) (f a) S R) :
    Triple respond P (x >>= f) S R := by
  intro w hw
  have hsat := hx w hw
  show Outcome.Sat (andThen x f respond w) S R
  unfold andThen
  cases h : x respond w with
  | done a v =>
    rw [h] at hsat
    exact hf a v hsat
  | paused v =>
    rw [h] at hsat
    exact hsat
  | fault e v =>
    rw [h] at hsat
    exact hsat

theorem Triple.weaken (hx : Triple respond P' x Q' R) (hP : ∀ e log, P e log → P' e log)
    (hQ : ∀ a e log, Q' a e log → Q a e log) : Triple respond P x Q R := by
  intro w hw
  have hsat := hx w (hP _ _ hw)
  cases h : x respond w with
  | done a v =>
    rw [h] at hsat
    exact hQ _ _ _ hsat
  | paused v =>
    rw [h] at hsat
    exact hsat
  | fault e v =>
    rw [h] at hsat
    exact hsat

theorem Triple.interrupted {R' : E → List A → Prop} (hx : Triple respond P x Q R) (hR : ∀ e log, R e log → R' e log) :
    Triple respond P x Q R' := by
  intro w hw
  have hsat := hx w hw
  cases h : x respond w with
  | done a v =>
    rw [h] at hsat
    exact hsat
  | paused v =>
    rw [h] at hsat
    exact hR _ _ hsat
  | fault e v =>
    rw [h] at hsat
    exact hR _ _ hsat

theorem Triple.access {Q : ℕ → E → List A → Prop} {a : A} (hR : ∀ e log, P e log → R e log)
    (hQ : ∀ e log, P e log → Q (respond e a).1 (respond e a).2 (log ++ [a])) :
    Triple respond P (access a : Interact A E ε ℕ) Q R := by
  intro w hw
  obtain ⟨e, budget, log⟩ := w
  cases budget with
  | zero => exact hR e log hw
  | succ budget => exact hQ e log hw

theorem Triple.load {Q : ℕ → E → List A → Prop} {a : A} (hQ : ∀ e log, P e log → Q (respond e a).1 (respond e a).2 log) :
    Triple respond P (load a : Interact A E ε ℕ) Q R :=
  fun w hw => hQ w.env w.log hw

/-- The invariant rule for a loop. -/
theorem Triple.poll {again : α → Bool} (hR : ∀ e log, I e log → R e log)
    (hagain : Triple respond I x (fun a e log => if again a then I e log else Q a e log) R) :
    Triple respond I (poll x again) Q R := by
  have hloop (fuel : ℕ) : Triple respond I (doWhile x again fuel) Q R := by
    induction fuel with
    | zero => exact fun w hw => hR w.env w.log hw
    | succ fuel ih =>
      refine Triple.bind hagain fun a => ?_
      cases h : again a with
      | true =>
        rw [if_pos rfl]
        exact ih.weaken (fun e log h => by simpa using h) fun _ _ _ h => h
      | false =>
        rw [if_neg Bool.false_ne_true]
        exact Triple.pure fun e log h => by simpa using h
  exact fun w hw => hloop (w.budget + 1) w hw

theorem Triple.and {R' : E → List A → Prop} (hx : Triple respond P x Q R) (hx' : Triple respond P' x Q' R') :
    Triple respond (fun e log => P e log ∧ P' e log) x (fun a e log => Q a e log ∧ Q' a e log)
      fun e log => R e log ∧ R' e log := by
  intro w hw
  have hsat := hx w hw.1
  have hsat' := hx' w hw.2
  cases h : x respond w <;>
  · rw [h] at hsat hsat'
    exact ⟨hsat, hsat'⟩

end Triples

def Keeps (x : Interact A E ε α) : Prop :=
  ∀ (respond : E → A → ℕ × E) (J : E → Prop), (∀ e a, J e → J (respond e a).2) →
    Triple respond (fun e _ => J e) x (fun _ e _ => J e) fun e _ => J e

theorem Keeps.pure (a : α) : Keeps (pure a : Interact A E ε α) := fun _ _ _ => .pure fun _ _ h => h

theorem Keeps.stop (e : ε) : Keeps (stop e : Interact A E ε α) := fun _ _ _ => .stop e fun _ _ h => h

theorem Keeps.access (a : A) : Keeps (access a : Interact A E ε ℕ) :=
  fun _ _ hJ => .access (fun _ _ h => h) fun e _ h => hJ e a h

theorem Keeps.load (a : A) : Keeps (load a : Interact A E ε ℕ) := fun _ _ hJ => .load fun e _ h => hJ e a h

theorem Keeps.bind (hx : Keeps x) (hf : ∀ a, Keeps (f a)) : Keeps (x >>= f) :=
  fun respond J hJ => .bind (hx respond J hJ) fun a => hf a respond J hJ

theorem Keeps.poll (hx : Keeps x) (again : α → Bool) : Keeps (poll x again) :=
  fun respond J hJ => .poll (fun _ _ h => h) ((hx respond J hJ).weaken (fun _ _ h => h) fun a e log h => by simpa using h)

/-- The program does not forget what it has accessed. -/
def Grows (x : Interact A E ε α) : Prop :=
  ∀ (respond : E → A → ℕ × E) (first : List A),
    Triple respond (fun _ log => first <+: log) x (fun _ _ log => first <+: log) fun _ log => first <+: log

theorem Grows.pure (a : α) : Grows (pure a : Interact A E ε α) := fun _ _ => .pure fun _ _ h => h

theorem Grows.stop (e : ε) : Grows (stop e : Interact A E ε α) := fun _ _ => .stop e fun _ _ h => h

theorem Grows.access (a : A) : Grows (access a : Interact A E ε ℕ) :=
  fun _ _ => .access (fun _ _ h => h) fun _ _ h => h.trans (List.prefix_append _ _)

theorem Grows.load (a : A) : Grows (load a : Interact A E ε ℕ) := fun _ _ => .load fun _ _ h => h

theorem Grows.bind (hx : Grows x) (hf : ∀ a, Grows (f a)) : Grows (x >>= f) :=
  fun respond first => .bind (hx respond first) fun a => hf a respond first

theorem Grows.poll (hx : Grows x) (again : α → Bool) : Grows (poll x again) :=
  fun respond first => .poll (fun _ _ h => h) ((hx respond first).weaken (fun _ _ h => h) fun a e log h => by simpa using h)

theorem Grows.world_log (hx : Grows x) (respond : E → A → ℕ × E) (w : World A E) :
    w.log <+: (x respond w).world.log := by
  have hsat := hx respond w.log w List.prefix_rfl
  cases h : x respond w <;>
  · rw [h] at hsat
    exact hsat

/-- The program does not stop for good, and what it returns is as `Q` says. -/
def Safe (x : Interact A E ε α) (Q : α → Prop) : Prop :=
  ∀ respond w, match x respond w with
    | .done a _ => Q a
    | .paused _ => True
    | .fault _ _ => False

section Safety

variable {Q : α → Prop} {S : β → Prop}

theorem Safe.pure (h : Q a) : Safe (pure a : Interact A E ε α) Q := fun _ _ => h

theorem Safe.access (a : A) : Safe (access a : Interact A E ε ℕ) fun _ => True := by
  intro respond w
  obtain ⟨e, budget, log⟩ := w
  cases budget <;> trivial

theorem Safe.load (a : A) : Safe (load a : Interact A E ε ℕ) fun _ => True := fun _ _ => trivial

theorem Safe.bind (hx : Safe x Q) (hf : ∀ a, Q a → Safe (f a) S) : Safe (x >>= f) S := by
  intro respond w
  have hfirst := hx respond w
  cases h : x respond w with
  | done a v =>
    rw [h] at hfirst
    rw [bind_done h]
    exact hf a hfirst respond v
  | paused v =>
    rw [bind_paused h]
    trivial
  | fault e v =>
    rw [h] at hfirst
    exact hfirst.elim

theorem Safe.poll (hx : Safe x Q) (again : α → Bool) : Safe (poll x again) Q := by
  have hloop (fuel : ℕ) : Safe (doWhile x again fuel) Q := by
    induction fuel with
    | zero => exact fun _ _ => trivial
    | succ fuel ih =>
      refine .bind hx fun a ha => ?_
      split_ifs
      · exact ih
      · exact .pure ha
  exact fun respond w => hloop (w.budget + 1) respond w

theorem Safe.not_fault (hx : Safe x Q) (e : ε) (w' : World A E) : x respond w ≠ .fault e w' := by
  intro h
  have hsafe := hx respond w
  rw [h] at hsafe
  exact hsafe

end Safety

/-- A program that returns would return the same with more accesses to make, and would have that many more left. -/
def Steady (x : Interact A E ε α) : Prop :=
  ∀ respond e b log a w, x respond ⟨e, b, log⟩ = .done a w →
    ∃ n, b = n + w.budget ∧ ∀ c, x respond ⟨e, n + c, log⟩ = .done a ⟨w.env, c, w.log⟩

/-- A program that makes an access before it returns. -/
def Costs (x : Interact A E ε α) : Prop := ∀ respond w a w', x respond w = .done a w' → w'.budget < w.budget

theorem Steady.pure (a : α) : Steady (pure a : Interact A E ε α) := by
  intro respond e b log a' w h
  cases h
  exact ⟨0, (Nat.zero_add b).symm, fun c => by rw [Nat.zero_add]; rfl⟩

theorem Steady.stop (e : ε) : Steady (stop e : Interact A E ε α) :=
  fun _ _ _ _ _ _ h => nomatch h

theorem Steady.access (a : A) : Steady (access a : Interact A E ε ℕ) := by
  intro respond e b log v w h
  cases b with
  | zero => cases h
  | succ b =>
    cases h
    exact ⟨1, Nat.add_comm b 1, fun c => by rw [Nat.add_comm]; rfl⟩

theorem Steady.load (a : A) : Steady (load a : Interact A E ε ℕ) := by
  intro respond e b log v w h
  cases h
  exact ⟨0, (Nat.zero_add b).symm, fun c => by rw [Nat.zero_add]; rfl⟩

theorem Steady.bind (hx : Steady x) (hf : ∀ a, Steady (f a)) : Steady (x >>= f) := by
  intro respond e b log a w h
  obtain ⟨a', v, hfirst, hrest⟩ := bind_eq_done h
  obtain ⟨n, rfl, hn⟩ := hx respond e b log a' v hfirst
  obtain ⟨m, hm, hmore⟩ := hf a' respond v.env v.budget v.log a w hrest
  refine ⟨n + m, by rw [hm, Nat.add_assoc], fun c => ?_⟩
  rw [Nat.add_assoc, bind_done (hn (m + c))]
  exact hmore c

theorem Costs.access (a : A) : Costs (access a : Interact A E ε ℕ) := by
  intro respond w v w' h
  obtain ⟨e, budget, log⟩ := w
  cases budget with
  | zero => cases h
  | succ budget =>
    cases h
    exact Nat.lt_succ_self budget

theorem Costs.bind (hx : Costs x) (hf : ∀ a, Steady (f a)) : Costs (x >>= f) := by
  intro respond w a w' h
  obtain ⟨a', v, hfirst, hrest⟩ := bind_eq_done h
  obtain ⟨m, hm, -⟩ := hf a' respond v.env v.budget v.log a w' hrest
  have hlt := hx respond w a' v hfirst
  omega

/-- There are turns enough. -/
theorem doWhile_fuel (hcosts : Costs x) (again : α → Bool) {fuel : ℕ} (hfuel : w.budget < fuel) :
    doWhile x again fuel respond w = poll x again respond w := by
  have hsame (m k : ℕ) (w : World A E) (hm : w.budget < m) (hk : w.budget < k) :
      doWhile x again m respond w = doWhile x again k respond w := by
    induction m generalizing k w with
    | zero => exact absurd hm (Nat.not_lt_zero _)
    | succ m ih =>
      obtain ⟨k, rfl⟩ : ∃ j, k = j + 1 := ⟨k - 1, by omega⟩
      show andThen x _ respond w = andThen x _ respond w
      unfold andThen
      cases hx : x respond w with
      | done a v =>
        have hlt := hcosts respond w a v hx
        show (if again a then doWhile x again m else pure a) respond v =
          (if again a then doWhile x again k else pure a) respond v
        split_ifs
        · exact ih k v (by omega) (by omega)
        · rfl
      | paused v => rfl
      | fault e v => rfl
  exact hsame fuel (w.budget + 1) w hfuel (Nat.lt_succ_self _)

theorem poll_eq (hcosts : Costs x) (again : α → Bool) :
    poll x again = x >>= fun a => if again a then poll x again else pure a := by
  funext respond w
  show andThen x _ respond w = andThen x _ respond w
  unfold andThen
  cases hx : x respond w with
  | done a v =>
    have hlt := hcosts respond w a v hx
    show (if again a then doWhile x again w.budget else pure a) respond v =
      (if again a then poll x again else pure a) respond v
    split_ifs
    · exact doWhile_fuel hcosts again hlt
    · rfl
  | paused v => rfl
  | fault e v => rfl

theorem Steady.poll (hsteady : Steady x) (hcosts : Costs x) (again : α → Bool) : Steady (poll x again) := by
  intro respond e b
  induction b using Nat.strongRecOn generalizing e with
  | ind b ih =>
    intro log a w h
    rw [poll_eq hcosts] at h
    obtain ⟨a', v, hfirst, hrest⟩ := bind_eq_done h
    have hlt := hcosts respond _ a' v hfirst
    obtain ⟨n, rfl, hn⟩ := hsteady respond e b log a' v hfirst
    cases hturn : again a' with
    | true =>
      rw [hturn, if_pos rfl] at hrest
      obtain ⟨m, hm, hmore⟩ := ih v.budget hlt v.env v.log a w hrest
      refine ⟨n + m, by rw [hm, Nat.add_assoc], fun c => ?_⟩
      rw [Nat.add_assoc, poll_eq hcosts, bind_done (hn (m + c)), hturn, if_pos rfl]
      exact hmore c
    | false =>
      rw [hturn, if_neg Bool.false_ne_true] at hrest
      cases hrest
      refine ⟨n, rfl, fun c => ?_⟩
      rw [poll_eq hcosts, bind_done (hn c), hturn, if_neg Bool.false_ne_true]
      rfl

/-- The program is made of accesses, loads, and loops that make an access in every turn. -/
inductive Built : {α : Type} → Interact A E ε α → Prop
  | pure {α : Type} (a : α) : Built (pure a)
  | stop {α : Type} (e : ε) : Built (stop e : Interact A E ε α)
  | access (a : A) : Built (access a)
  | load (a : A) : Built (load a)
  | bind {α β : Type} {x : Interact A E ε α} {f : α → Interact A E ε β} : Built x → (∀ a, Built (f a)) → Built (x >>= f)
  | poll {α : Type} {x : Interact A E ε α} (again : α → Bool) : Built x → Costs x → Built (poll x again)

theorem Built.ite {y : Interact A E ε α} (c : Prop) [Decidable c] (hx : Built x) (hy : Built y) :
    Built (if c then x else y) := by
  split_ifs
  · exact hx
  · exact hy

theorem Built.foldlM {γ : Type} {g : β → γ → Interact A E ε β} (hg : ∀ b c, Built (g b c)) (cs : List γ) (b : β) :
    Built (cs.foldlM g b) := by
  induction cs generalizing b with
  | nil => exact .pure b
  | cons c cs ih => exact .bind (hg b c) ih

theorem Built.grows (hx : Built x) : Grows x := by
  induction hx with
  | pure a => exact .pure a
  | stop e => exact .stop e
  | access a => exact .access a
  | load a => exact .load a
  | bind _ _ ihx ihf => exact .bind ihx ihf
  | poll again _ _ ih => exact .poll ih again

theorem Built.steady (hx : Built x) : Steady x := by
  induction hx with
  | pure a => exact .pure a
  | stop e => exact .stop e
  | access a => exact .access a
  | load a => exact .load a
  | bind _ _ ihx ihf => exact .bind ihx ihf
  | poll again _ hcosts ih => exact .poll ih hcosts again

theorem Built.keeps (hx : Built x) : Keeps x := by
  induction hx with
  | pure a => exact .pure a
  | stop e => exact .stop e
  | access a => exact .access a
  | load a => exact .load a
  | bind _ _ ihx ihf => exact .bind ihx ihf
  | poll again _ _ ih => exact .poll ih again

def Completes (respond : E → A → ℕ × E) (x : Interact A E ε α) (e : E) (log : List A) (a : α) (e' : E)
    (log' : List A) : Prop :=
  ∃ n, ∀ c, x respond ⟨e, n + c, log⟩ = .done a ⟨e', c, log'⟩

section Completion

variable {e e' e'' : E} {log log' log'' : List A} {b : β}

theorem Completes.pure (a : α) (e : E) (log : List A) : Completes respond (pure a : Interact A E ε α) e log a e log :=
  ⟨0, fun c => by rw [Nat.zero_add]; rfl⟩

theorem Completes.access (a : A) (e : E) (log : List A) :
    Completes respond (access a : Interact A E ε ℕ) e log (respond e a).1 (respond e a).2 (log ++ [a]) :=
  ⟨1, fun c => by rw [Nat.add_comm]; rfl⟩

theorem Completes.load (a : A) (e : E) (log : List A) :
    Completes respond (load a : Interact A E ε ℕ) e log (respond e a).1 (respond e a).2 log :=
  ⟨0, fun c => by rw [Nat.zero_add]; rfl⟩

theorem Completes.bind (hx : Completes respond x e log a e' log') (hf : Completes respond (f a) e' log' b e'' log'') :
    Completes respond (x >>= f) e log b e'' log'' := by
  obtain ⟨n, hn⟩ := hx
  obtain ⟨m, hm⟩ := hf
  refine ⟨n + m, fun c => ?_⟩
  rw [Nat.add_assoc, bind_done (hn (m + c))]
  exact hm c

theorem Completes.poll_again {again : α → Bool} (hcosts : Costs x) (hx : Completes respond x e log a e' log')
    (hturn : again a = true) {a' : α} (hrest : Completes respond (poll x again) e' log' a' e'' log'') :
    Completes respond (poll x again) e log a' e'' log'' := by
  rw [poll_eq hcosts]
  refine hx.bind ?_
  rw [hturn, if_pos rfl]
  exact hrest

theorem Completes.poll_last {again : α → Bool} (hcosts : Costs x) (hx : Completes respond x e log a e' log')
    (hturn : again a = false) : Completes respond (poll x again) e log a e' log' := by
  rw [poll_eq hcosts]
  refine hx.bind ?_
  rw [hturn, if_neg Bool.false_ne_true]
  exact .pure a e' log'

theorem Steady.completes (hx : Steady x) {budget : ℕ} (h : x respond ⟨e, budget, log⟩ = .done a w) :
    Completes respond x e log a w.env w.log := by
  obtain ⟨n, -, hn⟩ := hx respond e budget log a w h
  exact ⟨n, hn⟩

theorem Triple.completes {P : E → List A → Prop} {Q : α → E → List A → Prop} {R : E → List A → Prop}
    (h : Triple respond P x Q R) (hP : P e log) (hx : Completes respond x e log a e' log') : Q a e' log' := by
  obtain ⟨n, hn⟩ := hx
  have hsat := h ⟨e, n + 0, log⟩ hP
  rw [hn 0] at hsat
  exact hsat

def Returns (respond : E → A → ℕ × E) (x : Interact A E ε α) (e : E) (log : List A) : Prop :=
  ∃ a e' log', Completes respond x e log a e' log'

theorem Returns.bind (hx : Returns respond x e log)
    (hf : ∀ a e' log', Completes respond x e log a e' log' → Returns respond (f a) e' log') :
    Returns respond (x >>= f) e log := by
  obtain ⟨a, e', log', hfirst⟩ := hx
  obtain ⟨b, e'', log'', hrest⟩ := hf a e' log' hfirst
  exact ⟨b, e'', log'', hfirst.bind hrest⟩

theorem Completes.returns_bind (hx : Completes respond x e log a e' log') (hf : Returns respond (f a) e' log') :
    Returns respond (x >>= f) e log := by
  obtain ⟨b, e'', log'', hrest⟩ := hf
  exact ⟨b, e'', log'', hx.bind hrest⟩

/-- A loop is left in the end if every turn that does not leave it goes down. -/
theorem Returns.poll {again : α → Bool} {I : E → List A → Prop} {lt : E → E → Prop} (hwf : WellFounded lt)
    (hcosts : Costs x) (hturn : ∀ e log, I e log → ∃ a e' log', Completes respond x e log a e' log' ∧
      (again a = true → I e' log' ∧ lt e' e)) (hI : I e log) : Returns respond (poll x again) e log := by
  induction e using hwf.induction generalizing log with
  | h e ih =>
    obtain ⟨a, e', log', hfirst, hdown⟩ := hturn e log hI
    cases hagain : again a with
    | true =>
      obtain ⟨hI', hlt⟩ := hdown hagain
      obtain ⟨b, e'', log'', hrest⟩ := ih e' hlt hI'
      exact ⟨b, e'', log'', .poll_again hcosts hfirst hagain hrest⟩
    | false => exact ⟨a, e', log', .poll_last hcosts hfirst hagain⟩

/-- A program that returns does so with one result, in one state of what surrounds it, and after the same accesses. -/
theorem Completes.unique {a' : α} (h : Completes respond x e log a e' log') (h' : Completes respond x e log a' e'' log'') :
    a = a' ∧ e' = e'' ∧ log' = log'' := by
  obtain ⟨n, hn⟩ := h
  obtain ⟨m, hm⟩ := h'
  have hsame := hn m
  rw [Nat.add_comm, hm n] at hsame
  injection hsame with hresult hworld
  injection hworld with henv hbudget hlog
  exact ⟨hresult.symm, henv.symm, hlog.symm⟩

/-- The program returns in the end, with a result, in surroundings and with accesses as `Q` says. -/
def Attains (respond : E → A → ℕ × E) (x : Interact A E ε α) (e : E) (log : List A) (Q : α → E → List A → Prop) : Prop :=
  ∃ a e' log', Completes respond x e log a e' log' ∧ Q a e' log'

variable {Q Q' : α → E → List A → Prop} {S : β → E → List A → Prop}

theorem Attains.pure (h : Q a e log) : Attains respond (pure a : Interact A E ε α) e log Q := ⟨a, e, log, .pure a e log, h⟩

theorem Attains.bind (hx : Attains respond x e log Q) (hf : ∀ a e' log', Q a e' log' → Attains respond (f a) e' log' S) :
    Attains respond (x >>= f) e log S := by
  obtain ⟨a, e', log', hfirst, hQ⟩ := hx
  obtain ⟨b, e'', log'', hrest, hS⟩ := hf a e' log' hQ
  exact ⟨b, e'', log'', hfirst.bind hrest, hS⟩

theorem Completes.attains_bind (hx : Completes respond x e log a e' log') (hf : Attains respond (f a) e' log' S) :
    Attains respond (x >>= f) e log S := by
  obtain ⟨b, e'', log'', hrest, hS⟩ := hf
  exact ⟨b, e'', log'', hx.bind hrest, hS⟩

theorem Attains.weaken (hx : Attains respond x e log Q) (h : ∀ a e' log', Q a e' log' → Q' a e' log') :
    Attains respond x e log Q' := by
  obtain ⟨a, e', log', hfirst, hQ⟩ := hx
  exact ⟨a, e', log', hfirst, h a e' log' hQ⟩

/-- What the program attains it attains together with anything that holds of its results. -/
theorem Attains.and (hx : Attains respond x e log Q) (hx' : Attains respond x e log Q') :
    Attains respond x e log fun a e' log' => Q a e' log' ∧ Q' a e' log' := by
  obtain ⟨a, e', log', hfirst, hQ⟩ := hx
  obtain ⟨a', e'', log'', hfirst', hQ'⟩ := hx'
  obtain ⟨rfl, rfl, rfl⟩ := hfirst.unique hfirst'
  exact ⟨a, e', log', hfirst, hQ, hQ'⟩

/-- The rule for a loop over a list, with an invariant about what is done. -/
theorem Attains.foldlM {γ : Type} {g : β → γ → Interact A E ε β} {I : List γ → β → E → List A → Prop}
    (hstep : ∀ done c b e log, I done b e log → Attains respond (g b c) e log (I (done ++ [c]))) (cs done : List γ)
    (hI : I done b e log) : Attains respond (cs.foldlM g b) e log (I (done ++ cs)) := by
  induction cs generalizing done b e log with
  | nil =>
    rw [List.append_nil]
    exact .pure hI
  | cons c cs ih =>
    refine (hstep done c b e log hI).bind fun b' e' log' hI' => ?_
    have hrest : Attains respond (cs.foldlM g b') e' log' (I (done ++ [c] ++ cs)) := ih (done ++ [c]) hI'
    rwa [List.append_assoc] at hrest

end Completion
end Interact
end AudioKernel.Lib
