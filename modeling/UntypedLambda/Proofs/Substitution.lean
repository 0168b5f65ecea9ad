import UntypedLambda.Canonical.Nameless

namespace UntypedLambda

namespace Nameless

def liftIndex (ρ : Nat → Nat) : Nat → Nat
  | 0 => 0
  | i + 1 => ρ i + 1

def rename (ρ : Nat → Nat) : Nameless → Nameless
  | bound i => bound (ρ i)
  | free b => free b
  | app t s => app (t.rename ρ) (s.rename ρ)
  | lam t => lam (t.rename (liftIndex ρ))

def shift (t : Nameless) : Nameless :=
  t.rename Nat.succ

def lift (σ : Nat → Nameless) : Nat → Nameless
  | 0 => bound 0
  | i + 1 => (σ i).shift

/-- Replace the variables that point outside. -/
def subst (σ : Nat → Nameless) : Nameless → Nameless
  | bound i => σ i
  | free b => free b
  | app t s => app (t.subst σ) (s.subst σ)
  | lam t => lam (t.subst (lift σ))

/-- Replace the nearest variable that points outside and bring the others one abstraction nearer. -/
def point (a : Nameless) : Nat → Nameless
  | 0 => a
  | i + 1 => bound i

def instantiate (body a : Nameless) : Nameless :=
  body.subst (point a)

theorem lift_bound : lift bound = bound := by
  funext i
  cases i <;> rfl

theorem subst_bound (t : Nameless) : t.subst bound = t := by
  induction t with
  | bound i => rfl
  | free b => rfl
  | app t s iht ihs => rw [subst, iht, ihs]
  | lam t ih => rw [subst, lift_bound, ih]

theorem rename_rename (t : Nameless) (ρ τ : Nat → Nat) :
    (t.rename ρ).rename τ = t.rename (τ ∘ ρ) := by
  induction t generalizing ρ τ with
  | bound i => rfl
  | free b => rfl
  | app t s iht ihs => rw [rename, rename, rename, iht, ihs]
  | lam t ih =>
    have h : liftIndex τ ∘ liftIndex ρ = liftIndex (τ ∘ ρ) := by
      funext i
      cases i <;> rfl
    rw [rename, rename, rename, ih, h]

theorem subst_rename (t : Nameless) (ρ : Nat → Nat) (σ : Nat → Nameless) :
    (t.rename ρ).subst σ = t.subst (σ ∘ ρ) := by
  induction t generalizing ρ σ with
  | bound i => rfl
  | free b => rfl
  | app t s iht ihs => rw [rename, subst, subst, iht, ihs]
  | lam t ih =>
    have h : lift σ ∘ liftIndex ρ = lift (σ ∘ ρ) := by
      funext i
      cases i <;> rfl
    rw [rename, subst, subst, ih, h]

theorem shift_rename (t : Nameless) (ρ : Nat → Nat) :
    t.shift.rename (liftIndex ρ) = (t.rename ρ).shift := by
  have h : liftIndex ρ ∘ Nat.succ = Nat.succ ∘ ρ := by
    funext i
    rfl
  rw [shift, shift, rename_rename, rename_rename, h]

theorem rename_subst (t : Nameless) (σ : Nat → Nameless) (ρ : Nat → Nat) :
    (t.subst σ).rename ρ = t.subst fun i => (σ i).rename ρ := by
  induction t generalizing σ ρ with
  | bound i => rfl
  | free b => rfl
  | app t s iht ihs => rw [subst, rename, subst, iht, ihs]
  | lam t ih =>
    have h : (fun i => (lift σ i).rename (liftIndex ρ)) = lift fun i => (σ i).rename ρ := by
      funext i
      cases i with
      | zero => rfl
      | succ i => exact shift_rename (σ i) ρ
    rw [subst, rename, subst, ih, h]

theorem shift_subst (t : Nameless) (σ : Nat → Nameless) :
    t.shift.subst (lift σ) = (t.subst σ).shift := by
  rw [shift, shift, subst_rename, rename_subst]
  rfl

theorem subst_subst (t : Nameless) (σ τ : Nat → Nameless) :
    (t.subst σ).subst τ = t.subst fun i => (σ i).subst τ := by
  induction t generalizing σ τ with
  | bound i => rfl
  | free b => rfl
  | app t s iht ihs => rw [subst, subst, subst, iht, ihs]
  | lam t ih =>
    have h : (fun i => (lift σ i).subst (lift τ)) = lift fun i => (σ i).subst τ := by
      funext i
      cases i with
      | zero => rfl
      | succ i => exact shift_subst (σ i) τ
    rw [subst, subst, subst, ih, h]

@[simp] theorem shift_instantiate (t a : Nameless) : t.shift.instantiate a = t := by
  have h : point a ∘ Nat.succ = bound := by
    funext i
    rfl
  rw [instantiate, shift, subst_rename, h, subst_bound]

theorem instantiate_subst (t a : Nameless) (σ : Nat → Nameless) :
    (t.instantiate a).subst σ = (t.subst (lift σ)).instantiate (a.subst σ) := by
  rw [instantiate, instantiate, subst_subst, subst_subst]
  congr 1
  funext i
  cases i with
  | zero => rfl
  | succ i => exact (shift_instantiate (σ i) (a.subst σ)).symm

theorem rename_eq_subst (t : Nameless) (ρ : Nat → Nat) :
    t.rename ρ = t.subst fun i => bound (ρ i) := by
  have h := rename_subst t bound ρ
  rw [subst_bound] at h
  rw [h]
  rfl

theorem instantiate_rename (t a : Nameless) (ρ : Nat → Nat) :
    (t.instantiate a).rename ρ = (t.rename (liftIndex ρ)).instantiate (a.rename ρ) := by
  have h : (fun i => bound (liftIndex ρ i)) = lift fun i => bound (ρ i) := by
    funext i
    cases i <;> rfl
  rw [rename_eq_subst, instantiate_subst, rename_eq_subst t, rename_eq_subst a, h]

end Nameless

end UntypedLambda
