import UntypedLambda.Proofs.Beta

namespace UntypedLambda

variable {ν : Type}

namespace Term

def Mentions : Term ν → ν → Prop
  | var y, x => x = y
  | app t s, x => t.Mentions x ∨ s.Mentions x
  | lam y b, x => x = y ∨ b.Mentions x

def IsFree : Term ν → ν → Prop
  | var y, x => x = y
  | app t s, x => t.IsFree x ∨ s.IsFree x
  | lam y b, x => x ≠ y ∧ b.IsFree x

def parameters : Term ν → List ν
  | var _ => []
  | app t s => t.parameters ++ s.parameters
  | lam p b => p :: b.parameters

def occurrences : Term ν → Nat
  | var _ => 1
  | app t s => t.occurrences + s.occurrences
  | lam _ b => b.occurrences

def IsLam : Term ν → Prop
  | var _ => False
  | app _ _ => False
  | lam _ _ => True

def IsNormal : Term ν → Prop
  | var _ => True
  | app t s => t.IsNormal ∧ ¬ t.IsLam ∧ s.IsNormal
  | lam _ b => b.IsNormal

end Term

def Binder.below (p : Binder) (σ : Binder → Nameless) (b : Binder) : Nameless :=
  if b = p then .bound 0 else (σ b).shift

def BoundTerm.replace (σ : Binder → Nameless) : BoundTerm → Nameless
  | .var b => σ b
  | .app t s => .app (replace σ t) (replace σ s)
  | .lam p b => .lam (replace (p.below σ) b)

namespace BoundTerm

theorem replace_subst (t : BoundTerm) (σ : Binder → Nameless) (τ : Nat → Nameless) :
    (t.replace σ).subst τ = t.replace fun b => (σ b).subst τ := by
  induction t generalizing σ τ with
  | var b => rfl
  | app t s iht ihs => rw [replace, replace, Nameless.subst, iht, ihs]
  | lam p t ih =>
    have h : (fun b => (p.below σ b).subst (Nameless.lift τ)) =
        p.below fun b => (σ b).subst τ := by
      funext b
      rw [Binder.below, Binder.below]
      split
      · rfl
      · exact Nameless.shift_subst (σ b) τ
    rw [replace, replace, Nameless.subst, ih, h]

theorem replace_shift (t : BoundTerm) (σ : Binder → Nameless) :
    (t.replace σ).shift = t.replace fun b => (σ b).shift := by
  rw [Nameless.shift, Nameless.rename_eq_subst, replace_subst]
  congr 1
  funext b
  rw [Nameless.shift, Nameless.rename_eq_subst]

/-- Instantiating the body of an abstraction replaces its parameter. -/
theorem replace_instantiate (t : BoundTerm) (p : Binder) (σ : Binder → Nameless) (a : Nameless) :
    (t.replace (p.below σ)).instantiate a = t.replace fun b => if b = p then a else σ b := by
  rw [Nameless.instantiate, replace_subst]
  congr 1
  funext b
  rw [Binder.below]
  split
  · rfl
  · exact Nameless.shift_instantiate (σ b) a

theorem nameless_eq_replace (t : BoundTerm) : t.nameless [] = t.replace .free := by
  have h (scope : List Binder) (t : BoundTerm) : t.nameless scope = t.replace fun b =>
      (scope.idxOf? b).elim (Nameless.free b) Nameless.bound := by
    induction t generalizing scope with
    | var b =>
      rw [nameless, replace]
      cases scope.idxOf? b <;> rfl
    | app t s iht ihs => rw [nameless, replace, iht, ihs]
    | lam p t ih =>
      rw [nameless, replace, ih]
      congr 2
      funext b
      rw [Binder.below, List.idxOf?_cons]
      by_cases hb : b = p
      · simp [hb]
      · have hne : (p == b) = false := by simpa using fun h => hb h.symm
        rw [if_neg hb, hne, if_neg Bool.false_ne_true]
        cases scope.idxOf? b <;> rfl
  exact h [] t

end BoundTerm

namespace Nameless

def IsNeutral (t : Nameless) : Prop :=
  t.IsNormal ∧ ¬ t.IsLam

theorem isLam_rename {t : Nameless} {ρ : Nat → Nat} : (t.rename ρ).IsLam ↔ t.IsLam := by
  cases t <;> simp [rename, IsLam]

theorem IsNormal.rename {t : Nameless} (h : t.IsNormal) (ρ : Nat → Nat) :
    (t.rename ρ).IsNormal := by
  induction t generalizing ρ with
  | bound i => trivial
  | free b => trivial
  | app t s iht ihs => exact ⟨iht h.1 ρ, fun hlam => h.2.1 (isLam_rename.mp hlam), ihs h.2.2 ρ⟩
  | lam t ih => exact ih h (liftIndex ρ)

theorem IsNeutral.below {σ : Binder → Nameless} (h : ∀ b, (σ b).IsNeutral) (p b : Binder) :
    (p.below σ b).IsNeutral := by
  rw [Binder.below]
  split
  · exact ⟨trivial, id⟩
  · exact ⟨(h b).1.rename _, fun hlam => (h b).2 (isLam_rename.mp hlam)⟩

end Nameless

theorem BoundTerm.isLam_of_replace {t : BoundTerm} {σ : Binder → Nameless}
    (hσ : ∀ b, (σ b).IsNeutral) (h : (t.replace σ).IsLam) : t.IsLam := by
  cases t with
  | var b => exact absurd h (hσ b).2
  | app t s => exact h
  | lam p t => trivial

/-- Replacing variables by neutral terms makes no redex. -/
theorem BoundTerm.isNormal_replace {t : BoundTerm} {σ : Binder → Nameless}
    (hσ : ∀ b, (σ b).IsNeutral) (h : t.IsNormal) : (t.replace σ).IsNormal := by
  induction t generalizing σ with
  | var b => exact (hσ b).1
  | app t s iht ihs =>
    have hlam : ¬ (replace σ t).IsLam := fun hlam => h.2.1 (isLam_of_replace hσ hlam)
    exact ⟨iht hσ h.1, hlam, ihs hσ h.2.2⟩
  | lam p t ih => exact ih (Nameless.IsNeutral.below hσ p) h

/-- Replacing variables leaves every redex that there is. -/
theorem BoundTerm.isNormal_of_replace {t : BoundTerm} {σ : Binder → Nameless}
    (h : (t.replace σ).IsNormal) : t.IsNormal := by
  induction t generalizing σ with
  | var b => trivial
  | app t s iht ihs =>
    have hlam : ¬ t.IsLam := by
      intro hlam
      cases t with
      | lam p t => exact h.2.1 trivial
      | _ => exact hlam
    exact ⟨iht h.1, hlam, ihs h.2.2⟩
  | lam p t ih => exact ih h

namespace Nameless

theorem tokens_append_inj {t u : Nameless} {rest rest' : List CanonicalToken}
    (h : t.tokens ++ rest = u.tokens ++ rest') : t = u ∧ rest = rest' := by
  induction t generalizing u rest rest' with
  | bound i =>
    cases u with
    | bound j => simpa [tokens] using h
    | _ => simp [tokens] at h
  | free b =>
    cases u with
    | free c => simpa [tokens] using h
    | _ => simp [tokens] at h
  | app t s iht ihs =>
    cases u with
    | app t' s' =>
      simp only [tokens, List.cons_append, List.append_assoc, List.cons.injEq, true_and] at h
      obtain ⟨rfl, hs⟩ := iht h
      obtain ⟨rfl, hrest⟩ := ihs hs
      exact ⟨rfl, hrest⟩
    | _ => simp [tokens] at h
  | lam t ih =>
    cases u with
    | lam t' =>
      simp only [tokens, List.cons_append, List.cons.injEq, true_and] at h
      obtain ⟨rfl, hrest⟩ := ih h
      exact ⟨rfl, hrest⟩
    | _ => simp [tokens] at h

end Nameless

theorem BoundTerm.alphaEquiv_iff {t s : BoundTerm} :
    t.alphaEquiv s = true ↔ t.nameless [] = s.nameless [] := by
  rw [alphaEquiv, beq_iff_eq, canonical_eq, canonical_eq]
  constructor
  · intro h
    have happend : (t.nameless []).tokens ++ [] = (s.nameless []).tokens ++ [] := by rw [h]
    exact (Nameless.tokens_append_inj happend).1
  · intro h
    rw [h]

end UntypedLambda
