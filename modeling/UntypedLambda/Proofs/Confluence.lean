import UntypedLambda.Proofs.Beta

/-! Contracting any set of redexes at once has the diamond property: whatever was contracted,
contracting all of them comes last. -/
namespace UntypedLambda

namespace Nameless

inductive Parallel : Nameless → Nameless → Prop where
  | bound (i : Nat) : Parallel (bound i) (bound i)
  | free (b : Binder) : Parallel (free b) (free b)
  | app {t t' s s' : Nameless} (ht : Parallel t t') (hs : Parallel s s') :
      Parallel (app t s) (app t' s')
  | lam {t t' : Nameless} (h : Parallel t t') : Parallel (lam t) (lam t')
  | contract {t t' s s' : Nameless} (ht : Parallel t t') (hs : Parallel s s') :
      Parallel (app (lam t) s) (t'.instantiate s')

def develop : Nameless → Nameless
  | bound i => bound i
  | free b => free b
  | lam t => lam t.develop
  | app (lam t) s => t.develop.instantiate s.develop
  | app t s => app t.develop s.develop

namespace Parallel

theorem refl (t : Nameless) : Parallel t t := by
  induction t with
  | bound i => exact .bound i
  | free b => exact .free b
  | app t s iht ihs => exact .app iht ihs
  | lam t ih => exact .lam ih

theorem rename {t t' : Nameless} (h : Parallel t t') (ρ : Nat → Nat) :
    Parallel (t.rename ρ) (t'.rename ρ) := by
  induction h generalizing ρ with
  | bound i => exact .bound (ρ i)
  | free b => exact .free b
  | app _ _ iht ihs => exact .app (iht ρ) (ihs ρ)
  | lam _ ih => exact .lam (ih (liftIndex ρ))
  | contract _ _ iht ihs =>
    rw [instantiate_rename]
    exact .contract (iht (liftIndex ρ)) (ihs ρ)

theorem lift {σ τ : Nat → Nameless} (h : ∀ i, Parallel (σ i) (τ i)) (i : Nat) :
    Parallel (Nameless.lift σ i) (Nameless.lift τ i) := by
  cases i with
  | zero => exact .bound 0
  | succ i => exact (h i).rename Nat.succ

theorem subst {t t' : Nameless} (h : Parallel t t') {σ τ : Nat → Nameless}
    (hσ : ∀ i, Parallel (σ i) (τ i)) : Parallel (t.subst σ) (t'.subst τ) := by
  induction h generalizing σ τ with
  | bound i => exact hσ i
  | free b => exact .free b
  | app _ _ iht ihs => exact .app (iht hσ) (ihs hσ)
  | lam _ ih => exact .lam (ih (lift hσ))
  | contract _ _ iht ihs =>
    rw [instantiate_subst]
    exact .contract (iht (lift hσ)) (ihs hσ)

theorem instantiate {t t' s s' : Nameless} (ht : Parallel t t') (hs : Parallel s s') :
    Parallel (t.instantiate s) (t'.instantiate s') := by
  apply ht.subst
  intro i
  cases i with
  | zero => exact hs
  | succ i => exact .bound i

/-- Contracting all redexes comes last. -/
theorem develop {t t' : Nameless} (h : Parallel t t') : Parallel t' t.develop := by
  induction h with
  | bound i => exact .bound i
  | free b => exact .free b
  | lam _ ih => exact .lam ih
  | contract _ _ iht ihs => exact iht.instantiate ihs
  | @app t t' s s' ht hs iht ihs =>
    cases t with
    | bound i => exact .app iht ihs
    | free b => exact .app iht ihs
    | app t₁ t₂ => exact .app iht ihs
    | lam body =>
      cases ht with
      | lam hbody =>
        cases iht with
        | lam ihbody => exact .contract ihbody ihs

theorem diamond {t u v : Nameless} (hu : Parallel t u) (hv : Parallel t v) :
    ∃ w, Parallel u w ∧ Parallel v w :=
  ⟨t.develop, hu.develop, hv.develop⟩

theorem reduces {t t' : Nameless} (h : Parallel t t') : Reduces t t' := by
  induction h with
  | bound i => exact .refl
  | free b => exact .refl
  | app _ _ iht ihs => exact iht.app ihs
  | lam _ ih => exact ih.body
  | @contract t t' s s' _ _ iht ihs =>
    have hparts : Reduces (Nameless.app (Nameless.lam t) s) (Nameless.app (Nameless.lam t') s') :=
      iht.body.app ihs
    exact hparts.tail (.contract t' s')

end Parallel

theorem Beta.parallel {t t' : Nameless} (h : Beta t t') : Parallel t t' := by
  induction h with
  | contract body a => exact .contract (.refl body) (.refl a)
  | function s _ ih => exact .app ih (.refl s)
  | argument t _ ih => exact .app (.refl t) ih
  | body _ ih => exact .lam ih

/-- Two terms that are convertible reduce to a common one. -/
theorem Convertible.join {t u : Nameless} (h : Convertible t u) :
    ∃ v, Reduces t v ∧ Reduces u v := by
  -- By the diamond property it is an equivalence to have a common parallel reduct.
  have hjoin : Equivalence (Relation.Join (Relation.ReflTransGen Parallel)) := by
    apply Relation.equivalence_join_reflTransGen
    intro t u v hu hv
    obtain ⟨w, huw, hvw⟩ := hu.diamond hv
    exact ⟨w, .single huw, .single hvw⟩
  have hcommon : Relation.Join (Relation.ReflTransGen Parallel) t u := by
    induction h with
    | rel t u hstep => exact ⟨u, .single hstep.parallel, .refl⟩
    | refl t => exact hjoin.refl t
    | symm t u _ ih => exact hjoin.symm ih
    | trans t u v _ _ ih ih' => exact hjoin.trans ih ih'
  obtain ⟨v, htv, huv⟩ := hcommon
  have hreduces : ∀ {s : Nameless}, Relation.ReflTransGen Parallel s v → Reduces s v := by
    intro s hs
    induction hs using Relation.ReflTransGen.head_induction_on with
    | refl => exact .refl
    | head hstep _ ih => exact hstep.reduces.trans ih
  exact ⟨v, hreduces htv, hreduces huv⟩

theorem Convertible.reduces {t n : Nameless} (h : Convertible t n) (hn : n.IsNormal) :
    Reduces t n := by
  obtain ⟨v, htv, hnv⟩ := h.join
  rw [hn.eq_of_reduces hnv] at htv
  exact htv

theorem Reduces.convertible {t u : Nameless} (h : Reduces t u) : Convertible t u := by
  induction h with
  | refl => exact .refl t
  | tail _ hstep ih => exact .trans _ _ _ ih (.rel _ _ hstep)

end Nameless

end UntypedLambda
