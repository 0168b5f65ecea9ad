import UntypedLambda.Proofs.Beta

/-! Contract head redexes as long as wanted, then go on in the same way inside the function, the
argument or the body that is left. -/
namespace UntypedLambda

namespace Nameless

inductive HeadStep : Nameless → Nameless → Prop where
  | contract (body a : Nameless) : HeadStep (app (lam body) a) (body.instantiate a)
  | function {t t' : Nameless} (s : Nameless) (h : HeadStep t t') : HeadStep (app t s) (app t' s)

abbrev HeadReduces : Nameless → Nameless → Prop :=
  Relation.ReflTransGen HeadStep

inductive Standard : Nameless → Nameless → Prop where
  | bound {t : Nameless} {i : Nat} (h : HeadReduces t (bound i)) : Standard t (bound i)
  | free {t : Nameless} {b : Binder} (h : HeadReduces t (free b)) : Standard t (free b)
  | app {t f f' a a' : Nameless} (h : HeadReduces t (app f a)) (hf : Standard f f')
      (ha : Standard a a') : Standard t (app f' a')
  | lam {t b b' : Nameless} (h : HeadReduces t (lam b)) (hb : Standard b b') :
      Standard t (lam b')

theorem HeadReduces.function {t t' : Nameless} (s : Nameless) (h : HeadReduces t t') :
    HeadReduces (Nameless.app t s) (Nameless.app t' s) :=
  h.lift (Nameless.app · s) fun _ _ => HeadStep.function s

theorem HeadStep.subst {t t' : Nameless} (h : HeadStep t t') (σ : Nat → Nameless) :
    HeadStep (t.subst σ) (t'.subst σ) := by
  induction h with
  | contract body a =>
    rw [instantiate_subst]
    exact .contract _ _
  | function s _ ih => exact .function _ ih

theorem HeadReduces.subst {t t' : Nameless} (h : HeadReduces t t') (σ : Nat → Nameless) :
    HeadReduces (t.subst σ) (t'.subst σ) :=
  h.lift (Nameless.subst σ) fun _ _ hstep => hstep.subst σ

theorem HeadReduces.rename {t t' : Nameless} (h : HeadReduces t t') (ρ : Nat → Nat) :
    HeadReduces (t.rename ρ) (t'.rename ρ) := by
  rw [rename_eq_subst, rename_eq_subst]
  exact h.subst _

theorem HeadStep.leftmost? {t t' : Nameless} (h : HeadStep t t') : t.leftmost? = some t' := by
  induction h with
  | contract body a => exact leftmost?_contract body a
  | function s hstep ih =>
    apply leftmost?_function _ ih
    intro hlam
    obtain ⟨body, rfl⟩ := isLam_iff.mp hlam
    cases hstep

theorem HeadReduces.leftmostAfter? {t t' : Nameless} (h : HeadReduces t t') :
    ∃ k, leftmostAfter? k t = some t' := by
  induction h using Relation.ReflTransGen.head_induction_on with
  | refl => exact ⟨0, rfl⟩
  | head hstep _ ih =>
    obtain ⟨k, hk⟩ := ih
    exact ⟨k + 1, (leftmostAfter?_succ hstep.leftmost?).trans hk⟩

namespace Standard

theorem refl (t : Nameless) : Standard t t := by
  induction t with
  | bound i => exact .bound .refl
  | free b => exact .free .refl
  | app t s iht ihs => exact .app .refl iht ihs
  | lam t ih => exact .lam .refl ih

/-- Contractions at the head may come in front. -/
theorem head {t u v : Nameless} (h : HeadReduces t u) (hs : Standard u v) : Standard t v := by
  cases hs with
  | bound hu => exact .bound (h.trans hu)
  | free hu => exact .free (h.trans hu)
  | app hu hf ha => exact .app (h.trans hu) hf ha
  | lam hu hb => exact .lam (h.trans hu) hb

theorem rename {t t' : Nameless} (h : Standard t t') (ρ : Nat → Nat) :
    Standard (t.rename ρ) (t'.rename ρ) := by
  induction h generalizing ρ with
  | bound hu => exact .bound (hu.rename ρ)
  | free hu => exact .free (hu.rename ρ)
  | app hu _ _ ihf iha => exact .app (hu.rename ρ) (ihf ρ) (iha ρ)
  | lam hu _ ih => exact .lam (hu.rename ρ) (ih (liftIndex ρ))

theorem subst {t t' : Nameless} (h : Standard t t') {σ τ : Nat → Nameless}
    (hσ : ∀ i, Standard (σ i) (τ i)) : Standard (t.subst σ) (t'.subst τ) := by
  induction h generalizing σ τ with
  -- A variable may be replaced by a redex, so what comes before it stays in front.
  | bound hu => exact head (hu.subst σ) (hσ _)
  | free hu => exact .free (hu.subst σ)
  | app hu _ _ ihf iha => exact .app (hu.subst σ) (ihf hσ) (iha hσ)
  | lam hu _ ih =>
    refine .lam (hu.subst σ) (ih ?_)
    intro i
    cases i with
    | zero => exact refl _
    | succ i => exact (hσ i).rename Nat.succ

theorem instantiate {t t' s s' : Nameless} (ht : Standard t t') (hs : Standard s s') :
    Standard (t.instantiate s) (t'.instantiate s') := by
  apply ht.subst
  intro i
  cases i with
  | zero => exact hs
  | succ i => exact refl _

/-- One more contraction, anywhere, can be put in its place. -/
theorem tail {t u v : Nameless} (h : Standard t u) (hstep : Beta u v) : Standard t v := by
  induction h generalizing v with
  | bound hu => cases hstep
  | free hu => cases hstep
  | lam hu _ ih =>
    cases hstep with
    | body hstep => exact .lam hu (ih hstep)
  | @app t f f' a a' hu hf ha ihf iha =>
    cases hstep with
    | function _ hstep => exact .app hu (ihf hstep) ha
    | argument _ hstep => exact .app hu hf (iha hstep)
    | contract body' _ =>
      cases hf with
      | @lam _ body _ hf hbody =>
        have hhead : HeadReduces t (body.instantiate a) :=
          (hu.trans (hf.function a)).tail (.contract body a)
        exact head hhead (hbody.instantiate ha)

end Standard

theorem Reduces.standard {t u : Nameless} (h : Reduces t u) : Standard t u := by
  induction h with
  | refl => exact .refl t
  | tail _ hstep ih => exact ih.tail hstep

theorem isLam_of_leftmostAfter? {k : Nat} {body u : Nameless}
    (h : leftmostAfter? k (lam body) = some u) : u.IsLam := by
  induction k generalizing body with
  | zero =>
    cases h
    trivial
  | succ k ih =>
    rw [leftmostAfter?, Nameless.leftmost?] at h
    obtain ⟨t', ht', hu⟩ := Option.bind_eq_some_iff.mp h
    obtain ⟨body', -, rfl⟩ := Option.map_eq_some_iff.mp ht'
    exact ih hu

/-- Contractions in a function that never becomes an abstraction are leftmost in the application. -/
theorem leftmostAfter?_function {k : Nat} {t t' : Nameless} (s : Nameless)
    (h : leftmostAfter? k t = some t') (ht' : ¬ t'.IsLam) :
    leftmostAfter? k (app t s) = some (app t' s) := by
  induction k generalizing t with
  | zero =>
    cases h
    rfl
  | succ k ih =>
    have hlam : ¬ t.IsLam := by
      intro hlam
      obtain ⟨body, rfl⟩ := isLam_iff.mp hlam
      exact ht' (isLam_of_leftmostAfter? h)
    rw [leftmostAfter?] at h
    obtain ⟨u, hu, hrest⟩ := Option.bind_eq_some_iff.mp h
    rw [leftmostAfter?_succ (leftmost?_function hlam hu)]
    exact ih hrest

theorem leftmostAfter?_argument {k : Nat} {t s s' : Nameless} (ht : t.IsNormal)
    (hlam : ¬ t.IsLam) (h : leftmostAfter? k s = some s') :
    leftmostAfter? k (app t s) = some (app t s') :=
  leftmostAfter?_map (app t) (fun hstep => leftmost?_argument hlam ht.leftmost? hstep) h

/-- A reduction in standard order to a normal term contracts leftmost redexes only. -/
theorem Standard.leftmostAfter? {t n : Nameless} (h : Standard t n) (hn : n.IsNormal) :
    ∃ k, leftmostAfter? k t = some n := by
  induction h with
  | bound hu => exact hu.leftmostAfter?
  | free hu => exact hu.leftmostAfter?
  | lam hu _ ih =>
    obtain ⟨j, hj⟩ := hu.leftmostAfter?
    obtain ⟨k, hk⟩ := ih hn
    exact ⟨j + k, leftmostAfter?_trans hj (leftmostAfter?_map Nameless.lam leftmost?_body hk)⟩
  | @app t f f' a a' hu _ _ ihf iha =>
    obtain ⟨i, hi⟩ := hu.leftmostAfter?
    obtain ⟨j, hj⟩ := ihf hn.1
    obtain ⟨k, hk⟩ := iha hn.2.2
    have hfunction : Nameless.leftmostAfter? j (Nameless.app f a) = some (Nameless.app f' a) :=
      leftmostAfter?_function a hj hn.2.1
    have hargument : Nameless.leftmostAfter? k (Nameless.app f' a) = some (Nameless.app f' a') :=
      leftmostAfter?_argument hn.1 hn.2.1 hk
    exact ⟨i + (j + k), leftmostAfter?_trans hi (leftmostAfter?_trans hfunction hargument)⟩

/-- Leftmost contraction finds every normal form. -/
theorem Reduces.leftmostAfter? {t n : Nameless} (h : Reduces t n) (hn : n.IsNormal) :
    ∃ k, Nameless.leftmostAfter? k t = some n :=
  h.standard.leftmostAfter? hn

end Nameless

end UntypedLambda
