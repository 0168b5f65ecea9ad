import Mathlib.Logic.Relation
import UntypedLambda.Proofs.Substitution

namespace UntypedLambda

namespace Nameless

inductive Beta : Nameless → Nameless → Prop where
  | contract (body a : Nameless) : Beta (app (lam body) a) (body.instantiate a)
  | function {t t' : Nameless} (s : Nameless) (h : Beta t t') : Beta (app t s) (app t' s)
  | argument (t : Nameless) {s s' : Nameless} (h : Beta s s') : Beta (app t s) (app t s')
  | body {t t' : Nameless} (h : Beta t t') : Beta (lam t) (lam t')

abbrev Reduces : Nameless → Nameless → Prop :=
  Relation.ReflTransGen Beta

abbrev Convertible : Nameless → Nameless → Prop :=
  Relation.EqvGen Beta

/-- Contract the leftmost of the outermost redexes; none if there is no redex. -/
def leftmost? : Nameless → Option Nameless
  | bound _ => none
  | free _ => none
  | lam t => t.leftmost?.map lam
  | app (lam body) a => some (body.instantiate a)
  | app t s =>
    match t.leftmost? with
    | some t' => some (app t' s)
    | none => s.leftmost?.map (app t)

def leftmostAfter? : Nat → Nameless → Option Nameless
  | 0, t => some t
  | k + 1, t => t.leftmost?.bind (leftmostAfter? k)

def IsLam : Nameless → Prop
  | bound _ => False
  | free _ => False
  | app _ _ => False
  | lam _ => True

def IsNormal : Nameless → Prop
  | bound _ => True
  | free _ => True
  | app t s => t.IsNormal ∧ ¬ t.IsLam ∧ s.IsNormal
  | lam t => t.IsNormal

theorem isLam_iff {t : Nameless} : t.IsLam ↔ ∃ body, t = lam body := by
  cases t <;> simp [IsLam]

theorem leftmost?_contract (body a : Nameless) :
    (app (lam body) a).leftmost? = some (body.instantiate a) := by
  rw [leftmost?]

theorem leftmost?_app {t s : Nameless} (ht : ¬ t.IsLam) :
    (app t s).leftmost? =
      match t.leftmost? with
      | some t' => some (app t' s)
      | none => s.leftmost?.map (app t) := by
  cases t with
  | lam body => exact absurd trivial ht
  | bound i => rfl
  | free b => rfl
  | app t₁ t₂ => rw [leftmost?]; intro body h; cases h

theorem leftmost?_function {t t' s : Nameless} (ht : ¬ t.IsLam) (h : t.leftmost? = some t') :
    (app t s).leftmost? = some (app t' s) := by
  rw [leftmost?_app ht, h]

theorem leftmost?_argument {t s s' : Nameless} (ht : ¬ t.IsLam) (hn : t.leftmost? = none)
    (h : s.leftmost? = some s') : (app t s).leftmost? = some (app t s') := by
  rw [leftmost?_app ht, hn, h]
  rfl

theorem leftmost?_body {t t' : Nameless} (h : t.leftmost? = some t') :
    (lam t).leftmost? = some (lam t') := by
  rw [leftmost?, h]
  rfl

theorem Beta.of_leftmost? {t t' : Nameless} (h : t.leftmost? = some t') : Beta t t' := by
  induction t generalizing t' with
  | bound i => cases h
  | free b => cases h
  | lam t ih =>
    rw [leftmost?] at h
    obtain ⟨u, hu, rfl⟩ := Option.map_eq_some_iff.mp h
    exact .body (ih hu)
  | app t s iht ihs =>
    by_cases hlam : t.IsLam
    · obtain ⟨body, rfl⟩ := isLam_iff.mp hlam
      cases h
      exact .contract body s
    · rw [leftmost?_app hlam] at h
      cases hu : t.leftmost? with
      | some u =>
        rw [hu] at h
        cases h
        exact .function s (iht hu)
      | none =>
        rw [hu] at h
        obtain ⟨v, hv, rfl⟩ := Option.map_eq_some_iff.mp h
        exact .argument t (ihs hv)

theorem IsNormal.leftmost? {t : Nameless} (h : t.IsNormal) : t.leftmost? = none := by
  induction t with
  | bound i => rfl
  | free b => rfl
  | lam t ih =>
    have ht : t.leftmost? = none := ih h
    rw [Nameless.leftmost?, ht]
    rfl
  | app t s iht ihs =>
    rw [leftmost?_app h.2.1, iht h.1, ihs h.2.2]
    rfl

theorem isNormal_of_leftmost? {t : Nameless} (h : t.leftmost? = none) : t.IsNormal := by
  induction t with
  | bound i => trivial
  | free b => trivial
  | lam t ih =>
    rw [Nameless.leftmost?] at h
    exact ih (Option.map_eq_none_iff.mp h)
  | app t s iht ihs =>
    have hlam : ¬ t.IsLam := by
      intro hlam
      obtain ⟨body, rfl⟩ := isLam_iff.mp hlam
      cases h
    rw [leftmost?_app hlam] at h
    cases hu : t.leftmost? with
    | some u =>
      rw [hu] at h
      cases h
    | none =>
      rw [hu] at h
      exact ⟨iht hu, hlam, ihs (Option.map_eq_none_iff.mp h)⟩

theorem leftmost?_eq_none {t : Nameless} : t.leftmost? = none ↔ t.IsNormal :=
  ⟨isNormal_of_leftmost?, IsNormal.leftmost?⟩

theorem IsNormal.not_beta {t u : Nameless} (h : t.IsNormal) : ¬ Beta t u := by
  intro hbeta
  induction hbeta with
  | contract body a => exact h.2.1 trivial
  | function s _ ih => exact ih h.1
  | argument t _ ih => exact ih h.2.2
  | body _ ih => exact ih h

theorem IsNormal.eq_of_reduces {t u : Nameless} (h : t.IsNormal) (hr : Reduces t u) : u = t := by
  cases hr using Relation.ReflTransGen.head_induction_on with
  | refl => rfl
  | head hstep _ => exact absurd hstep h.not_beta

theorem leftmostAfter?_succ {k : Nat} {t t' : Nameless} (h : t.leftmost? = some t') :
    leftmostAfter? (k + 1) t = leftmostAfter? k t' := by
  rw [leftmostAfter?, h]
  rfl

theorem leftmostAfter?_add (j k : Nat) (t : Nameless) :
    leftmostAfter? (j + k) t = (leftmostAfter? j t).bind (leftmostAfter? k) := by
  induction j generalizing t with
  | zero => rw [Nat.zero_add]; rfl
  | succ j ih =>
    rw [Nat.add_right_comm, leftmostAfter?, leftmostAfter?]
    cases t.leftmost? with
    | none => rfl
    | some t' => exact ih t'

theorem leftmostAfter?_trans {j k : Nat} {t u v : Nameless} (h : leftmostAfter? j t = some u)
    (h' : leftmostAfter? k u = some v) : leftmostAfter? (j + k) t = some v := by
  rw [leftmostAfter?_add, h]
  exact h'

/-- A context that leftmost contractions pass through lets whole sequences of them pass. -/
theorem leftmostAfter?_map (f : Nameless → Nameless) {k : Nat} {t u : Nameless}
    (hf : ∀ {t t' : Nameless}, t.leftmost? = some t' → (f t).leftmost? = some (f t'))
    (h : leftmostAfter? k t = some u) : leftmostAfter? k (f t) = some (f u) := by
  induction k generalizing t with
  | zero =>
    cases h
    rfl
  | succ k ih =>
    rw [leftmostAfter?] at h
    obtain ⟨t', ht', hu⟩ := Option.bind_eq_some_iff.mp h
    rw [leftmostAfter?_succ (hf ht')]
    exact ih hu

theorem Reduces.of_leftmostAfter? {k : Nat} {t u : Nameless} (h : leftmostAfter? k t = some u) :
    Reduces t u := by
  induction k generalizing t with
  | zero =>
    cases h
    exact .refl
  | succ k ih =>
    rw [leftmostAfter?] at h
    obtain ⟨t', ht', hu⟩ := Option.bind_eq_some_iff.mp h
    exact .head (Beta.of_leftmost? ht') (ih hu)

theorem Reduces.function {t t' : Nameless} (s : Nameless) (h : Reduces t t') :
    Reduces (app t s) (app t' s) :=
  h.lift (app · s) fun _ _ => Beta.function s

theorem Reduces.argument (t : Nameless) {s s' : Nameless} (h : Reduces s s') :
    Reduces (app t s) (app t s') :=
  h.lift (app t) fun _ _ => Beta.argument t

theorem Reduces.body {t t' : Nameless} (h : Reduces t t') : Reduces (lam t) (lam t') :=
  h.lift lam fun _ _ => Beta.body

theorem Reduces.app {t t' s s' : Nameless} (ht : Reduces t t') (hs : Reduces s s') :
    Reduces (app t s) (app t' s') :=
  (ht.function s).trans (hs.argument t')

end Nameless

end UntypedLambda
