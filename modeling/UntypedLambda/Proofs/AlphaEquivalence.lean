import UntypedLambda.Proofs.Replacement

namespace UntypedLambda

/-- How many abstractions are around the innermost one of the binder, when the abstractions around
a place are those of `scope`, innermost first. -/
def Binder.level? (b : Binder) : List Binder → Option Nat
  | [] => none
  | c :: outer => if c = b then some outer.length else b.level? outer

/-- The terms differ only in the binders of their abstractions, when the abstractions around them
are those of the two scopes, innermost first. -/
inductive BoundTerm.AlphaEquivalent : List Binder → List Binder → BoundTerm → BoundTerm → Prop
  | bound {scope scope' : List Binder} {b c : Binder} {level : Nat} :
    b.level? scope = some level → c.level? scope' = some level →
      AlphaEquivalent scope scope' (.var b) (.var c)
  | free {scope scope' : List Binder} {b : Binder} :
    b.level? scope = none → b.level? scope' = none →
      AlphaEquivalent scope scope' (.var b) (.var b)
  | app {scope scope' : List Binder} {t s u v : BoundTerm} :
    AlphaEquivalent scope scope' t u → AlphaEquivalent scope scope' s v →
      AlphaEquivalent scope scope' (.app t s) (.app u v)
  | lam {scope scope' : List Binder} {p q : Binder} {t u : BoundTerm} :
    AlphaEquivalent (p :: scope) (q :: scope') t u →
      AlphaEquivalent scope scope' (.lam p t) (.lam q u)

theorem Binder.level?_lt {b : Binder} {scope : List Binder} {level : Nat}
    (h : b.level? scope = some level) : level < scope.length := by
  induction scope with
  | nil => cases h
  | cons c outer ih =>
    rw [level?] at h
    rw [List.length_cons]
    split at h
    · cases h
      exact Nat.lt_succ_self _
    · exact Nat.lt_succ_of_lt (ih h)

/-- Counted from the place of a variable, the abstraction that binds it is the one of its level. -/
theorem Binder.idxOf?_eq (b : Binder) (scope : List Binder) :
    scope.idxOf? b = (b.level? scope).map fun level => scope.length - 1 - level := by
  induction scope with
  | nil => rfl
  | cons c outer ih =>
    rw [List.idxOf?_cons, level?, ih]
    by_cases hc : c = b
    · simp [hc]
    · have hne : (c == b) = false := by simpa using hc
      rw [if_neg hc, hne, if_neg Bool.false_ne_true]
      cases hlevel : b.level? outer with
      | none => rfl
      | some level =>
        have hlt := level?_lt hlevel
        simp only [Option.map_some, Option.some.injEq, List.length_cons]
        omega

namespace BoundTerm

variable {scope scope' : List Binder} {t u : BoundTerm}

theorem nameless_var_of_level? {b : Binder} {level : Nat} (h : b.level? scope = some level) :
    nameless scope (.var b) = .bound (scope.length - 1 - level) := by
  rw [nameless, b.idxOf?_eq, h]
  rfl

theorem nameless_var_of_free {b : Binder} (h : b.level? scope = none) :
    nameless scope (.var b) = .free b := by
  rw [nameless, b.idxOf?_eq, h]
  rfl

theorem AlphaEquivalent.nameless_eq (h : AlphaEquivalent scope scope' t u)
    (hlength : scope.length = scope'.length) : t.nameless scope = u.nameless scope' := by
  induction h with
  | bound hb hc => rw [nameless_var_of_level? hb, nameless_var_of_level? hc, hlength]
  | free hb hb' => rw [nameless_var_of_free hb, nameless_var_of_free hb']
  | app _ _ iht ihs => rw [nameless, nameless, iht hlength, ihs hlength]
  | lam _ ih =>
    rw [nameless, nameless, ih]
    rw [List.length_cons, List.length_cons, hlength]

theorem alphaEquivalent_var {b c : Binder} (hlength : scope.length = scope'.length)
    (h : nameless scope (.var b) = nameless scope' (.var c)) :
    AlphaEquivalent scope scope' (.var b) (.var c) := by
  cases hb : b.level? scope with
  | none =>
    rw [nameless_var_of_free hb] at h
    cases hc : c.level? scope' with
    | none =>
      rw [nameless_var_of_free hc] at h
      cases h
      exact .free hb hc
    | some level =>
      rw [nameless_var_of_level? hc] at h
      cases h
  | some level =>
    rw [nameless_var_of_level? hb] at h
    cases hc : c.level? scope' with
    | none =>
      rw [nameless_var_of_free hc] at h
      cases h
    | some level' =>
      rw [nameless_var_of_level? hc] at h
      have hlt := Binder.level?_lt hb
      have hlt' := Binder.level?_lt hc
      have hnumber : scope.length - 1 - level = scope'.length - 1 - level' := Nameless.bound.inj h
      have hlevel : level = level' := by omega
      exact .bound hb (hlevel ▸ hc)

theorem exists_app_of_nameless {f a : Nameless} (h : t.nameless scope = .app f a) :
    ∃ u v, t = .app u v ∧ nameless scope u = f ∧ nameless scope v = a := by
  cases t with
  | var b =>
    cases hb : b.level? scope with
    | none => cases (nameless_var_of_free hb).symm.trans h
    | some level => cases (nameless_var_of_level? hb).symm.trans h
  | app u v =>
    cases h
    exact ⟨u, v, rfl, rfl, rfl⟩
  | lam p u => cases h

theorem exists_lam_of_nameless {f : Nameless} (h : t.nameless scope = .lam f) :
    ∃ p u, t = .lam p u ∧ nameless (p :: scope) u = f := by
  cases t with
  | var b =>
    cases hb : b.level? scope with
    | none => cases (nameless_var_of_free hb).symm.trans h
    | some level => cases (nameless_var_of_level? hb).symm.trans h
  | app u v => cases h
  | lam p u =>
    cases h
    exact ⟨p, u, rfl, rfl⟩

theorem alphaEquivalent_of_nameless_eq (hlength : scope.length = scope'.length)
    (h : t.nameless scope = u.nameless scope') : AlphaEquivalent scope scope' t u := by
  induction t generalizing u scope scope' with
  | var b =>
    cases u with
    | var c => exact alphaEquivalent_var hlength h
    | app u v =>
      obtain ⟨_, _, heq, -⟩ := exists_app_of_nameless h
      cases heq
    | lam q u =>
      obtain ⟨_, _, heq, -⟩ := exists_lam_of_nameless h
      cases heq
  | app t s iht ihs =>
    obtain ⟨u, v, rfl, hu, hv⟩ := exists_app_of_nameless h.symm
    exact .app (iht hlength hu.symm) (ihs hlength hv.symm)
  | lam p t ih =>
    obtain ⟨q, u, rfl, hu⟩ := exists_lam_of_nameless h.symm
    have hinside : (p :: scope).length = (q :: scope').length := congrArg Nat.succ hlength
    exact .lam (ih hinside hu.symm)

/-- Comparing canonical forms decides alpha-equivalence, for any terms: free variables and binders
that are used more than once make no difference. -/
theorem alphaEquiv_iff_alphaEquivalent (t u : BoundTerm) :
    t.alphaEquiv u = true ↔ AlphaEquivalent [] [] t u := by
  rw [alphaEquiv_iff]
  constructor
  · intro h
    exact alphaEquivalent_of_nameless_eq rfl h
  · intro h
    exact h.nameless_eq rfl

end BoundTerm

end UntypedLambda
