import UntypedLambda.Expression.Parser
import UntypedLambda.Proofs.NormalTerms
import UntypedLambda.Proofs.Scoping

namespace UntypedLambda

namespace Nameless

def repeated (f : Nameless) (k : Nat) : Nameless :=
  lam ((app f.shift)^[k] (bound 0))

def numeral (k : Nat) : Nameless :=
  lam (repeated (bound 0) k)

variable {f p : Nameless} {j : Nat}

theorem iterate_subst (f : Nameless) (k : Nat) (a : Nameless) (σ : Nat → Nameless) :
    ((app f)^[k] a).subst σ = (app (f.subst σ))^[k] (a.subst σ) := by
  have hstep : Function.Semiconj (subst σ) (app f) (app (f.subst σ)) := fun _ => rfl
  exact hstep.iterate_right k a

theorem repeated_subst (f : Nameless) (k : Nat) (σ : Nat → Nameless) :
    (repeated f k).subst σ = repeated (f.subst σ) k := by
  rw [repeated, subst, iterate_subst, shift_subst]
  rfl

theorem repeated_shift (f : Nameless) (k : Nat) : (repeated f k).shift = repeated f.shift k := by
  rw [shift, shift, rename_eq_subst, rename_eq_subst, repeated_subst]

@[simp] theorem shift_bound (i : Nat) : (bound i).shift = bound (i + 1) := rfl

@[simp] theorem numeral_subst (k : Nat) (σ : Nat → Nameless) : (numeral k).subst σ = numeral k := by
  rw [numeral, subst, repeated_subst]
  rfl

@[simp] theorem numeral_shift (k : Nat) : (numeral k).shift = numeral k := by
  rw [shift, rename_eq_subst, numeral_subst]

theorem isNormal_numeral (k : Nat) : (numeral k).IsNormal := by
  change ((app (bound 1))^[k] (bound 0)).IsNormal
  induction k with
  | zero => trivial
  | succ k ih =>
    rw [Function.iterate_succ_apply']
    exact ⟨trivial, id, ih⟩

theorem reduces_repeated (f : Nameless) (k : Nat) (a : Nameless) :
    Reduces (app (repeated f k) a) ((app f)^[k] a) := by
  have hbody : ((app f.shift)^[k] (bound 0)).instantiate a = (app f)^[k] a := by
    have hf : f.shift.subst (point a) = f := shift_instantiate f a
    rw [instantiate, iterate_subst, hf]
    rfl
  rw [← hbody]
  exact .single (.contract _ a)

theorem reduces_numeral (k : Nat) (f : Nameless) :
    Reduces (app (numeral k) f) (repeated f k) := by
  have hbody : (repeated (bound 0) k).instantiate f = repeated f k :=
    repeated_subst (bound 0) k (point f)
  rw [← hbody]
  exact .single (.contract _ f)

theorem reduces_numeral_apply (k : Nat) (f a : Nameless) :
    Reduces (app (app (numeral k) f) a) ((app f)^[k] a) :=
  calc
    Reduces (app (app (numeral k) f) a) (app (repeated f k) a) := (reduces_numeral k f).function a
    Reduces _ ((app f)^[k] a) := reduces_repeated f k a

/-- What comes to `f` applied `j` times, applied `k` times comes to `f` applied `k * j` times. -/
theorem reduces_iterate (hp : ∀ b, Reduces (app p b) ((app f)^[j] b)) (k : Nat) (a : Nameless) :
    Reduces ((app p)^[k] a) ((app f)^[k * j] a) := by
  induction k with
  | zero =>
    rw [Nat.zero_mul]
    exact .refl
  | succ k ih =>
    rw [Function.iterate_succ_apply', Nat.succ_mul, Nat.add_comm (k * j),
      Function.iterate_add_apply]
    calc
      Reduces (app p ((app p)^[k] a)) (app p ((app f)^[k * j] a)) := ih.argument p
      Reduces _ ((app f)^[j] ((app f)^[k * j] a)) := hp _

theorem reduces_repeated_repeated (f : Nameless) (j k : Nat) :
    Reduces (repeated (repeated f j) k) (repeated f (k * j)) := by
  rw [repeated, repeated_shift]
  exact (reduces_iterate (reduces_repeated f.shift j) k (bound 0)).body

/-- A numeral iterated on a function repeats the function as often as the power says. -/
theorem reduces_iterate_numeral (m n : Nat) (f : Nameless) :
    Reduces ((app (numeral m))^[n + 1] f) (repeated f (m ^ (n + 1))) := by
  -- The first numeral makes a repetition of `f`, and every other one repeats a repetition.
  induction n with
  | zero =>
    rw [Nat.pow_one]
    exact reduces_numeral m f
  | succ n ih =>
    rw [Function.iterate_succ_apply', Nat.pow_succ']
    calc
      Reduces (app (numeral m) ((app (numeral m))^[n + 1] f))
        (app (numeral m) (repeated f (m ^ (n + 1)))) := ih.argument _
      Reduces _ (repeated (repeated f (m ^ (n + 1))) m) := reduces_numeral m _
      Reduces _ (repeated f (m * m ^ (n + 1))) := reduces_repeated_repeated f _ m

def add : Nameless :=
  lam (lam (lam (lam (app (app (bound 3) (bound 1)) (app (app (bound 2) (bound 1)) (bound 0))))))

def mul : Nameless :=
  lam (lam (lam (app (bound 2) (app (bound 1) (bound 0)))))

def pow : Nameless :=
  lam (lam (app (bound 0) (bound 1)))

theorem reduces_lam_lam {body result : Nameless} {m n : Nat}
    (h : (body.subst (lift (point (numeral m)))).instantiate (numeral n) = result) :
    Reduces (app (app (lam (lam body)) (numeral m)) (numeral n)) result := by
  rw [← h]
  exact .head (.function _ (.contract _ _)) (.single (.contract _ _))

theorem reduces_add (m n : Nat) :
    Reduces (app (app add (numeral m)) (numeral n)) (numeral (m + n)) := by
  have hbody : Reduces
      (app (app (numeral m) (bound 1)) (app (app (numeral n) (bound 1)) (bound 0)))
      ((app (bound 1))^[m + n] (bound 0)) := by
    rw [Function.iterate_add_apply]
    calc
      Reduces (app (app (numeral m) (bound 1)) (app (app (numeral n) (bound 1)) (bound 0)))
        (app (app (numeral m) (bound 1)) ((app (bound 1))^[n] (bound 0))) :=
          (reduces_numeral_apply n (bound 1) (bound 0)).argument _
      Reduces _ ((app (bound 1))^[m] ((app (bound 1))^[n] (bound 0))) :=
        reduces_numeral_apply m (bound 1) _
  calc
    Reduces (app (app add (numeral m)) (numeral n)) (lam (lam
      (app (app (numeral m) (bound 1)) (app (app (numeral n) (bound 1)) (bound 0))))) :=
        reduces_lam_lam (by simp [instantiate, subst, lift, point])
    Reduces _ (numeral (m + n)) := hbody.body.body

theorem reduces_mul (m n : Nat) :
    Reduces (app (app mul (numeral m)) (numeral n)) (numeral (m * n)) :=
  calc
    Reduces (app (app mul (numeral m)) (numeral n))
      (lam (app (numeral m) (app (numeral n) (bound 0)))) :=
        reduces_lam_lam (by simp [instantiate, subst, lift, point])
    Reduces _ (lam (app (numeral m) (repeated (bound 0) n))) :=
      ((reduces_numeral n (bound 0)).argument _).body
    Reduces _ (lam (repeated (repeated (bound 0) n) m)) := (reduces_numeral m _).body
    Reduces _ (numeral (m * n)) := (reduces_repeated_repeated (bound 0) n m).body

/-- The numeral of a number that is not zero repeats the other one, and the innermost of them the
variable; zero would leave the variable as it is. -/
theorem reduces_pow (m n : Nat) :
    Reduces (app (app pow (numeral m)) (numeral (n + 1))) (numeral (m ^ (n + 1))) := by
  have hbody : repeated (numeral m) (n + 1) = lam ((app (numeral m))^[n + 1] (bound 0)) := by
    rw [repeated, numeral_shift]
  calc
    Reduces (app (app pow (numeral m)) (numeral (n + 1))) (app (numeral (n + 1)) (numeral m)) :=
        reduces_lam_lam (by simp [instantiate, subst, lift, point])
    Reduces _ (repeated (numeral m) (n + 1)) := reduces_numeral (n + 1) (numeral m)
    _ = lam ((app (numeral m))^[n + 1] (bound 0)) := hbody
    Reduces _ (numeral (m ^ (n + 1))) := (reduces_iterate_numeral m n (bound 0)).body

end Nameless

namespace Church

def numeral (k : Nat) : Expression :=
  .lams [⟨"f"⟩, ⟨"x"⟩] ((Term.app (.var ⟨"f"⟩))^[k] (.var ⟨"x"⟩))

def add : Expression :=
  .lams [⟨"m"⟩, ⟨"n"⟩, ⟨"f"⟩, ⟨"x"⟩] (.app (.app (.var ⟨"m"⟩) (.var ⟨"f"⟩))
    (.app (.app (.var ⟨"n"⟩) (.var ⟨"f"⟩)) (.var ⟨"x"⟩)))

def mul : Expression :=
  .lams [⟨"m"⟩, ⟨"n"⟩, ⟨"f"⟩] (.app (.var ⟨"m"⟩) (.app (.var ⟨"n"⟩) (.var ⟨"f"⟩)))

def pow : Expression :=
  .lams [⟨"b"⟩, ⟨"e"⟩] (.app (.var ⟨"e"⟩) (.var ⟨"b"⟩))

/-- Both expressions have a meaning without definitions, and whatever binders the first is given,
its reduction ends with the second, up to the binders of the result. -/
def Computes (e value : Expression) : Prop :=
  ∀ supply : Supply, ∃ t v, (e.resolve .empty supply).1 = .ok t ∧
    (value.resolve .empty supply).1 = .ok v ∧
    ∀ (u : BoundTerm) (supply' : Supply), u.alphaEquiv t = true →
      ∃ fuel normal, normal.alphaEquiv v = true ∧ ∀ more, fuel ≤ more →
        (u.normalForm more supply').1 = .ok normal

theorem nameless?_iterate {globals : Name → Option Binder} {scope : List Name} {e a : Expression}
    {f s : Nameless} (he : e.nameless? globals scope = some f)
    (ha : a.nameless? globals scope = some s) (k : Nat) :
    Expression.nameless? globals scope ((Term.app e)^[k] a) =
      some ((Nameless.app f)^[k] s) := by
  induction k with
  | zero => exact ha
  | succ k ih =>
    rw [Function.iterate_succ_apply', Function.iterate_succ_apply', Expression.nameless?, he, ih]

theorem nameless?_numeral (globals : Name → Option Binder) (k : Nat) :
    (numeral k).nameless? globals [] = some (Nameless.numeral k) := by
  have hf : Expression.nameless? globals [⟨"x"⟩, ⟨"f"⟩] (.var ⟨"f"⟩) = some (.bound 1) := rfl
  have hx : Expression.nameless? globals [⟨"x"⟩, ⟨"f"⟩] (.var ⟨"x"⟩) = some (.bound 0) := rfl
  exact congrArg (fun body => (body.map Nameless.lam).map Nameless.lam) (nameless?_iterate hf hx k)

/-- An operation on the numerals of two numbers, in nameless form. -/
theorem nameless?_apply {globals : Name → Option Binder} {e : Expression} {t : Nameless}
    (he : e.nameless? globals [] = some t) (m n : Nat) :
    Expression.nameless? globals [] (.app (.app e (numeral m)) (numeral n)) =
      some (.app (.app t (.numeral m)) (.numeral n)) := by
  rw [Expression.nameless?, Expression.nameless?, he, nameless?_numeral, nameless?_numeral]

/-- Reduction in nameless form is all that has to be shown. -/
theorem computes_of_reduces {e : Expression} {t : Nameless} {k : Nat}
    (he : e.nameless? Environment.empty.newest? [] = some t)
    (hreduces : Nameless.Reduces t (.numeral k)) : Computes e (numeral k) := by
  intro supply
  obtain ⟨t', ht, hnameless⟩ := Expression.exists_resolve_eq_ok he supply
  obtain ⟨v, hv, hvalue⟩ := Expression.exists_resolve_eq_ok (nameless?_numeral _ k) supply
  refine ⟨t', v, ht, hv, ?_⟩
  intro u supply' hu
  have hclosed : ∀ b, ¬ u.IsFree b := by
    intro b hb
    cases Expression.newest?_of_resolve ht (BoundTerm.isFree_of_alphaEquiv hu hb)
  have hconvertible : Nameless.Convertible (Environment.empty.readback u) (.numeral k) := by
    rw [Environment.readback_empty, BoundTerm.alphaEquiv_iff.mp hu, hnameless]
    exact hreduces.convertible
  have hbelow : Environment.empty.ValuesBelow supply'.next := trivial
  obtain ⟨fuel, normal, hnormal, hmore⟩ := Reducer.exists_normalize_eq_ok {} hbelow trivial
    (BoundTerm.covers_of_closed hclosed .empty) hconvertible (Nameless.isNormal_numeral k)
  exact ⟨fuel, normal, BoundTerm.alphaEquiv_iff.mpr (hnormal.trans hvalue.symm), hmore⟩

/-- Sums, products and powers of numerals are computed, for all numbers; the exponent of a power is
not zero. -/
theorem arithmetic_computes (m n : Nat) :
    Computes (.app (.app add (numeral m)) (numeral n)) (numeral (m + n)) ∧
    Computes (.app (.app mul (numeral m)) (numeral n)) (numeral (m * n)) ∧
    (1 ≤ n → Computes (.app (.app pow (numeral m)) (numeral n)) (numeral (m ^ n))) := by
  refine ⟨?_, ?_, fun hn => ?_⟩
  · exact computes_of_reduces (nameless?_apply rfl m n) (Nameless.reduces_add m n)
  · exact computes_of_reduces (nameless?_apply rfl m n) (Nameless.reduces_mul m n)
  · obtain ⟨k, rfl⟩ := Nat.exists_eq_add_of_le' hn
    exact computes_of_reduces (nameless?_apply rfl m (k + 1)) (Nameless.reduces_pow m k)

theorem arithmetic_computes_of_twoToTheThird :
    Expression.parse "\\m n f x.m f(n f x)" = .ok add ∧
    Expression.parse "\\m n f.m(n f)" = .ok mul ∧
    Expression.parse "(\\b e.e b)(\\f x.f(f x))(\\f x.f(f(f x)))" =
      .ok (.app (.app pow (numeral 2)) (numeral 3)) ∧
    1 ≤ 3 ∧ Computes (.app (.app pow (numeral 2)) (numeral 3)) (numeral 8) :=
  ⟨rfl, rfl, rfl, by decide, (arithmetic_computes 2 3).2.2 (by decide)⟩

end Church

end UntypedLambda
