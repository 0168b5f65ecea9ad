import UntypedLambda.Proofs.AlphaEquivalence
import UntypedLambda.Proofs.Completeness
import UntypedLambda.Proofs.Lockstep

namespace UntypedLambda

def Binder.SameLevel (scope scope' : List Binder) (b c : Binder) : Prop :=
  (∃ level, b.level? scope = some level ∧ c.level? scope' = some level) ∨
    (b.level? scope = none ∧ c.level? scope' = none ∧ b = c)

theorem Binder.SameLevel.inside {scope scope' : List Binder} {p q b c : Binder}
    (hlength : scope.length = scope'.length)
    (h : Binder.SameLevel (p :: scope) (q :: scope') b c) :
    p.Inside q (Binder.SameLevel scope scope') b c := by
  unfold SameLevel level? at h
  by_cases hp : p = b
  · by_cases hq : q = c
    · exact .inl ⟨hp.symm, hq.symm⟩
    · rw [if_pos hp, if_neg hq] at h
      obtain ⟨level, hb, hc⟩ | ⟨hb, -, -⟩ := h
      · cases hb
        exact absurd (level?_lt hc) (by omega)
      · cases hb
  · by_cases hq : q = c
    · rw [if_neg hp, if_pos hq] at h
      obtain ⟨level, hb, hc⟩ | ⟨-, hc, -⟩ := h
      · cases hc
        exact absurd (level?_lt hb) (by omega)
      · cases hc
    · rw [if_neg hp, if_neg hq] at h
      exact .inr ⟨Ne.symm hp, Ne.symm hq, h⟩

namespace BoundTerm

variable {same : Name → Name → Prop} {V : Binder → Binder → Prop} {t u : BoundTerm}

theorem AlphaEquivalent.alike {scope scope' : List Binder}
    (h : AlphaEquivalent scope scope' t u) (hlength : scope.length = scope'.length) :
    t.Alike (fun _ _ => True) (Binder.SameLevel scope scope') u := by
  induction h with
  | bound hb hc => exact .var (.inl ⟨_, hb, hc⟩)
  | free hb hb' => exact .var (.inr ⟨hb, hb', rfl⟩)
  | app _ _ iht ihs => exact .app (iht hlength) (ihs hlength)
  | lam _ ih =>
    have hbody := ih (congrArg Nat.succ hlength)
    exact .lam trivial (hbody.mono fun _ _ => Binder.SameLevel.inside hlength)

/-- Alpha-equivalent terms are alike when every free variable stands for itself. -/
theorem alike_of_alphaEquiv (h : t.alphaEquiv u = true) :
    t.Alike (fun _ _ => True) (fun b c => b = c) u := by
  have hlevels : AlphaEquivalent [] [] t u :=
    alphaEquivalent_of_nameless_eq rfl (alphaEquiv_iff.mp h)
  apply (hlevels.alike rfl).mono
  rintro b c (⟨level, hb, -⟩ | ⟨-, -, hbc⟩)
  · cases hb
  · exact hbc

theorem Alike.replace_eq (h : t.Alike same V u) {σ τ : Binder → Nameless}
    (hστ : ∀ b c, V b c → σ b = τ c) : t.replace σ = u.replace τ := by
  induction h generalizing σ τ with
  | var hbc => exact hστ _ _ hbc
  | app _ _ iht ihs => rw [replace, replace, iht hστ, ihs hστ]
  | @lam V p q t u _ _ ih =>
    have hbody : t.replace (p.below σ) = u.replace (q.below τ) := by
      apply ih
      rintro b c (⟨hb, hc⟩ | ⟨hb, hc, hbc⟩)
      · rw [Binder.below, Binder.below, if_pos hb, if_pos hc]
      · rw [Binder.below, Binder.below, if_neg hb, if_neg hc, hστ b c hbc]
    rw [replace, replace, hbody]

theorem readback_eq_of_alphaEquiv (h : t.alphaEquiv u = true) (env : Environment) :
    env.readback t = env.readback u :=
  (alike_of_alphaEquiv h).replace_eq fun _ _ hbc => congrArg _ hbc

/-- In one environment corresponding variables of the terms have the same binding. -/
theorem alike_corresponds_of_alphaEquiv (h : t.alphaEquiv u = true) {env : Environment}
    (hcovers : env.Covers t) (hscoped : env.WellScoped) :
    t.Alike (fun _ _ => True)
      (env.Corresponds (fun _ _ => True) (fun _ _ => True) env) u := by
  apply (alike_of_alphaEquiv h).mono_of_isFree
  rintro b c hb - rfl
  obtain ⟨x, hx⟩ := Option.isSome_iff_exists.mp (hcovers b hb)
  exact ⟨x, x, hx, hx, Environment.alike_of_lookup? (fun _ _ _ _ => trivial) hscoped
    (fun _ _ => trivial) hx⟩

end BoundTerm

inductive Head.AlphaEquivalent : Head → Head → Prop
  | closure {p q : Binder} {t u : BoundTerm} {env env' : Environment} :
    env.readback (.lam p t) = env'.readback (.lam q u) →
      AlphaEquivalent (.closure p t env) (.closure q u env')
  | neutral {t u : BoundTerm} :
    t.alphaEquiv u = true → AlphaEquivalent (.neutral t) (.neutral u)

/-- Two reductions with as much fuel both return, with results that are related, or they are cut off
by the same limit, or neither has come to an end. -/
inductive EndAlike {α : Type} (R : α → α → Prop) : Except Stop α → Except Stop α → Prop
  | returned {a b : α} : R a b → EndAlike R (.ok a) (.ok b)
  | cutOff (limit : UInt64) :
    EndAlike R (.error (.limitExceeded limit)) (.error (.limitExceeded limit))
  | unfinished : EndAlike R (.error (.abort .outOfFuel)) (.error (.abort .outOfFuel))

theorem Head.Alike.alphaEquivalent {same : Name → Name → Prop} {R : Binder → Binder → Prop}
    {head head' : Head} (h : head.Alike same R head')
    (hread : head.readback .free = head'.readback .free) : head.AlphaEquivalent head' := by
  cases h with
  | closure _ _ => exact .closure hread
  | neutral _ =>
    apply Head.AlphaEquivalent.neutral
    rw [BoundTerm.alphaEquiv_iff, BoundTerm.nameless_eq_replace, BoundTerm.nameless_eq_replace]
    exact hread

theorem EndAlike.imp {α : Type} {R S : α → α → Prop} {x y : Except Stop α} (h : EndAlike R x y)
    (hRS : ∀ a b, R a b → S a b) : EndAlike S x y := by
  cases h with
  | returned hab => exact .returned (hRS _ _ hab)
  | cutOff limit => exact .cutOff limit
  | unfinished => exact .unfinished

theorem EndAlike.of_agree {α : Type} {R S : α → α → Prop} {P : α → Prop} {Q : UInt64 → Prop}
    {x y : Except Stop α} (h : Agree R x y)
    (hx : (∃ a, P a ∧ x = .ok a) ∨ (∃ limit, Q limit ∧ x = .error (.limitExceeded limit)) ∨
      x = .error (.abort .outOfFuel))
    (hRS : ∀ a b, P a → R a b → S a b) : EndAlike S x y := by
  obtain ⟨a, ha, rfl⟩ | ⟨limit, -, rfl⟩ | rfl := hx
  · cases h with
    | ok hab => exact .returned (hRS _ _ ha hab)
  · cases h with
    | error => exact .cutOff limit
  · cases h with
    | error => exact .unfinished

/-- Two machines that stand for the same term and do the same steps come to values that stand for
the same. -/
theorem Machine.DeliverAlike.alphaEquivalent {same : Name → Name → Prop}
    {R : Binder → Binder → Prop} {goal : Form} {m m' : Machine} {t : Nameless}
    {head head' : Head} (h : m.DeliverAlike same R m' head head')
    (hready : Ready goal m) (hready' : Ready goal m')
    (hbelow : m.Holds fun n _ env => env.ValuesBelow n)
    (hbelow' : m'.Holds fun n _ env => env.ValuesBelow n)
    (hm : m.readback? = some t) (hm' : m'.readback? = some t) : head.AlphaEquivalent head' := by
  obtain ⟨hhead, k, hdelivers, hdelivers'⟩ := h
  have hk := hdelivers.leftmostAfter? hready hbelow hm
  rw [hdelivers'.leftmostAfter? hready' hbelow' hm'] at hk
  exact hhead.alphaEquivalent (Option.some.inj hk).symm

theorem EndAlike.bind_termOf {x y : Except Stop Head}
    (h : EndAlike (fun head head' => Machine.Fits .normal head ∧ head.AlphaEquivalent head') x y) :
    EndAlike (fun t u => t.alphaEquiv u = true)
      (x >>= Reducer.termOf) (y >>= Reducer.termOf) := by
  cases h with
  | returned hheads =>
    obtain ⟨hfits, hequiv⟩ := hheads
    cases hequiv with
    | closure _ => cases hfits
    | neutral htu => exact .returned htu
  | cutOff limit => exact .cutOff limit
  | unfinished => exact .unfinished

namespace Reducer

variable {t u : BoundTerm} {env : Environment} {supply supply' : Supply}

/-- Reductions of alpha-equivalent terms take the same steps, in either form. -/
theorem reduce_endAlike (r : Reducer) (form : Form) (h : t.alphaEquiv u = true)
    (hcovers : env.Covers t) (hscoped : env.WellScoped) (hbelow : env.ValuesBelow supply.next)
    (hbelow' : env.ValuesBelow supply'.next) (fuel : Nat) :
    EndAlike (fun head head' => Machine.Fits form head ∧ head.AlphaEquivalent head')
        (r.reduce fuel form t env supply).result (r.reduce fuel form u env supply').result ∧
      (r.reduce fuel form t env supply).reducer = (r.reduce fuel form u env supply').reducer := by
  have hready := Machine.ready_start t env form supply r.tally
  have hready' := Machine.ready_start u env form supply' r.tally
  have hcorresponds := BoundTerm.alike_corresponds_of_alphaEquiv h hcovers hscoped
  have hsupply : supply.Alike (fun _ _ => True) (fun _ _ => True) supply' :=
    fun _ _ _ _ => trivial
  have halike := Machine.alike_start hcorresponds hsupply form r.tally r.tally
  obtain ⟨hagree, htally⟩ := halike.run hready rfl r.budget r.tally.betaSteps fuel
  have hresult := Machine.run_result r.budget r.tally.betaSteps fuel hready
    (Machine.holds_start ⟨hcovers, hscoped⟩)
  have hread := congrArg some (BoundTerm.readback_eq_of_alphaEquiv h env).symm
  constructor
  · apply EndAlike.of_agree hagree hresult
    intro head head' hfits hdeliver
    exact ⟨hfits, hdeliver.alphaEquivalent hready hready' (Machine.holds_start hbelow)
      (Machine.holds_start hbelow') rfl hread⟩
  · exact congrArg (fun tally => { r with tally }) htally

/-- Reduction respects alpha-equivalence, at equal cost.  Whatever binders two alpha-equivalent terms
use, and whatever serial numbers are left, their reductions end alike, with as many beta steps and
look-ups on the counters. -/
theorem endAlike_of_alphaEquiv (r : Reducer) (t u : BoundTerm) (env : Environment)
    (supply supply' : Supply) (h : t.alphaEquiv u = true) (hcovers : env.Covers t)
    (hscoped : env.WellScoped) (hbelow : env.ValuesBelow supply.next)
    (hbelow' : env.ValuesBelow supply'.next) (fuel : Nat) :
    (EndAlike (fun t' u' => t'.alphaEquiv u' = true)
        (r.normalize fuel t env supply).result (r.normalize fuel u env supply').result ∧
      (r.normalize fuel t env supply).reducer = (r.normalize fuel u env supply').reducer) ∧
    (EndAlike Head.AlphaEquivalent
        (r.weakHead fuel t env supply).result (r.weakHead fuel u env supply').result ∧
      (r.weakHead fuel t env supply).reducer = (r.weakHead fuel u env supply').reducer) := by
  have hends (form : Form) := r.reduce_endAlike form h hcovers hscoped hbelow hbelow' fuel
  constructor
  · exact ⟨(hends .normal).1.bind_termOf, (hends .normal).2⟩
  · exact ⟨(hends .weakHead).1.imp fun _ _ => And.right, (hends .weakHead).2⟩

def reusedBinders : BoundTerm :=
  .app (.lam ⟨7, ⟨"a"⟩⟩ (.lam ⟨1, ⟨"y"⟩⟩ (.app (.var ⟨2, ⟨"d"⟩⟩) (.var ⟨1, ⟨"y"⟩⟩))))
    (.var ⟨1, ⟨"y"⟩⟩)

theorem endAlike_of_reusedBinders :
    sharedBinder.alphaEquiv reusedBinders = true ∧ sharedBinderEnv.Covers sharedBinder ∧
    sharedBinderEnv.WellScoped ∧ sharedBinderEnv.ValuesBelow 4 ∧ sharedBinderEnv.ValuesBelow 9 ∧
    (EndAlike (fun t' u' => t'.alphaEquiv u' = true)
        (normalize 30 {} sharedBinder sharedBinderEnv ⟨4⟩).result
        (normalize 30 {} reusedBinders sharedBinderEnv ⟨9⟩).result ∧
      (normalize 30 {} sharedBinder sharedBinderEnv ⟨4⟩).reducer =
        (normalize 30 {} reusedBinders sharedBinderEnv ⟨9⟩).reducer) ∧
    (EndAlike Head.AlphaEquivalent
        (weakHead 30 {} sharedBinder sharedBinderEnv ⟨4⟩).result
        (weakHead 30 {} reusedBinders sharedBinderEnv ⟨9⟩).result ∧
      (weakHead 30 {} sharedBinder sharedBinderEnv ⟨4⟩).reducer =
        (weakHead 30 {} reusedBinders sharedBinderEnv ⟨9⟩).reducer) := by
  have hequiv : sharedBinder.alphaEquiv reusedBinders = true := BoundTerm.alphaEquiv_iff.mpr rfl
  have hcovers : sharedBinderEnv.Covers sharedBinder := by
    rintro b (⟨hne, -, rfl | rfl⟩ | rfl)
    · rfl
    · exact absurd rfl hne
    · rfl
  have hscoped : sharedBinderEnv.WellScoped := by
    simp [sharedBinderEnv, Environment.WellScoped, Environment.Covers, Term.IsFree]
  have hbelow : sharedBinderEnv.ValuesBelow (Supply.mk 4).next := by
    simp [sharedBinderEnv, Environment.ValuesBelow]
  have hbelow' : sharedBinderEnv.ValuesBelow (Supply.mk 9).next := by
    simp [sharedBinderEnv, Environment.ValuesBelow]
  exact ⟨hequiv, hcovers, hscoped, hbelow, hbelow',
    endAlike_of_alphaEquiv {} sharedBinder reusedBinders sharedBinderEnv ⟨4⟩ ⟨9⟩ hequiv hcovers
      hscoped hbelow hbelow' 30⟩

end Reducer

end UntypedLambda
