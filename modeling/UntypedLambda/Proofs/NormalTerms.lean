import Mathlib.Tactic.Choose
import UntypedLambda.Proofs.FreeVariables
import UntypedLambda.Proofs.Limits

namespace UntypedLambda

namespace Environment

def Renames (env : Environment) (t : BoundTerm) : Prop :=
  ∀ b, t.IsFree b → ∃ c, env.lookup? b = some (.value c) ∧ c.name = b.name

theorem renames_of_closed {t : BoundTerm} (ht : ∀ b, ¬ t.IsFree b) (env : Environment) :
    env.Renames t :=
  fun b hb => absurd hb (ht b)

end Environment

namespace BoundTerm

def copy (f : Binder → Binder) : BoundTerm → Supply → BoundTerm × Supply
  | .var b, supply => (.var (f b), supply)
  | .app t s, supply =>
    let (t, supply) := copy f t supply
    let (s, supply) := copy f s supply
    (.app t s, supply)
  | .lam p t, supply =>
    let (c, supply) := supply.fresh p.name
    let (t, supply) := copy (Function.update f p c) t supply
    (.lam c t, supply)

variable {t : BoundTerm} {f : Binder → Binder} {supply : Supply}

theorem next_le_copy (t : BoundTerm) (f : Binder → Binder) (supply : Supply) :
    supply.next ≤ (copy f t supply).2.next := by
  induction t generalizing f supply with
  | var b => exact Nat.le_refl _
  | app t s iht ihs => exact Nat.le_trans (iht f supply) (ihs f (copy f t supply).2)
  | lam p t ih => exact Nat.le_trans (Nat.le_succ _) (ih _ (supply.fresh p.name).2)

/-- If the variables keep their names, so does everything else. -/
theorem map_name_copy (hf : ∀ b, t.IsFree b → (f b).name = b.name) :
    (copy f t supply).1.map Binder.name = t.map Binder.name := by
  induction t generalizing f supply with
  | var b => exact congrArg Term.var (hf b rfl)
  | app t s iht ihs =>
    have htname : (copy f t supply).1.map Binder.name = t.map Binder.name :=
      iht fun b hb => hf b (.inl hb)
    have hsname : (copy f s (copy f t supply).2).1.map Binder.name = s.map Binder.name :=
      ihs fun b hb => hf b (.inr hb)
    exact congrArg₂ Term.app htname hsname
  | lam p t ih =>
    have hbelow (b : Binder) (hb : t.IsFree b) :
        (Function.update f p (supply.fresh p.name).1 b).name = b.name := by
      by_cases hbp : b = p
      · rw [hbp, Function.update_self]
        rfl
      · rw [Function.update_of_ne hbp]
        exact hf b ⟨hbp, hb⟩
    exact congrArg (Term.lam p.name) (ih hbelow)

/-- A copy is the same term up to the free variables, if none of them stands for a binder that is
still to come. -/
theorem replace_copy {σ τ : Binder → Nameless}
    (hf : ∀ b, t.IsFree b → (f b).serial < supply.next ∧ τ (f b) = σ b) :
    (copy f t supply).1.replace τ = t.replace σ := by
  induction t generalizing f supply σ τ with
  | var b => exact (hf b rfl).2
  | app t s iht ihs =>
    have hle := next_le_copy t f supply
    have ht : (copy f t supply).1.replace τ = replace σ t := iht fun b hb => hf b (.inl hb)
    have hs : (copy f s (copy f t supply).2).1.replace τ = replace σ s := ihs fun b hb =>
      ⟨Nat.lt_of_lt_of_le (hf b (.inr hb)).1 hle, (hf b (.inr hb)).2⟩
    exact congrArg₂ Nameless.app ht hs
  | lam p t ih =>
    let c := (supply.fresh p.name).1
    have hbelow (b : Binder) (hb : t.IsFree b) :
        (Function.update f p c b).serial < (supply.fresh p.name).2.next ∧
          c.below τ (Function.update f p c b) = p.below σ b := by
      by_cases hbp : b = p
      · rw [hbp, Function.update_self, Binder.below, Binder.below, if_pos rfl, if_pos rfl]
        exact ⟨Nat.lt_succ_self _, rfl⟩
      · obtain ⟨hlt, heq⟩ := hf b ⟨hbp, hb⟩
        have hne : f b ≠ c := fun h => Nat.ne_of_lt hlt (congrArg Binder.serial h)
        rw [Function.update_of_ne hbp, Binder.below, Binder.below, if_neg hne, if_neg hbp, heq]
        exact ⟨Nat.lt_succ_of_lt hlt, rfl⟩
    exact congrArg Nameless.lam (ih hbelow)

end BoundTerm

namespace Reducer

variable {t normal : BoundTerm} {env : Environment} {supply : Supply} {k : Nat} {budget : Budget}

/-- A normal term is reduced to a copy of itself.  Each of its variables is looked up once. -/
theorem evaluates_copy {form : Form} {f : Binder → Binder} (ht : t.IsNormal)
    (hf : ∀ b, t.IsFree b → env.lookup? b = some (.value (f b)))
    (hform : form = .weakHead → ¬ t.IsLam) :
    Evaluates form t env supply 0 t.occurrences (.neutral (BoundTerm.copy f t supply).1)
      (BoundTerm.copy f t supply).2 := by
  induction t generalizing env form f supply with
  | var b => exact .value (hf b rfl)
  | app t s iht ihs =>
    have hfunction : Evaluates .weakHead t env supply 0 t.occurrences
        (.neutral (BoundTerm.copy f t supply).1) (BoundTerm.copy f t supply).2 :=
      iht ht.1 (fun b hb => hf b (.inl hb)) fun _ => ht.2.1
    have hargument : Evaluates .normal s env (BoundTerm.copy f t supply).2 0 s.occurrences
        (.neutral (BoundTerm.copy f s (BoundTerm.copy f t supply).2).1)
        (BoundTerm.copy f s (BoundTerm.copy f t supply).2).2 :=
      ihs ht.2.2 (fun b hb => hf b (.inr hb)) nofun
    exact .stuck hfunction hargument
  | lam p t ih =>
    cases form with
    | weakHead => exact absurd trivial (hform rfl)
    | normal =>
      let c := (supply.fresh p.name).1
      have hbelow (b : Binder) (hb : t.IsFree b) :
          (env.extend p (.value c)).lookup? b = some (.value (Function.update f p c b)) := by
        rw [Environment.lookup?_extend]
        by_cases hbp : b = p
        · rw [hbp, Function.update_self, if_pos rfl]
        · rw [Function.update_of_ne hbp, if_neg fun h => hbp h.symm]
          exact hf b ⟨hbp, hb⟩
      exact .enter (ih ht hbelow nofun)

/-- Reducing a normal term takes no beta steps, and it changes no names. -/
theorem exists_normalizes_zero (ht : t.IsNormal) (henv : env.Renames t) (supply : Supply) :
    ∃ normal, Normalizes 0 t env supply normal ∧
      normal.map Binder.name = t.map Binder.name := by
  choose! f hf using henv
  have hcopy : Evaluates .normal t env supply 0 t.occurrences
      (.neutral (BoundTerm.copy f t supply).1) (BoundTerm.copy f t supply).2 :=
    evaluates_copy ht (fun b hb => (hf b hb).1) nofun
  refine ⟨(BoundTerm.copy f t supply).1, ?_, BoundTerm.map_name_copy fun b hb => (hf b hb).2⟩
  exact ⟨_, _, Machine.reaches_of_evaluates hcopy [] [] {}⟩

theorem Normalizes.exists_finishes (h : Normalizes k t env supply normal) :
    ∃ rest done, Finishes .normal t env supply k (.neutral normal) rest done :=
  h

theorem Normalizes.isNormal (h : Normalizes k t env supply normal) : normal.IsNormal := by
  obtain ⟨rest, done, hfinishes⟩ := h.exists_finishes
  exact hfinishes.fits.1

/-- With enough fuel a normal form is found under every budget that has as many beta steps. -/
theorem Normalizes.exists_result (h : Normalizes k t env supply normal)
    (hpermits : budget.Permits k) :
    ∃ fuel, ∀ more, fuel ≤ more →
      (normalize more { budget } t env supply).result = .ok normal := by
  obtain ⟨rest, done, hfinishes⟩ := h.exists_finishes
  obtain ⟨l, -, hreduce⟩ := hfinishes.reduce_eq
  have hsize : ∀ n, budget.maxSteps? = some n →
      (Tally.betaSteps {}).toNat + n.toNat < UInt64.size := by
    intro n _
    rw [UInt64.toNat_zero, Nat.zero_add]
    exact n.toNat_lt_size
  obtain ⟨fuel, hfuel⟩ := hreduce budget {} hsize hpermits
  refine ⟨fuel, fun more hle => ?_⟩
  rw [normalize_eq_iff.mpr (hfuel more hle)]

end Reducer

namespace BoundTerm

variable {t s : BoundTerm}

theorem isNormal_of_alphaEquiv (h : t.alphaEquiv s = true) (hs : s.IsNormal) : t.IsNormal := by
  have hnameless := isNormal_nameless hs
  rw [← alphaEquiv_iff.mp h, nameless_eq_replace] at hnameless
  exact isNormal_of_replace hnameless

theorem isFree_of_alphaEquiv (h : t.alphaEquiv s = true) {b : Binder} (hb : t.IsFree b) :
    s.IsFree b := by
  have hfree : (t.nameless []).HasFree b := by
    rw [nameless_eq_replace]
    exact hasFree_replace.mpr ⟨b, hb, rfl⟩
  rw [alphaEquiv_iff.mp h, nameless_eq_replace] at hfree
  obtain ⟨c, hc, rfl⟩ := hasFree_replace.mp hfree
  exact hc

end BoundTerm

end UntypedLambda
