import UntypedLambda.Proofs.NormalTerms
import UntypedLambda.Proofs.OwnBinders

namespace UntypedLambda

/-- Looked up in the environment the binder stands for itself, and it is none of those that are
still to be drawn from `supply`. -/
def Environment.Keeps (env : Environment) (supply : Supply) (b : Binder) : Prop :=
  env.lookup? b = some (.value b) ∧ b.serial < supply.next

namespace BoundTerm

variable {t : BoundTerm} {supply : Supply}

/-- A copy in which the variables stand for themselves is the same term. -/
theorem copy_alphaEquiv (ht : ∀ b, t.IsFree b → b.serial < supply.next) :
    (copy id t supply).1.alphaEquiv t = true := by
  rw [alphaEquiv_iff, nameless_eq_replace, nameless_eq_replace]
  exact replace_copy fun b hb => ⟨ht b hb, rfl⟩

end BoundTerm

namespace Reducer

variable {form : Form} {t normal : BoundTerm} {env : Environment} {supply rest : Supply} {k l : Nat}

theorem Evaluates.isNormal (h : Evaluates form t env supply k l (.neutral normal) rest) :
    normal.IsNormal := by
  have hfinishes : Finishes form t env supply k (.neutral normal) rest (Tally.after {} k l) :=
    Machine.reaches_of_evaluates h [] [] {}
  exact hfinishes.fits.1

/-- A normal term is copied under every budget, whatever the counters stand at. -/
theorem exists_normalize_copy (ht : t.IsNormal)
    (henv : ∀ b, t.IsFree b → env.lookup? b = some (.value b)) (r : Reducer) (supply : Supply) :
    ∃ fuel, ∀ more, fuel ≤ more → r.normalize more t env supply =
      ⟨.ok (BoundTerm.copy id t supply).1, { r with tally := r.tally.after 0 t.occurrences },
        (BoundTerm.copy id t supply).2⟩ := by
  have hcopy : Evaluates .normal t env supply 0 t.occurrences
      (.neutral (BoundTerm.copy id t supply).1) (BoundTerm.copy id t supply).2 :=
    evaluates_copy ht henv nofun
  obtain ⟨fuel, hfuel⟩ := hcopy.exists_reduce_of_zero r
  exact ⟨fuel, fun more hle => normalize_eq_iff.mpr (hfuel more hle)⟩

/-- Whatever the budget and the counters are, reducing a normal term returns the same term with all
of its names, takes no beta steps and looks every variable up once.  So a term that was reduced can be
reduced once more in its environment, and it stays the same. -/
theorem normalize_fixedPoints (env : Environment) (supply : Supply) :
    (∀ t : BoundTerm, t.IsNormal → (∀ b, t.IsFree b → env.Keeps supply b) →
      ∃ copy : BoundTerm, copy.alphaEquiv t = true ∧
        copy.map Binder.name = t.map Binder.name ∧
        ∀ r : Reducer, ∃ fuel rest, ∀ more, fuel ≤ more → r.normalize more t env supply =
          ⟨.ok copy, { r with tally := r.tally.after 0 t.occurrences }, rest⟩) ∧
    ((∀ b, env.Offers b → env.Keeps supply b) →
      ∀ (t normal : BoundTerm) fuel rest, t.normalFormIn fuel env supply = (.ok normal, rest) →
      ∀ supply' : Supply, rest.next ≤ supply'.next →
        ∃ again : BoundTerm, again.alphaEquiv normal = true ∧
          ∃ fuel rest, ∀ more, fuel ≤ more →
            normal.normalFormIn more env supply' = (.ok again, rest)) := by
  constructor
  · intro t ht henv
    refine ⟨(BoundTerm.copy id t supply).1, BoundTerm.copy_alphaEquiv fun b hb => (henv b hb).2,
      BoundTerm.map_name_copy fun b _ => rfl, fun r => ?_⟩
    obtain ⟨fuel, hfuel⟩ := exists_normalize_copy ht (fun b hb => (henv b hb).1) r supply
    exact ⟨fuel, _, hfuel⟩
  · intro henv t normal fuel rest hnormal supply' hle
    have hok : (normalize fuel {} t env supply).result = .ok normal := congrArg Prod.fst hnormal
    obtain ⟨k, l, hevaluates, -⟩ := exists_evaluates_of_reduce (bind_termOf_eq_ok_iff.mp hok)
    have hfree (b : Binder) (hb : normal.IsFree b) : env.Keeps supply b :=
      henv b (hevaluates.offers hb)
    have hnext : supply.next ≤ rest.next := by
      calc supply.next
          ≤ supply.next + normal.parameters.length := Nat.le_add_right _ _
        _ = (normalize fuel {} t env supply).supply.next := hevaluates.draws.next.symm
        _ = rest.next := congrArg (fun result => result.2.next) hnormal
    obtain ⟨fuel', hfuel'⟩ :=
      exists_normalize_copy hevaluates.isNormal (fun b hb => (hfree b hb).1) {} supply'
    refine ⟨(BoundTerm.copy id normal supply').1, BoundTerm.copy_alphaEquiv fun b hb => ?_,
      fuel', (BoundTerm.copy id normal supply').2, fun more hmore => ?_⟩
    · exact Nat.lt_of_lt_of_le (hfree b hb).2 (Nat.le_trans hnext hle)
    · rw [BoundTerm.normalFormIn, hfuel' more hmore]

def shadowedNormal : BoundTerm :=
  .app (.var ⟨1, ⟨"y"⟩⟩)
    (.lam ⟨2, ⟨"x"⟩⟩ (.app (.var ⟨2, ⟨"x"⟩⟩)
      (.lam ⟨1, ⟨"y"⟩⟩ (.lam ⟨2, ⟨"x"⟩⟩ (.app (.var ⟨1, ⟨"y"⟩⟩) (.var ⟨2, ⟨"x"⟩⟩))))))

/-- No beta step is allowed for the first term, and its copy has a binder for every abstraction.
The second term is reduced to a term in which the rigid `y` is free, and then once more. -/
theorem normalize_fixedPoints_of_shadowedNormal :
    (∃ copy : BoundTerm, copy.alphaEquiv shadowedNormal = true ∧
      copy.map Binder.name = shadowedNormal.map Binder.name ∧
      ∀ r : Reducer, ∃ fuel rest, ∀ more, fuel ≤ more →
        r.normalize more shadowedNormal sharedBinderEnv ⟨4⟩ =
          ⟨.ok copy, { r with tally := r.tally.after 0 (Term.occurrences shadowedNormal) },
            rest⟩) ∧
    (normalize 30 { budget := .limited 0 } shadowedNormal sharedBinderEnv ⟨4⟩).result =
      .ok (.app (.var ⟨1, ⟨"y"⟩⟩)
        (.lam ⟨4, ⟨"x"⟩⟩ (.app (.var ⟨4, ⟨"x"⟩⟩)
          (.lam ⟨5, ⟨"y"⟩⟩ (.lam ⟨6, ⟨"x"⟩⟩ (.app (.var ⟨5, ⟨"y"⟩⟩) (.var ⟨6, ⟨"x"⟩⟩))))))) ∧
    appliedTwice.normalFormIn 20 sharedBinderEnv ⟨4⟩ = (.ok appliedTwiceNormal, ⟨6⟩) ∧
    ∃ again : BoundTerm, again.alphaEquiv appliedTwiceNormal = true ∧
      ∃ fuel rest, ∀ more, fuel ≤ more →
        appliedTwiceNormal.normalFormIn more sharedBinderEnv ⟨6⟩ = (.ok again, rest) := by
  obtain ⟨hcopy, hagain⟩ := normalize_fixedPoints sharedBinderEnv ⟨4⟩
  have hfree (b : Binder) (hb : Term.IsFree shadowedNormal b) : b = ⟨1, ⟨"y"⟩⟩ := by
    simp only [shadowedNormal, Term.IsFree] at hb
    tauto
  have hy : sharedBinderEnv.Keeps ⟨4⟩ ⟨1, ⟨"y"⟩⟩ := ⟨rfl, by decide⟩
  have hnormal : Term.IsNormal shadowedNormal := by simp [shadowedNormal, Term.IsNormal, Term.IsLam]
  have hoffers (b : Binder) (hb : sharedBinderEnv.Offers b) : b = ⟨1, ⟨"y"⟩⟩ := by
    have hvalue := hb.hasValue
    simpa [sharedBinderEnv, Environment.HasValue, eq_comm] using hvalue
  refine ⟨hcopy shadowedNormal hnormal fun b hb => ?_, rfl, rfl, ?_⟩
  · rw [hfree b hb]
    exact hy
  · refine hagain (fun b hb => ?_) appliedTwice appliedTwiceNormal 20 ⟨6⟩ rfl ⟨6⟩ (Nat.le_refl _)
    rw [hoffers b hb]
    exact hy

end Reducer

end UntypedLambda
