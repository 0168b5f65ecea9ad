import UntypedLambda.Proofs.Simulation
import UntypedLambda.Reduction.Reducer

namespace UntypedLambda

theorem toNat_saturatingSucc (n : UInt64) :
    (saturatingSucc n).toNat = min (n.toNat + 1) (UInt64.size - 1) := by
  have hlt : n.toNat < UInt64.size := n.toNat_lt_size
  rw [saturatingSucc]
  split
  · next h =>
    have hadd : (n + 1).toNat = n.toNat + 1 := by
      rw [UInt64.toNat_add]
      exact Nat.mod_eq_of_lt h
    omega
  · omega

namespace Machine

theorem Searches.betaSteps {m m' : Machine} (h : m.Searches m') :
    m'.tally.betaSteps = m.tally.betaSteps := by
  cases h <;> rfl

theorem Contracts.toNat_betaSteps {m m' : Machine} (h : m.Contracts m') :
    m'.tally.betaSteps.toNat = min (m.tally.betaSteps.toNat + 1) (UInt64.size - 1) := by
  cases h with
  | beta => exact toNat_saturatingSucc _

theorem Ready.readback? {goal : Form} {m : Machine} (h : Ready goal m) :
    ∃ t, m.readback? = some t := by
  cases h with
  | reduce hwait => exact ⟨_, rfl⟩
  | value _ hwait => exact ⟨_, hwait.readback? _⟩

theorem ready_start (t : BoundTerm) (env : Environment) (form : Form) (supply : Supply)
    (tally : Tally) : Ready form ⟨[.reduce t env form], [], supply, tally⟩ :=
  .reduce .done

theorem holds_start {P : Nat → BoundTerm → Environment → Prop} {t : BoundTerm}
    {env : Environment} {form : Form} {supply : Supply} {tally : Tally} (h : P supply.next t env) :
    Holds P ⟨[.reduce t env form], [], supply, tally⟩ where
  tasks task htask := by
    rw [List.mem_singleton] at htask
    subst htask
    exact h
  values head hhead := by cases hhead

/-- A run that ends with a value has gone through the leftmost contractions of the whole term. -/
theorem leftmostAfter?_run {goal : Form} {budget : Budget} {start : UInt64} {fuel : Nat}
    {m m' : Machine} {head : Head} {t : Nameless} (hready : Ready goal m)
    (hbelow : m.Holds fun n _ env => env.ValuesBelow n) (ht : m.readback? = some t)
    (hrun : run budget start fuel m = (m', .ok head)) :
    Fits goal head ∧ ∃ k, Nameless.leftmostAfter? k t = some (head.readback .free) ∧
      m'.tally.betaSteps.toNat = min (m.tally.betaSteps.toNat + k) (UInt64.size - 1) := by
  -- Searching keeps the term that the machine stands for, and contracting moves it one step on.
  induction fuel generalizing m t with
  | zero => cases hrun
  | succ fuel ih =>
    have hlt : m.tally.betaSteps.toNat < UInt64.size := m.tally.betaSteps.toNat_lt_size
    rw [run] at hrun
    obtain ⟨m₁, hsearch⟩ | ⟨m₁, hcontract⟩ | ⟨last, supply, tally, rfl, hfits⟩ |
      ⟨b, env, form, tasks, values, supply, tally, rfl, hnone⟩ := hready.progress
    · rw [hsearch.step] at hrun
      have hread : m₁.readback? = some t := by
        rw [hsearch.readback? hready hbelow, ht]
      obtain ⟨hfits, k, hk, hsteps⟩ := ih (hsearch.ready hready)
        (hsearch.holds hereditary_valuesBelow hbelow) hread hrun
      refine ⟨hfits, k, hk, ?_⟩
      rw [hsteps, hsearch.betaSteps]
    · cases hallows : budget.allows (m.taken start) with
      | false =>
        rw [hcontract.step_of_not_allows hallows] at hrun
        cases hrun
      | true =>
        rw [hcontract.step hallows] at hrun
        obtain ⟨t₁, ht₁⟩ := (hcontract.ready hready).readback?
        have hstep : t.leftmost? = some t₁ := by
          have hread := hcontract.readback? hready
          rw [ht, ht₁] at hread
          exact hread.symm
        obtain ⟨hfits, k, hk, hsteps⟩ := ih (hcontract.ready hready)
          (hcontract.holds hereditary_valuesBelow hbelow) ht₁ hrun
        refine ⟨hfits, k + 1, (Nameless.leftmostAfter?_succ hstep).trans hk, ?_⟩
        rw [hsteps, hcontract.toNat_betaSteps]
        omega
    · cases hrun
      cases ht
      refine ⟨hfits, 0, rfl, ?_⟩
      omega
    · rw [step_of_unbound hnone] at hrun
      cases hrun

end Machine

namespace Reducer

theorem run_of_normalize {fuel : Nat} {r : Reducer} {t normal : BoundTerm} {env : Environment}
    {supply : Supply} (h : (r.normalize fuel t env supply).result = .ok normal) :
    ∃ m, Machine.run r.budget r.tally.betaSteps fuel
        ⟨[.reduce t env .normal], [], supply, r.tally⟩ = (m, .ok (.neutral normal)) ∧
      (r.normalize fuel t env supply).reducer.tally = m.tally ∧
      (r.normalize fuel t env supply).supply = m.supply := by
  cases hrun : Machine.run r.budget r.tally.betaSteps fuel
      ⟨[.reduce t env .normal], [], supply, r.tally⟩ with
  | mk m result =>
    rw [normalize, reduce, hrun] at h ⊢
    refine ⟨m, ?_, rfl, rfl⟩
    cases result with
    | error stop => cases h
    | ok head =>
      cases head with
      | closure p body captured => cases h
      | neutral s =>
        cases h
        rfl

/-- A reduction that ends has a normal term as its result, and has reached it by the leftmost
outermost contractions from the term that it was given, as many as it took beta steps.  The counter
stops at the largest number of 64 bits. -/
theorem normalize_leftmost {fuel : Nat} {r : Reducer} {t normal : BoundTerm} {env : Environment}
    {supply : Supply} (hbelow : env.ValuesBelow supply.next)
    (h : (r.normalize fuel t env supply).result = .ok normal) :
    normal.IsNormal ∧ ∃ k,
      Nameless.leftmostAfter? k (env.readback t) = some (normal.nameless []) ∧
      (r.normalize fuel t env supply).reducer.tally.betaSteps.toNat =
        min (r.tally.betaSteps.toNat + k) (UInt64.size - 1) := by
  obtain ⟨m, hrun, htally, -⟩ := run_of_normalize h
  have hstart : Machine.readback? ⟨[.reduce t env .normal], [], supply, r.tally⟩ =
      some (env.readback t) := rfl
  obtain ⟨hfits, k, hk, hsteps⟩ := Machine.leftmostAfter?_run
    (Machine.ready_start t env .normal supply r.tally) (Machine.holds_start hbelow) hstart hrun
  refine ⟨hfits.1, k, ?_, ?_⟩
  · rw [hk, BoundTerm.nameless_eq_replace]
    rfl
  · rw [htally, hsteps]

def sharedBinder : BoundTerm :=
  .app (.lam ⟨3, ⟨"x"⟩⟩ (.lam ⟨3, ⟨"x"⟩⟩ (.app (.var ⟨2, ⟨"d"⟩⟩) (.var ⟨3, ⟨"x"⟩⟩))))
    (.var ⟨1, ⟨"y"⟩⟩)

def sharedBinderEnv : Environment :=
  .thunk ⟨2, ⟨"d"⟩⟩ (.lam ⟨3, ⟨"x"⟩⟩ (.var ⟨3, ⟨"x"⟩⟩)) (.value ⟨1, ⟨"y"⟩⟩ ⟨1, ⟨"y"⟩⟩ .empty)
    (.value ⟨1, ⟨"y"⟩⟩ ⟨1, ⟨"y"⟩⟩ .empty)

theorem normalize_leftmost_of_sharedBinder :
    sharedBinderEnv.ValuesBelow 4 ∧
    (normalize 30 {} sharedBinder sharedBinderEnv ⟨4⟩).result =
      .ok (.lam ⟨4, ⟨"x"⟩⟩ (.var ⟨4, ⟨"x"⟩⟩)) ∧
    ∃ k, Nameless.leftmostAfter? k (sharedBinderEnv.readback sharedBinder) =
        some (.lam (.bound 0)) ∧
      (normalize 30 {} sharedBinder sharedBinderEnv ⟨4⟩).reducer.tally.betaSteps.toNat =
        min (0 + k) (UInt64.size - 1) := by
  have hbelow : sharedBinderEnv.ValuesBelow (Supply.mk 4).next := by
    simp [sharedBinderEnv, Environment.ValuesBelow]
  have hrun : (normalize 30 {} sharedBinder sharedBinderEnv ⟨4⟩).result =
      .ok (.lam ⟨4, ⟨"x"⟩⟩ (.var ⟨4, ⟨"x"⟩⟩)) := rfl
  exact ⟨hbelow, hrun, (normalize_leftmost hbelow hrun).2⟩

end Reducer

end UntypedLambda
