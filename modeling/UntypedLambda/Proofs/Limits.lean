import Mathlib.Logic.Function.Iterate
import UntypedLambda.Proofs.Termination

namespace UntypedLambda

theorem toNat_iterate_saturatingSucc (k : Nat) (n : UInt64) :
    (saturatingSucc^[k] n).toNat = min (n.toNat + k) (UInt64.size - 1) := by
  induction k generalizing n with
  | zero =>
    have hlt : n.toNat < UInt64.size := n.toNat_lt_size
    rw [Function.iterate_zero_apply]
    omega
  | succ k ih =>
    rw [Function.iterate_succ_apply, ih, toNat_saturatingSucc]
    omega

def Tally.after (tally : Tally) (betaSteps lookups : Nat) : Tally where
  betaSteps := saturatingSucc^[betaSteps] tally.betaSteps
  lookups := saturatingSucc^[lookups] tally.lookups

theorem Tally.after_after (tally : Tally) (j k l m : Nat) :
    (tally.after j l).after k m = tally.after (k + j) (m + l) := by
  simp only [after, Function.iterate_add_apply]

theorem Tally.toNat_betaSteps_after (tally : Tally) (k l : Nat) :
    (tally.after k l).betaSteps.toNat = min (tally.betaSteps.toNat + k) (UInt64.size - 1) :=
  toNat_iterate_saturatingSucc k tally.betaSteps

theorem Tally.toNat_lookups_after (tally : Tally) (k l : Nat) :
    (tally.after k l).lookups.toNat = min (tally.lookups.toNat + l) (UInt64.size - 1) :=
  toNat_iterate_saturatingSucc l tally.lookups

namespace Machine

variable {k : Nat} {m m₁ m₂ : Machine} {budget budget' : Budget} {start : UInt64}

theorem Searches.exists_lookups (h : m.Searches m₁) :
    ∃ l, m₁.tally = m.tally.after 0 l ∧
      ∀ tally, Searches { m with tally } { m₁ with tally := tally.after 0 l } := by
  cases h with
  | thunk h => exact ⟨1, rfl, fun _ => .thunk h⟩
  | value h => exact ⟨1, rfl, fun _ => .value h⟩
  | app => exact ⟨0, rfl, fun _ => .app⟩
  | closure => exact ⟨0, rfl, fun _ => .closure⟩
  | enter => exact ⟨0, rfl, fun _ => .enter⟩
  | argument => exact ⟨0, rfl, fun _ => .argument⟩
  | buildApp => exact ⟨0, rfl, fun _ => .buildApp⟩
  | buildLam => exact ⟨0, rfl, fun _ => .buildLam⟩

theorem Contracts.tally_eq (h : m.Contracts m₁) :
    m₁.tally = m.tally.after 1 0 ∧
      ∀ tally, Contracts { m with tally } { m₁ with tally := tally.after 1 0 } := by
  cases h with
  | beta => exact ⟨rfl, fun _ => .beta⟩

/-- The same steps can be done whatever the counters stand at, and they always add the same. -/
theorem Reaches.exists_lookups (h : Reaches k m m₂) :
    ∃ l, m₂.tally = m.tally.after k l ∧
      ∀ tally, Reaches k { m with tally } { m₂ with tally := tally.after k l } := by
  induction h with
  | refl m => exact ⟨0, rfl, fun tally => .refl _⟩
  | @search k m m₁ m₂ hsearch _ ih =>
    obtain ⟨l, htally, hrest⟩ := ih
    obtain ⟨l₁, htally₁, hsearch₁⟩ := hsearch.exists_lookups
    refine ⟨l + l₁, ?_, fun tally => ?_⟩
    · rw [htally, htally₁, Tally.after_after, Nat.add_zero]
    · have hreaches := hrest (tally.after 0 l₁)
      rw [Tally.after_after, Nat.add_zero] at hreaches
      exact .search (hsearch₁ tally) hreaches
  | @contract k m m₁ m₂ hcontract _ ih =>
    obtain ⟨l, htally, hrest⟩ := ih
    obtain ⟨htally₁, hcontract₁⟩ := hcontract.tally_eq
    refine ⟨l, ?_, fun tally => ?_⟩
    · rw [htally, htally₁, Tally.after_after]
      rfl
    · have hreaches := hrest (tally.after 1 0)
      rw [Tally.after_after, Nat.add_zero] at hreaches
      exact .contract (hcontract₁ tally) hreaches

theorem Reaches.ready {goal : Form} (h : Reaches k m m₂) (hready : Ready goal m) :
    Ready goal m₂ := by
  induction h with
  | refl m => exact hready
  | search hsearch _ ih => exact ih (hsearch.ready hready)
  | contract hcontract _ ih => exact ih (hcontract.ready hready)

/-- A run that ends with a value ends with it under every budget that allows as much. -/
theorem run_eq_ok_of_allows
    (hle : ∀ taken, budget.allows taken = true → budget'.allows taken = true) {fuel : Nat}
    {m' : Machine} {head : Head} (hrun : run budget start fuel m = (m', .ok head)) :
    run budget' start fuel m = (m', .ok head) := by
  induction fuel generalizing m with
  | zero => cases hrun
  | succ fuel ih =>
    rw [run] at hrun ⊢
    obtain ⟨m₁, hsearch⟩ | ⟨m₁, hcontract⟩ | hhalts := m.step_cases
    · rw [hsearch.step] at hrun ⊢
      exact ih hrun
    · cases hallows : budget.allows (m.taken start) with
      | false =>
        rw [hcontract.step_of_not_allows hallows] at hrun
        cases hrun
      | true =>
        rw [hcontract.step hallows] at hrun
        rw [hcontract.step (hle _ hallows)]
        exact ih hrun
    -- The end of a run does not depend on the budget.
    · cases hhalts with
      | value h =>
        rw [h] at hrun ⊢
        exact hrun
      | fault h =>
        rw [h] at hrun
        cases hrun

/-- A run that its limit cuts off has taken as many beta steps as the limit allows. -/
theorem Ready.betaSteps_of_limitExceeded {goal : Form} {n limit : UInt64} {m' : Machine}
    (hready : Ready goal m) (hspent : m.Spent (.limited n) start 0) {fuel : Nat}
    (hrun : run (.limited n) start fuel m = (m', .error (.limitExceeded limit))) :
    limit = n ∧ m'.tally.betaSteps.toNat = start.toNat + n.toNat := by
  obtain ⟨k, m₁, -, -, hspent₁, hends⟩ := hready.run_ends hspent fuel
  rw [hrun] at hends
  cases hends with
  | limit hcontract hallows =>
    obtain ⟨hsteps, hle, -⟩ := hspent₁ n rfl
    have hnot : ¬ (Budget.limited n).Permits (0 + k + 1) := by
      intro hpermits
      rw [hspent₁.allows_iff.mpr hpermits] at hallows
      cases hallows
    rw [Budget.permits_limited] at hnot
    have hk : 0 + k = n.toNat := by omega
    rw [hk] at hsteps
    exact ⟨rfl, hsteps⟩

end Machine

namespace Reducer

/-- Without a limit and with counters at zero the reduction ends with `head` after `k` beta steps;
`rest` are the serial numbers that are left and `done` is what was counted. -/
def Finishes (form : Form) (t : BoundTerm) (env : Environment) (supply : Supply) (k : Nat)
    (head : Head) (rest : Supply) (done : Tally) : Prop :=
  Machine.Reaches k ⟨[.reduce t env form], [], supply, {}⟩ ⟨[], [head], rest, done⟩

variable {form : Form} {t : BoundTerm} {env : Environment} {supply rest : Supply} {k : Nat}
  {head : Head} {done tally : Tally} {budget : Budget} {n : UInt64}

theorem Finishes.fits (h : Finishes form t env supply k head rest done) :
    Machine.Fits form head := by
  have hready := Machine.Reaches.ready h (Machine.ready_start t env form supply {})
  cases hready with
  | value hfits hwait =>
    cases hwait with
    | done => exact hfits

/-- Under every budget that has as many beta steps the reduction ends in the same way. -/
theorem Finishes.reduce_eq (h : Finishes form t env supply k head rest done) :
    ∃ l, done = Tally.after {} k l ∧ ∀ (budget : Budget) (tally : Tally),
      (∀ n, budget.maxSteps? = some n → tally.betaSteps.toNat + n.toNat < UInt64.size) →
      budget.Permits k → ∃ fuel, ∀ more, fuel ≤ more →
        reduce more { budget, tally } form t env supply =
          ⟨.ok head, { budget, tally := tally.after k l }, rest⟩ := by
  obtain ⟨l, hdone, hreaches⟩ := Machine.Reaches.exists_lookups h
  refine ⟨l, hdone, ?_⟩
  intro budget tally hsize hpermits
  rw [← Nat.zero_add k] at hpermits
  obtain ⟨steps, hrun⟩ := (hreaches tally).run (Machine.spent_start hsize) hpermits
  refine ⟨1 + steps, ?_⟩
  intro more hle
  obtain ⟨fuel, rfl⟩ : ∃ fuel, more = fuel + 1 + steps := ⟨more - 1 - steps, by omega⟩
  rw [reduce, hrun (fuel + 1)]
  rfl

/-- A reduction that ends with a head has reached it with as many beta steps as its budget has. -/
theorem reaches_of_reduce {fuel : Nat}
    (hsize : ∀ n, budget.maxSteps? = some n → tally.betaSteps.toNat + n.toNat < UInt64.size)
    (h : (reduce fuel { budget, tally } form t env supply).result = .ok head) :
    ∃ k, budget.Permits k ∧ Machine.Reaches k ⟨[.reduce t env form], [], supply, tally⟩
      ⟨[], [head], (reduce fuel { budget, tally } form t env supply).supply,
        (reduce fuel { budget, tally } form t env supply).reducer.tally⟩ := by
  have hrun : Machine.run budget tally.betaSteps fuel ⟨[.reduce t env form], [], supply, tally⟩ =
      (_, .ok head) := Prod.ext rfl h
  obtain ⟨k, hreaches, hpermits⟩ := (Machine.ready_start t env form supply tally).reaches_of_run
    (Machine.spent_start hsize) hrun
  rw [Nat.zero_add] at hpermits
  exact ⟨k, hpermits, hreaches⟩

/-- If no end can be reached with as many beta steps as the limit allows, the reduction is cut off
when it has taken them. -/
theorem exists_reduce_limitExceeded (hsize : tally.betaSteps.toNat + n.toNat < UInt64.size)
    (hcovers : env.Covers t) (hscoped : env.WellScoped)
    (hlong : ∀ k head rest done, Finishes form t env supply k head rest done → n.toNat < k) :
    ∃ fuel, ∀ more, fuel ≤ more →
      (reduce more { budget := .limited n, tally } form t env supply).result =
        .error (.limitExceeded n) ∧
      (reduce more { budget := .limited n, tally } form t env
        supply).reducer.tally.betaSteps.toNat = tally.betaSteps.toNat + n.toNat := by
  have hsize' : ∀ m, (Budget.limited n).maxSteps? = some m →
      tally.betaSteps.toNat + m.toNat < UInt64.size := by
    intro m hm
    cases hm
    exact hsize
  have hready := Machine.ready_start t env form supply tally
  obtain ⟨fuel, hends⟩ := Machine.exists_run_ne_outOfFuel hsize
    ⟨[.reduce t env form], [], supply, tally⟩
  refine ⟨fuel, ?_⟩
  intro more hle
  have hmore := Machine.run_of_le hle hends
  rw [← hmore] at hends
  rcases Machine.run_result (.limited n) tally.betaSteps more hready
    (Machine.holds_start ⟨hcovers, hscoped⟩) with ⟨head, -, hok⟩ | ⟨limit, -, hlimit⟩ | hfuel
  · obtain ⟨k, hpermits, hreaches⟩ := reaches_of_reduce hsize' hok
    obtain ⟨l, -, hfrom⟩ := hreaches.exists_lookups
    have hlt := hlong k head _ _ (hfrom {})
    have hle := Budget.permits_limited.mp hpermits
    omega
  · have hrun : Machine.run (.limited n) tally.betaSteps more
        ⟨[.reduce t env form], [], supply, tally⟩ = (_, .error (.limitExceeded limit)) :=
      Prod.ext rfl hlimit
    obtain ⟨rfl, hsteps⟩ :=
      hready.betaSteps_of_limitExceeded (Machine.spent_start hsize') hrun
    exact ⟨hlimit, hsteps⟩
  · exact absurd hfuel hends

/-- A call of a reducer with the limit `n` comes to what it comes to without a limit, if that is
reached with at most `n` beta steps, and is cut off after `n` beta steps otherwise.  `finishes` says
how a call without a limit ends: the beta steps that it takes, its result, the serial numbers that
are left, and what a reducer counts that has counted nothing before. -/
structure CutsExactly {α : Type} (call : Nat → Reducer → Reduction α)
    (finishes : Nat → α → Supply → Tally → Prop) (n : UInt64) (tally : Tally) : Prop where
  /-- A call without a limit returns if and only if it finishes. -/
  unlimited : ∀ a rest done,
    (∃ fuel, call fuel {} = ⟨.ok a, { tally := done }, rest⟩) ↔ ∃ k, finishes k a rest done
  /-- The beta steps are those that are counted, until the counter stops. -/
  counted : ∀ k a rest done, finishes k a rest done →
    done.betaSteps.toNat = min k (UInt64.size - 1)
  /-- Within the limit the result is the same, with the same serial numbers, and the same is added
  to the counters. -/
  within : ∀ k a rest done, finishes k a rest done → k ≤ n.toNat →
    ∃ fuel, ∀ more, fuel ≤ more → ∃ tally' : Tally,
      call more { budget := .limited n, tally } =
        ⟨.ok a, { budget := .limited n, tally := tally' }, rest⟩ ∧
      tally'.betaSteps.toNat = tally.betaSteps.toNat + done.betaSteps.toNat ∧
      tally'.lookups.toNat =
        min (tally.lookups.toNat + done.lookups.toNat) (UInt64.size - 1)
  /-- A call that takes more beta steps or never ends is cut off after `n` of them. -/
  beyond : (∀ k a rest done, finishes k a rest done → n.toNat < k) →
    ∃ fuel, ∀ more, fuel ≤ more →
      (call more { budget := .limited n, tally }).result = .error (.limitExceeded n) ∧
      (call more { budget := .limited n, tally }).reducer.tally.betaSteps.toNat =
        tally.betaSteps.toNat + n.toNat
  /-- What was counted before makes no difference to the result. -/
  independent : ∀ tally' : Tally, tally'.betaSteps.toNat + n.toNat < UInt64.size →
    ∃ fuel, ∀ more, fuel ≤ more →
      (call more { budget := .limited n, tally }).result =
        (call more { budget := .limited n, tally := tally' }).result
  /-- With a greater limit the same is returned. -/
  enlarged : ∀ n' fuel a, n ≤ n' →
    (call fuel { budget := .limited n, tally }).result = .ok a →
    call fuel { budget := .limited n', tally } =
      { call fuel { budget := .limited n, tally } with
        reducer := { (call fuel { budget := .limited n, tally }).reducer with
          budget := .limited n' } }

theorem Finishes.exists_reduce_limited (h : Finishes form t env supply k head rest done)
    (hsize : tally.betaSteps.toNat + n.toNat < UInt64.size) (hle : k ≤ n.toNat) :
    ∃ fuel, ∀ more, fuel ≤ more → ∃ tally' : Tally,
      reduce more { budget := .limited n, tally } form t env supply =
        ⟨.ok head, { budget := .limited n, tally := tally' }, rest⟩ ∧
      tally'.betaSteps.toNat = tally.betaSteps.toNat + done.betaSteps.toNat ∧
      tally'.lookups.toNat =
        min (tally.lookups.toNat + done.lookups.toNat) (UInt64.size - 1) := by
  obtain ⟨l, rfl, hreduce⟩ := h.reduce_eq
  have hsize' : ∀ m, (Budget.limited n).maxSteps? = some m →
      tally.betaSteps.toNat + m.toNat < UInt64.size := by
    intro m hm
    cases hm
    exact hsize
  obtain ⟨fuel, hfuel⟩ := hreduce _ _ hsize' (Budget.permits_limited.mpr hle)
  refine ⟨fuel, fun more hmore => ⟨_, hfuel more hmore, ?_, ?_⟩⟩
  · rw [Tally.toNat_betaSteps_after, Tally.toNat_betaSteps_after, UInt64.toNat_zero]
    omega
  · rw [Tally.toNat_lookups_after, Tally.toNat_lookups_after, UInt64.toNat_zero]
    omega

/-- Both calls are cut off or both are not, since the beta steps that are needed are the same. -/
theorem exists_reduce_result_eq {tally' : Tally}
    (hsize : tally.betaSteps.toNat + n.toNat < UInt64.size)
    (hsize' : tally'.betaSteps.toNat + n.toNat < UInt64.size) (hcovers : env.Covers t)
    (hscoped : env.WellScoped) :
    ∃ fuel, ∀ more, fuel ≤ more →
      (reduce more { budget := .limited n, tally } form t env supply).result =
        (reduce more { budget := .limited n, tally := tally' } form t env supply).result := by
  by_cases hshort : ∃ k head rest done, Finishes form t env supply k head rest done ∧ k ≤ n.toNat
  · obtain ⟨k, head, rest, done, hfinishes, hle⟩ := hshort
    obtain ⟨fuel, hfuel⟩ := hfinishes.exists_reduce_limited hsize hle
    obtain ⟨fuel', hfuel'⟩ := hfinishes.exists_reduce_limited hsize' hle
    refine ⟨max fuel fuel', fun more hmore => ?_⟩
    obtain ⟨_, hreduce, -, -⟩ := hfuel more (by omega)
    obtain ⟨_, hreduce', -, -⟩ := hfuel' more (by omega)
    rw [hreduce, hreduce']
  · have hlong : ∀ k head rest done, Finishes form t env supply k head rest done →
        n.toNat < k := by
      intro k head rest done hfinishes
      by_contra hle
      exact hshort ⟨k, head, rest, done, hfinishes, Nat.le_of_not_lt hle⟩
    obtain ⟨fuel, hfuel⟩ := exists_reduce_limitExceeded hsize hcovers hscoped hlong
    obtain ⟨fuel', hfuel'⟩ := exists_reduce_limitExceeded hsize' hcovers hscoped hlong
    refine ⟨max fuel fuel', fun more hmore => ?_⟩
    rw [(hfuel more (by omega)).1, (hfuel' more (by omega)).1]

theorem reduce_of_le {n' : UInt64} {fuel : Nat} (hle : n ≤ n')
    (h : (reduce fuel { budget := .limited n, tally } form t env supply).result = .ok head) :
    reduce fuel { budget := .limited n', tally } form t env supply =
      { reduce fuel { budget := .limited n, tally } form t env supply with
        reducer := { (reduce fuel { budget := .limited n, tally } form t env supply).reducer with
          budget := .limited n' } } := by
  have hallows : ∀ taken, (Budget.limited n).allows taken = true →
      (Budget.limited n').allows taken = true := by
    intro taken htaken
    simp only [Budget.allows, decide_eq_true_iff] at htaken ⊢
    exact UInt64.lt_of_lt_of_le htaken hle
  obtain ⟨m', hrun⟩ : ∃ m', Machine.run (.limited n) tally.betaSteps fuel
      ⟨[.reduce t env form], [], supply, tally⟩ = (m', .ok head) := ⟨_, Prod.ext rfl h⟩
  have hrun' := Machine.run_eq_ok_of_allows hallows hrun
  simp only [reduce, hrun, hrun']

theorem reduce_cutsExactly (hsize : tally.betaSteps.toNat + n.toNat < UInt64.size)
    (hcovers : env.Covers t) (hscoped : env.WellScoped) (form : Form) (supply : Supply) :
    CutsExactly (fun fuel r => r.reduce fuel form t env supply) (Finishes form t env supply) n
      tally where
  unlimited head rest done := by
    constructor
    · rintro ⟨fuel, hreduce⟩
      have hsize : ∀ n, Budget.unbounded.maxSteps? = some n →
          (Tally.betaSteps {}).toNat + n.toNat < UInt64.size := fun n hn => by cases hn
      obtain ⟨k, -, hreaches⟩ := reaches_of_reduce hsize (congrArg Reduction.result hreduce)
      rw [hreduce] at hreaches
      exact ⟨k, hreaches⟩
    · rintro ⟨k, hfinishes⟩
      obtain ⟨l, rfl, hreduce⟩ := hfinishes.reduce_eq
      obtain ⟨fuel, hfuel⟩ := hreduce .unbounded {} (fun n hn => by cases hn)
        (Budget.permits_unbounded k)
      exact ⟨fuel, hfuel fuel (Nat.le_refl _)⟩
  counted k head rest done hfinishes := by
    obtain ⟨l, rfl, -⟩ := hfinishes.reduce_eq
    rw [Tally.toNat_betaSteps_after, UInt64.toNat_zero, Nat.zero_add]
  within k head rest done hfinishes hle := hfinishes.exists_reduce_limited hsize hle
  beyond hlong := exists_reduce_limitExceeded hsize hcovers hscoped hlong
  independent tally' hsize' := exists_reduce_result_eq hsize hsize' hcovers hscoped
  enlarged n' fuel head hle hok := reduce_of_le hle hok

variable {normal : BoundTerm}

theorem bind_termOf_eq_ok_iff {result : Except Stop Head} :
    result >>= termOf = .ok normal ↔ result = .ok (.neutral normal) := by
  rcases result with stop | (⟨p, body, captured⟩ | ⟨s⟩)
  · exact iff_of_false (fun h => by cases h) (fun h => by cases h)
  · exact iff_of_false (fun h => by cases h) (fun h => by cases h)
  · constructor
    · intro h
      cases h
      rfl
    · intro h
      cases h
      rfl

theorem normalize_eq_iff {fuel : Nat} {r r' : Reducer} :
    r.normalize fuel t env supply = ⟨.ok normal, r', rest⟩ ↔
      r.reduce fuel .normal t env supply = ⟨.ok (.neutral normal), r', rest⟩ := by
  rw [normalize]
  obtain ⟨result, reducer, rest'⟩ := r.reduce fuel .normal t env supply
  simp only [Reduction.mk.injEq, bind_termOf_eq_ok_iff]

theorem CutsExactly.normalize
    (h : CutsExactly (fun fuel r => r.reduce fuel .normal t env supply)
      (Finishes .normal t env supply) n tally) :
    CutsExactly (fun fuel r => r.normalize fuel t env supply)
      (fun k normal => Finishes .normal t env supply k (.neutral normal)) n tally where
  unlimited normal rest done := by
    simp only [normalize_eq_iff]
    exact h.unlimited (.neutral normal) rest done
  counted k normal rest done hfinishes := h.counted k (.neutral normal) rest done hfinishes
  within k normal rest done hfinishes hle := by
    simp only [normalize_eq_iff]
    exact h.within k (.neutral normal) rest done hfinishes hle
  beyond hlong := by
    have hheads : ∀ k head rest done, Finishes .normal t env supply k head rest done →
        n.toNat < k := by
      intro k head rest done hfinishes
      cases head with
      | closure p body captured => cases hfinishes.fits
      | neutral normal => exact hlong k normal rest done hfinishes
    obtain ⟨fuel, hfuel⟩ := h.beyond hheads
    refine ⟨fuel, fun more hmore => ⟨?_, (hfuel more hmore).2⟩⟩
    have hlimit := (hfuel more hmore).1
    simp only [Reducer.normalize, hlimit]
    rfl
  independent tally' hsize' := by
    obtain ⟨fuel, hfuel⟩ := h.independent tally' hsize'
    refine ⟨fuel, fun more hmore => ?_⟩
    have hsame := hfuel more hmore
    simp only [Reducer.normalize, hsame]
  enlarged n' fuel normal hle hok := by
    have hhead := bind_termOf_eq_ok_iff.mp hok
    have hsame := h.enlarged n' fuel (.neutral normal) hle hhead
    simp only [Reducer.normalize, hsame]

/-- A limit is an exact cut.  A reduction to a normal form or to an exposed head that takes at most
`n` beta steps comes to the same result under the limit `n`, and every other one is cut off after
`n` of them, as long as the counter has room for `n` beta steps more. -/
theorem limited_cutsExactly (hsize : tally.betaSteps.toNat + n.toNat < UInt64.size)
    (hcovers : env.Covers t) (hscoped : env.WellScoped) (supply : Supply) :
    CutsExactly (fun fuel r => r.normalize fuel t env supply)
      (fun k normal => Finishes .normal t env supply k (.neutral normal)) n tally ∧
    CutsExactly (fun fuel r => r.weakHead fuel t env supply) (Finishes .weakHead t env supply) n
      tally :=
  ⟨(reduce_cutsExactly hsize hcovers hscoped .normal supply).normalize,
    reduce_cutsExactly hsize hcovers hscoped .weakHead supply⟩

/-- Two beta steps fit under the limit of two, and the counter stands at its largest number then. -/
theorem limited_cutsExactly_of_sharedBinder :
    (18446744073709551613 : UInt64).toNat + (2 : UInt64).toNat < UInt64.size ∧
    sharedBinderEnv.Covers sharedBinder ∧ sharedBinderEnv.WellScoped ∧
    ∃ fuel, ∀ more, fuel ≤ more →
      (normalize more { budget := .limited 2, tally := ⟨18446744073709551613, 0⟩ } sharedBinder
        sharedBinderEnv ⟨4⟩).result = .ok (.lam ⟨4, ⟨"x"⟩⟩ (.var ⟨4, ⟨"x"⟩⟩)) := by
  let tally : Tally := ⟨18446744073709551613, 0⟩
  have hsize : tally.betaSteps.toNat + (2 : UInt64).toNat < UInt64.size := by decide
  have hcovers : sharedBinderEnv.Covers sharedBinder := by
    intro b hb
    have hfree : b = ⟨2, ⟨"d"⟩⟩ ∨ b = ⟨1, ⟨"y"⟩⟩ := by
      rcases hb with ⟨hne, -, hd | hx⟩ | hy
      · exact .inl hd
      · exact absurd hx hne
      · exact .inr hy
    rcases hfree with rfl | rfl <;> rfl
  have hscoped : sharedBinderEnv.WellScoped := by
    refine ⟨⟨?_, trivial⟩, trivial⟩
    intro b hb
    exact absurd hb.2 hb.1
  have hcut := (limited_cutsExactly hsize hcovers hscoped ⟨4⟩).1
  have hfree : normalize 30 {} sharedBinder sharedBinderEnv ⟨4⟩ =
      ⟨.ok (.lam ⟨4, ⟨"x"⟩⟩ (.var ⟨4, ⟨"x"⟩⟩)), { tally := ⟨2, 3⟩ }, ⟨5⟩⟩ := rfl
  obtain ⟨k, hfinishes⟩ := (hcut.unlimited _ _ _).mp ⟨30, hfree⟩
  have hcount : (2 : UInt64).toNat = min k (UInt64.size - 1) := hcut.counted k _ _ _ hfinishes
  have hk : k ≤ (2 : UInt64).toNat := by
    have htwo : (2 : UInt64).toNat = 2 := rfl
    have hsize : UInt64.size = 18446744073709551616 := rfl
    omega
  obtain ⟨fuel, hfuel⟩ := hcut.within k _ _ _ hfinishes hk
  refine ⟨hsize, hcovers, hscoped, fuel, fun more hmore => ?_⟩
  obtain ⟨tally', hcall, -, -⟩ := hfuel more hmore
  exact congrArg Reduction.result hcall

end Reducer

end UntypedLambda
