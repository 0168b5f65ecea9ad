import UntypedLambda.Proofs.Confluence
import UntypedLambda.Proofs.NormalOrder
import UntypedLambda.Proofs.Standardization

/-! Between two beta steps the machine only searches, and a search ends.  So a reduction without a
budget goes on forever only if the leftmost contractions do. -/
namespace UntypedLambda

namespace Machine

abbrev SearchesTo : Machine → Machine → Prop :=
  Relation.ReflTransGen Searches

/-- A search ends at a redex, at a single value, or at a variable without a binding. -/
theorem Ready.search_ends {goal : Form} {m : Machine} (hready : Ready goal m) :
    ∃ m₁, m.SearchesTo m₁ ∧ Ready goal m₁ ∧ ((∃ m₂, m₁.Contracts m₂) ∨
      (∃ head supply tally, m₁ = ⟨[], [head], supply, tally⟩ ∧ Fits goal head) ∨
      (∃ b env form tasks values supply tally,
        m₁ = ⟨.reduce (.var b) env form :: tasks, values, supply, tally⟩ ∧
        env.lookup? b = none)) := by
  induction hwork : m.work using Nat.strongRecOn generalizing m with
  | ind work ih =>
    rcases hready.progress with ⟨m₁, hsearch⟩ | hends
    · have hlt : m₁.work < work := hwork ▸ hsearch.work_lt
      obtain ⟨m₂, hto, hready₂, hends⟩ := ih m₁.work hlt (hsearch.ready hready) rfl
      exact ⟨m₂, .head hsearch hto, hready₂, hends⟩
    · exact ⟨m, .refl, hready, hends⟩

theorem SearchesTo.holds {P : Nat → BoundTerm → Environment → Prop} (hP : Hereditary P)
    {m m' : Machine} (h : m.SearchesTo m') (hm : m.Holds P) : m'.Holds P := by
  induction h with
  | refl => exact hm
  | tail _ hsearch ih => exact hsearch.holds hP ih

theorem SearchesTo.readback? {goal : Form} {m m' : Machine} (h : m.SearchesTo m')
    (hready : Ready goal m) (hbelow : m.Holds fun n _ env => env.ValuesBelow n) :
    m'.readback? = m.readback? := by
  induction h using Relation.ReflTransGen.head_induction_on with
  | refl => rfl
  | head hsearch _ ih =>
    rw [ih (hsearch.ready hready) (hsearch.holds hereditary_valuesBelow hbelow)]
    exact hsearch.readback? hready hbelow

theorem SearchesTo.run {m m' : Machine} (h : m.SearchesTo m') (budget : Budget) (start : UInt64) :
    ∃ more, ∀ fuel,
      Machine.run budget start (more + fuel) m = Machine.run budget start fuel m' := by
  induction h using Relation.ReflTransGen.head_induction_on with
  | refl => exact ⟨0, fun fuel => by rw [Nat.zero_add]⟩
  | head hsearch _ ih =>
    obtain ⟨more, hmore⟩ := ih
    refine ⟨more + 1, fun fuel => ?_⟩
    rw [Nat.add_right_comm, Machine.run, hsearch.step]
    exact hmore fuel

/-- A property of well-scoped terms: a search never comes to a variable without a binding. -/
theorem Holds.lookup?_ne_none {b : Binder} {env : Environment} {form : Form} {tasks : List Task}
    {values : List Head} {supply : Supply} {tally : Tally}
    (h : Holds (fun _ t env => env.Covers t ∧ env.WellScoped)
      ⟨.reduce (.var b) env form :: tasks, values, supply, tally⟩) : env.lookup? b ≠ none := by
  have hcovers : env.Covers (.var b) := (h.tasks _ List.mem_cons_self).1
  have hsome := hcovers b rfl
  intro hnone
  rw [hnone] at hsome
  cases hsome

/-- A run of a well-scoped term breaks down in no way: it ends with a value of the form asked for,
or at a limit of its budget, or it needs more fuel. -/
theorem run_result {goal : Form} (budget : Budget) (start : UInt64) (fuel : Nat) {m : Machine}
    (hready : Ready goal m)
    (hscoped : m.Holds fun _ t env => env.Covers t ∧ env.WellScoped) :
    (∃ head, Fits goal head ∧ (run budget start fuel m).2 = .ok head) ∨
    (∃ limit, budget = .limited limit ∧
      (run budget start fuel m).2 = .error (.limitExceeded limit)) ∨
    (run budget start fuel m).2 = .error (.abort .outOfFuel) := by
  -- Both invariants are kept by every step, and together they leave no way to break down.
  induction fuel generalizing m with
  | zero => exact .inr (.inr rfl)
  | succ fuel ih =>
    rw [run]
    obtain ⟨m₁, hsearch⟩ | ⟨m₁, hcontract⟩ | ⟨head, supply, tally, rfl, hfits⟩ |
      ⟨b, env, form, tasks, values, supply, tally, rfl, hnone⟩ := hready.progress
    · rw [hsearch.step]
      exact ih (hsearch.ready hready) (hsearch.holds hereditary_wellScoped hscoped)
    · cases hallows : budget.allows (m.taken start) with
      | false =>
        rw [hcontract.step_of_not_allows hallows]
        cases budget with
        | unbounded => cases hallows
        | limited limit => exact .inr (.inl ⟨limit, rfl, rfl⟩)
      | true =>
        rw [hcontract.step hallows]
        exact ih (hcontract.ready hready) (hcontract.holds hereditary_wellScoped hscoped)
    · exact .inl ⟨head, hfits, rfl⟩
    · exact absurd hnone hscoped.lookup?_ne_none

structure Sound (goal : Form) (t : Nameless) (m : Machine) : Prop where
  ready : Ready goal m
  below : m.Holds fun n _ env => env.ValuesBelow n
  wellScoped : m.Holds fun _ t env => env.Covers t ∧ env.WellScoped
  readback : m.readback? = some t

theorem Sound.contracts {goal : Form} {t : Nameless} {m m' : Machine} (h : Sound goal t m)
    (hcontract : m.Contracts m') : ∃ t', t.leftmost? = some t' ∧ Sound goal t' m' := by
  obtain ⟨t', ht'⟩ := (hcontract.ready h.ready).readback?
  have hread := hcontract.readback? h.ready
  rw [h.readback, ht'] at hread
  exact ⟨t', hread.symm, hcontract.ready h.ready, hcontract.holds hereditary_valuesBelow h.below,
    hcontract.holds hereditary_wellScoped h.wellScoped, ht'⟩

/-- From a sound state a search leads to a redex of the same term or to the end of the run. -/
theorem Sound.search {goal : Form} {t : Nameless} {m : Machine} (h : Sound goal t m)
    (budget : Budget) (start : UInt64) :
    ∃ m₁ more, Sound goal t m₁ ∧ (∀ fuel, run budget start (more + fuel) m =
      run budget start fuel m₁) ∧
      ((∃ m₂, m₁.Contracts m₂) ∨ ∃ head, run budget start 1 m₁ = (m₁, .ok head)) := by
  obtain ⟨m₁, hto, hready, hends⟩ := h.ready.search_ends
  obtain ⟨more, hmore⟩ := hto.run budget start
  have hscoped := hto.holds hereditary_wellScoped h.wellScoped
  have hsound : Sound goal t m₁ :=
    ⟨hready, hto.holds hereditary_valuesBelow h.below, hscoped,
      (hto.readback? h.ready h.below).trans h.readback⟩
  refine ⟨m₁, more, hsound, hmore, ?_⟩
  obtain hcontract | ⟨head, supply, tally, rfl, hfits⟩ |
    ⟨b, env, form, tasks, values, supply, tally, rfl, hnone⟩ := hends
  · exact .inl hcontract
  · exact .inr ⟨head, rfl⟩
  · exact absurd hnone hscoped.lookup?_ne_none

/-- A run without a budget ends if the leftmost contractions do. -/
theorem Sound.exists_run_eq_ok {goal : Form} {t n : Nameless} {m : Machine} (h : Sound goal t m)
    (start : UInt64) {k : Nat} (hk : Nameless.leftmostAfter? k t = some n) (hn : n.IsNormal) :
    ∃ fuel m' head, run .unbounded start fuel m = (m', .ok head) := by
  induction k generalizing m t with
  | zero =>
    cases hk
    obtain ⟨m₁, more, hsound, hmore, ⟨m₂, hcontract⟩ | ⟨head, hend⟩⟩ := h.search .unbounded start
    · obtain ⟨t', hstep, -⟩ := hsound.contracts hcontract
      rw [hn.leftmost?] at hstep
      cases hstep
    · exact ⟨more + 1, m₁, head, (hmore 1).trans hend⟩
  | succ k ih =>
    obtain ⟨m₁, more, hsound, hmore, ⟨m₂, hcontract⟩ | ⟨head, hend⟩⟩ := h.search .unbounded start
    · obtain ⟨t', hstep, hsound₂⟩ := hsound.contracts hcontract
      rw [Nameless.leftmostAfter?_succ hstep] at hk
      obtain ⟨fuel, m', head, hrun⟩ := ih hsound₂ hk
      have hallows : Budget.unbounded.allows (m₁.taken start) = true := rfl
      refine ⟨more + (fuel + 1), m', head, ?_⟩
      rw [hmore, run, hcontract.step hallows]
      exact hrun
    · exact ⟨more + 1, m₁, head, (hmore 1).trans hend⟩

end Machine

/-- All sequences of leftmost contractions that end in a normal term end in the same one. -/
theorem Nameless.leftmostAfter?_unique {j k : Nat} {t u v : Nameless} (hu : u.IsNormal)
    (hv : v.IsNormal) (h : leftmostAfter? j t = some u) (h' : leftmostAfter? k t = some v) :
    u = v := by
  have hreduces : Convertible u v :=
    .trans _ _ _ (.symm _ _ (Reduces.of_leftmostAfter? h).convertible)
      (Reduces.of_leftmostAfter? h').convertible
  exact (hu.eq_of_reduces (hreduces.reduces hv)).symm

namespace Reducer

/-- A reduction of a well-scoped term breaks down in no way: it ends with a result, or at a limit of
its budget, or it needs more fuel. -/
theorem normalize_result (r : Reducer) (fuel : Nat) {t : BoundTerm} {env : Environment}
    (supply : Supply) (hcovers : env.Covers t) (hscoped : env.WellScoped) :
    (∃ normal, (r.normalize fuel t env supply).result = .ok normal) ∨
    (∃ limit, r.budget = .limited limit ∧
      (r.normalize fuel t env supply).result = .error (.limitExceeded limit)) ∨
    (r.normalize fuel t env supply).result = .error (.abort .outOfFuel) := by
  have hready := Machine.ready_start t env .normal supply r.tally
  have hstart : Machine.Holds (fun _ t env => env.Covers t ∧ env.WellScoped)
      ⟨[.reduce t env .normal], [], supply, r.tally⟩ :=
    Machine.holds_start ⟨hcovers, hscoped⟩
  have hresult : (r.normalize fuel t env supply).result =
      (Machine.run r.budget r.tally.betaSteps fuel
        ⟨[.reduce t env .normal], [], supply, r.tally⟩).2 >>= termOf := rfl
  rw [hresult]
  rcases Machine.run_result r.budget r.tally.betaSteps fuel hready hstart with
    ⟨head, hfits, hrun⟩ | ⟨limit, hlimit, hrun⟩ | hrun
  · rw [hrun]
    cases head with
    | closure p body captured => cases hfits
    | neutral normal => exact .inl ⟨normal, rfl⟩
  · rw [hrun]
    exact .inr (.inl ⟨limit, hlimit, rfl⟩)
  · rw [hrun]
    exact .inr (.inr rfl)

theorem next_le_normalize (r : Reducer) (fuel : Nat) (t : BoundTerm) (env : Environment)
    (supply : Supply) : supply.next ≤ (r.normalize fuel t env supply).supply.next :=
  (Machine.ready_start t env .normal supply r.tally).next_le_run r.budget r.tally.betaSteps fuel

/-- Without a budget every normal form is found. -/
theorem exists_normalize_eq_ok {t : BoundTerm} {n : Nameless} {env : Environment} {supply : Supply}
    (tally : Tally) (hbelow : env.ValuesBelow supply.next) (hscoped : env.WellScoped)
    (hcovers : env.Covers t) (hconv : Nameless.Convertible (env.readback t) n)
    (hn : n.IsNormal) :
    ∃ fuel normal, normal.nameless [] = n ∧ ∀ more, fuel ≤ more →
      (normalize more { tally } t env supply).result = .ok normal := by
  obtain ⟨k, hk⟩ := (hconv.reduces hn).leftmostAfter? hn
  have hsound : Machine.Sound .normal (env.readback t)
      ⟨[.reduce t env .normal], [], supply, tally⟩ :=
    ⟨Machine.ready_start t env .normal supply tally, Machine.holds_start hbelow,
      Machine.holds_start ⟨hcovers, hscoped⟩, rfl⟩
  obtain ⟨fuel, m, head, hrun⟩ := hsound.exists_run_eq_ok tally.betaSteps hk hn
  -- What it ends with is reached by leftmost contractions too, and they meet in one normal form.
  obtain ⟨hfits, j, hj, -⟩ :=
    Machine.leftmostAfter?_run hsound.ready hsound.below hsound.readback hrun
  cases head with
  | closure p body captured => cases hfits
  | neutral normal =>
    have hnormal : (normal.replace .free).IsNormal :=
      BoundTerm.isNormal_replace (fun b => ⟨trivial, id⟩) hfits.1
    refine ⟨fuel, normal, ?_, ?_⟩
    · rw [BoundTerm.nameless_eq_replace]
      exact Nameless.leftmostAfter?_unique hnormal hn hj hk
    · intro more hle
      have hend : (Machine.run .unbounded tally.betaSteps fuel
          ⟨[.reduce t env .normal], [], supply, tally⟩).2 ≠ .error (.abort .outOfFuel) := by
        rw [hrun]
        exact fun h => by cases h
      rw [normalize, reduce, Machine.run_of_le hle hend, hrun]
      rfl

end Reducer

theorem Environment.readback_empty (t : BoundTerm) : empty.readback t = t.nameless [] :=
  (BoundTerm.nameless_eq_replace t).symm

theorem BoundTerm.isNormal_nameless {t : BoundTerm} (h : t.IsNormal) :
    (t.nameless []).IsNormal := by
  rw [nameless_eq_replace]
  exact isNormal_replace (fun b => ⟨trivial, id⟩) h

namespace BoundTerm

theorem covers_of_closed {t : BoundTerm} (ht : ∀ b, ¬ t.IsFree b) (env : Environment) :
    env.Covers t :=
  fun b hb => absurd hb (ht b)

/-- A reduction of a closed term ends with its normal form or needs more fuel. -/
theorem normalForm_result {t : BoundTerm} (ht : ∀ b, ¬ t.IsFree b) (fuel : Nat)
    (supply : Supply) :
    (∃ normal, (t.normalForm fuel supply).1 = .ok normal ∧ normal.IsNormal ∧
      Nameless.Convertible (t.nameless []) (normal.nameless [])) ∨
    (t.normalForm fuel supply).1 = .error (.abort .outOfFuel) := by
  have hbelow : Environment.empty.ValuesBelow supply.next := trivial
  rcases Reducer.normalize_result {} fuel supply (covers_of_closed ht .empty) trivial with
    ⟨normal, hok⟩ | ⟨limit, hlimit, -⟩ | hfuel
  · obtain ⟨m, hrun, -, -⟩ := Reducer.run_of_normalize hok
    have hstart : Machine.readback? ⟨[.reduce t .empty .normal], [], supply, {}⟩ =
        some (Environment.empty.readback t) := rfl
    obtain ⟨hfits, k, hk, -⟩ := Machine.leftmostAfter?_run
      (Machine.ready_start t .empty .normal supply {}) (Machine.holds_start hbelow) hstart hrun
    have hend : Head.readback .free (.neutral normal) = normal.nameless [] :=
      (nameless_eq_replace normal).symm
    rw [Environment.readback_empty, hend] at hk
    exact .inl ⟨normal, hok, hfits.1, (Nameless.Reduces.of_leftmostAfter? hk).convertible⟩
  · cases hlimit
  · exact .inr hfuel

theorem exists_normalForm {t n : BoundTerm} (ht : ∀ b, ¬ t.IsFree b) (hn : n.IsNormal)
    (hconv : Nameless.Convertible (t.nameless []) (n.nameless [])) (supply : Supply) :
    ∃ fuel normal, normal.alphaEquiv n = true ∧ ∀ more, fuel ≤ more →
      (t.normalForm more supply).1 = .ok normal := by
  rw [← Environment.readback_empty] at hconv
  have hbelow : Environment.empty.ValuesBelow supply.next := trivial
  obtain ⟨fuel, normal, heq, hmore⟩ := Reducer.exists_normalize_eq_ok {} hbelow trivial
    (covers_of_closed ht .empty) hconv (isNormal_nameless hn)
  exact ⟨fuel, normal, alphaEquiv_iff.mpr heq, hmore⟩

/-- Closed terms that are convertible have the same normal form, or both are reduced forever. -/
theorem normalForm_of_convertible {t s : BoundTerm} (ht : ∀ b, ¬ t.IsFree b)
    (hs : ∀ b, ¬ s.IsFree b) (hconv : Nameless.Convertible (t.nameless []) (s.nameless []))
    (supply supply' : Supply) :
    (∃ fuel t' s', t'.alphaEquiv s' = true ∧ ∀ more, fuel ≤ more →
      (t.normalForm more supply).1 = .ok t' ∧ (s.normalForm more supply').1 = .ok s') ∨
    (∀ fuel, (t.normalForm fuel supply).1 = .error (.abort .outOfFuel) ∧
      (s.normalForm fuel supply').1 = .error (.abort .outOfFuel)) := by
  by_cases hends : ∃ n : BoundTerm, n.IsNormal ∧
      Nameless.Convertible (t.nameless []) (n.nameless [])
  · obtain ⟨n, hn, htn⟩ := hends
    have hsn : Nameless.Convertible (s.nameless []) (n.nameless []) :=
      .trans _ _ _ (.symm _ _ hconv) htn
    obtain ⟨fuel, t', ht', hmore⟩ := exists_normalForm ht hn htn supply
    obtain ⟨fuel', s', hs', hmore'⟩ := exists_normalForm hs hn hsn supply'
    rw [alphaEquiv_iff] at ht' hs'
    refine .inl ⟨max fuel fuel', t', s', alphaEquiv_iff.mpr (ht'.trans hs'.symm), ?_⟩
    intro more hle
    exact ⟨hmore more (Nat.le_trans (Nat.le_max_left fuel fuel') hle),
      hmore' more (Nat.le_trans (Nat.le_max_right fuel fuel') hle)⟩
  · refine .inr fun fuel => ⟨?_, ?_⟩
    · rcases normalForm_result ht fuel supply with ⟨n, -, hn, htn⟩ | hfuel
      · exact absurd ⟨n, hn, htn⟩ hends
      · exact hfuel
    · rcases normalForm_result hs fuel supply' with ⟨n, -, hn, hsn⟩ | hfuel
      · exact absurd ⟨n, hn, .trans _ _ _ hconv hsn⟩ hends
      · exact hfuel

end BoundTerm

namespace Reducer

/-- Normal order is complete.  Whatever normal term a well-scoped term is convertible to, a
reduction without a budget finds it; and two closed terms that are convertible to each other either
both have that same normal form or are both reduced forever. -/
theorem normal_order_complete :
    (∀ (t n : BoundTerm) (env : Environment) (supply : Supply) (tally : Tally),
      env.Covers t → env.WellScoped → env.ValuesBelow supply.next → n.IsNormal →
      Nameless.Convertible (env.readback t) (n.nameless []) →
      ∃ fuel normal, normal.alphaEquiv n = true ∧ ∀ more, fuel ≤ more →
        (normalize more { tally } t env supply).result = .ok normal) ∧
    (∀ (t s : BoundTerm) (supply supply' : Supply),
      (∀ b, ¬ t.IsFree b) → (∀ b, ¬ s.IsFree b) →
      Nameless.Convertible (t.nameless []) (s.nameless []) →
      (∃ fuel t' s', t'.alphaEquiv s' = true ∧ ∀ more, fuel ≤ more →
        (t.normalForm more supply).1 = .ok t' ∧ (s.normalForm more supply').1 = .ok s') ∨
      (∀ fuel, (t.normalForm fuel supply).1 = .error (.abort .outOfFuel) ∧
        (s.normalForm fuel supply').1 = .error (.abort .outOfFuel))) := by
  constructor
  · intro t n env supply tally hcovers hscoped hbelow hn hconv
    obtain ⟨fuel, normal, heq, hmore⟩ := exists_normalize_eq_ok tally hbelow hscoped hcovers hconv
      (BoundTerm.isNormal_nameless hn)
    exact ⟨fuel, normal, BoundTerm.alphaEquiv_iff.mpr heq, hmore⟩
  · intro t s supply supply' ht hs hconv
    exact BoundTerm.normalForm_of_convertible ht hs hconv supply supply'

def selfReducing : BoundTerm :=
  .app (.lam ⟨1, ⟨"x"⟩⟩ (.app (.var ⟨1, ⟨"x"⟩⟩) (.var ⟨1, ⟨"x"⟩⟩)))
    (.lam ⟨1, ⟨"x"⟩⟩ (.app (.var ⟨1, ⟨"x"⟩⟩) (.var ⟨1, ⟨"x"⟩⟩)))

/-- An argument that has no normal form and is not needed keeps no normal form from being found. -/
theorem normal_order_complete_of_selfReducing :
    (∃ fuel normal, normal.alphaEquiv (.var ⟨2, ⟨"y"⟩⟩) = true ∧ ∀ more, fuel ≤ more →
      (normalize more {} (.app (.lam ⟨1, ⟨"x"⟩⟩ (.var ⟨2, ⟨"y"⟩⟩)) selfReducing)
        (.value ⟨2, ⟨"y"⟩⟩ ⟨2, ⟨"y"⟩⟩ .empty) ⟨3⟩).result = .ok normal) ∧
    ((∃ fuel t' s', t'.alphaEquiv s' = true ∧ ∀ more, fuel ≤ more →
        (BoundTerm.normalForm more
          (.app (.lam ⟨1, ⟨"x"⟩⟩ (.lam ⟨1, ⟨"x"⟩⟩ (.var ⟨1, ⟨"x"⟩⟩))) selfReducing) ⟨2⟩).1 =
            .ok t' ∧
        (BoundTerm.normalForm more (.lam ⟨3, ⟨"z"⟩⟩ (.var ⟨3, ⟨"z"⟩⟩)) ⟨4⟩).1 = .ok s') ∨
      (∀ fuel, (BoundTerm.normalForm fuel
          (.app (.lam ⟨1, ⟨"x"⟩⟩ (.lam ⟨1, ⟨"x"⟩⟩ (.var ⟨1, ⟨"x"⟩⟩))) selfReducing) ⟨2⟩).1 =
            .error (.abort .outOfFuel) ∧
        (BoundTerm.normalForm fuel (.lam ⟨3, ⟨"z"⟩⟩ (.var ⟨3, ⟨"z"⟩⟩)) ⟨4⟩).1 =
            .error (.abort .outOfFuel))) := by
  constructor
  · apply normal_order_complete.1
    · intro b hb
      have hy : ¬ b = ⟨1, ⟨"x"⟩⟩ ∧ b = ⟨2, ⟨"y"⟩⟩ := by simpa [selfReducing, Term.IsFree] using hb
      rw [hy.2]
      rfl
    · trivial
    · exact ⟨by decide, trivial⟩
    · trivial
    · exact .rel _ _ (.contract _ _)
  · apply normal_order_complete.2
    · simp [selfReducing, Term.IsFree]
    · simp [Term.IsFree]
    · exact .rel _ _ (.contract _ _)

end Reducer

end UntypedLambda
