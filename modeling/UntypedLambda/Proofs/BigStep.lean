import UntypedLambda.Proofs.Limits

/-! The machine puts the head that a term is reduced to on its values and leaves the tasks below
alone, so what is true of results can be shown by induction on how they come about. -/
namespace UntypedLambda

namespace Reducer

/-- Reducing a term in an environment as far as `form` says leads to `head`.  It takes `k` beta
steps and `l` look-ups, and `rest` is what is left of the serial numbers of `supply`. -/
inductive Evaluates : Form → BoundTerm → Environment → Supply → Nat → Nat → Head → Supply → Prop
  | thunk {form : Form} {b : Binder} {t : BoundTerm} {env captured : Environment}
    {supply rest : Supply} {k l : Nat} {head : Head} :
    env.lookup? b = some (.thunk t captured) → Evaluates form t captured supply k l head rest →
      Evaluates form (.var b) env supply k (l + 1) head rest
  | value {form : Form} {b target : Binder} {env : Environment} {supply : Supply} :
    env.lookup? b = some (.value target) →
      Evaluates form (.var b) env supply 0 1 (.neutral (.var target)) supply
  | beta {form : Form} {t s body : BoundTerm} {p : Binder} {env captured : Environment}
    {supply mid rest : Supply} {k₁ k₂ l₁ l₂ : Nat} {head : Head} :
    Evaluates .weakHead t env supply k₁ l₁ (.closure p body captured) mid →
      Evaluates form body (.thunk p s env captured) mid k₂ l₂ head rest →
        Evaluates form (.app t s) env supply (k₁ + k₂ + 1) (l₁ + l₂) head rest
  | stuck {form : Form} {t s f a : BoundTerm} {env : Environment} {supply mid rest : Supply}
    {k₁ k₂ l₁ l₂ : Nat} :
    Evaluates .weakHead t env supply k₁ l₁ (.neutral f) mid →
      Evaluates .normal s env mid k₂ l₂ (.neutral a) rest →
        Evaluates form (.app t s) env supply (k₁ + k₂) (l₁ + l₂) (.neutral (.app f a)) rest
  | closure {p : Binder} {body : BoundTerm} {env : Environment} {supply : Supply} :
    Evaluates .weakHead (.lam p body) env supply 0 0 (.closure p body env) supply
  | enter {p : Binder} {body t : BoundTerm} {env : Environment} {supply rest : Supply}
    {k l : Nat} :
    Evaluates .normal body (.value p (supply.fresh p.name).1 env) (supply.fresh p.name).2 k l
        (.neutral t) rest →
      Evaluates .normal (.lam p body) env supply k l
        (.neutral (.lam (supply.fresh p.name).1 t)) rest

inductive WorksOff : List Task → List Head → Supply → Nat → Nat → Head → Supply → Prop
  | done {last : Head} {supply : Supply} : WorksOff [] [last] supply 0 0 last supply
  | reduce {form : Form} {t : BoundTerm} {env : Environment} {tasks : List Task}
    {values : List Head} {supply mid rest : Supply} {k₁ k₂ l₁ l₂ : Nat} {head last : Head} :
    Evaluates form t env supply k₁ l₁ head mid →
      WorksOff tasks (head :: values) mid k₂ l₂ last rest →
        WorksOff (.reduce t env form :: tasks) values supply (k₁ + k₂) (l₁ + l₂) last rest
  | beta {form : Form} {s body : BoundTerm} {p : Binder} {env captured : Environment}
    {tasks : List Task} {values : List Head} {supply mid rest : Supply} {k₁ k₂ l₁ l₂ : Nat}
    {head last : Head} :
    Evaluates form body (.thunk p s env captured) supply k₁ l₁ head mid →
      WorksOff tasks (head :: values) mid k₂ l₂ last rest →
        WorksOff (.apply s env form :: tasks) (.closure p body captured :: values) supply
          (k₁ + k₂ + 1) (l₁ + l₂) last rest
  | argument {form : Form} {s f a : BoundTerm} {env : Environment} {tasks : List Task}
    {values : List Head} {supply mid rest : Supply} {k₁ k₂ l₁ l₂ : Nat} {last : Head} :
    Evaluates .normal s env supply k₁ l₁ (.neutral a) mid →
      WorksOff tasks (.neutral (.app f a) :: values) mid k₂ l₂ last rest →
        WorksOff (.apply s env form :: tasks) (.neutral f :: values) supply (k₁ + k₂) (l₁ + l₂)
          last rest
  | buildApp {f a : BoundTerm} {tasks : List Task} {values : List Head} {supply rest : Supply}
    {k l : Nat} {last : Head} :
    WorksOff tasks (.neutral (.app f a) :: values) supply k l last rest →
      WorksOff (.buildApp :: tasks) (.neutral a :: .neutral f :: values) supply k l last rest
  | buildLam {p : Binder} {t : BoundTerm} {tasks : List Task} {values : List Head}
    {supply rest : Supply} {k l : Nat} {last : Head} :
    WorksOff tasks (.neutral (.lam p t) :: values) supply k l last rest →
      WorksOff (.buildLam p :: tasks) (.neutral t :: values) supply k l last rest

end Reducer

namespace Machine

open Reducer

variable {form goal : Form} {t : BoundTerm} {env : Environment} {supply rest : Supply}
  {j k l : Nat} {head last : Head} {m m₁ m₂ : Machine} {budget : Budget} {start : UInt64}

theorem Reaches.trans (h : Reaches j m m₁) (h' : Reaches k m₁ m₂) : Reaches (j + k) m m₂ := by
  induction h with
  | refl m =>
    rw [Nat.zero_add]
    exact h'
  | search hsearch _ ih => exact .search hsearch (ih h')
  | contract hcontract _ ih =>
    rw [Nat.add_right_comm]
    exact .contract hcontract (ih h')

/-- The machine reduces a term to the head that is derived for it, whatever it has to do
afterwards. -/
theorem reaches_of_evaluates (h : Evaluates form t env supply k l head rest) (tasks : List Task)
    (values : List Head) (tally : Tally) :
    Reaches k ⟨.reduce t env form :: tasks, values, supply, tally⟩
      ⟨tasks, head :: values, rest, tally.after k l⟩ := by
  induction h generalizing tasks values tally with
  | @thunk _ _ _ _ _ _ _ k l _ hlookup _ ih =>
    have hcaptured := ih tasks values (tally.after 0 1)
    rw [Tally.after_after] at hcaptured
    exact .search (.thunk hlookup) hcaptured
  | value hlookup => exact .search (.value hlookup) (.refl _)
  | @beta form t s body p env captured _ _ _ k₁ k₂ l₁ l₂ _ _ _ ihfunction ihbody =>
    have hfunction := ihfunction (.apply s env form :: tasks) values tally
    have hbody := ihbody tasks values ((tally.after k₁ l₁).after 1 0)
    have hall := hfunction.trans (.contract .beta hbody)
    rw [Tally.after_after, Tally.after_after] at hall
    have hk : k₂ + 1 + k₁ = k₁ + k₂ + 1 := by omega
    have hl : l₂ + 0 + l₁ = l₁ + l₂ := by omega
    rw [hk, hl] at hall
    exact .search .app hall
  | @stuck form t s f a env _ _ _ k₁ k₂ l₁ l₂ _ _ ihfunction ihargument =>
    have hfunction := ihfunction (.apply s env form :: tasks) values tally
    have hargument := ihargument (.buildApp :: tasks) (.neutral f :: values) (tally.after k₁ l₁)
    have hbuild := hargument.trans (.search .buildApp (.refl _))
    have hall := hfunction.trans (.search .argument hbuild)
    rw [Tally.after_after, Nat.add_comm k₂ k₁, Nat.add_comm l₂ l₁, Nat.add_zero] at hall
    exact .search .app hall
  | closure => exact .search .closure (.refl _)
  | @enter p _ _ _ supply _ _ _ _ ih =>
    have hbody := ih (.buildLam (supply.fresh p.name).1 :: tasks) values tally
    exact .search .enter (hbody.trans (.search .buildLam (.refl _)))

theorem Searches.worksOff (h : m.Searches m₁)
    (hrest : WorksOff m₁.tasks m₁.values m₁.supply k l last rest) :
    ∃ l₁, m₁.tally = m.tally.after 0 l₁ ∧
      WorksOff m.tasks m.values m.supply k (l₁ + l) last rest := by
  cases h with
  | thunk hlookup =>
    cases hrest with
    | @reduce _ _ _ _ _ _ _ _ k₁ k₂ l₁ l₂ _ _ ht htasks =>
      refine ⟨1, rfl, ?_⟩
      have hl : 1 + (l₁ + l₂) = l₁ + 1 + l₂ := by omega
      rw [hl]
      exact .reduce (.thunk hlookup ht) htasks
  | @value b target env form _ _ supply _ hlookup =>
    refine ⟨1, rfl, ?_⟩
    have hvar : Evaluates form (.var b) env supply 0 1 (.neutral (.var target)) supply :=
      .value hlookup
    have hall := WorksOff.reduce hvar hrest
    rwa [Nat.zero_add] at hall
  | app =>
    refine ⟨0, rfl, ?_⟩
    rw [Nat.zero_add]
    cases hrest with
    | @reduce _ _ _ _ _ _ _ _ k₁ _ l₁ _ _ _ hfunction htasks =>
      cases htasks with
      | @beta _ _ _ _ _ _ _ _ _ _ _ k₂ k₃ l₂ l₃ _ _ hbody htasks =>
        have hk : k₁ + (k₂ + k₃ + 1) = k₁ + k₂ + 1 + k₃ := by omega
        rw [hk, ← Nat.add_assoc]
        exact .reduce (.beta hfunction hbody) htasks
      | argument hargument htasks =>
        rw [← Nat.add_assoc, ← Nat.add_assoc]
        exact .reduce (.stuck hfunction hargument) htasks
  | closure =>
    refine ⟨0, rfl, ?_⟩
    have hall := WorksOff.reduce .closure hrest
    rwa [Nat.zero_add] at hall
  | enter =>
    refine ⟨0, rfl, ?_⟩
    rw [Nat.zero_add]
    cases hrest with
    | reduce hbody htasks =>
      cases htasks with
      | buildLam htasks => exact .reduce (.enter hbody) htasks
  | argument =>
    refine ⟨0, rfl, ?_⟩
    rw [Nat.zero_add]
    cases hrest with
    | reduce hargument htasks =>
      cases htasks with
      | buildApp htasks => exact .argument hargument htasks
  | buildApp =>
    refine ⟨0, rfl, ?_⟩
    rw [Nat.zero_add]
    exact .buildApp hrest
  | buildLam =>
    refine ⟨0, rfl, ?_⟩
    rw [Nat.zero_add]
    exact .buildLam hrest

theorem Contracts.worksOff (h : m.Contracts m₁)
    (hrest : WorksOff m₁.tasks m₁.values m₁.supply k l last rest) :
    WorksOff m.tasks m.values m.supply (k + 1) l last rest := by
  cases h with
  | beta =>
    cases hrest with
    | reduce hbody htasks => exact .beta hbody htasks

/-- All that is left to do on the way to a single value can be derived. -/
theorem Reaches.worksOff {done : Tally} (h : Reaches k m ⟨[], [last], rest, done⟩) :
    ∃ l, done = m.tally.after k l ∧ WorksOff m.tasks m.values m.supply k l last rest := by
  -- The induction runs from the last state back to the first one.
  generalize hlast : Machine.mk [] [last] rest done = m₂ at h
  induction h with
  | refl m =>
    cases hlast
    exact ⟨0, rfl, .done⟩
  | search hsearch _ ih =>
    obtain ⟨l, htally, hrest⟩ := ih hlast
    obtain ⟨l₁, htally₁, hall⟩ := hsearch.worksOff hrest
    refine ⟨l₁ + l, ?_, hall⟩
    rw [htally, htally₁, Tally.after_after, Nat.add_zero, Nat.add_comm l l₁]
  | contract hcontract _ ih =>
    obtain ⟨l, htally, hrest⟩ := ih hlast
    refine ⟨l, ?_, hcontract.worksOff hrest⟩
    rw [htally, hcontract.tally_eq.1, Tally.after_after]
    rfl

theorem evaluates_of_reaches {done tally : Tally}
    (h : Reaches k ⟨[.reduce t env form], [], supply, tally⟩ ⟨[], [head], rest, done⟩) :
    ∃ l, done = tally.after k l ∧ Evaluates form t env supply k l head rest := by
  obtain ⟨l, htally, hall⟩ := h.worksOff
  refine ⟨l, htally, ?_⟩
  cases hall with
  | reduce ht hdone =>
    cases hdone
    exact ht

theorem Ready.exists_reaches (hready : Ready goal m) {fuel : Nat} {m' : Machine}
    (hrun : run budget start fuel m = (m', .ok head)) :
    ∃ k, Reaches k m ⟨[], [head], m'.supply, m'.tally⟩ := by
  induction fuel generalizing m with
  | zero => cases hrun
  | succ fuel ih =>
    rw [run] at hrun
    obtain ⟨m₁, hsearch⟩ | ⟨m₁, hcontract⟩ | ⟨last, supply, tally, rfl, -⟩ |
      ⟨b, env, form, tasks, values, supply, tally, rfl, hnone⟩ := hready.progress
    · rw [hsearch.step] at hrun
      obtain ⟨k, hreaches⟩ := ih (hsearch.ready hready) hrun
      exact ⟨k, .search hsearch hreaches⟩
    · cases hallows : budget.allows (m.taken start) with
      | false =>
        rw [hcontract.step_of_not_allows hallows] at hrun
        cases hrun
      | true =>
        rw [hcontract.step hallows] at hrun
        obtain ⟨k, hreaches⟩ := ih (hcontract.ready hready) hrun
        exact ⟨k + 1, .contract hcontract hreaches⟩
    · cases hrun
      exact ⟨0, .refl _⟩
    · rw [step_of_unbound hnone] at hrun
      cases hrun

theorem Reaches.searchesTo (h : Reaches 0 m m₂) : SearchesTo m m₂ := by
  generalize hk : 0 = k at h
  induction h with
  | refl m => exact .refl
  | search hsearch _ ih => exact .head hsearch (ih hk)
  | contract _ _ _ => cases hk

end Machine

namespace Reducer

variable {form : Form} {t : BoundTerm} {env : Environment} {supply rest : Supply} {k l : Nat}
  {head : Head}

/-- Whatever the budget and the counters are, a reduction that returns a head has derived it. -/
theorem exists_evaluates_of_reduce {r : Reducer} {fuel : Nat}
    (h : (r.reduce fuel form t env supply).result = .ok head) :
    ∃ k l, Evaluates form t env supply k l head (r.reduce fuel form t env supply).supply ∧
      (r.reduce fuel form t env supply).reducer = { r with tally := r.tally.after k l } := by
  have hrun : Machine.run r.budget r.tally.betaSteps fuel
      ⟨[.reduce t env form], [], supply, r.tally⟩ = (_, .ok head) := Prod.ext rfl h
  obtain ⟨k, hreaches⟩ := (Machine.ready_start t env form supply r.tally).exists_reaches hrun
  obtain ⟨l, htally, hevaluates⟩ := Machine.evaluates_of_reaches hreaches
  refine ⟨k, l, hevaluates, ?_⟩
  rw [← htally]
  rfl

/-- With enough fuel a reduction without a limit returns the head that is derived. -/
theorem Evaluates.exists_reduce (h : Evaluates form t env supply k l head rest) {r : Reducer}
    (hr : r.budget = .unbounded) :
    ∃ fuel, ∀ more, fuel ≤ more → r.reduce more form t env supply =
      ⟨.ok head, { r with tally := r.tally.after k l }, rest⟩ := by
  obtain ⟨budget, tally⟩ := r
  subst hr
  have hspent : Machine.Spent .unbounded tally.betaSteps 0
      ⟨[.reduce t env form], [], supply, tally⟩ := Machine.spent_start fun n hn => by cases hn
  obtain ⟨steps, hrun⟩ :=
    (Machine.reaches_of_evaluates h [] [] tally).run hspent (Budget.permits_unbounded _)
  refine ⟨1 + steps, fun more hle => ?_⟩
  obtain ⟨fuel, rfl⟩ : ∃ fuel, more = fuel + 1 + steps := ⟨more - 1 - steps, by omega⟩
  rw [reduce, hrun (fuel + 1)]
  rfl

/-- A head that is derived without beta steps is returned under every budget. -/
theorem Evaluates.exists_reduce_of_zero (h : Evaluates form t env supply 0 l head rest)
    (r : Reducer) :
    ∃ fuel, ∀ more, fuel ≤ more → r.reduce more form t env supply =
      ⟨.ok head, { r with tally := r.tally.after 0 l }, rest⟩ := by
  obtain ⟨steps, hrun⟩ := (Machine.reaches_of_evaluates h [] [] r.tally).searchesTo.run r.budget
    r.tally.betaSteps
  refine ⟨steps + 1, fun more hle => ?_⟩
  obtain ⟨fuel, rfl⟩ : ∃ fuel, more = steps + (fuel + 1) := ⟨more - 1 - steps, by omega⟩
  rw [reduce, hrun (fuel + 1)]
  rfl

/-- Without a limit, what a reduction returns is what can be derived. -/
theorem exists_reduce_iff {r r' : Reducer} (hr : r.budget = .unbounded) :
    (∃ fuel, r.reduce fuel form t env supply = ⟨.ok head, r', rest⟩) ↔
      ∃ k l, Evaluates form t env supply k l head rest ∧
        r' = { r with tally := r.tally.after k l } := by
  constructor
  · rintro ⟨fuel, h⟩
    obtain ⟨k, l, hevaluates, hreducer⟩ :=
      exists_evaluates_of_reduce (congrArg Reduction.result h)
    rw [h] at hevaluates hreducer
    exact ⟨k, l, hevaluates, hreducer⟩
  · rintro ⟨k, l, hevaluates, rfl⟩
    obtain ⟨fuel, hfuel⟩ := hevaluates.exists_reduce hr
    exact ⟨fuel, hfuel fuel (Nat.le_refl _)⟩

end Reducer

end UntypedLambda
