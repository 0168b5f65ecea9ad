import Mathlib.Data.List.Forall2
import UntypedLambda.Proofs.Alike
import UntypedLambda.Proofs.StepCount

/-! Two machines that work on terms alike in their environments do the same steps, one by one.
They only draw other serial numbers. -/
namespace UntypedLambda

variable {same : Name → Name → Prop} {R : Binder → Binder → Prop}

def Supply.Alike (same : Name → Name → Prop) (R : Binder → Binder → Prop) (s s' : Supply) : Prop :=
  ∀ k n n', same n n' → R ⟨s.next + k, n⟩ ⟨s'.next + k, n'⟩

theorem Supply.Alike.fresh {s s' : Supply} (h : s.Alike same R s') (n n' : Name) :
    Supply.Alike same R (s.fresh n).2 (s'.fresh n').2 := by
  intro k m m' hm
  have hnext := h (k + 1) m m' hm
  rw [Nat.add_comm k 1, ← Nat.add_assoc, ← Nat.add_assoc] at hnext
  exact hnext

inductive Task.Alike (same : Name → Name → Prop) (R : Binder → Binder → Prop) :
    Task → Task → Prop
  | reduce {t u : BoundTerm} {env env' : Environment} {form : Form} :
    t.Alike same (env.Corresponds same R env') u →
      Alike same R (.reduce t env form) (.reduce u env' form)
  | apply {s v : BoundTerm} {env env' : Environment} {form : Form} :
    s.Alike same (env.Corresponds same R env') v →
      Alike same R (.apply s env form) (.apply v env' form)
  | buildApp : Alike same R .buildApp .buildApp
  | buildLam {p q : Binder} : R p q → Alike same R (.buildLam p) (.buildLam q)

inductive Head.Alike (same : Name → Name → Prop) (R : Binder → Binder → Prop) :
    Head → Head → Prop
  | closure {p q : Binder} {t u : BoundTerm} {env env' : Environment} :
    same p.name q.name → t.Alike same (p.Inside q (env.Corresponds same R env')) u →
      Alike same R (.closure p t env) (.closure q u env')
  | neutral {t u : BoundTerm} : t.Related R u → Alike same R (.neutral t) (.neutral u)

theorem Task.Alike.symm {task task' : Task} (h : task.Alike same R task') :
    task'.Alike (flip same) (flip R) task := by
  have hterms {t u : BoundTerm} {env env' : Environment}
      (ht : t.Alike same (env.Corresponds same R env') u) :
      u.Alike (flip same) (env'.Corresponds (flip same) (flip R) env) t :=
    ht.symm.mono fun _ _ hbc => hbc.symm
  cases h with
  | reduce ht => exact .reduce (hterms ht)
  | apply hs => exact .apply (hterms hs)
  | buildApp => exact .buildApp
  | buildLam hpq => exact .buildLam hpq

theorem Head.Alike.symm {head head' : Head} (h : head.Alike same R head') :
    head'.Alike (flip same) (flip R) head := by
  cases h with
  | closure hpq ht =>
    refine .closure hpq (ht.symm.mono ?_)
    rintro c b (⟨hb, hc⟩ | ⟨hb, hc, hbc⟩)
    · exact .inl ⟨hc, hb⟩
    · exact .inr ⟨hc, hb, hbc.symm⟩
  | neutral ht => exact .neutral ht.symm

namespace Machine

structure Alike (same : Name → Name → Prop) (R : Binder → Binder → Prop) (m m' : Machine) :
    Prop where
  tasks : List.Forall₂ (Task.Alike same R) m.tasks m'.tasks
  values : List.Forall₂ (Head.Alike same R) m.values m'.values
  supply : m.supply.Alike same R m'.supply

variable {m m' m₁ : Machine}

theorem Alike.symm (h : m.Alike same R m') : m'.Alike (flip same) (flip R) m where
  tasks := (h.tasks.imp fun _ _ htask => htask.symm).flip
  values := (h.values.imp fun _ _ hhead => hhead.symm).flip
  supply k n n' hn := h.supply k n' n hn

theorem Alike.exists_reduce {t : BoundTerm} {env : Environment} {form : Form} {tasks : List Task}
    {values : List Head} {supply : Supply} {tally : Tally}
    (h : Alike same R ⟨.reduce t env form :: tasks, values, supply, tally⟩ m') :
    ∃ (u : BoundTerm) (env' : Environment) (rest : Machine),
      m' = { rest with tasks := .reduce u env' form :: rest.tasks } ∧
      t.Alike same (env.Corresponds same R env') u ∧
      Alike same R ⟨tasks, values, supply, tally⟩ rest := by
  obtain ⟨tasks', values', supply', tally'⟩ := m'
  obtain ⟨htasks, hvalues, hsupply⟩ := h
  cases htasks with
  | @cons _ _ _ rest htask hrest =>
    cases htask with
    | reduce hterm =>
      exact ⟨_, _, ⟨rest, values', supply', tally'⟩, rfl, hterm, hrest, hvalues, hsupply⟩

/-- A step on the way to the next redex is done by both. -/
theorem Alike.searches (h : m.Alike same R m') (hstep : m.Searches m₁) :
    ∃ m₁', m'.Searches m₁' ∧ m₁.Alike same R m₁' ∧
      (m.tally = m'.tally → m₁.tally = m₁'.tally) := by
  cases hstep with
  | thunk hlookup =>
    obtain ⟨u, env', rest, rfl, hterm, hrest⟩ := h.exists_reduce
    cases hterm with
    | var hbc =>
      obtain ⟨x, y, hx, hy, hxy⟩ := hbc
      rw [hlookup] at hx
      cases hx
      cases y with
      | value c => cases hxy
      | thunk u captured' =>
        have hthunk := hxy.terms
        exact ⟨_, .thunk hy, ⟨.cons (.reduce hthunk) hrest.tasks, hrest.values, hrest.supply⟩,
          congrArg lookedUp⟩
  | value hlookup =>
    obtain ⟨u, env', rest, rfl, hterm, hrest⟩ := h.exists_reduce
    cases hterm with
    | var hbc =>
      obtain ⟨x, y, hx, hy, hxy⟩ := hbc
      rw [hlookup] at hx
      cases hx
      cases hxy with
      | value htarget =>
        exact ⟨_, .value hy,
          ⟨hrest.tasks, .cons (.neutral (.var htarget)) hrest.values, hrest.supply⟩,
          congrArg lookedUp⟩
  | app =>
    obtain ⟨u, env', rest, rfl, hterm, hrest⟩ := h.exists_reduce
    cases hterm with
    | app hfunction hargument =>
      exact ⟨_, .app, ⟨.cons (.reduce hfunction) (.cons (.apply hargument) hrest.tasks),
        hrest.values, hrest.supply⟩, id⟩
  | closure =>
    obtain ⟨u, env', rest, rfl, hterm, hrest⟩ := h.exists_reduce
    cases hterm with
    | lam hpq hbody =>
      exact ⟨_, .closure, ⟨hrest.tasks, .cons (.closure hpq hbody) hrest.values, hrest.supply⟩,
        id⟩
  | @enter p _ _ _ _ supply =>
    obtain ⟨u, env', rest, rfl, hterm, hrest⟩ := h.exists_reduce
    cases hterm with
    | @lam _ _ q _ _ hpq hbody =>
      have hfresh : R (supply.fresh p.name).1 (rest.supply.fresh q.name).1 :=
        hrest.supply 0 p.name q.name hpq
      have hbody' := Environment.alike_extend hbody (.value hfresh)
      exact ⟨_, .enter, ⟨.cons (.reduce hbody') (.cons (.buildLam hfresh) hrest.tasks),
        hrest.values, hrest.supply.fresh p.name q.name⟩, id⟩
  | argument =>
    obtain ⟨tasks', values', supply', tally'⟩ := m'
    obtain ⟨htasks, hvalues, hsupply⟩ := h
    cases htasks with
    | cons htask hrest =>
      cases htask with
      | apply hargument =>
        cases hvalues with
        | cons hhead hvalues =>
          cases hhead with
          | neutral hfunction =>
            exact ⟨_, .argument, ⟨.cons (.reduce hargument) (.cons .buildApp hrest),
              .cons (.neutral hfunction) hvalues, hsupply⟩, id⟩
  | buildApp =>
    obtain ⟨tasks', values', supply', tally'⟩ := m'
    obtain ⟨htasks, hvalues, hsupply⟩ := h
    cases htasks with
    | cons htask hrest =>
      cases htask with
      | buildApp =>
        obtain _ | ⟨⟨⟩ | hargument, _ | ⟨⟨⟩ | hfunction, hvalues⟩⟩ := hvalues
        exact ⟨_, .buildApp, ⟨hrest, .cons (.neutral (.app hfunction hargument)) hvalues, hsupply⟩,
          id⟩
  | buildLam =>
    obtain ⟨tasks', values', supply', tally'⟩ := m'
    obtain ⟨htasks, hvalues, hsupply⟩ := h
    cases htasks with
    | cons htask hrest =>
      cases htask with
      | buildLam hpq =>
        cases hvalues with
        | cons hhead hvalues =>
          cases hhead with
          | neutral hbody =>
            exact ⟨_, .buildLam, ⟨hrest, .cons (.neutral (.lam hpq hbody)) hvalues, hsupply⟩, id⟩

theorem Alike.contracts (h : m.Alike same R m') (hstep : m.Contracts m₁) :
    ∃ m₁', m'.Contracts m₁' ∧ m₁.Alike same R m₁' ∧
      (m.tally = m'.tally → m₁.tally = m₁'.tally) := by
  obtain ⟨tasks', values', supply', tally'⟩ := m'
  obtain ⟨htasks, hvalues, hsupply⟩ := h
  cases hstep with
  | beta =>
    cases htasks with
    | cons htask hrest =>
      cases htask with
      | apply hargument =>
        cases hvalues with
        | cons hhead hvalues =>
          cases hhead with
          | closure hpq hbody =>
            have hbody' := Environment.alike_extend hbody (Binding.alike_thunk hargument)
            exact ⟨_, .beta, ⟨.cons (.reduce hbody') hrest, hvalues, hsupply⟩,
              congrArg contracted⟩

theorem Alike.reaches {k : Nat} {m₂ : Machine} (h : m.Alike same R m') (hreaches : Reaches k m m₂) :
    ∃ m₂', Reaches k m' m₂' ∧ m₂.Alike same R m₂' := by
  induction hreaches generalizing m' with
  | refl m => exact ⟨m', .refl m', h⟩
  | search hsearch _ ih =>
    obtain ⟨m₁', hsearch', halike, -⟩ := h.searches hsearch
    obtain ⟨m₂', hreaches', halike₂⟩ := ih halike
    exact ⟨m₂', .search hsearch' hreaches', halike₂⟩
  | contract hcontract _ ih =>
    obtain ⟨m₁', hcontract', halike, -⟩ := h.contracts hcontract
    obtain ⟨m₂', hreaches', halike₂⟩ := ih halike
    exact ⟨m₂', .contract hcontract' hreaches', halike₂⟩

theorem Alike.final {head : Head} {supply : Supply} {tally : Tally}
    (h : Alike same R ⟨[], [head], supply, tally⟩ m') :
    ∃ head', m' = ⟨[], [head'], m'.supply, m'.tally⟩ ∧ head.Alike same R head' := by
  obtain ⟨tasks', values', supply', tally'⟩ := m'
  obtain ⟨htasks, hvalues, -⟩ := h
  cases htasks with
  | nil =>
    cases hvalues with
    | cons hhead hnil =>
      cases hnil with
      | nil => exact ⟨_, rfl, hhead⟩

theorem Alike.yields {k : Nat} {t : BoundTerm} (h : m.Alike same R m') (hyields : m.Yields k t) :
    ∃ u, m'.Yields k u ∧ t.Related R u := by
  obtain ⟨supply, tally, hreaches⟩ := hyields
  obtain ⟨m₂', hreaches', halike⟩ := h.reaches hreaches
  obtain ⟨head', heq, hhead⟩ := halike.final
  cases hhead with
  | @neutral _ u htu =>
    rw [heq] at hreaches'
    exact ⟨u, ⟨_, _, hreaches'⟩, htu⟩

theorem Alike.lookup?_ne_none {b : Binder} {env : Environment} {form : Form} {tasks : List Task}
    {values : List Head} {supply : Supply} {tally : Tally}
    (h : Alike same R ⟨.reduce (.var b) env form :: tasks, values, supply, tally⟩ m') :
    env.lookup? b ≠ none := by
  obtain ⟨u, env', rest, -, hterm, -⟩ := h.exists_reduce
  cases hterm with
  | var hbc =>
    obtain ⟨x, y, hx, -, -⟩ := hbc
    rw [hx]
    exact Option.some_ne_none x

def DeliverAlike (same : Name → Name → Prop) (R : Binder → Binder → Prop) (m m' : Machine)
    (head head' : Head) : Prop :=
  head.Alike same R head' ∧ ∃ k, m.Delivers k head ∧ m'.Delivers k head'

theorem DeliverAlike.search {m₁' : Machine} {head head' : Head} (hsearch : m.Searches m₁)
    (hsearch' : m'.Searches m₁') (h : m₁.DeliverAlike same R m₁' head head') :
    m.DeliverAlike same R m' head head' := by
  obtain ⟨hhead, k, ⟨supply, tally, hreaches⟩, ⟨supply', tally', hreaches'⟩⟩ := h
  exact ⟨hhead, k, ⟨supply, tally, .search hsearch hreaches⟩,
    ⟨supply', tally', .search hsearch' hreaches'⟩⟩

theorem DeliverAlike.contract {m₁' : Machine} {head head' : Head} (hcontract : m.Contracts m₁)
    (hcontract' : m'.Contracts m₁') (h : m₁.DeliverAlike same R m₁' head head') :
    m.DeliverAlike same R m' head head' := by
  obtain ⟨hhead, k, ⟨supply, tally, hreaches⟩, ⟨supply', tally', hreaches'⟩⟩ := h
  exact ⟨hhead, k + 1, ⟨supply, tally, .contract hcontract hreaches⟩,
    ⟨supply', tally', .contract hcontract' hreaches'⟩⟩

/-- Two machines that have the same to do come to results that are alike, in the same number of
steps, or stop for the same reason. -/
theorem Alike.run {goal : Form} (h : m.Alike same R m') (hready : Ready goal m)
    (htally : m.tally = m'.tally) (budget : Budget) (start : UInt64) (fuel : Nat) :
    Agree (m.DeliverAlike same R m') (run budget start fuel m).2 (run budget start fuel m').2 ∧
      (run budget start fuel m).1.tally = (run budget start fuel m').1.tally := by
  induction fuel generalizing m m' with
  | zero => exact ⟨.error _, htally⟩
  | succ fuel ih =>
    rw [Machine.run, Machine.run]
    obtain ⟨m₁, hsearch⟩ | ⟨m₁, hcontract⟩ | ⟨head, supply, tally, rfl, -⟩ |
      ⟨b, env, form, tasks, values, supply, tally, rfl, hnone⟩ := hready.progress
    · obtain ⟨m₁', hsearch', halike, htally₁⟩ := h.searches hsearch
      rw [hsearch.step, hsearch'.step]
      obtain ⟨hagree, htallies⟩ := ih halike (hsearch.ready hready) (htally₁ htally)
      exact ⟨hagree.imp fun _ _ => .search hsearch hsearch', htallies⟩
    · obtain ⟨m₁', hcontract', halike, htally₁⟩ := h.contracts hcontract
      have htaken : m.taken start = m'.taken start := by rw [taken, taken, htally]
      cases hallows : budget.allows (m.taken start) with
      | true =>
        rw [hcontract.step hallows, hcontract'.step (htaken ▸ hallows)]
        obtain ⟨hagree, htallies⟩ := ih halike (hcontract.ready hready) (htally₁ htally)
        exact ⟨hagree.imp fun _ _ => .contract hcontract hcontract', htallies⟩
      | false =>
        rw [hcontract.step_of_not_allows hallows,
          hcontract'.step_of_not_allows (htaken ▸ hallows), htaken]
        exact ⟨.error _, htally⟩
    · obtain ⟨head', heq, hhead⟩ := h.final
      rw [heq]
      exact ⟨.ok ⟨hhead, 0, ⟨_, _, .refl _⟩, ⟨_, _, .refl _⟩⟩, htally⟩
    · exact absurd hnone h.lookup?_ne_none

theorem alike_start {t u : BoundTerm} {env env' : Environment} {supply supply' : Supply}
    (h : t.Alike same (env.Corresponds same R env') u) (hsupply : supply.Alike same R supply')
    (form : Form) (tally tally' : Tally) :
    Alike same R ⟨[.reduce t env form], [], supply, tally⟩
      ⟨[.reduce u env' form], [], supply', tally'⟩ where
  tasks := .cons (.reduce h) .nil
  values := .nil
  supply := hsupply

end Machine

theorem Head.Alike.termOf {head head' : Head} (h : head.Alike same R head') :
    Agree (Term.Related R) (Reducer.termOf head) (Reducer.termOf head') := by
  cases h with
  | closure _ _ => exact .error _
  | neutral ht => exact .ok ht

/-- Terms alike in their environments have the same normal form up to the binders that were drawn,
or none for the same reason. -/
theorem Reducer.normalize_alike {t u : BoundTerm} {env env' : Environment}
    {supply supply' : Supply} (h : t.Alike same (env.Corresponds same R env') u)
    (hsupply : supply.Alike same R supply') (fuel : Nat) (r : Reducer) :
    Agree (Term.Related R) (r.normalize fuel t env supply).result
      (r.normalize fuel u env' supply').result := by
  have halike := Machine.alike_start h hsupply .normal r.tally r.tally
  have hready := Machine.ready_start t env .normal supply r.tally
  obtain ⟨hagree, -⟩ := halike.run hready rfl r.budget r.tally.betaSteps fuel
  exact hagree.bind fun _ _ hdeliver => hdeliver.1.termOf

end UntypedLambda
