import UntypedLambda.Proofs.Readback
import UntypedLambda.Reduction.Machine

/-! A machine whose values are those that its tasks wait for can search or contract until a single
value is left, except that it stops at a variable without a binding. -/
namespace UntypedLambda

namespace Machine

def lookedUp (tally : Tally) : Tally :=
  { tally with lookups := saturatingSucc tally.lookups }

def contracted (tally : Tally) : Tally :=
  { tally with betaSteps := saturatingSucc tally.betaSteps }

inductive Searches : Machine → Machine → Prop where
  | thunk {b : Binder} {env captured : Environment} {t : BoundTerm} {form : Form}
      {tasks : List Task} {values : List Head} {supply : Supply} {tally : Tally}
      (h : env.lookup? b = some (.thunk t captured)) :
      Searches ⟨.reduce (.var b) env form :: tasks, values, supply, tally⟩
        ⟨.reduce t captured form :: tasks, values, supply, lookedUp tally⟩
  | value {b target : Binder} {env : Environment} {form : Form}
      {tasks : List Task} {values : List Head} {supply : Supply} {tally : Tally}
      (h : env.lookup? b = some (.value target)) :
      Searches ⟨.reduce (.var b) env form :: tasks, values, supply, tally⟩
        ⟨tasks, .neutral (.var target) :: values, supply, lookedUp tally⟩
  | app {t s : BoundTerm} {env : Environment} {form : Form}
      {tasks : List Task} {values : List Head} {supply : Supply} {tally : Tally} :
      Searches ⟨.reduce (.app t s) env form :: tasks, values, supply, tally⟩
        ⟨.reduce t env .weakHead :: .apply s env form :: tasks, values, supply, tally⟩
  | closure {p : Binder} {body : BoundTerm} {env : Environment}
      {tasks : List Task} {values : List Head} {supply : Supply} {tally : Tally} :
      Searches ⟨.reduce (.lam p body) env .weakHead :: tasks, values, supply, tally⟩
        ⟨tasks, .closure p body env :: values, supply, tally⟩
  | enter {p : Binder} {body : BoundTerm} {env : Environment}
      {tasks : List Task} {values : List Head} {supply : Supply} {tally : Tally} :
      Searches ⟨.reduce (.lam p body) env .normal :: tasks, values, supply, tally⟩
        ⟨.reduce body (.value p (supply.fresh p.name).1 env) .normal ::
          .buildLam (supply.fresh p.name).1 :: tasks, values, (supply.fresh p.name).2, tally⟩
  | argument {t s : BoundTerm} {env : Environment} {form : Form}
      {tasks : List Task} {values : List Head} {supply : Supply} {tally : Tally} :
      Searches ⟨.apply s env form :: tasks, .neutral t :: values, supply, tally⟩
        ⟨.reduce s env .normal :: .buildApp :: tasks, .neutral t :: values, supply, tally⟩
  | buildApp {t s : BoundTerm}
      {tasks : List Task} {values : List Head} {supply : Supply} {tally : Tally} :
      Searches ⟨.buildApp :: tasks, .neutral s :: .neutral t :: values, supply, tally⟩
        ⟨tasks, .neutral (.app t s) :: values, supply, tally⟩
  | buildLam {p : Binder} {t : BoundTerm}
      {tasks : List Task} {values : List Head} {supply : Supply} {tally : Tally} :
      Searches ⟨.buildLam p :: tasks, .neutral t :: values, supply, tally⟩
        ⟨tasks, .neutral (.lam p t) :: values, supply, tally⟩

inductive Contracts : Machine → Machine → Prop where
  | beta {p : Binder} {s body : BoundTerm} {env captured : Environment} {form : Form}
      {tasks : List Task} {values : List Head} {supply : Supply} {tally : Tally} :
      Contracts ⟨.apply s env form :: tasks, .closure p body captured :: values, supply, tally⟩
        ⟨.reduce body (.thunk p s env captured) form :: tasks, values, supply, contracted tally⟩

variable {tasks : List Task} {values : List Head} {supply : Supply} {tally : Tally}
variable {env : Environment} {form goal : Form} {b : Binder}

theorem Searches.step {m m' : Machine} (h : m.Searches m') (budget : Budget) (start : UInt64) :
    m.step budget start = .running m' := by
  cases h with
  | thunk h => simp [Machine.step, reduce, h, lookedUp]
  | value h => simp [Machine.step, reduce, h, lookedUp]
  | app => rfl
  | closure => rfl
  | enter => rfl
  | argument => rfl
  | buildApp => rfl
  | buildLam => rfl

theorem Contracts.step {m m' : Machine} (h : m.Contracts m') {budget : Budget} {start : UInt64}
    (hallows : budget.allows (m.taken start) = true) : m.step budget start = .running m' := by
  cases h with
  | beta =>
    rw [taken] at hallows
    simp [Machine.step, apply, taken, hallows, contracted]

theorem Contracts.step_of_not_allows {m m' : Machine} (h : m.Contracts m') {budget : Budget}
    {start : UInt64} (hallows : budget.allows (m.taken start) = false) :
    m.step budget start = .halted { m with tasks := m.tasks.tail }
      (.error (.limitExceeded (budget.maxSteps?.getD (m.taken start)))) := by
  cases h with
  | beta =>
    rw [taken] at hallows
    simp [Machine.step, apply, taken, hallows]

theorem step_of_unbound (h : env.lookup? b = none) (budget : Budget) (start : UInt64) :
    step budget start ⟨.reduce (.var b) env form :: tasks, values, supply, tally⟩ =
      .halted ⟨tasks, values, supply, lookedUp tally⟩
        (.error (.abort (.fault (.unboundVariable b)))) := by
  simp [step, reduce, h, fail, lookedUp]

inductive Halts (m : Machine) : Prop
  | value {m' : Machine} {head : Head}
    (h : ∀ budget start, m.step budget start = .halted m' (.ok head))
  | fault {m' : Machine} {fault : Fault}
    (h : ∀ budget start, m.step budget start = .halted m' (.error (.abort (.fault fault))))

/-- There is nothing else that a machine can do, whatever is on its stacks. -/
theorem step_cases (m : Machine) :
    (∃ m', m.Searches m') ∨ (∃ m', m.Contracts m') ∨ m.Halts := by
  obtain ⟨tasks, values, supply, tally⟩ := m
  cases tasks with
  | nil =>
    cases values with
    | nil => exact .inr (.inr (.fault fun _ _ => rfl))
    | cons head values => exact .inr (.inr (.value fun _ _ => rfl))
  | cons task tasks =>
    cases task with
    | reduce t env form =>
      cases t with
      | var b =>
        cases hb : env.lookup? b with
        | none => exact .inr (.inr (.fault (step_of_unbound hb)))
        | some binding =>
          cases binding with
          | value target => exact .inl ⟨_, .value hb⟩
          | thunk t captured => exact .inl ⟨_, .thunk hb⟩
      | app t s => exact .inl ⟨_, .app⟩
      | lam p body =>
        cases form with
        | weakHead => exact .inl ⟨_, .closure⟩
        | normal => exact .inl ⟨_, .enter⟩
    | apply s env form =>
      obtain _ | ⟨⟨p, body, captured⟩ | ⟨t⟩, values⟩ := values
      · exact .inr (.inr (.fault fun _ _ => rfl))
      · exact .inr (.inl ⟨_, .beta⟩)
      · exact .inl ⟨_, .argument⟩
    | buildApp =>
      obtain _ | ⟨⟨p, body, captured⟩ | ⟨s⟩, _ | ⟨⟨q, body', captured'⟩ | ⟨t⟩, values⟩⟩ := values
      · exact .inr (.inr (.fault fun _ _ => rfl))
      · exact .inr (.inr (.fault fun _ _ => rfl))
      · exact .inr (.inr (.fault fun _ _ => rfl))
      · exact .inr (.inr (.fault fun _ _ => rfl))
      · exact .inr (.inr (.fault fun _ _ => rfl))
      · exact .inr (.inr (.fault fun _ _ => rfl))
      · exact .inl ⟨_, .buildApp⟩
    | buildLam p =>
      obtain _ | ⟨⟨q, body, captured⟩ | ⟨t⟩, values⟩ := values
      · exact .inr (.inr (.fault fun _ _ => rfl))
      · exact .inr (.inr (.fault fun _ _ => rfl))
      · exact .inl ⟨_, .buildLam⟩

def Fits : Form → Head → Prop
  | form, .closure _ _ _ => form = .weakHead
  | form, .neutral t => t.IsNormal ∧ (form = .weakHead → ¬ t.IsLam)

/-- The tasks wait for one more value in the given form and then lead to one value of the form
`goal`. -/
inductive Awaits (goal : Form) : Form → List Task → List Head → Prop where
  | done : Awaits goal goal [] []
  | apply {s : BoundTerm} {env : Environment} {form : Form} {tasks : List Task}
      {values : List Head} (h : Awaits goal form tasks values) :
      Awaits goal .weakHead (.apply s env form :: tasks) values
  | buildApp {t : BoundTerm} {form : Form} {tasks : List Task} {values : List Head}
      (ht : t.IsNormal) (hlam : ¬ t.IsLam) (h : Awaits goal form tasks values) :
      Awaits goal .normal (.buildApp :: tasks) (.neutral t :: values)
  | buildLam {p : Binder} {tasks : List Task} {values : List Head}
      (h : Awaits goal .normal tasks values) :
      Awaits goal .normal (.buildLam p :: tasks) values

inductive Ready (goal : Form) : Machine → Prop where
  | reduce {t : BoundTerm} {env : Environment} {form : Form} {tasks : List Task}
      {values : List Head} {supply : Supply} {tally : Tally}
      (h : Awaits goal form tasks values) :
      Ready goal ⟨.reduce t env form :: tasks, values, supply, tally⟩
  | value {head : Head} {form : Form} {tasks : List Task} {values : List Head}
      {supply : Supply} {tally : Tally}
      (hfits : Fits form head) (h : Awaits goal form tasks values) :
      Ready goal ⟨tasks, head :: values, supply, tally⟩

theorem Searches.ready {m m' : Machine} (h : m.Searches m') (hready : Ready goal m) :
    Ready goal m' := by
  cases h with
  | thunk h =>
    cases hready with
    | reduce hwait => exact .reduce hwait
    | value _ hwait => cases hwait
  | value h =>
    cases hready with
    | reduce hwait => exact .value ⟨trivial, fun _ => id⟩ hwait
    | value _ hwait => cases hwait
  | app =>
    cases hready with
    | reduce hwait => exact .reduce (.apply hwait)
    | value _ hwait => cases hwait
  | closure =>
    cases hready with
    | reduce hwait => exact .value rfl hwait
    | value _ hwait => cases hwait
  | enter =>
    cases hready with
    | reduce hwait => exact .reduce (.buildLam hwait)
    | value _ hwait => cases hwait
  | argument =>
    cases hready with
    | value hfits hwait =>
      cases hwait with
      | apply hwait => exact .reduce (.buildApp hfits.1 (hfits.2 rfl) hwait)
  | buildApp =>
    cases hready with
    | value hfits hwait =>
      cases hwait with
      | buildApp ht hlam hwait => exact .value ⟨⟨ht, hlam, hfits.1⟩, fun _ => id⟩ hwait
  | buildLam =>
    cases hready with
    | value hfits hwait =>
      cases hwait with
      | buildLam hwait => exact .value ⟨hfits.1, fun h => by cases h⟩ hwait

theorem Contracts.ready {m m' : Machine} (h : m.Contracts m') (hready : Ready goal m) :
    Ready goal m' := by
  cases h with
  | beta =>
    cases hready with
    | value _ hwait =>
      cases hwait with
      | apply hwait => exact .reduce hwait

/-- A machine that is ready can go on, is finished, or has come to a variable without a binding. -/
theorem Ready.progress {m : Machine} (h : Ready goal m) :
    (∃ m', m.Searches m') ∨ (∃ m', m.Contracts m') ∨
    (∃ head supply tally, m = ⟨[], [head], supply, tally⟩ ∧ Fits goal head) ∨
    (∃ b env form tasks values supply tally,
      m = ⟨.reduce (.var b) env form :: tasks, values, supply, tally⟩ ∧ env.lookup? b = none) := by
  cases h with
  | @reduce t env form tasks values supply tally hwait =>
    cases t with
    | var b =>
      cases hb : env.lookup? b with
      | none => exact .inr (.inr (.inr ⟨b, env, form, tasks, values, supply, tally, rfl, hb⟩))
      | some binding =>
        cases binding with
        | value target => exact .inl ⟨_, .value hb⟩
        | thunk t captured => exact .inl ⟨_, .thunk hb⟩
    | app t s => exact .inl ⟨_, .app⟩
    | lam p body =>
      cases form with
      | weakHead => exact .inl ⟨_, .closure⟩
      | normal => exact .inl ⟨_, .enter⟩
  | @value head form tasks values supply tally hfits hwait =>
    cases head with
    | closure p body captured =>
      cases hfits
      cases hwait with
      | done => exact .inr (.inr (.inl ⟨_, supply, tally, rfl, rfl⟩))
      | apply hwait => exact .inr (.inl ⟨_, .beta⟩)
    | neutral t =>
      cases hwait with
      | done => exact .inr (.inr (.inl ⟨_, supply, tally, rfl, hfits⟩))
      | apply hwait => exact .inl ⟨_, .argument⟩
      | buildApp _ _ hwait => exact .inl ⟨_, .buildApp⟩
      | buildLam hwait => exact .inl ⟨_, .buildLam⟩

theorem Searches.next_le {m m' : Machine} (h : m.Searches m') :
    m.supply.next ≤ m'.supply.next := by
  cases h with
  | enter => exact Nat.le_succ _
  | _ => exact Nat.le_refl _

theorem Contracts.supply_eq {m m' : Machine} (h : m.Contracts m') : m'.supply = m.supply := by
  cases h with
  | beta => rfl

theorem Ready.next_le_run {m : Machine} (h : Ready goal m) (budget : Budget) (start : UInt64)
    (fuel : Nat) : m.supply.next ≤ (run budget start fuel m).1.supply.next := by
  induction fuel generalizing m with
  | zero => exact Nat.le_refl _
  | succ fuel ih =>
    rw [run]
    obtain ⟨m₁, hsearch⟩ | ⟨m₁, hcontract⟩ | ⟨head, supply, tally, rfl, -⟩ |
      ⟨b, env, form, tasks, values, supply, tally, rfl, hnone⟩ := h.progress
    · rw [hsearch.step]
      exact Nat.le_trans hsearch.next_le (ih (hsearch.ready h))
    · cases hallows : budget.allows (m.taken start) with
      | false => exact Nat.le_of_eq (by rw [hcontract.step_of_not_allows hallows])
      | true =>
        rw [hcontract.step hallows, ← hcontract.supply_eq]
        exact ih (hcontract.ready h)
    · exact Nat.le_refl _
    · exact Nat.le_of_eq (by rw [step_of_unbound hnone])

end Machine

/-- A property of a term in its environment, with serial numbers below a bound, that every part of
the machine's work inherits. -/
structure Hereditary (P : Nat → BoundTerm → Environment → Prop) : Prop where
  mono : ∀ {m n : Nat} {t : BoundTerm} {env : Environment}, m ≤ n → P m t env → P n t env
  thunk : ∀ {n : Nat} {b : Binder} {t : BoundTerm} {env captured : Environment},
    P n (.var b) env → env.lookup? b = some (.thunk t captured) → P n t captured
  function : ∀ {n : Nat} {t s : BoundTerm} {env : Environment}, P n (.app t s) env → P n t env
  argument : ∀ {n : Nat} {t s : BoundTerm} {env : Environment}, P n (.app t s) env → P n s env
  enter : ∀ {p c : Binder} {body : BoundTerm} {env : Environment},
    P c.serial (.lam p body) env → P (c.serial + 1) body (.value p c env)
  beta : ∀ {n : Nat} {p : Binder} {body s : BoundTerm} {env captured : Environment},
    P n (.lam p body) captured → P n s env → P n body (.thunk p s env captured)

def Task.Holds (P : BoundTerm → Environment → Prop) : Task → Prop
  | .reduce t env _ => P t env
  | .apply s env _ => P s env
  | .buildApp => True
  | .buildLam _ => True

def Head.Holds (P : BoundTerm → Environment → Prop) : Head → Prop
  | .closure p body env => P (.lam p body) env
  | .neutral _ => True

namespace Machine

structure Holds (P : Nat → BoundTerm → Environment → Prop) (m : Machine) : Prop where
  tasks : ∀ task ∈ m.tasks, task.Holds (P m.supply.next)
  values : ∀ head ∈ m.values, head.Holds (P m.supply.next)

/-- With more serial numbers given out the property still holds of what is left. -/
theorem Holds.rest {P : Nat → BoundTerm → Environment → Prop} (hP : Hereditary P) {m m' : Machine}
    (h : m.Holds P) (htasks : m'.tasks ⊆ m.tasks) (hvalues : m'.values ⊆ m.values)
    (hsupply : m.supply.next ≤ m'.supply.next) : m'.Holds P where
  tasks task htask := by
    have hold := h.tasks task (htasks htask)
    cases task with
    | reduce t env form => exact hP.mono hsupply hold
    | apply s env form => exact hP.mono hsupply hold
    | buildApp => trivial
    | buildLam p => trivial
  values head hhead := by
    have hold := h.values head (hvalues hhead)
    cases head with
    | closure p body env => exact hP.mono hsupply hold
    | neutral t => trivial

theorem Holds.cons_task {P : Nat → BoundTerm → Environment → Prop} {m : Machine} {task : Task}
    (h : m.Holds P) (htask : task.Holds (P m.supply.next)) :
    Holds P { m with tasks := task :: m.tasks } where
  tasks := List.forall_mem_cons.mpr ⟨htask, h.tasks⟩
  values := h.values

theorem Holds.cons_value {P : Nat → BoundTerm → Environment → Prop} {m : Machine} {head : Head}
    (h : m.Holds P) (hhead : head.Holds (P m.supply.next)) :
    Holds P { m with values := head :: m.values } where
  tasks := h.tasks
  values := List.forall_mem_cons.mpr ⟨hhead, h.values⟩

theorem Searches.holds {P : Nat → BoundTerm → Environment → Prop} (hP : Hereditary P)
    {m m' : Machine} (h : m.Searches m') (hm : m.Holds P) : m'.Holds P := by
  cases h with
  | @thunk b env captured t form tasks values supply tally h =>
    have hvar : P supply.next (.var b) env := hm.tasks _ List.mem_cons_self
    have hrest : Holds P ⟨tasks, values, supply, lookedUp tally⟩ :=
      hm.rest hP (List.subset_cons_self _ _) (List.Subset.refl _) (Nat.le_refl _)
    exact hrest.cons_task (hP.thunk hvar h)
  | @value b target env form tasks values supply tally h =>
    have hrest : Holds P ⟨tasks, values, supply, lookedUp tally⟩ :=
      hm.rest hP (List.subset_cons_self _ _) (List.Subset.refl _) (Nat.le_refl _)
    exact hrest.cons_value trivial
  | @app t s env form tasks values supply tally =>
    have happ : P supply.next (.app t s) env := hm.tasks _ List.mem_cons_self
    have hrest : Holds P ⟨tasks, values, supply, tally⟩ :=
      hm.rest hP (List.subset_cons_self _ _) (List.Subset.refl _) (Nat.le_refl _)
    have hargument : Holds P ⟨.apply s env form :: tasks, values, supply, tally⟩ :=
      hrest.cons_task (hP.argument happ)
    exact hargument.cons_task (hP.function happ)
  | @closure p body env tasks values supply tally =>
    have hlam : P supply.next (.lam p body) env := hm.tasks _ List.mem_cons_self
    have hrest : Holds P ⟨tasks, values, supply, tally⟩ :=
      hm.rest hP (List.subset_cons_self _ _) (List.Subset.refl _) (Nat.le_refl _)
    exact hrest.cons_value hlam
  | @enter p body env tasks values supply tally =>
    have hlam : P supply.next (.lam p body) env := hm.tasks _ List.mem_cons_self
    have hrest : Holds P ⟨tasks, values, (supply.fresh p.name).2, tally⟩ :=
      hm.rest hP (List.subset_cons_self _ _) (List.Subset.refl _) (Nat.le_succ _)
    have hbuild : Holds P ⟨.buildLam (supply.fresh p.name).1 :: tasks, values,
        (supply.fresh p.name).2, tally⟩ :=
      hrest.cons_task trivial
    exact hbuild.cons_task (hP.enter (c := (supply.fresh p.name).1) hlam)
  | @argument t s env form tasks values supply tally =>
    have hargument : P supply.next s env := hm.tasks _ List.mem_cons_self
    have hrest : Holds P ⟨tasks, .neutral t :: values, supply, tally⟩ :=
      hm.rest hP (List.subset_cons_self _ _) (List.Subset.refl _) (Nat.le_refl _)
    have hbuild : Holds P ⟨.buildApp :: tasks, .neutral t :: values, supply, tally⟩ :=
      hrest.cons_task trivial
    exact hbuild.cons_task hargument
  | @buildApp t s tasks values supply tally =>
    have hrest : Holds P ⟨tasks, values, supply, tally⟩ :=
      hm.rest hP (List.subset_cons_self _ _)
        (List.Subset.trans (List.subset_cons_self _ _) (List.subset_cons_self _ _)) (Nat.le_refl _)
    exact hrest.cons_value trivial
  | @buildLam p t tasks values supply tally =>
    have hrest : Holds P ⟨tasks, values, supply, tally⟩ :=
      hm.rest hP (List.subset_cons_self _ _) (List.subset_cons_self _ _) (Nat.le_refl _)
    exact hrest.cons_value trivial

theorem Contracts.holds {P : Nat → BoundTerm → Environment → Prop} (hP : Hereditary P)
    {m m' : Machine} (h : m.Contracts m') (hm : m.Holds P) : m'.Holds P := by
  cases h with
  | @beta p s body env captured form tasks values supply tally =>
    have hargument : P supply.next s env := hm.tasks _ List.mem_cons_self
    have hfunction : P supply.next (.lam p body) captured := hm.values _ List.mem_cons_self
    have hrest : Holds P ⟨tasks, values, supply, contracted tally⟩ :=
      hm.rest hP (List.subset_cons_self _ _) (List.subset_cons_self _ _) (Nat.le_refl _)
    exact hrest.cons_task (hP.beta hfunction hargument)

end Machine

theorem hereditary_valuesBelow : Hereditary fun n _ env => env.ValuesBelow n where
  mono hle h := h.mono hle
  thunk h hlookup := h.lookup? hlookup
  function h := h
  argument h := h
  enter h := ⟨Nat.lt_succ_self _, h.mono (Nat.le_succ _)⟩
  beta hcaptured henv := ⟨henv, hcaptured⟩

theorem Environment.Covers.extend {env : Environment} {p : Binder} {body : BoundTerm}
    (h : env.Covers (.lam p body)) (binding : Binding) : (env.extend p binding).Covers body := by
  intro b hb
  rw [Environment.lookup?_extend]
  split
  · rfl
  · next hne => exact h b ⟨fun hbp => hne hbp.symm, hb⟩

theorem hereditary_wellScoped :
    Hereditary fun _ t env => env.Covers t ∧ env.WellScoped where
  mono _ h := h
  thunk h hlookup := h.2.lookup? hlookup
  function h := ⟨fun b hb => h.1 b (.inl hb), h.2⟩
  argument h := ⟨fun b hb => h.1 b (.inr hb), h.2⟩
  enter {_ c _ _} h := ⟨h.1.extend (.value c), h.2⟩
  beta {_ _ _ s env _} hcaptured henv :=
    ⟨hcaptured.1.extend (.thunk s env), henv, hcaptured.2⟩

end UntypedLambda
