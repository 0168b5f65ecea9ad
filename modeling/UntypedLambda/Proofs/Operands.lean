import UntypedLambda.Proofs.Completeness

namespace UntypedLambda

namespace Machine

variable {budget : Budget} {start : UInt64} {goal : Form} {m m' m₁ : Machine}

abbrev StepsTo (budget : Budget) (start : UInt64) : Machine → Machine → Prop :=
  Relation.ReflTransGen fun m m' => m.step budget start = .running m'

/-- The values that the next task takes are on top of the stack, and they are of the kind that it
takes.  Without a task there is one value only, and it is a normal form if that is the goal. -/
def HasOperands (goal : Form) (m : Machine) : Prop :=
  match m.tasks with
  | [] => ∃ head, m.values = [head] ∧ (goal = .normal → ∃ t, head = .neutral t)
  | .reduce _ _ _ :: _ => True
  | .apply _ _ _ :: _ => ∃ head values, m.values = head :: values
  | .buildApp :: _ =>
    ∃ argument function values, m.values = .neutral argument :: .neutral function :: values
  | .buildLam _ :: _ => ∃ body values, m.values = .neutral body :: values

def AsksForUnbound (m : Machine) (b : Binder) : Prop :=
  ∃ env form tasks, m.tasks = .reduce (.var b) env form :: tasks ∧ env.lookup? b = none

theorem searches_or_contracts_of_step (h : m.step budget start = .running m') :
    m.Searches m' ∨ m.Contracts m' := by
  obtain ⟨m₁, hsearch⟩ | ⟨m₁, hcontract⟩ | hhalts := m.step_cases
  · rw [hsearch.step] at h
    cases h
    exact .inl hsearch
  · cases hallows : budget.allows (m.taken start) with
    | true =>
      rw [hcontract.step hallows] at h
      cases h
      exact .inr hcontract
    | false =>
      rw [hcontract.step_of_not_allows hallows] at h
      cases h
  · cases hhalts with
    | value hvalue => cases (hvalue budget start).symm.trans h
    | fault hfault => cases (hfault budget start).symm.trans h

theorem Ready.step (hready : Ready goal m) (h : m.step budget start = .running m') :
    Ready goal m' := by
  rcases searches_or_contracts_of_step h with hsearch | hcontract
  · exact hsearch.ready hready
  · exact hcontract.ready hready

theorem Holds.step {P : Nat → BoundTerm → Environment → Prop} (hP : Hereditary P) (hm : m.Holds P)
    (h : m.step budget start = .running m') : m'.Holds P := by
  rcases searches_or_contracts_of_step h with hsearch | hcontract
  · exact hsearch.holds hP hm
  · exact hcontract.holds hP hm

theorem Awaits.hasOperands {head : Head} {form : Form} {tasks : List Task} {values : List Head}
    {supply : Supply} {tally : Tally} (h : Awaits goal form tasks values)
    (hfits : Fits form head) : HasOperands goal ⟨tasks, head :: values, supply, tally⟩ := by
  have hneutral : form = .normal → ∃ t, head = .neutral t := by
    rintro rfl
    cases head with
    | closure p body captured => cases hfits
    | neutral t => exact ⟨t, rfl⟩
  cases h with
  | done => exact ⟨head, rfl, hneutral⟩
  | apply _ => exact ⟨head, values, rfl⟩
  | @buildApp function _ _ values _ _ _ =>
    obtain ⟨argument, rfl⟩ := hneutral rfl
    exact ⟨argument, function, values, rfl⟩
  | buildLam _ =>
    obtain ⟨body, rfl⟩ := hneutral rfl
    exact ⟨body, values, rfl⟩

theorem Ready.hasOperands (h : Ready goal m) : m.HasOperands goal := by
  cases h with
  | reduce _ => trivial
  | value hfits hwait => exact hwait.hasOperands hfits

/-- A machine that is ready halts with a value of the form asked for, at its limit, or at a variable
without a binding. -/
theorem Ready.halted_cases {result : Except Stop Head} (hready : Ready goal m)
    (h : m.step budget start = .halted m' result) :
    (∃ head, result = .ok head ∧ Fits goal head) ∨
    (∃ limit, result = .error (.limitExceeded limit)) ∨
    ∃ b, result = .error (.abort (.fault (.unboundVariable b))) ∧ m.AsksForUnbound b := by
  obtain ⟨m₁, hsearch⟩ | ⟨m₁, hcontract⟩ | ⟨head, supply, tally, rfl, hfits⟩ |
    ⟨b, env, form, tasks, values, supply, tally, rfl, hnone⟩ := hready.progress
  · cases (hsearch.step budget start).symm.trans h
  · cases hallows : budget.allows (m.taken start) with
    | true => cases (hcontract.step hallows).symm.trans h
    | false =>
      cases (hcontract.step_of_not_allows hallows).symm.trans h
      exact .inr (.inl ⟨_, rfl⟩)
  · cases h
    exact .inl ⟨head, rfl, hfits⟩
  · cases (step_of_unbound hnone budget start).symm.trans h
    exact .inr (.inr ⟨b, rfl, env, form, tasks, rfl, hnone⟩)

theorem Ready.asksForUnbound {fault : Fault} (hready : Ready goal m)
    (h : m.step budget start = .halted m' (.error (.abort (.fault fault)))) :
    ∃ b, fault = .unboundVariable b ∧ m.AsksForUnbound b := by
  obtain ⟨head, heq, -⟩ | ⟨limit, heq⟩ | ⟨b, heq, hasks⟩ := hready.halted_cases h
  · cases heq
  · cases heq
  · cases heq
    exact ⟨b, rfl, hasks⟩

theorem Holds.not_asksForUnbound (h : m.Holds fun _ t env => env.Covers t ∧ env.WellScoped)
    (b : Binder) : ¬ m.AsksForUnbound b := by
  obtain ⟨tasks, values, supply, tally⟩ := m
  rintro ⟨env, form, rest, rfl, hnone⟩
  exact h.lookup?_ne_none hnone

theorem StepsTo.ready (h : StepsTo budget start m m') (hready : Ready goal m) :
    Ready goal m' := by
  induction h with
  | refl => exact hready
  | tail _ hstep ih => exact ih.step hstep

theorem StepsTo.holds {P : Nat → BoundTerm → Environment → Prop} (hP : Hereditary P)
    (h : StepsTo budget start m m') (hm : m.Holds P) : m'.Holds P := by
  induction h with
  | refl => exact hm
  | tail _ hstep ih => exact ih.step hP hstep

/-- What a run ends with, unless it needs more fuel, is what the step from some state that it
reaches ends with. -/
theorem exists_stepsTo_of_run {fuel : Nat} {result : Except Stop Head}
    (h : run budget start fuel m = (m', result)) (hfuel : result ≠ .error (.abort .outOfFuel)) :
    ∃ m₁, StepsTo budget start m m₁ ∧ m₁.step budget start = .halted m' result := by
  induction fuel generalizing m with
  | zero =>
    cases h
    exact absurd rfl hfuel
  | succ fuel ih =>
    rw [run] at h
    cases hstep : m.step budget start with
    | running m₂ =>
      rw [hstep] at h
      obtain ⟨m₁, hsteps, hhalted⟩ := ih h
      exact ⟨m₁, .head hstep hsteps, hhalted⟩
    | halted m₂ result₂ =>
      rw [hstep] at h
      cases h
      exact ⟨m, .refl, hstep⟩

end Machine

namespace Reducer

variable {r : Reducer} {form : Form} {t : BoundTerm} {env : Environment} {supply : Supply}
  {fuel : Nat} {fault : Fault}

def Visits (r : Reducer) (form : Form) (t : BoundTerm) (env : Environment) (supply : Supply)
    (m : Machine) : Prop :=
  Machine.StepsTo r.budget r.tally.betaSteps ⟨[.reduce t env form], [], supply, r.tally⟩ m

theorem Visits.ready {m : Machine} (h : r.Visits form t env supply m) : Machine.Ready form m :=
  Machine.StepsTo.ready h (Machine.ready_start t env form supply r.tally)

theorem Visits.not_asksForUnbound {m : Machine} (h : r.Visits form t env supply m)
    (hcovers : env.Covers t) (hscoped : env.WellScoped) (b : Binder) : ¬ m.AsksForUnbound b := by
  have hstart : Machine.Holds (fun _ t env => env.Covers t ∧ env.WellScoped)
      ⟨[.reduce t env form], [], supply, r.tally⟩ := Machine.holds_start ⟨hcovers, hscoped⟩
  exact (Machine.StepsTo.holds hereditary_wellScoped h hstart).not_asksForUnbound b

theorem exists_visits_of_reduce {result : Except Stop Head}
    (h : (r.reduce fuel form t env supply).result = result)
    (hfuel : result ≠ .error (.abort .outOfFuel)) :
    ∃ m m', r.Visits form t env supply m ∧
      m.step r.budget r.tally.betaSteps = .halted m' result := by
  have hrun : Machine.run r.budget r.tally.betaSteps fuel
      ⟨[.reduce t env form], [], supply, r.tally⟩ = (_, result) := Prod.ext rfl h
  obtain ⟨m, hsteps, hhalted⟩ := Machine.exists_stepsTo_of_run hrun hfuel
  exact ⟨m, _, hsteps, hhalted⟩

theorem exists_asksForUnbound_of_reduce
    (h : (r.reduce fuel form t env supply).result = .error (.abort (.fault fault))) :
    ∃ b m, fault = .unboundVariable b ∧ r.Visits form t env supply m ∧ m.AsksForUnbound b := by
  obtain ⟨m, m', hvisits, hhalted⟩ := exists_visits_of_reduce h fun heq => by cases heq
  obtain ⟨b, hfault, hasks⟩ := hvisits.ready.asksForUnbound hhalted
  exact ⟨b, m, hfault, hvisits, hasks⟩

/-- A reduction to a normal form never ends with a closure, so it breaks down only where the machine
does. -/
theorem reduce_of_normalize
    (h : (r.normalize fuel t env supply).result = .error (.abort (.fault fault))) :
    (r.reduce fuel .normal t env supply).result = .error (.abort (.fault fault)) := by
  rw [normalize] at h
  rcases hresult : (r.reduce fuel .normal t env supply).result with
    stop | (⟨p, body, captured⟩ | ⟨normal⟩)
  · rw [hresult] at h
    cases h
    rfl
  · obtain ⟨m, m', hvisits, hhalted⟩ := exists_visits_of_reduce hresult fun heq => by cases heq
    obtain ⟨head, heq, hfits⟩ | ⟨limit, heq⟩ | ⟨b, heq, -⟩ := hvisits.ready.halted_cases hhalted
    · cases heq
      cases hfits
    · cases heq
    · cases heq
  · rw [hresult] at h
    cases h

/-- No task of a reduction is ever without its operands, whatever the term, the environment and the
budget are.  In every state that is visited the next task finds the values that it takes, and when
no task is left there is one value, a normal form if one was asked for.  So the only way to break
down is a variable without a binding, and a reduction of a well-scoped term never visits a state
that asks for one. -/
theorem visits_hasOperands (r : Reducer) (form : Form) (t : BoundTerm) (env : Environment)
    (supply : Supply) :
    (∀ m, r.Visits form t env supply m → m.HasOperands form ∧
      ∀ m' fault, m.step r.budget r.tally.betaSteps = .halted m' (.error (.abort (.fault fault))) →
        ∃ b, fault = .unboundVariable b ∧ m.AsksForUnbound b) ∧
    (∀ fuel fault, (r.reduce fuel form t env supply).result = .error (.abort (.fault fault)) →
      ∃ b, fault = .unboundVariable b) ∧
    (∀ fuel fault, (r.normalize fuel t env supply).result = .error (.abort (.fault fault)) →
      ∃ b, fault = .unboundVariable b) ∧
    (env.Covers t → env.WellScoped →
      (∀ m b, r.Visits form t env supply m → ¬ m.AsksForUnbound b) ∧
      (∀ fuel fault, (r.reduce fuel form t env supply).result ≠ .error (.abort (.fault fault))) ∧
      ∀ fuel fault, (r.normalize fuel t env supply).result ≠ .error (.abort (.fault fault))) := by
  refine ⟨?_, ?_, ?_, ?_⟩
  · intro m hvisits
    exact ⟨hvisits.ready.hasOperands, fun m' fault h => hvisits.ready.asksForUnbound h⟩
  · intro fuel fault h
    obtain ⟨b, -, hfault, -, -⟩ := exists_asksForUnbound_of_reduce h
    exact ⟨b, hfault⟩
  · intro fuel fault h
    obtain ⟨b, -, hfault, -, -⟩ := exists_asksForUnbound_of_reduce (reduce_of_normalize h)
    exact ⟨b, hfault⟩
  · intro hcovers hscoped
    have hreduce (form : Form) (fuel : Nat) (fault : Fault) :
        (r.reduce fuel form t env supply).result ≠ .error (.abort (.fault fault)) := by
      intro h
      obtain ⟨b, m, -, hvisits, hasks⟩ := exists_asksForUnbound_of_reduce h
      exact hvisits.not_asksForUnbound hcovers hscoped b hasks
    refine ⟨?_, hreduce form, ?_⟩
    · intro m b hvisits
      exact hvisits.not_asksForUnbound hcovers hscoped b
    · intro fuel fault h
      exact hreduce .normal fuel fault (reduce_of_normalize h)

/-- An application whose head is no function: in the state that puts it together both parts are on
the value stack.  Without an environment its head is a variable without a binding, and a term that
has no free variable never asks for one. -/
theorem visits_hasOperands_of_rigidHead :
    Visits {} .normal (.app (.var ⟨1, ⟨"y"⟩⟩) (.var ⟨1, ⟨"y"⟩⟩))
      (.value ⟨1, ⟨"y"⟩⟩ ⟨1, ⟨"y"⟩⟩ .empty) ⟨2⟩
      ⟨[.buildApp], [.neutral (.var ⟨1, ⟨"y"⟩⟩), .neutral (.var ⟨1, ⟨"y"⟩⟩)], ⟨2⟩, ⟨0, 2⟩⟩ ∧
    Machine.HasOperands .normal
      ⟨[.buildApp], [.neutral (.var ⟨1, ⟨"y"⟩⟩), .neutral (.var ⟨1, ⟨"y"⟩⟩)], ⟨2⟩, ⟨0, 2⟩⟩ ∧
    (normalize 2 {} (.app (.var ⟨1, ⟨"y"⟩⟩) (.var ⟨1, ⟨"y"⟩⟩)) .empty ⟨2⟩).result =
      .error (.abort (.fault (.unboundVariable ⟨1, ⟨"y"⟩⟩))) ∧
    Environment.empty.Covers selfReducing ∧ Environment.empty.WellScoped ∧
    ∀ fuel fault, (normalize fuel {} selfReducing .empty ⟨2⟩).result ≠
      .error (.abort (.fault fault)) := by
  have hvisits : Visits {} .normal (.app (.var ⟨1, ⟨"y"⟩⟩) (.var ⟨1, ⟨"y"⟩⟩))
      (.value ⟨1, ⟨"y"⟩⟩ ⟨1, ⟨"y"⟩⟩ .empty) ⟨2⟩
      ⟨[.buildApp], [.neutral (.var ⟨1, ⟨"y"⟩⟩), .neutral (.var ⟨1, ⟨"y"⟩⟩)], ⟨2⟩, ⟨0, 2⟩⟩ :=
    .head rfl (.head rfl (.head rfl (.head rfl .refl)))
  have hoperands := (visits_hasOperands {} .normal (.app (.var ⟨1, ⟨"y"⟩⟩) (.var ⟨1, ⟨"y"⟩⟩))
    (.value ⟨1, ⟨"y"⟩⟩ ⟨1, ⟨"y"⟩⟩ .empty) ⟨2⟩).1 _ hvisits
  have hcovers : Environment.empty.Covers selfReducing := by
    apply BoundTerm.covers_of_closed
    simp [selfReducing, Term.IsFree]
  have hscoped := (visits_hasOperands {} .normal selfReducing .empty ⟨2⟩).2.2.2 hcovers trivial
  exact ⟨hvisits, hoperands.1, rfl, hcovers, trivial, hscoped.2.2⟩

end Reducer

end UntypedLambda
