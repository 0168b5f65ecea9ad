import UntypedLambda.Environment
import UntypedLambda.Reduction.Budget

/-! Normal order reduction without substitution: an argument waits in the environment as a thunk
until a variable asks for it. -/
namespace UntypedLambda

inductive Form where
  | weakHead
  | normal
  deriving DecidableEq, Repr

inductive Head where
  | closure (parameter : Binder) (body : BoundTerm) (env : Environment)
  /-- A variable applied to any number of arguments in normal form, or a normal form. -/
  | neutral (term : BoundTerm)
  deriving DecidableEq, Repr

inductive Task where
  | reduce (term : BoundTerm) (env : Environment) (form : Form)
  | apply (argument : BoundTerm) (env : Environment) (form : Form)
  | buildApp
  | buildLam (parameter : Binder)
  deriving DecidableEq, Repr

/-- Ways in which the machine would break down.  None of them happens to a term all of whose
free variables are bound in the environment. -/
inductive Fault where
  | unboundVariable (binder : Binder)
  | missingOperand
  | unexpectedClosure
  deriving DecidableEq, Repr

def Fault.message : Fault → String
  | unboundVariable binder =>
    "unbound variable " ++ binder.text ++ " reached during reduction"
  | missingOperand => "reduction finished a task without its operands"
  | unexpectedClosure => "closure left where a normal form was expected"

inductive Abort where
  | fault (fault : Fault)
  | outOfFuel
  deriving DecidableEq, Repr

inductive Stop where
  /-- The budget is used up and one more beta step is needed. -/
  | limitExceeded (limit : UInt64)
  | abort (reason : Abort)
  deriving DecidableEq, Repr

/-- The state of the machine: the tasks and the values, the next one first, the serial numbers
and the counters. -/
structure Machine where
  tasks : List Task
  values : List Head := []
  supply : Supply
  tally : Tally
  deriving DecidableEq, Repr

inductive Progress where
  | running (m : Machine)
  | halted (m : Machine) (result : Except Stop Head)

namespace Machine

def fail (m : Machine) (fault : Fault) : Progress :=
  .halted m (.error (.abort (.fault fault)))

def reduce (m : Machine) (term : BoundTerm) (env : Environment) (form : Form) : Progress :=
  match term with
  | .var b =>
    let m := { m with tally := { m.tally with lookups := saturatingSucc m.tally.lookups } }
    match env.lookup? b with
    | some (.thunk term captured) =>
      -- Nothing is shared: every occurrence reduces the thunk anew.
      .running { m with tasks := .reduce term captured form :: m.tasks }
    | some (.value target) => .running { m with values := .neutral (.var target) :: m.values }
    | none => m.fail (.unboundVariable b)
  | .app function argument =>
    .running { m with
      tasks := .reduce function env .weakHead :: .apply argument env form :: m.tasks }
  | .lam parameter body =>
    match form with
    | .weakHead =>
      .running { m with values := .closure parameter body env :: m.values }
    | .normal =>
      -- A binder of its own keeps the result apart from everything built so far.
      let (fresh, supply) := m.supply.fresh parameter.name
      .running { m with
        tasks :=
          .reduce body (.value parameter fresh env) .normal :: .buildLam fresh :: m.tasks
        supply }

def taken (m : Machine) (start : UInt64) : UInt64 :=
  saturatingSub m.tally.betaSteps start

def apply (budget : Budget) (start : UInt64) (m : Machine) (argument : BoundTerm)
    (env : Environment) (form : Form) : Progress :=
  match m.values with
  | [] => m.fail .missingOperand
  | .closure parameter body captured :: values =>
    if budget.allows (m.taken start) then
      .running { m with
        tasks := .reduce body (.thunk parameter argument env captured) form :: m.tasks
        values
        tally := { m.tally with betaSteps := saturatingSucc m.tally.betaSteps } }
    else
      .halted m (.error (.limitExceeded (budget.maxSteps?.getD (m.taken start))))
  | .neutral _ :: _ =>
    .running { m with tasks := .reduce argument env .normal :: .buildApp :: m.tasks }

def buildApp (m : Machine) : Progress :=
  match m.values with
  | .neutral argument :: .neutral function :: values =>
    .running { m with values := .neutral (.app function argument) :: values }
  | .closure _ _ _ :: _ => m.fail .unexpectedClosure
  | .neutral _ :: .closure _ _ _ :: _ => m.fail .unexpectedClosure
  | [.neutral _] => m.fail .missingOperand
  | [] => m.fail .missingOperand

def buildLam (m : Machine) (parameter : Binder) : Progress :=
  match m.values with
  | .neutral body :: values =>
    .running { m with values := .neutral (.lam parameter body) :: values }
  | .closure _ _ _ :: _ => m.fail .unexpectedClosure
  | [] => m.fail .missingOperand

def finish (m : Machine) : Progress :=
  match m.values with
  | value :: _ => .halted m (.ok value)
  | [] => m.fail .missingOperand

def step (budget : Budget) (start : UInt64) (m : Machine) : Progress :=
  match m.tasks with
  | [] => m.finish
  | .reduce term env form :: tasks => { m with tasks }.reduce term env form
  | .apply argument env form :: tasks => apply budget start { m with tasks } argument env form
  | .buildApp :: tasks => { m with tasks }.buildApp
  | .buildLam parameter :: tasks => { m with tasks }.buildLam parameter

def run (budget : Budget) (start : UInt64) : Nat → Machine → Machine × Except Stop Head
  | 0, m => (m, .error (.abort .outOfFuel))
  | fuel + 1, m =>
    match m.step budget start with
    | .running m => run budget start fuel m
    | .halted m result => (m, result)

theorem run_of_le {budget : Budget} {start : UInt64} {fuel more : Nat} {m : Machine}
    (hle : fuel ≤ more) (hend : (run budget start fuel m).2 ≠ .error (.abort .outOfFuel)) :
    run budget start more m = run budget start fuel m := by
  induction fuel generalizing more m with
  | zero => exact absurd rfl hend
  | succ fuel ih =>
    obtain ⟨more, rfl⟩ : ∃ k, more = k + 1 := ⟨more - 1, by omega⟩
    rw [run] at hend
    rw [run, run]
    cases hstep : m.step budget start with
    | running m' =>
      rw [hstep] at hend
      exact ih (by omega) hend
    | halted m' result => rfl

end Machine

end UntypedLambda
