import UntypedLambda.Reduction.Machine

namespace UntypedLambda

structure Reducer where
  budget : Budget := .unbounded
  tally : Tally := {}
  deriving DecidableEq, Repr

structure Reduction (α : Type) where
  result : Except Stop α
  reducer : Reducer
  supply : Supply

namespace Reducer

def reduce (fuel : Nat) (r : Reducer) (form : Form) (term : BoundTerm) (env : Environment)
    (supply : Supply) : Reduction Head :=
  let (m, result) := Machine.run r.budget r.tally.betaSteps fuel
    { tasks := [.reduce term env form], supply, tally := r.tally }
  { result, reducer := { r with tally := m.tally }, supply := m.supply }

def weakHead (fuel : Nat) (r : Reducer) (term : BoundTerm) (env : Environment)
    (supply : Supply) : Reduction Head :=
  r.reduce fuel .weakHead term env supply

def termOf : Head → Except Stop BoundTerm
  | .neutral term => .ok term
  | .closure _ _ _ => .error (.abort (.fault .unexpectedClosure))

def normalize (fuel : Nat) (r : Reducer) (term : BoundTerm) (env : Environment)
    (supply : Supply) : Reduction BoundTerm :=
  let reduction := r.reduce fuel .normal term env supply
  { reduction with result := reduction.result >>= termOf }

end Reducer

def BoundTerm.normalFormIn (fuel : Nat) (term : BoundTerm) (env : Environment)
    (supply : Supply) : Except Stop BoundTerm × Supply :=
  let reduction := Reducer.normalize fuel {} term env supply
  (reduction.result, reduction.supply)

def BoundTerm.normalForm (fuel : Nat) (term : BoundTerm) (supply : Supply) :
    Except Stop BoundTerm × Supply :=
  term.normalFormIn fuel .empty supply

end UntypedLambda
