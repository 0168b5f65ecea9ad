import UntypedLambda.Name
import UntypedLambda.Term.Event

namespace UntypedLambda

structure Binder where
  serial : Nat
  name : Name
  deriving DecidableEq, Repr

namespace Binder

instance : Hashable Binder where
  hash b := hash b.serial

def text (b : Binder) : String :=
  b.name.text ++ "#" ++ toString b.serial

end Binder

/-- Where serial numbers come from: `next` has not been given out yet. -/
structure Supply where
  next : Nat := 1
  deriving DecidableEq, Repr

def Supply.fresh (s : Supply) (name : Name) : Binder × Supply :=
  (⟨s.next, name⟩, ⟨s.next + 1⟩)

abbrev Expression := Term Name

abbrev BoundTerm := Term Binder

def Expression.text (e : Expression) : String :=
  Term.text Name.text e

def BoundTerm.text (t : BoundTerm) : String :=
  Term.text Binder.text t

end UntypedLambda
