namespace UntypedLambda

/-- A reduction goes on for as long as it takes, or gives up when it needs one more beta step
than it may take. -/
inductive Budget where
  | unbounded
  | limited (maxSteps : UInt64)
  deriving DecidableEq, Repr

namespace Budget

instance : Inhabited Budget := ⟨unbounded⟩

def maxSteps? : Budget → Option UInt64
  | unbounded => none
  | limited maxSteps => some maxSteps

def allows (budget : Budget) (taken : UInt64) : Bool :=
  match budget with
  | unbounded => true
  | limited maxSteps => taken < maxSteps

end Budget

def saturatingSucc (n : UInt64) : UInt64 :=
  if n.toNat + 1 < UInt64.size then n + 1 else n

def saturatingSub (n m : UInt64) : UInt64 :=
  if m ≤ n then n - m else 0

structure Tally where
  betaSteps : UInt64 := 0
  lookups : UInt64 := 0
  deriving DecidableEq, Repr

end UntypedLambda
