namespace UntypedLambda

inductive Term (ν : Type) where
  | var (x : ν)
  | app (function argument : Term ν)
  | lam (parameter : ν) (body : Term ν)
  deriving DecidableEq, Repr

namespace Term

variable {ν μ : Type}

def map (f : ν → μ) : Term ν → Term μ
  | var x => var (f x)
  | app t s => app (t.map f) (s.map f)
  | lam x b => lam (f x) (b.map f)

def lams (parameters : List ν) (body : Term ν) : Term ν :=
  parameters.foldr lam body

def lamsInward (parameters : List ν) (body : Term ν) : Term ν :=
  parameters.foldl (fun b x => lam x b) body

def apps (function : Term ν) (arguments : List (Term ν)) : Term ν :=
  arguments.foldl app function

def stripLams : Term ν → List ν → List ν × Term ν
  | lam x b, seen => stripLams b (x :: seen)
  | t, seen => (seen, t)

def nodes : Term ν → Nat
  | var _ => 1
  | app t s => 1 + t.nodes + s.nodes
  | lam _ b => 1 + b.nodes

def weight (t : Term ν) : Nat :=
  6 * t.nodes

/-- Abstractions collected from the inside out are those collected from the outside in,
in reverse. -/
theorem lamsInward_reverse (parameters : List ν) (body : Term ν) :
    lamsInward parameters.reverse body = lams parameters body := by
  simp [lamsInward, lams, List.foldl_reverse]

theorem nodes_stripLams (t : Term ν) (seen : List ν) :
    (t.stripLams seen).2.nodes ≤ t.nodes := by
  induction t generalizing seen with
  | var x => exact Nat.le_refl _
  | app t s _ _ => exact Nat.le_refl _
  | lam x b ih =>
    have h := ih (x :: seen)
    simp only [stripLams, nodes]
    omega

end Term

end UntypedLambda
