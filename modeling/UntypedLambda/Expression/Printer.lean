import UntypedLambda.Binder
import UntypedLambda.Token

/-! Parentheses stand around an application that is an argument, and around a lambda that would
swallow what follows it; consecutive lambdas share one header. -/
namespace UntypedLambda

/-- What may stand at a place without parentheses. -/
structure Slot where
  app : Bool
  lam : Bool
  deriving DecidableEq, Repr

namespace Slot

def whole : Slot := ⟨true, true⟩

def function : Slot := ⟨true, false⟩

def argument (s : Slot) : Slot := ⟨false, s.lam⟩

def weight (s : Slot) : Nat :=
  if s.app && s.lam then 0 else 2

theorem weight_whole : weight whole = 0 := rfl

theorem weight_le_two (s : Slot) : s.weight ≤ 2 := by
  rw [weight]
  split <;> decide

theorem weight_of_not_app {s : Slot} (h : ¬ s.app = true) : s.weight = 2 := by
  simp [weight, h]

theorem weight_of_not_lam {s : Slot} (h : ¬ s.lam = true) : s.weight = 2 := by
  simp [weight, h]

end Slot

inductive PrintStep where
  | part (slot : Slot) (e : Expression)
  | token (token : Token)

def PrintStep.weight : PrintStep → Nat
  | part slot e => e.weight + slot.weight
  | token _ => 1

namespace Expression

def tokensOnto : List PrintStep → List Token → List Token
  | [], done => done
  | .token token :: rest, done => tokensOnto rest (token :: done)
  | .part _ (.var x) :: rest, done => tokensOnto rest (.ident x :: done)
  | .part slot (.app t s) :: rest, done =>
    if _h : slot.app = true then
      tokensOnto (.part .function t :: .part slot.argument s :: rest) done
    else
      tokensOnto (.part .whole (.app t s) :: .token .rightParen :: rest) (.leftParen :: done)
  | .part slot (.lam x b) :: rest, done =>
    if _h : slot.lam = true then
      let inner := b.stripLams [x]
      tokensOnto (.part .whole inner.2 :: rest)
        (.dot :: (inner.1.map Token.ident ++ .backslash :: done))
    else
      tokensOnto (.part .whole (.lam x b) :: .token .rightParen :: rest) (.leftParen :: done)
termination_by steps _ => (steps.map PrintStep.weight).foldr (· + ·) 0
decreasing_by
  all_goals
    simp only [List.map_cons, List.foldr_cons, PrintStep.weight, Term.weight, Term.nodes,
      Slot.weight_whole]
  · omega
  · omega
  -- The node of an application pays for the allowances of both of its parts.
  · have := Slot.function.weight_le_two
    have := slot.argument.weight_le_two
    omega
  · have := Slot.weight_of_not_app _h
    omega
  · have := Term.nodes_stripLams b [x]
    omega
  · have := Slot.weight_of_not_lam _h
    omega

def tokens (e : Expression) : List Token :=
  (tokensOnto [.part .whole e] []).reverse

def source (e : Expression) : String :=
  Token.spell e.tokens

end Expression

end UntypedLambda
