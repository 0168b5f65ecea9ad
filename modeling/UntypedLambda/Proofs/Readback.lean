import UntypedLambda.Environment
import UntypedLambda.Proofs.Replacement

namespace UntypedLambda

namespace Environment

def meaning (ρ : Binder → Nameless) : Environment → Binder → Nameless
  | empty, b => .free b
  | value p target older, b => if p = b then ρ target else older.meaning ρ b
  | thunk p t captured older, b =>
    if p = b then t.replace (captured.meaning ρ) else older.meaning ρ b

/-- The term that a term in an environment stands for: a binder with a value becomes that value, a
binder with a thunk what the thunk stands for. -/
def readback (env : Environment) (t : BoundTerm) : Nameless :=
  t.replace (env.meaning .free)

def Covers (env : Environment) (t : BoundTerm) : Prop :=
  ∀ b, t.IsFree b → (env.lookup? b).isSome

def WellScoped : Environment → Prop
  | empty => True
  | value _ _ older => older.WellScoped
  | thunk _ t captured older => (captured.Covers t ∧ captured.WellScoped) ∧ older.WellScoped

def ValuesBelow (n : Nat) : Environment → Prop
  | empty => True
  | value _ target older => target.serial < n ∧ older.ValuesBelow n
  | thunk _ _ captured older => captured.ValuesBelow n ∧ older.ValuesBelow n

end Environment

namespace Binding

def meaning (ρ : Binder → Nameless) : Binding → Nameless
  | value target => ρ target
  | thunk t captured => t.replace (captured.meaning ρ)

def WellScoped : Binding → Prop
  | value _ => True
  | thunk t captured => captured.Covers t ∧ captured.WellScoped

def ValuesBelow (n : Nat) : Binding → Prop
  | value target => target.serial < n
  | thunk _ captured => captured.ValuesBelow n

end Binding

namespace Environment

theorem meaning_extend (ρ : Binder → Nameless) (env : Environment) (p b : Binder)
    (binding : Binding) :
    (env.extend p binding).meaning ρ b =
      if p = b then binding.meaning ρ else env.meaning ρ b := by
  cases binding <;> rfl

theorem wellScoped_extend {env : Environment} {p : Binder} {binding : Binding} :
    (env.extend p binding).WellScoped ↔ binding.WellScoped ∧ env.WellScoped := by
  cases binding with
  | value target => exact ⟨fun h => ⟨trivial, h⟩, fun h => h.2⟩
  | thunk t captured => exact Iff.rfl

theorem valuesBelow_extend {env : Environment} {n : Nat} {p : Binder} {binding : Binding} :
    (env.extend p binding).ValuesBelow n ↔ binding.ValuesBelow n ∧ env.ValuesBelow n := by
  cases binding <;> exact Iff.rfl

@[elab_as_elim]
theorem extend_induction {P : Environment → Prop} (empty : P empty)
    (extend : ∀ env p binding, P env → P (env.extend p binding)) (env : Environment) : P env := by
  induction env with
  | empty => exact empty
  | value p target older ih => exact extend older p (.value target) ih
  | thunk p t captured older _ ih => exact extend older p (.thunk t captured) ih

theorem of_lookup? {P : Environment → Prop} {Q : Binding → Prop}
    (hextend : ∀ {env p binding}, P (env.extend p binding) → Q binding ∧ P env)
    {env : Environment} {b : Binder} {binding : Binding} (henv : P env)
    (h : env.lookup? b = some binding) : Q binding := by
  induction env using extend_induction with
  | empty => cases h
  | extend env p found ih =>
    rw [lookup?_extend] at h
    split at h
    · cases h
      exact (hextend henv).1
    · exact ih (hextend henv).2 h

theorem WellScoped.lookup? {env : Environment} (henv : env.WellScoped) {b : Binder}
    {binding : Binding} (h : env.lookup? b = some binding) : binding.WellScoped :=
  of_lookup? wellScoped_extend.mp henv h

theorem ValuesBelow.lookup? {env : Environment} {n : Nat} (henv : env.ValuesBelow n) {b : Binder}
    {binding : Binding} (h : env.lookup? b = some binding) : binding.ValuesBelow n :=
  of_lookup? valuesBelow_extend.mp henv h

theorem ValuesBelow.mono {env : Environment} {m n : Nat} (h : env.ValuesBelow m) (hle : m ≤ n) :
    env.ValuesBelow n := by
  induction env with
  | empty => trivial
  | value p target older ih => exact ⟨Nat.lt_of_lt_of_le h.1 hle, ih h.2⟩
  | thunk p t captured older ihc iho => exact ⟨ihc h.1, iho h.2⟩

theorem meaning_of_lookup? (ρ : Binder → Nameless) {env : Environment} {b : Binder}
    {binding : Binding} (h : env.lookup? b = some binding) :
    env.meaning ρ b = binding.meaning ρ := by
  induction env using extend_induction with
  | empty => cases h
  | extend env p found ih =>
    rw [lookup?_extend] at h
    rw [meaning_extend]
    split at h
    · next hp =>
      cases h
      rw [if_pos hp]
    · next hp =>
      rw [if_neg hp]
      exact ih h

/-- Below the abstraction of a new binder everything means what it meant outside. -/
theorem meaning_below {ρ : Binder → Nameless} {env : Environment} {p : Binder}
    (h : env.ValuesBelow p.serial) (b : Binder) :
    env.meaning (p.below ρ) b = (env.meaning ρ b).shift := by
  induction env generalizing b with
  | empty => rfl
  | value c target older ih =>
    have hne : target ≠ p := by
      rintro rfl
      exact Nat.lt_irrefl _ h.1
    rw [meaning, meaning]
    split
    · rw [Binder.below, if_neg hne]
    · exact ih h.2 b
  | thunk c t captured older ihc iho =>
    rw [meaning, meaning]
    split
    · rw [BoundTerm.replace_shift]
      congr 1
      funext x
      exact ihc h.1 x
    · exact iho h.2 b

end Environment

end UntypedLambda
