import UntypedLambda.Proofs.FreeVariables
import UntypedLambda.Proofs.FreshBinders

/-! The machine draws a binder long before it builds the abstraction, and it may reduce a thunk any
number of times, but no binder that was drawn is ever dropped or used twice. -/
namespace UntypedLambda

def Head.parameters : Head → List Binder
  | .closure _ _ _ => []
  | .neutral t => t.parameters

/-- The binders of the abstractions of the term are those that were drawn between `supply` and
`rest`, outer abstractions first, and its free variables are what looking variables up in the
environment leads to.  So no two abstractions share a binder, and none has one that there was
before. -/
structure BoundTerm.OwnsBinders (t : BoundTerm) (env : Environment) (supply rest : Supply) :
    Prop where
  serials : t.parameters.map Binder.serial = List.range' supply.next t.parameters.length
  next : rest.next = supply.next + t.parameters.length
  free : ∀ b, t.IsFree b → env.Offers b
  nodup : t.parameters.Nodup
  new : ∀ b, b.serial < supply.next → b ∉ t.parameters

namespace Reducer

variable {form : Form} {t : BoundTerm} {env : Environment} {supply rest : Supply} {k l : Nat}
  {head : Head}

/-- The binders of a head stand in the order in which they were drawn, and no other was drawn. -/
theorem Evaluates.draws (h : Evaluates form t env supply k l head rest) :
    supply.Draws head.parameters rest := by
  induction h with
  | thunk _ _ ih => exact ih
  | value _ => exact Supply.draws_nil _
  | beta _ _ ihfunction ihbody =>
    exact ihfunction.append ihbody
  | stuck _ _ ihfunction ihargument => exact ihfunction.append ihargument
  | closure => exact Supply.draws_nil _
  | enter _ ih => exact ih.cons

theorem Evaluates.ownsBinders {t' : BoundTerm}
    (h : Evaluates form t env supply k l (.neutral t') rest) :
    t'.OwnsBinders env supply rest where
  serials := h.draws.serials
  next := h.draws.next
  free _ hb := h.offers hb
  nodup := h.draws.nodup
  new b hb hmem := by
    have hle := h.draws.next_le hmem
    omega

/-- Whatever the term, the environment and the budget are, the abstractions of a normal form, and
those of a head that is no function, have exactly the binders that the reduction has drawn, in their
order.  A reduction that exposes a function draws none. -/
theorem reduce_ownsBinders (r : Reducer) (fuel : Nat) (t : BoundTerm) (env : Environment)
    (supply : Supply) :
    (∀ normal, (r.normalize fuel t env supply).result = .ok normal →
      normal.OwnsBinders env supply (r.normalize fuel t env supply).supply) ∧
    (∀ neutral, (r.weakHead fuel t env supply).result = .ok (.neutral neutral) →
      neutral.OwnsBinders env supply (r.weakHead fuel t env supply).supply) ∧
    ∀ p body captured, (r.weakHead fuel t env supply).result = .ok (.closure p body captured) →
      (r.weakHead fuel t env supply).supply = supply := by
  refine ⟨?_, ?_, ?_⟩
  · intro normal h
    obtain ⟨k, l, hevaluates, -⟩ := exists_evaluates_of_reduce (bind_termOf_eq_ok_iff.mp h)
    exact hevaluates.ownsBinders
  · intro neutral h
    obtain ⟨k, l, hevaluates, -⟩ := exists_evaluates_of_reduce h
    exact hevaluates.ownsBinders
  · intro p body captured h
    obtain ⟨k, l, hevaluates, -⟩ := exists_evaluates_of_reduce h
    exact hevaluates.draws.eq_of_nil

def appliedTwice : BoundTerm :=
  .app (.app (.var ⟨1, ⟨"y"⟩⟩) (.var ⟨2, ⟨"d"⟩⟩)) (.var ⟨2, ⟨"d"⟩⟩)

def appliedTwiceNormal : BoundTerm :=
  .app (.app (.var ⟨1, ⟨"y"⟩⟩) (.lam ⟨4, ⟨"x"⟩⟩ (.var ⟨4, ⟨"x"⟩⟩)))
    (.lam ⟨5, ⟨"x"⟩⟩ (.var ⟨5, ⟨"x"⟩⟩))

/-- A thunk that is reduced two times gives two abstractions with binders of their own, in a normal
form and in a head.  One that is only exposed leaves the serial numbers alone. -/
theorem reduce_ownsBinders_of_appliedTwice :
    (normalize 20 {} appliedTwice sharedBinderEnv ⟨4⟩).result = .ok appliedTwiceNormal ∧
    appliedTwiceNormal.OwnsBinders sharedBinderEnv ⟨4⟩ ⟨6⟩ ∧
    (weakHead 20 {} appliedTwice sharedBinderEnv ⟨4⟩).result = .ok (.neutral appliedTwiceNormal) ∧
    appliedTwiceNormal.OwnsBinders sharedBinderEnv ⟨4⟩
      (weakHead 20 {} appliedTwice sharedBinderEnv ⟨4⟩).supply ∧
    (weakHead 20 {} (.var ⟨2, ⟨"d"⟩⟩) sharedBinderEnv ⟨4⟩).result =
      .ok (.closure ⟨3, ⟨"x"⟩⟩ (.var ⟨3, ⟨"x"⟩⟩) (.value ⟨1, ⟨"y"⟩⟩ ⟨1, ⟨"y"⟩⟩ .empty)) ∧
    (weakHead 20 {} (.var ⟨2, ⟨"d"⟩⟩) sharedBinderEnv ⟨4⟩).supply = ⟨4⟩ := by
  obtain ⟨hnormal, hneutral, -⟩ := reduce_ownsBinders {} 20 appliedTwice sharedBinderEnv ⟨4⟩
  obtain ⟨-, -, hclosure⟩ := reduce_ownsBinders {} 20 (.var ⟨2, ⟨"d"⟩⟩) sharedBinderEnv ⟨4⟩
  exact ⟨rfl, hnormal _ rfl, rfl, hneutral _ rfl, rfl, hclosure _ _ _ rfl⟩

end Reducer

end UntypedLambda
