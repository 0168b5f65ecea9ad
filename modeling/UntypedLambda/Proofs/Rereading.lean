import UntypedLambda.Proofs.FreeVariables
import UntypedLambda.Proofs.LexicalScope
import UntypedLambda.Proofs.NormalTerms
import UntypedLambda.Proofs.SessionInvariant
import UntypedLambda.Proofs.SourceRoundTrip

/-! A normal form can have a free binder that is not the newest of its name: a value that a newer
entry hides is still reached through the definitions that were made before. -/
namespace UntypedLambda

/-- An environment that was put together entry by entry, each one for a binder that had none: it
stands for itself, or for a term that was resolved in the environment so far. -/
inductive Environment.Grown : Environment → Prop
  | empty : Grown .empty
  | value {env : Environment} {b : Binder} :
    Grown env → b ∉ env.binders → Grown (.value b b env)
  | thunk {env : Environment} {b : Binder} {e : Expression} {t : BoundTerm}
    {supply rest : Supply} :
    Grown env → b ∉ env.binders → e.resolve env supply = (.ok t, rest) →
      Grown (.thunk b t env env)

namespace Environment

theorem entries_value (b target : Binder) (older : Environment) :
    (value b target older).entries = (b, .value target) :: older.entries :=
  entries_extend older b (.value target)

/-- What an environment keeps in a thunk are entries of its own, so every value in it has one. -/
theorem Grown.mem_entries {env : Environment} (h : env.Grown) {b : Binder} (hb : env.HasValue b) :
    (b, .value b) ∈ env.entries := by
  induction h with
  | empty => cases hb
  | value _ _ ih =>
    rw [entries_value]
    rcases hb with rfl | hb
    · exact List.mem_cons_self
    · exact List.mem_cons_of_mem _ (ih hb)
  | thunk _ _ _ ih =>
    rw [entries_thunk]
    exact List.mem_cons_of_mem _ (hb.elim ih ih)

end Environment

namespace BoundTerm

/-- What a term is shown as means the term exactly if its free binders are the newest of their
names. -/
theorem exists_resolve_display_iff {t : BoundTerm} {env : Environment} (supply : Supply) :
    (∃ u rest, (t.display env.freeNames).resolve env supply = (.ok u, rest) ∧
      u.alphaEquiv t = true) ↔ ∀ b, t.IsFree b → env.newest? b.name = some b := by
  constructor
  · rintro ⟨u, rest, hu, halpha⟩ b hb
    have hsymm : t.alphaEquiv u = true := alphaEquiv_iff.mpr (alphaEquiv_iff.mp halpha).symm
    exact Expression.newest?_of_resolve (congrArg Prod.fst hu) (isFree_of_alphaEquiv hsymm hb)
  · intro hnewest
    exact (Environment.namedApart_of_newest? hnewest).exists_resolve_display hnewest supply

/-- The free binders of a normal form are values of the environment that stand for themselves.
What it is shown as can be resolved and means the normal form exactly if none of them is hidden by a
newer entry of its name. -/
theorem exists_resolve_display_normalForm_iff {env : Environment} (henv : env.Grown) {fuel : Nat}
    {t normal : BoundTerm} {supply rest : Supply}
    (h : t.normalFormIn fuel env supply = (.ok normal, rest)) :
    (∀ b, normal.IsFree b → (b, .value b) ∈ env.entries) ∧
    ∀ supply', (∃ u rest', (normal.display env.freeNames).resolve env supply' = (.ok u, rest') ∧
      u.alphaEquiv normal = true) ↔
        ∀ b, normal.IsFree b → env.newest? b.name = some b := by
  have hnormal : (Reducer.normalize fuel {} t env supply).result = .ok normal :=
    congrArg Prod.fst h
  exact ⟨fun b hb => henv.mem_entries (Reducer.hasValue_of_normalize hnormal hb),
    fun supply' => exists_resolve_display_iff supply'⟩

def hiddenValueEnv : Environment :=
  let first := Environment.value ⟨1, ⟨"y"⟩⟩ ⟨1, ⟨"y"⟩⟩ .empty
  .value ⟨3, ⟨"y"⟩⟩ ⟨3, ⟨"y"⟩⟩ (.thunk ⟨2, ⟨"z"⟩⟩ (.var ⟨1, ⟨"y"⟩⟩) first first)

theorem grown_hiddenValueEnv : hiddenValueEnv.Grown := by
  have hfirst : (Environment.value ⟨1, ⟨"y"⟩⟩ ⟨1, ⟨"y"⟩⟩ .empty).Grown :=
    .value .empty (by decide)
  have hresolve : Expression.resolve (.var ⟨"y"⟩)
      (.value ⟨1, ⟨"y"⟩⟩ ⟨1, ⟨"y"⟩⟩ .empty) ⟨2⟩ = (.ok (.var ⟨1, ⟨"y"⟩⟩), ⟨2⟩) := by
    rw [Expression.resolve_eq_resolveIn]
    rfl
  exact .value (.thunk hfirst (by decide) hresolve) (by decide)

/-- The newest `y` is free below a parameter that is called `y` as well. -/
theorem exists_resolve_display_normalForm_of_hiddenValueEnv :
    let e : Expression := .app (.lam ⟨"x"⟩ (.lam ⟨"y"⟩ (.var ⟨"x"⟩))) (.var ⟨"y"⟩)
    let t : BoundTerm :=
      .app (.lam ⟨4, ⟨"x"⟩⟩ (.lam ⟨5, ⟨"y"⟩⟩ (.var ⟨4, ⟨"x"⟩⟩))) (.var ⟨3, ⟨"y"⟩⟩)
    let normal : BoundTerm := .lam ⟨6, ⟨"y"⟩⟩ (.var ⟨3, ⟨"y"⟩⟩)
    hiddenValueEnv.Grown ∧ e.resolve hiddenValueEnv ⟨4⟩ = (.ok t, ⟨6⟩) ∧
    t.normalFormIn 20 hiddenValueEnv ⟨6⟩ = (.ok normal, ⟨7⟩) ∧
    ∃ u rest, (normal.display hiddenValueEnv.freeNames).resolve hiddenValueEnv ⟨7⟩ =
      (.ok u, rest) ∧ u.alphaEquiv normal = true := by
  intro e t normal
  have hresolve : e.resolve hiddenValueEnv ⟨4⟩ = (.ok t, ⟨6⟩) := by
    rw [Expression.resolve_eq_resolveIn]
    rfl
  have hnormal : t.normalFormIn 20 hiddenValueEnv ⟨6⟩ = (.ok normal, ⟨7⟩) := rfl
  refine ⟨grown_hiddenValueEnv, hresolve, hnormal,
    ((exists_resolve_display_normalForm_iff grown_hiddenValueEnv hnormal).2 ⟨7⟩).mpr ?_⟩
  rintro b ⟨-, rfl⟩
  rfl

/-- The definition stands for the older `y`, and the name of this value means the newer one. -/
theorem not_exists_resolve_display_of_hiddenValueEnv :
    hiddenValueEnv.Grown ∧
    Expression.resolve (.var ⟨"z"⟩) hiddenValueEnv ⟨4⟩ = (.ok (.var ⟨2, ⟨"z"⟩⟩), ⟨4⟩) ∧
    normalFormIn 20 (.var ⟨2, ⟨"z"⟩⟩) hiddenValueEnv ⟨4⟩ = (.ok (.var ⟨1, ⟨"y"⟩⟩), ⟨4⟩) ∧
    ¬ ∃ u rest, (display (.var ⟨1, ⟨"y"⟩⟩) hiddenValueEnv.freeNames).resolve hiddenValueEnv ⟨4⟩ =
      (.ok u, rest) ∧ u.alphaEquiv (.var ⟨1, ⟨"y"⟩⟩) = true := by
  have hresolve : Expression.resolve (.var ⟨"z"⟩) hiddenValueEnv ⟨4⟩ =
      (.ok (.var ⟨2, ⟨"z"⟩⟩), ⟨4⟩) := by
    rw [Expression.resolve_eq_resolveIn]
    rfl
  refine ⟨grown_hiddenValueEnv, hresolve, rfl, ?_⟩
  rw [exists_resolve_display_iff]
  intro hnewest
  have hnew : hiddenValueEnv.newest? ⟨"y"⟩ = some ⟨1, ⟨"y"⟩⟩ := hnewest ⟨1, ⟨"y"⟩⟩ rfl
  have hold : hiddenValueEnv.newest? ⟨"y"⟩ = some ⟨3, ⟨"y"⟩⟩ := rfl
  rw [hold] at hnew
  cases hnew

end BoundTerm

end UntypedLambda
