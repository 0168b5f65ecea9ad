import UntypedLambda.Proofs.BigStep

namespace UntypedLambda

namespace Nameless

def HasFree : Nameless → Binder → Prop
  | bound _, _ => False
  | free c, b => c = b
  | app t s, b => t.HasFree b ∨ s.HasFree b
  | lam t, b => t.HasFree b

@[simp] theorem hasFree_rename {t : Nameless} {b : Binder} {ρ : Nat → Nat} :
    (t.rename ρ).HasFree b ↔ t.HasFree b := by
  induction t generalizing ρ with
  | bound i => exact Iff.rfl
  | free c => exact Iff.rfl
  | app t s iht ihs => exact or_congr iht ihs
  | lam t ih => exact ih

end Nameless

namespace BoundTerm

theorem hasFree_replace {t : BoundTerm} {σ : Binder → Nameless} {b : Binder} :
    (t.replace σ).HasFree b ↔ ∃ c, t.IsFree c ∧ (σ c).HasFree b := by
  induction t generalizing σ with
  | var c => simp [replace, Term.IsFree]
  | app t s iht ihs =>
    simp only [replace, Nameless.HasFree, Term.IsFree, iht, ihs, or_and_right, exists_or]
  | lam p t ih =>
    simp only [replace, Nameless.HasFree, Term.IsFree, ih, Binder.below]
    constructor
    · rintro ⟨c, hc, h⟩
      by_cases hcp : c = p
      · rw [if_pos hcp] at h
        exact absurd h id
      · rw [if_neg hcp] at h
        exact ⟨c, ⟨hcp, hc⟩, Nameless.hasFree_rename.mp h⟩
    · rintro ⟨c, ⟨hcp, hc⟩, h⟩
      refine ⟨c, hc, ?_⟩
      rw [if_neg hcp]
      exact Nameless.hasFree_rename.mpr h

end BoundTerm

namespace Environment

def HasValue : Environment → Binder → Prop
  | empty, _ => False
  | value _ target older, b => target = b ∨ older.HasValue b
  | thunk _ _ captured older, b => captured.HasValue b ∨ older.HasValue b

/-- Looking a variable up leads to the binder, by way of any number of thunks and the environments
that they keep. -/
inductive Offers : Environment → Binder → Prop
  | value {env : Environment} {b target : Binder} :
    env.lookup? b = some (.value target) → Offers env target
  | thunk {env captured : Environment} {b c : Binder} {t : BoundTerm} :
    env.lookup? b = some (.thunk t captured) → Offers captured c → Offers env c

end Environment

namespace Binding

def Offers : Binding → Binder → Prop
  | value target, b => target = b
  | thunk _ captured, b => captured.Offers b

def HasValue : Binding → Binder → Prop
  | value target, b => target = b
  | thunk _ captured, b => captured.HasValue b

end Binding

namespace Environment

variable {env : Environment} {b c p : Binder} {binding : Binding}

theorem offers_of_lookup? (h : env.lookup? c = some binding) (hb : binding.Offers b) :
    env.Offers b := by
  cases binding with
  | value target => exact hb ▸ .value h
  | thunk t captured => exact .thunk h hb

theorem Offers.exists_lookup? (h : env.Offers b) :
    ∃ c binding, env.lookup? c = some binding ∧ binding.Offers b := by
  cases h with
  | value h => exact ⟨_, _, h, rfl⟩
  | thunk h hb => exact ⟨_, _, h, hb⟩

/-- One more binding leads to no more than what it leads to itself. -/
theorem Offers.of_extend (h : (env.extend p binding).Offers b) :
    binding.Offers b ∨ env.Offers b := by
  obtain ⟨c, found, hlookup, hb⟩ := h.exists_lookup?
  rw [lookup?_extend] at hlookup
  split at hlookup
  · cases hlookup
    exact .inl hb
  · exact .inr (offers_of_lookup? hlookup hb)

theorem hasValue_extend :
    (env.extend p binding).HasValue b ↔ binding.HasValue b ∨ env.HasValue b := by
  cases binding <;> exact Iff.rfl

theorem hasValue_of_lookup? (h : env.lookup? c = some binding) (hb : binding.HasValue b) :
    env.HasValue b := by
  induction env using extend_induction with
  | empty => cases h
  | extend env p found ih =>
    rw [lookup?_extend] at h
    rw [hasValue_extend]
    split at h
    · cases h
      exact .inl hb
    · exact .inr (ih h)

theorem Offers.hasValue (h : env.Offers b) : env.HasValue b := by
  induction h with
  | value h => exact hasValue_of_lookup? h rfl
  | thunk h _ ih => exact hasValue_of_lookup? h ih

end Environment

def Head.Offers : Head → Binder → Prop
  | .closure _ _ env, b => env.Offers b
  | .neutral t, b => t.IsFree b

namespace Reducer

/-- A reduction leads to nothing that its environment does not lead to. -/
theorem Evaluates.offers {form : Form} {t : BoundTerm} {env : Environment} {supply rest : Supply}
    {k l : Nat} {head : Head} (h : Evaluates form t env supply k l head rest) {b : Binder}
    (hb : head.Offers b) : env.Offers b := by
  induction h with
  | thunk hlookup _ ih => exact .thunk hlookup (ih hb)
  | value hlookup =>
    cases hb
    exact .value hlookup
  | @beta _ _ s _ p env captured _ _ _ _ _ _ _ _ _ _ ihfunction ihbody =>
    have hbody : (captured.extend p (.thunk s env)).Offers b := ihbody hb
    rcases hbody.of_extend with hargument | hcaptured
    · exact hargument
    · exact ihfunction hcaptured
  | stuck _ _ ihfunction ihargument => exact hb.elim ihfunction ihargument
  | closure => exact hb
  | @enter p _ _ env supply _ _ _ _ ih =>
    have hbody : (env.extend p (.value (supply.fresh p.name).1)).Offers b := ih hb.2
    rcases hbody.of_extend with hnew | henv
    · exact absurd hnew.symm hb.1
    · exact henv

/-- What is free in a normal form that was found is a value of the environment. -/
theorem hasValue_of_normalize {r : Reducer} {fuel : Nat} {t normal : BoundTerm}
    {env : Environment} {supply : Supply} {b : Binder}
    (h : (r.normalize fuel t env supply).result = .ok normal) (hb : normal.IsFree b) :
    env.HasValue b := by
  obtain ⟨k, l, hevaluates, -⟩ := exists_evaluates_of_reduce (bind_termOf_eq_ok_iff.mp h)
  exact (hevaluates.offers hb).hasValue

end Reducer

end UntypedLambda
