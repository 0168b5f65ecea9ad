import UntypedLambda.Proofs.FreeVariables

/-! Terms that differ only in their binders stand for the same if their free variables do.  In
environments these stand for values, which are compared by a relation of their own, or for thunks,
which have to be alike in the environments that they keep. -/
namespace UntypedLambda

def Binder.Inside (p q : Binder) (V : Binder → Binder → Prop) (b c : Binder) : Prop :=
  (b = p ∧ c = q) ∨ (b ≠ p ∧ c ≠ q ∧ V b c)

theorem Binder.Inside.mono {p q b c : Binder} {V W : Binder → Binder → Prop}
    (h : p.Inside q V b c) (hVW : ∀ b c, V b c → W b c) : p.Inside q W b c :=
  h.imp_right fun ⟨hb, hc, hbc⟩ => ⟨hb, hc, hVW b c hbc⟩

namespace Term

variable {ν μ : Type} {R S : ν → μ → Prop} {t : Term ν} {u : Term μ}

inductive Related (R : ν → μ → Prop) : Term ν → Term μ → Prop
  | var {x : ν} {y : μ} : R x y → Related R (.var x) (.var y)
  | app {t s : Term ν} {u v : Term μ} :
    Related R t u → Related R s v → Related R (.app t s) (.app u v)
  | lam {x : ν} {y : μ} {t : Term ν} {u : Term μ} :
    R x y → Related R t u → Related R (.lam x t) (.lam y u)

theorem Related.symm (h : Related R t u) : Related (flip R) u t := by
  induction h with
  | var hxy => exact .var hxy
  | app _ _ iht ihs => exact .app iht ihs
  | lam hxy _ ih => exact .lam hxy ih

end Term

namespace BoundTerm

/-- The terms differ only in the binders of their abstractions, with names that are the `same`, and
in their free variables, which are related by `V`. -/
inductive Alike (same : Name → Name → Prop) :
    (Binder → Binder → Prop) → BoundTerm → BoundTerm → Prop
  | var {V : Binder → Binder → Prop} {b c : Binder} : V b c → Alike same V (.var b) (.var c)
  | app {V : Binder → Binder → Prop} {t s u v : BoundTerm} :
    Alike same V t u → Alike same V s v → Alike same V (.app t s) (.app u v)
  | lam {V : Binder → Binder → Prop} {p q : Binder} {t u : BoundTerm} :
    same p.name q.name → Alike same (p.Inside q V) t u → Alike same V (.lam p t) (.lam q u)

variable {same : Name → Name → Prop} {V W : Binder → Binder → Prop} {t u : BoundTerm}

/-- Only the binders that are free in the terms matter. -/
theorem Alike.mono_of_isFree (h : Alike same V t u)
    (hVW : ∀ b c, t.IsFree b → u.IsFree c → V b c → W b c) : Alike same W t u := by
  induction h generalizing W with
  | var hbc => exact .var (hVW _ _ rfl rfl hbc)
  | app _ _ iht ihs =>
    exact .app (iht fun b c hb hc => hVW b c (.inl hb) (.inl hc))
      (ihs fun b c hb hc => hVW b c (.inr hb) (.inr hc))
  | lam hpq _ ih =>
    refine .lam hpq (ih ?_)
    rintro b c hb hc (⟨hbp, hcq⟩ | ⟨hbp, hcq, hbc⟩)
    · exact .inl ⟨hbp, hcq⟩
    · exact .inr ⟨hbp, hcq, hVW b c ⟨hbp, hb⟩ ⟨hcq, hc⟩ hbc⟩

theorem Alike.mono (h : Alike same V t u) (hVW : ∀ b c, V b c → W b c) : Alike same W t u :=
  h.mono_of_isFree fun b c _ _ => hVW b c

theorem Alike.symm (h : Alike same V t u) : Alike (flip same) (flip V) u t := by
  induction h with
  | var hbc => exact .var hbc
  | app _ _ iht ihs => exact .app iht ihs
  | lam hpq _ ih =>
    refine .lam hpq (ih.mono ?_)
    rintro b c (⟨hc, hb⟩ | ⟨hc, hb, hV⟩)
    · exact .inl ⟨hb, hc⟩
    · exact .inr ⟨hb, hc, hV⟩

theorem alike_self (hsame : ∀ b, t.Mentions b → same b.name b.name)
    (h : ∀ b, t.IsFree b → V b b) : Alike same V t t := by
  induction t generalizing V with
  | var b => exact .var (h b rfl)
  | app t s iht ihs =>
    exact .app (iht (fun b hb => hsame b (.inl hb)) fun b hb => h b (.inl hb))
      (ihs (fun b hb => hsame b (.inr hb)) fun b hb => h b (.inr hb))
  | lam p t ih =>
    refine .lam (hsame p (.inl rfl)) (ih (fun b hb => hsame b (.inr hb)) ?_)
    intro b hb
    by_cases hbp : b = p
    · exact .inl ⟨hbp, hbp⟩
    · exact .inr ⟨hbp, hbp, h b ⟨hbp, hb⟩⟩

end BoundTerm

inductive Binding.Alike (same : Name → Name → Prop) (R : Binder → Binder → Prop) :
    Binding → Binding → Prop
  | value {b c : Binder} : R b c → Alike same R (.value b) (.value c)
  | thunk {V : Binder → Binder → Prop} {t u : BoundTerm} {env env' : Environment} :
    t.Alike same V u →
    (∀ b c, V b c → (env.lookup? b).isSome ∧ (env'.lookup? c).isSome) →
    (∀ b c x y, V b c → env.lookup? b = some x → env'.lookup? c = some y → Alike same R x y) →
      Alike same R (.thunk t env) (.thunk u env')

variable {same : Name → Name → Prop} {R : Binder → Binder → Prop} {env env' : Environment}
  {b c p q : Binder} {t u : BoundTerm} {x y : Binding}

def Environment.Corresponds (same : Name → Name → Prop) (R : Binder → Binder → Prop)
    (env env' : Environment) (b c : Binder) : Prop :=
  ∃ x y, env.lookup? b = some x ∧ env'.lookup? c = some y ∧ x.Alike same R y

namespace Binding

theorem alike_thunk (h : t.Alike same (env.Corresponds same R env') u) :
    Alike same R (.thunk t env) (.thunk u env') := by
  refine .thunk h ?_ ?_
  · rintro b c ⟨x, y, hx, hy, -⟩
    rw [hx, hy]
    exact ⟨rfl, rfl⟩
  · rintro b c x y ⟨x', y', hx', hy', hxy⟩ hx hy
    rw [hx'] at hx
    rw [hy'] at hy
    cases hx
    cases hy
    exact hxy

theorem Alike.terms (h : Alike same R (.thunk t env) (.thunk u env')) :
    t.Alike same (env.Corresponds same R env') u := by
  cases h with
  | thunk hterms hbound hbindings =>
    refine hterms.mono ?_
    intro b c hbc
    obtain ⟨hb, hc⟩ := hbound b c hbc
    obtain ⟨x, hx⟩ := Option.isSome_iff_exists.mp hb
    obtain ⟨y, hy⟩ := Option.isSome_iff_exists.mp hc
    exact ⟨x, y, hx, hy, hbindings b c x y hbc hx hy⟩

theorem Alike.symm (h : Alike same R x y) : Alike (flip same) (flip R) y x := by
  induction h with
  | value hbc => exact .value hbc
  | @thunk V t u env env' hterms hbound _ ih =>
    refine .thunk (V := flip V) hterms.symm ?_ ?_
    · intro c b hbc
      exact (hbound b c hbc).symm
    · intro c b y x hbc hy hx
      exact ih b c x y hbc hx hy

end Binding

namespace Environment

theorem Corresponds.symm (h : env.Corresponds same R env' b c) :
    env'.Corresponds (flip same) (flip R) env c b := by
  obtain ⟨x, y, hx, hy, hxy⟩ := h
  exact ⟨y, x, hy, hx, hxy.symm⟩

theorem Corresponds.extend (hxy : x.Alike same R y)
    (h : p.Inside q (env.Corresponds same R env') b c) :
    (env.extend p x).Corresponds same R (env'.extend q y) b c := by
  rcases h with ⟨rfl, rfl⟩ | ⟨hb, hc, x', y', hx', hy', hxy'⟩
  · refine ⟨x, y, ?_, ?_, hxy⟩
    · rw [lookup?_extend, if_pos rfl]
    · rw [lookup?_extend, if_pos rfl]
  · refine ⟨x', y', ?_, ?_, hxy'⟩
    · rw [lookup?_extend, if_neg (Ne.symm hb), hx']
    · rw [lookup?_extend, if_neg (Ne.symm hc), hy']

theorem alike_extend (ht : t.Alike same (p.Inside q (env.Corresponds same R env')) u)
    (hxy : x.Alike same R y) :
    t.Alike same ((env.extend p x).Corresponds same R (env'.extend q y)) u :=
  ht.mono fun _ _ => Corresponds.extend hxy

def HasTerm : Environment → BoundTerm → Prop
  | empty, _ => False
  | value _ _ older, u => older.HasTerm u
  | thunk _ t captured older, u => t = u ∨ captured.HasTerm u ∨ older.HasTerm u

/-- Every binding is like itself if every value is, and every name in a term. -/
theorem alike_of_lookup? (hsame : ∀ u c, env.HasTerm u → u.Mentions c → same c.name c.name)
    (hscoped : env.WellScoped) (hvalues : ∀ c, env.HasValue c → R c c)
    (h : env.lookup? b = some x) : x.Alike same R x := by
  induction env generalizing b x with
  | empty => cases h
  | value p target older ih =>
    rw [lookup?] at h
    split at h
    · cases h
      exact .value (hvalues target (.inl rfl))
    · exact ih hsame hscoped (fun c hc => hvalues c (.inr hc)) h
  | thunk p t captured older ihc iho =>
    rw [lookup?] at h
    split at h
    · cases h
      have hcovers : captured.Covers t := hscoped.1.1
      apply Binding.alike_thunk
      apply BoundTerm.alike_self fun c hc => hsame t c (.inl rfl) hc
      intro c hc
      obtain ⟨y, hy⟩ := Option.isSome_iff_exists.mp (hcovers c hc)
      exact ⟨y, y, hy, hy, ihc (fun u d hu => hsame u d (.inr (.inl hu))) hscoped.1.2
        (fun d hd => hvalues d (.inl hd)) hy⟩
    · exact iho (fun u d hu => hsame u d (.inr (.inr hu))) hscoped.2
        (fun c hc => hvalues c (.inr hc)) h

end Environment

inductive Agree {ε α β : Type} (R : α → β → Prop) : Except ε α → Except ε β → Prop
  | ok {a : α} {b : β} : R a b → Agree R (.ok a) (.ok b)
  | error (e : ε) : Agree R (.error e) (.error e)

theorem Agree.imp {ε α β : Type} {R S : α → β → Prop} {x : Except ε α} {y : Except ε β}
    (h : Agree R x y) (hRS : ∀ a b, R a b → S a b) : Agree S x y := by
  cases h with
  | ok hab => exact .ok (hRS _ _ hab)
  | error e => exact .error e

theorem Agree.bind {ε α β γ δ : Type} {R : α → β → Prop} {S : γ → δ → Prop} {x : Except ε α}
    {y : Except ε β} {f : α → Except ε γ} {g : β → Except ε δ} (h : Agree R x y)
    (hfg : ∀ a b, R a b → Agree S (f a) (g b)) : Agree S (x >>= f) (y >>= g) := by
  cases h with
  | ok hab => exact hfg _ _ hab
  | error e => exact .error e

end UntypedLambda
