import UntypedLambda.Proofs.FreshBinders
import UntypedLambda.Proofs.OnePass
import UntypedLambda.Proofs.Places
import UntypedLambda.Proofs.Readback
import UntypedLambda.Proofs.Scoping

namespace UntypedLambda

namespace Environment

def binders (env : Environment) : List Binder :=
  env.entries.map Prod.fst

theorem newest?_eq_find? (env : Environment) (n : Name) :
    env.newest? n = env.binders.find? fun b => b.name = n := by
  induction env using extend_induction with
  | empty => rfl
  | extend env c binding ih =>
    have hbinders : (env.extend c binding).binders = c :: env.binders := by
      rw [binders, entries_extend, List.map_cons, binders]
    rw [newest?, lookupName?_extend, hbinders, List.find?_cons]
    by_cases hc : c.name = n
    · simp [hc]
    · rw [if_neg hc, decide_eq_false hc]
      exact ih

end Environment

def Place.IsDefined (env : Environment) : Place Name → Prop
  | var scope n => n ∈ scope ∨ n ∈ env.binders.map Binder.name
  | lam _ _ => True

theorem Place.isDefined_var_iff {env : Environment} {cs : List Binder} {n : Name} :
    (Place.var (cs.map Binder.name) n).IsDefined env ↔
      ((cs ++ env.binders).find? fun c => c.name = n).isSome := by
  rw [IsDefined, List.find?_isSome, ← List.mem_append, ← List.map_append, List.mem_map]
  simp

namespace Expression

/-- The term is what the expression means below the abstractions of `cs`, innermost first.  It has
the names of the expression, its binders are drawn from `supply` in the order of the abstractions,
and every variable is the first binder of its name among those around it, innermost first, and those
of the environment, newest first. -/
structure Means (env : Environment) (cs : List Binder) (supply rest : Supply) (e : Expression)
    (t : BoundTerm) : Prop where
  names : t.map Binder.name = e
  draws : supply.Draws t.parameters rest
  refers : ∀ scope b, .var scope b ∈ t.places cs →
    (scope ++ env.binders).find? (fun c => c.name = b.name) = some b

def StopsAt (env : Environment) (places : List (Place Name)) (supply rest : Supply) (n : Name) :
    Prop :=
  ∃ before scope after, places = before ++ .var scope n :: after ∧
    (∀ p ∈ before, p.IsDefined env) ∧ ¬ (Place.var scope n).IsDefined env ∧
    rest.next = supply.next + before.countP Place.isLam

variable {env : Environment} {cs : List Binder} {supply mid rest : Supply} {e a : Expression}
  {t s : BoundTerm} {ps qs : List (Place Name)} {n : Name}

theorem Means.var {b : Binder}
    (hfind : (cs ++ env.binders).find? (fun c => c.name = n) = some b) :
    Means env cs supply supply (.var n) (.var b) := by
  have hname : b.name = n := by simpa using List.find?_some hfind
  refine ⟨congrArg Term.var hname, supply.draws_nil, ?_⟩
  intro scope c hc
  cases List.mem_singleton.mp hc
  rw [hname]
  exact hfind

theorem Means.app (he : Means env cs supply mid e t) (ha : Means env cs mid rest a s) :
    Means env cs supply rest (.app e a) (.app t s) := by
  refine ⟨congrArg₂ Term.app he.names ha.names, he.draws.append ha.draws, ?_⟩
  intro scope b hb
  rcases List.mem_append.mp hb with hb | hb
  · exact he.refers scope b hb
  · exact ha.refers scope b hb

theorem Means.lam (h : Means env ((supply.fresh n).1 :: cs) (supply.fresh n).2 rest e t) :
    Means env cs supply rest (.lam n e) (.lam (supply.fresh n).1 t) := by
  refine ⟨congrArg (Term.lam n) h.names, h.draws.cons, ?_⟩
  intro scope b hb
  cases hb with
  | tail _ hb => exact h.refers scope b hb

theorem Means.next (h : Means env cs supply rest e t) (scope : List Name) :
    rest.next = supply.next + (e.places scope).countP Place.isLam := by
  rw [Term.countP_isLam_places, ← h.names, Term.parameters_map, List.length_map, h.draws.next]

theorem StopsAt.append (h : StopsAt env ps supply rest n) (qs : List (Place Name)) :
    StopsAt env (ps ++ qs) supply rest n := by
  obtain ⟨before, scope, after, rfl, hbefore, hplace, hnext⟩ := h
  exact ⟨before, scope, after ++ qs, by simp, hbefore, hplace, hnext⟩

theorem StopsAt.behind (h : StopsAt env qs mid rest n) (hps : ∀ p ∈ ps, p.IsDefined env)
    (hmid : mid.next = supply.next + ps.countP Place.isLam) :
    StopsAt env (ps ++ qs) supply rest n := by
  obtain ⟨before, scope, after, rfl, hbefore, hplace, hnext⟩ := h
  refine ⟨ps ++ before, scope, after, by simp, ?_, hplace, ?_⟩
  · intro p hp
    exact (List.mem_append.mp hp).elim (hps p) (hbefore p)
  · rw [hnext, hmid, List.countP_append, Nat.add_assoc]

/-- A name is looked for among the abstractions around it first, and then in the environment. -/
theorem resolveIn_var_eq_find? (env : Environment) (cs : List Binder) (n : Name)
    (supply : Supply) :
    resolveIn env (fun n => cs.find? fun c => c.name = n) (.var n) supply =
      (((cs ++ env.binders).find? fun c => c.name = n).elim (.error (.undefinedName n))
        fun b => .ok (.var b), supply) := by
  rw [resolveIn, List.find?_append, ← env.newest?_eq_find?, Environment.newest?]
  cases cs.find? fun c => c.name = n with
  | some b => rfl
  | none => cases env.lookupName? n <;> rfl

/-- Below abstractions, resolving gives an expression its meaning, or it stops at a name that means
nothing. -/
theorem resolveIn_cases (env : Environment) (e : Expression) (cs : List Binder) (supply : Supply) :
    ((∀ p ∈ e.places (cs.map Binder.name), p.IsDefined env) ∧
      ∃ t rest, resolveIn env (fun n => cs.find? fun c => c.name = n) e supply = (.ok t, rest) ∧
        Means env cs supply rest e t) ∨
    ∃ n rest, resolveIn env (fun n => cs.find? fun c => c.name = n) e supply =
        (.error (.undefinedName n), rest) ∧
      StopsAt env (e.places (cs.map Binder.name)) supply rest n := by
  induction e generalizing cs supply with
  | var n =>
    have hdefined : (Place.var (cs.map Binder.name) n).IsDefined env ↔
        ((cs ++ env.binders).find? fun c => c.name = n).isSome := Place.isDefined_var_iff
    rw [resolveIn_var_eq_find?]
    cases hfind : (cs ++ env.binders).find? fun c => c.name = n with
    | some b =>
      rw [hfind] at hdefined
      refine .inl ⟨?_, .var b, supply, rfl, .var hfind⟩
      intro p hp
      cases List.mem_singleton.mp hp
      exact hdefined.mpr rfl
    | none =>
      rw [hfind] at hdefined
      refine .inr ⟨n, supply, rfl, [], cs.map Binder.name, [], rfl, nofun, ?_, rfl⟩
      exact fun h => Bool.false_ne_true (hdefined.mp h)
  | app e a ihe iha =>
    rw [resolveIn, Term.places]
    rcases ihe cs supply with ⟨hdefined, t, mid, ht, hmeans⟩ | ⟨n, rest, hn, hstops⟩
    · rw [ht]
      rcases iha cs mid with ⟨hdefined', s, rest, hs, hmeans'⟩ | ⟨n, rest, hn, hstops⟩
      · simp only [hs]
        refine .inl ⟨?_, .app t s, rest, rfl, hmeans.app hmeans'⟩
        intro p hp
        exact (List.mem_append.mp hp).elim (hdefined p) (hdefined' p)
      · simp only [hn]
        exact .inr ⟨n, rest, rfl, hstops.behind hdefined (hmeans.next _)⟩
    · rw [hn]
      exact .inr ⟨n, rest, rfl, hstops.append _⟩
  | lam n e ih =>
    rw [resolveIn, shadow_find?, Term.places]
    rcases ih ((supply.fresh n).1 :: cs) (supply.fresh n).2 with
      ⟨hdefined, t, rest, ht, hmeans⟩ | ⟨m, rest, hm, hstops⟩
    · rw [ht]
      refine .inl ⟨?_, .lam (supply.fresh n).1 t, rest, rfl, hmeans.lam⟩
      exact List.forall_mem_cons.mpr ⟨trivial, hdefined⟩
    · rw [hm]
      have hlam : ∀ p ∈ [Place.lam (cs.map Binder.name) n], p.IsDefined env :=
        List.forall_mem_singleton.mpr trivial
      exact .inr ⟨m, rest, rfl, hstops.behind hlam rfl⟩

theorem StopsAt.not_isDefined (h : StopsAt env ps supply rest n) :
    ¬ ∀ p ∈ ps, p.IsDefined env := by
  obtain ⟨before, scope, after, rfl, -, hplace, -⟩ := h
  exact fun hall => hplace (hall _ (by simp))

theorem resolve_cases (env : Environment) (e : Expression) (supply : Supply) :
    ((∀ p ∈ e.places [], p.IsDefined env) ∧
      ∃ t rest, e.resolve env supply = (.ok t, rest) ∧ Means env [] supply rest e t) ∨
    ∃ n rest, e.resolve env supply = (.error (.undefinedName n), rest) ∧
      StopsAt env (e.places []) supply rest n := by
  rw [resolve_eq_resolveIn]
  exact resolveIn_cases env e [] supply

theorem means_of_resolve (h : e.resolve env supply = (.ok t, rest)) :
    Means env [] supply rest e t := by
  rcases resolve_cases env e supply with ⟨-, t', rest', hok, hmeans⟩ | ⟨n, rest', herror, -⟩
  · rw [h] at hok
    cases hok
    exact hmeans
  · rw [h] at herror
    cases herror

/-- An expression can be resolved exactly when every name in it means something at its place.  If it
can, the term is what the expression means in the environment, and if not, the error is for the
first name that means nothing.  In both cases the expression is walked through once, and neither a
part nor an open lambda is missing on the way. -/
theorem resolve_lexical (env : Environment) (e : Expression) (supply : Supply) :
    ((∃ t rest, e.resolve env supply = (.ok t, rest)) ↔ ∀ p ∈ e.places [], p.IsDefined env) ∧
    (¬ (∀ p ∈ e.places [], p.IsDefined env) →
      ∃ n rest, e.resolve env supply = (.error (.undefinedName n), rest) ∧
        StopsAt env (e.places []) supply rest n) ∧
    (∀ t rest, e.resolve env supply = (.ok t, rest) → Means env [] supply rest e t) ∧
    resolveOnto env e.events {} supply [] = some (e.resolve env supply) := by
  refine ⟨?_, ?_, fun t rest => means_of_resolve, resolveOnto_eq_resolve env e supply⟩
  · rcases resolve_cases env e supply with ⟨hdefined, t, rest, hok, -⟩ | ⟨n, rest, herror, hstops⟩
    · exact ⟨fun _ => hdefined, fun _ => ⟨t, rest, hok⟩⟩
    · constructor
      · rintro ⟨t, rest', hok⟩
        rw [herror] at hok
        cases hok
      · exact fun hdefined => absurd hdefined hstops.not_isDefined
  · intro hundefined
    rcases resolve_cases env e supply with ⟨hdefined, -⟩ | herror
    · exact absurd hdefined hundefined
    · exact herror

def innerScope : Expression :=
  .lam ⟨"x"⟩ (.app (.app (.var ⟨"x"⟩) (.lam ⟨"x"⟩ (.app (.var ⟨"y"⟩) (.var ⟨"x"⟩)))) (.var ⟨"x"⟩))

def outOfScope : Expression :=
  .lam ⟨"x"⟩ (.app (.app (.lam ⟨"z"⟩ (.var ⟨"z"⟩)) (.var ⟨"z"⟩)) (.lam ⟨"y"⟩ (.var ⟨"z"⟩)))

theorem resolve_lexical_of_innerScope :
    let y : Binder := ⟨2, ⟨"y"⟩⟩
    let env : Environment := .value y y (.value ⟨1, ⟨"y"⟩⟩ ⟨1, ⟨"y"⟩⟩ .empty)
    let t : BoundTerm := .lam ⟨3, ⟨"x"⟩⟩ (.app (.app (.var ⟨3, ⟨"x"⟩⟩)
      (.lam ⟨4, ⟨"x"⟩⟩ (.app (.var y) (.var ⟨4, ⟨"x"⟩⟩)))) (.var ⟨3, ⟨"x"⟩⟩))
    innerScope.resolve env ⟨3⟩ = (.ok t, ⟨5⟩) ∧ Means env [] ⟨3⟩ ⟨5⟩ innerScope t ∧
    outOfScope.resolve env ⟨3⟩ = (.error (.undefinedName ⟨"z"⟩), ⟨5⟩) ∧
    ∃ n rest, outOfScope.resolve env ⟨3⟩ = (.error (.undefinedName n), rest) ∧
      StopsAt env (outOfScope.places []) ⟨3⟩ rest n := by
  intro y env t
  have hok : innerScope.resolve env ⟨3⟩ = (.ok t, ⟨5⟩) := by
    rw [resolve_eq_resolveIn]
    rfl
  have herror : outOfScope.resolve env ⟨3⟩ = (.error (.undefinedName ⟨"z"⟩), ⟨5⟩) := by
    rw [resolve_eq_resolveIn]
    rfl
  have hundefined : ¬ ∀ p ∈ outOfScope.places [], p.IsDefined env := by
    rw [← (resolve_lexical env outOfScope ⟨3⟩).1]
    rintro ⟨u, rest, hu⟩
    rw [herror] at hu
    cases hu
  exact ⟨hok, (resolve_lexical env innerScope ⟨3⟩).2.2.1 t ⟨5⟩ hok, herror,
    (resolve_lexical env outOfScope ⟨3⟩).2.1 hundefined⟩

end Expression

end UntypedLambda
