import UntypedLambda.Proofs.DefinitionChecks
import UntypedLambda.Proofs.Evaluation

namespace UntypedLambda

namespace Reducer

variable {p q : Binder} {t t' u u' normal : BoundTerm} {env : Environment}
  {supply supply' : Supply} {k : Nat}

/-- The first beta step at a redex is that of the redex, and then its body is reduced. -/
theorem normalizes_redex_iff :
    Normalizes k (.app (.lam q t) u) env supply normal ↔ ∃ j, k = j + 1 ∧
      Machine.Yields j ⟨[.reduce t (env.extend q (.thunk u env)) .normal], [], supply,
        Machine.contracted {}⟩ normal := by
  constructor
  · rintro ⟨rest, tally, hreaches⟩
    cases hreaches with
    | contract hcontract => cases hcontract
    | search hsearch hreaches =>
      cases hsearch
      cases hreaches with
      | contract hcontract => cases hcontract
      | search hsearch hreaches =>
        cases hsearch
        cases hreaches with
        | search hsearch => cases hsearch
        | @contract j _ _ _ hcontract hreaches =>
          cases hcontract
          exact ⟨j, rfl, rest, tally, hreaches⟩
  · rintro ⟨j, rfl, rest, tally, hreaches⟩
    exact ⟨rest, tally, .search .app (.search .closure (.contract .beta hreaches))⟩

end Reducer

def Environment.Shares (env : Environment) (b c : Binder) : Prop :=
  b = c ∧ (env.lookup? b).isSome

namespace Expression

variable {env : Environment} {p q : Binder}

theorem sameReferents_self (env : Environment) : SameReferents env.Shares
    (referent? env fun _ => none) (referent? env fun _ => none) := by
  intro n
  rw [referent?, Option.none_or]
  cases hn : env.newest? n with
  | none => exact .inl ⟨rfl, rfl⟩
  | some b =>
    have hname := Environment.name_of_newest? hn
    obtain ⟨found, hfound, rfl⟩ := Option.map_eq_some_iff.mp hn
    exact .inr ⟨_, _, rfl, rfl, hname, hname, rfl, Environment.lookup?_of_lookupName? hfound⟩

/-- A name means as much behind its definition as inside of a lambda. -/
theorem sameReferents_extend (env : Environment) (binding : Binding) (hpq : p.name = q.name) :
    SameReferents (p.Inside q env.Shares) (referent? (env.extend p binding) fun _ => none)
      (referent? env (q.shadow fun _ => none)) := by
  have hextend : referent? (env.extend p binding) (fun _ => none) =
      referent? env (p.shadow fun _ => none) := by
    funext n
    rw [referent?_shadow, referent?, referent?, Option.none_or, Option.none_or,
      Environment.newest?, Environment.newest?, Environment.lookupName?_extend]
    split <;> rfl
  rw [hextend]
  exact (sameReferents_self env).shadow hpq

/-- Behind a definition and in a redex an expression means the same or has the same error, and the
argument of the redex means what the name is defined as. -/
theorem resolve_redex {v b : Expression} {n : Name} {u : BoundTerm} {supply : Supply}
    (hvalue : (v.resolve env supply).1 = .ok u) (hp : p.name = n) (binding : Binding)
    (supply' : Supply) :
    (∃ error, (b.resolve (env.extend p binding) supply').1 = .error error ∧
      ((redex n b v).resolve env supply).1 = .error error) ∨
    ∃ q t t' u', (b.resolve (env.extend p binding) supply').1 = .ok t ∧
      ((redex n b v).resolve env supply).1 = .ok (.app (.lam q t') u') ∧
      t.Alike Eq (p.Inside q env.Shares) t' ∧ u.Alike Eq env.Shares u' := by
  have hname : p.name = (supply.fresh n).1.name := hp
  have hbody := resolveIn_alike b (sameReferents_extend env binding hname) supply'
    (supply.fresh n).2
  rw [resolve_eq_resolveIn] at hvalue
  rw [resolve_eq_resolveIn, resolve_eq_resolveIn, redex, resolveIn, resolveIn]
  cases hb : resolveIn env ((supply.fresh n).1.shadow fun _ => none) b (supply.fresh n).2 with
  | mk result rest =>
    rw [hb] at hbody
    cases hbody' : (resolveIn (env.extend p binding) (fun _ => none) b supply').1 with
    | error error =>
      rw [hbody'] at hbody
      cases hbody
      exact .inl ⟨error, rfl, rfl⟩
    | ok t =>
      rw [hbody'] at hbody
      cases hbody with
      | @ok _ t' htt' =>
        have hargument := resolveIn_alike v (sameReferents_self env) supply rest
        rw [hvalue] at hargument
        cases hv : resolveIn env (fun _ => none) v rest with
        | mk result rest =>
          rw [hv] at hargument
          cases hargument with
          | @ok _ u' huu' =>
            refine .inr ⟨_, t, t', u', rfl, ?_, htt', huu'⟩
            simp only [hv]

end Expression

variable {env : Environment} {made : List Definition} {p q : Binder} {t t' u u' : BoundTerm}
  {supply supply' : Supply}

theorem Environment.Records.corresponds (h : env.Records made) (R : Binder → Binder → Prop)
    {b c : Binder} (hbc : env.Shares b c) : env.Corresponds Eq R env b c := by
  obtain ⟨rfl, hb⟩ := hbc
  obtain ⟨x, hx⟩ := Option.isSome_iff_exists.mp hb
  exact ⟨x, x, hx, hx, h.alike_of_lookup? R hx⟩

theorem Environment.Records.alike_extend (h : env.Records made) (R : Binder → Binder → Prop)
    (ht : t.Alike Eq (p.Inside q env.Shares) t') (hu : u.Alike Eq env.Shares u') :
    t.Alike Eq ((env.extend p (.thunk u env)).Corresponds Eq R (env.extend q (.thunk u' env)))
      t' := by
  have hterm := ht.mono fun _ _ hbc => hbc.mono fun _ _ => h.corresponds R
  have hvalue := hu.mono fun _ _ => h.corresponds R
  exact Environment.alike_extend hterm (Binding.alike_thunk hvalue)

namespace Reducer

variable {normal normal' : BoundTerm} {k : Nat}

/-- In a redex the same normal form is reached with one beta step more, and only its binders are
drawn from another supply. -/
theorem Normalizes.redex (h : env.Records made) (ht : t.Alike Eq (p.Inside q env.Shares) t')
    (hu : u.Alike Eq env.Shares u') (supply' : Supply)
    (hnormal : Normalizes k t (env.extend p (.thunk u env)) supply normal) :
    ∃ normal', Normalizes (k + 1) (.app (.lam q t') u') env supply' normal' ∧
      normal.Related (Binder.Drawn supply supply') normal' := by
  have halike := Machine.alike_start (h.alike_extend (Binder.Drawn supply supply') ht hu)
    (Supply.alike_drawn supply supply') .normal {} (Machine.contracted {})
  obtain ⟨normal', hnormal', hrelated⟩ := halike.yields hnormal
  exact ⟨normal', normalizes_redex_iff.mpr ⟨k, rfl, hnormal'⟩, hrelated⟩

theorem Normalizes.of_redex (h : env.Records made) (ht : t.Alike Eq (p.Inside q env.Shares) t')
    (hu : u.Alike Eq env.Shares u') (supply : Supply)
    (hnormal : Normalizes (k + 1) (.app (.lam q t') u') env supply' normal') :
    ∃ normal, Normalizes k t (env.extend p (.thunk u env)) supply normal ∧
      normal.Related (Binder.Drawn supply supply') normal' := by
  have halike := Machine.alike_start (h.alike_extend (Binder.Drawn supply supply') ht hu)
    (Supply.alike_drawn supply supply') .normal {} (Machine.contracted {})
  obtain ⟨j, hj, hyields⟩ := normalizes_redex_iff.mp hnormal
  cases hj
  obtain ⟨normal, hnormal, hrelated⟩ := halike.symm.yields hyields
  exact ⟨normal, hnormal, hrelated.symm⟩

end Reducer

namespace Shell.Session

variable {s : Session} {n : Name} {parameters : List Name} {value body argument text : String}
  {b e : Expression} {d : Definition}

theorem eq_of_definition?_letLine {fuel : Nat} {reply : Reply}
    (hnames : ∀ m ∈ n :: parameters, m.isIdentifier = true)
    (hvalue : Expression.parse value = .ok e)
    (hexecute : s.execute fuel (letLine n parameters value) = .ok reply)
    (hd : s.definition? (letLine n parameters value) = some d) : d = ⟨n, parameters, e⟩ := by
  obtain ⟨argument, t, supply, hline, hread, -, -⟩ := exists_of_definition? hd hexecute
  obtain ⟨argument', hline', hread'⟩ := exists_define_letLine hnames hvalue
  cases hline.symm.trans hline'
  cases hread.symm.trans hread'
  rfl

def defined (s : Session) (n : Name) (u : BoundTerm) (supply : Supply) : Session :=
  { s with
    environment := s.environment.extend (supply.fresh n).1 (.thunk u s.environment)
    supply := (supply.fresh n).2 }

variable {u : BoundTerm} {v : Expression} {supply : Supply} {made : List Definition}

/-- Behind a definition an expression prints what the redex prints in front of it, which takes one
beta step more. -/
theorem printsAfter_defined_iff (hs : s.Invariant made)
    (hdefined : (s.defined n u supply).Invariant (d :: made))
    (hu : (v.resolve s.environment s.supply).1 = .ok u) (hb : Expression.parse body = .ok b)
    (hredex : Expression.parse argument = .ok (.redex n b v)) (k : Nat) :
    (s.defined n u supply).PrintsAfter k ("eval " ++ body) text ↔
      s.PrintsAfter (k + 1) ("eval " ++ argument) text := by
  have hname : (supply.fresh n).1.name = n := rfl
  rw [printsAfter_eval_iff hb, printsAfter_eval_iff hredex]
  rcases Expression.resolve_redex (b := b) hu hname (.thunk u s.environment) (supply.fresh n).2 with
    ⟨error, herror, herror'⟩ | ⟨q, t, t', u', ht, ht', htt', huu'⟩
  · constructor
    · rintro ⟨t, rest, normal, hresolve, -, -⟩
      cases herror.symm.trans (congrArg Prod.fst hresolve)
    · rintro ⟨t, rest, normal, hresolve, -, -⟩
      cases herror'.symm.trans (congrArg Prod.fst hresolve)
  · constructor
    · rintro ⟨t₁, rest, normal, hresolve, hnormal, rfl⟩
      cases ht.symm.trans (congrArg Prod.fst hresolve)
      obtain ⟨normal', hnormal', hrelated⟩ := hnormal.redex hs.records htt' huu' _
      refine ⟨_, _, normal', Prod.ext ht' rfl, hnormal', ?_⟩
      exact (render_eq_of_related hrelated (hdefined.closed_of_normalizes hnormal)
        (hs.closed_of_normalizes hnormal') _ _).symm
    · rintro ⟨t₁, rest, normal', hresolve, hnormal', rfl⟩
      cases ht'.symm.trans (congrArg Prod.fst hresolve)
      obtain ⟨normal, hnormal, hrelated⟩ := hnormal'.of_redex hs.records htt' huu' _
      refine ⟨_, _, normal, Prod.ext ht rfl, hnormal, ?_⟩
      exact render_eq_of_related hrelated (hdefined.closed_of_normalizes hnormal)
        (hs.closed_of_normalizes hnormal') _ _

theorem not_printsAfter_zero (hredex : Expression.parse argument = .ok (.redex n b v)) :
    ¬ s.PrintsAfter 0 ("eval " ++ argument) text := by
  rw [printsAfter_eval_iff hredex]
  rintro ⟨t, rest, normal, hresolve, hnormal, -⟩
  have ht : ((Expression.redex n b v).resolve s.environment s.supply).1 = .ok t := by rw [hresolve]
  rw [Expression.resolve_eq_resolveIn, Expression.redex] at ht
  obtain ⟨f, u, rfl, hf, -⟩ := Expression.resolveIn_app ht
  obtain ⟨t', rfl, -⟩ := Expression.resolveIn_lam hf
  obtain ⟨j, hj, -⟩ := Reducer.normalizes_redex_iff.mp hnormal
  cases hj

/-- Counted from one on, the beta steps of the redex are those behind the definition. -/
theorem exists_printsAfter_defined_iff (hs : s.Invariant made)
    (hdefined : (s.defined n u supply).Invariant (d :: made))
    (hu : (v.resolve s.environment s.supply).1 = .ok u) (hb : Expression.parse body = .ok b)
    (hredex : Expression.parse argument = .ok (.redex n b v)) {P Q : Nat → Prop}
    (hPQ : ∀ k, P k ↔ Q (k + 1)) :
    (∃ k, P k ∧ (s.defined n u supply).PrintsAfter k ("eval " ++ body) text) ↔
      ∃ k, Q k ∧ s.PrintsAfter k ("eval " ++ argument) text := by
  have hprints (k : Nat) : (s.defined n u supply).PrintsAfter k ("eval " ++ body) text ↔
      s.PrintsAfter (k + 1) ("eval " ++ argument) text :=
    printsAfter_defined_iff hs hdefined hu hb hredex k
  constructor
  · rintro ⟨k, hk, hafter⟩
    exact ⟨k + 1, (hPQ k).mp hk, (hprints k).mp hafter⟩
  · rintro ⟨k, hk, hafter⟩
    cases k with
    | zero => exact absurd hafter (not_printsAfter_zero hredex)
    | succ k => exact ⟨k, (hPQ k).mpr hk, (hprints k).mpr hafter⟩

theorem answers_unresolved_defined_iff (hu : (v.resolve s.environment s.supply).1 = .ok u)
    (hb : Expression.parse body = .ok b)
    (hredex : Expression.parse argument = .ok (.redex n b v)) (error : ResolutionError) :
    (s.defined n u supply).Answers ("eval " ++ body) (.error (.unresolved error)) ↔
      s.Answers ("eval " ++ argument) (.error (.unresolved error)) := by
  have hname : (supply.fresh n).1.name = n := rfl
  rw [answers_unresolved_iff hb, answers_unresolved_iff hredex]
  rcases Expression.resolve_redex (b := b) hu hname (.thunk u s.environment) (supply.fresh n).2 with
    ⟨error', herror, herror'⟩ | ⟨q, t, t', u', ht, ht', -, -⟩
  · exact Eq.congr (herror.trans herror'.symm) rfl
  · constructor
    · intro h
      cases ht.symm.trans h
    · intro h
      cases ht'.symm.trans h

/-- A definition is transparent.  Behind `let n p … = value` an expression prints a normal form
within as many beta steps as the function of `n` with the same body, applied to what `n` is defined
as, prints it within one more in front of the definition; with a budget of as many steps, without a
budget, and whatever `n` meant before.  If the expression has a name without a meaning, so has the
application. -/
theorem RunsTo.definition_transparent {budget : Budget} {supply : Supply} {lines : List String}
    (h : RunsTo { budget, supply } lines made s)
    (hnames : ∀ m ∈ n :: parameters, m.isIdentifier = true)
    (hvalue : Expression.parse value = .ok e) (hbody : Expression.parse body = .ok b)
    {fuel : Nat} {reply : Reply}
    (hlet : s.execute fuel (letLine n parameters value) = .ok reply)
    (hmade : (s.definition? (letLine n parameters value)).isSome) :
    let evalLine := "eval " ++ body
    let redexLine := "eval " ++ redexText n body (functionText parameters value)
    (∀ steps text, reply.session.PrintsWithin steps evalLine text ↔
      s.PrintsWithin (steps + 1) redexLine text) ∧
    (∀ limit : UInt64, limit.toNat + 1 < UInt64.size → ∀ text,
      Answers { reply.session with budget := .limited limit } evalLine (.ok text) ↔
        Answers { s with budget := .limited (limit + 1) } redexLine (.ok text)) ∧
    (∀ text, Answers { reply.session with budget := .unbounded } evalLine (.ok text) ↔
      Answers { s with budget := .unbounded } redexLine (.ok text)) ∧
    ∀ error, reply.session.Answers evalLine (.error (.unresolved error)) ↔
      s.Answers redexLine (.error (.unresolved error)) := by
  intro evalLine redexLine
  obtain ⟨d, hd⟩ := Option.isSome_iff_exists.mp hmade
  obtain rfl := eq_of_definition?_letLine hnames hvalue hlet hd
  obtain ⟨-, u, rest, -, -, hresolve, hreply⟩ := exists_of_definition? hd hlet
  have hsession : reply.session = s.defined n u rest := hreply
  have hs := h.invariant (invariant_start budget supply)
  have hdefined : (s.defined n u rest).Invariant (⟨n, parameters, e⟩ :: made) := hs.define hresolve
  have hu : ((Definition.value ⟨n, parameters, e⟩).resolve s.environment s.supply).1 = .ok u :=
    congrArg Prod.fst hresolve
  have hparameters : ∀ p ∈ parameters, p.isIdentifier = true :=
    fun p hp => hnames p (List.mem_cons_of_mem n hp)
  have hredex := parse_redexText (hnames n List.mem_cons_self) hbody
    (parse_functionText hparameters hvalue)
  rw [hsession]
  refine ⟨?_, ?_, ?_, ?_⟩
  · intro steps text
    apply exists_printsAfter_defined_iff hs hdefined hu hbody hredex
    intro k
    exact Nat.add_le_add_iff_right.symm
  · intro limit hlimit text
    rw [answers_ok_iff, answers_ok_iff]
    apply exists_printsAfter_defined_iff hs hdefined hu hbody hredex
    intro k
    have hsucc : (limit + 1).toNat = limit.toNat + 1 := by
      rw [UInt64.toNat_add]
      exact Nat.mod_eq_of_lt hlimit
    rw [Budget.permits_limited, Budget.permits_limited, hsucc]
    exact Nat.add_le_add_iff_right.symm
  · intro text
    rw [answers_ok_iff, answers_ok_iff]
    apply exists_printsAfter_defined_iff hs hdefined hu hbody hredex
    intro k
    exact iff_of_true (Budget.permits_unbounded k) (Budget.permits_unbounded (k + 1))
  · exact answers_unresolved_defined_iff hu hbody hredex

def definedByOlder : Session where
  environment := .thunk ⟨4, ⟨"x"⟩⟩ (.lam ⟨3, ⟨"z"⟩⟩ (.var ⟨2, ⟨"x"⟩⟩)) definedOnce.environment
    definedOnce.environment
  supply := ⟨5⟩

/-- The name was defined before, and the expression hides it in one place. -/
theorem definition_transparent_of_olderName :
    RunsTo {} ["let x y = y"] [⟨⟨"x"⟩, [⟨"y"⟩], .var ⟨"y"⟩⟩] definedOnce ∧
    definedOnce.execute 0 "let x z = x" = .ok { session := definedByOlder } ∧
    definedOnce.definition? "let x z = x" = some ⟨⟨"x"⟩, [⟨"z"⟩], .var ⟨"x"⟩⟩ ∧
    ∀ steps text, definedByOlder.PrintsWithin steps "eval x \\x.x" text ↔
      definedOnce.PrintsWithin (steps + 1) "eval (\\x.x \\x.x)(\\z.x)" text := by
  have hread : readDefinition "x y = y" = .ok ⟨⟨"x"⟩, [⟨"y"⟩], .var ⟨"y"⟩⟩ := rfl
  have hdefine : Session.define {} "x y = y" = (definedOnce, .ok ()) := by
    rw [define, hread]
    simp only [Expression.resolve_eq_resolveIn]
    rfl
  have hruns : RunsTo {} ["let x y = y"] [⟨⟨"x"⟩, [⟨"y"⟩], .var ⟨"y"⟩⟩] definedOnce :=
    RunsTo.start.define rfl hread hdefine
  have hline : Command.ofLine? "let x z = x" = some (.define "x z = x") := rfl
  have hread' : readDefinition "x z = x" = .ok ⟨⟨"x"⟩, [⟨"z"⟩], .var ⟨"x"⟩⟩ := rfl
  have hdefine' : definedOnce.define "x z = x" = (definedByOlder, .ok ()) := by
    rw [define, hread']
    simp only [Expression.resolve_eq_resolveIn]
    rfl
  have hexecute : definedOnce.execute 0 "let x z = x" = .ok { session := definedByOlder } := by
    rw [execute, hline]
    simp only [perform, hdefine']
  have hmade : definedOnce.definition? "let x z = x" =
      some ⟨⟨"x"⟩, [⟨"z"⟩], .var ⟨"x"⟩⟩ := by
    rw [definition?, hline]
    simp only [hdefine', hread']
    rfl
  have hnames : ∀ m ∈ [Name.mk "x", ⟨"z"⟩], m.isIdentifier = true := by decide
  have hvalue : Expression.parse "x" = .ok (.var ⟨"x"⟩) := rfl
  have hbody : Expression.parse "x \\x.x" =
      .ok (.app (.var ⟨"x"⟩) (.lam ⟨"x"⟩ (.var ⟨"x"⟩))) := rfl
  have hsome : (definedOnce.definition? (letLine ⟨"x"⟩ [⟨"z"⟩] "x")).isSome = true := by
    rw [show letLine ⟨"x"⟩ [⟨"z"⟩] "x" = "let x z = x" from rfl, hmade]
    rfl
  exact ⟨hruns, hexecute, hmade,
    (RunsTo.definition_transparent hruns hnames hvalue hbody hexecute hsome).1⟩

end Shell.Session

end UntypedLambda
