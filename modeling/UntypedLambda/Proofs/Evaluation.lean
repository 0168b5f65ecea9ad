import UntypedLambda.Proofs.Lines
import UntypedLambda.Proofs.SerialNumbers
import UntypedLambda.Proofs.SessionInvariant

namespace UntypedLambda

namespace Environment

theorem Records.not_hasValue {env : Environment} {made : List Definition} (h : env.Records made)
    (b : Binder) : ¬ env.HasValue b := by
  induction h with
  | empty => exact id
  | define _ _ _ ih => exact fun hvalue => hvalue.elim ih ih

theorem Records.alike_of_lookup? {env : Environment} {made : List Definition}
    (h : env.Records made) (R : Binder → Binder → Prop) {b : Binder} {x : Binding}
    (hx : env.lookup? b = some x) : x.Alike Eq R x := by
  apply Environment.alike_of_lookup? (fun _ _ _ _ => rfl) h.wellScoped _ hx
  intro c hc
  exact absurd hc (h.not_hasValue c)

end Environment

namespace Shell.Session

variable {s : Session} {made : List Definition} {line argument : String} {fuel : Nat}

/-- A normal form that is found in the environment of a session has no free variables. -/
theorem Invariant.closed (h : s.Invariant made) {r : Reducer} {t normal : BoundTerm}
    {supply : Supply}
    (hnormal : (r.normalize fuel t s.environment supply).result = .ok normal) (b : Binder) :
    ¬ normal.IsFree b := by
  intro hb
  exact h.records.not_hasValue b (Reducer.hasValue_of_normalize hnormal hb)

theorem Invariant.closed_of_normalizes (h : s.Invariant made) {t normal : BoundTerm}
    {supply : Supply} {k : Nat}
    (hnormal : Reducer.Normalizes k t s.environment supply normal) (b : Binder) :
    ¬ normal.IsFree b := by
  obtain ⟨fuel, hresult⟩ :=
    Reducer.exists_normalize_iff.mpr ⟨k, Budget.permits_unbounded k, hnormal⟩
  exact h.closed hresult b

def answer (env : Environment) :
    Except Stop BoundTerm → Except Abort (Except CommandError String)
  | .ok normal => .ok (.ok (render normal env))
  | .error (.limitExceeded limit) => .ok (.error (.limitExceeded limit))
  | .error (.abort reason) => .error reason

theorem answer_eq_text_iff {env : Environment} {x : Except Stop BoundTerm} {text : String} :
    answer env x = .ok (.ok text) ↔ ∃ normal, x = .ok normal ∧ render normal env = text := by
  rcases x with (limit | reason) | normal <;> simp [answer]

theorem answer_ne_unresolved (env : Environment) (x : Except Stop BoundTerm)
    (error : ResolutionError) : answer env x ≠ .ok (.error (.unresolved error)) := by
  rcases x with (limit | reason) | normal <;> simp [answer]

def reduction (fuel : Nat) (s : Session) (t : BoundTerm) (supply : Supply) : Reduction BoundTerm :=
  Reducer.normalize fuel { budget := s.budget } t s.environment supply

variable {e : Expression} {t : BoundTerm} {supply : Supply} {error : ResolutionError}

theorem evaluate_of_resolve (fuel : Nat) (hparse : Expression.parse argument = .ok e)
    (hresolve : e.resolve s.environment s.supply = (.ok t, supply)) :
    s.evaluate fuel argument =
      (answer s.environment (s.reduction fuel t supply).result).map fun result =>
        ({ s with supply := (s.reduction fuel t supply).supply }, result) := by
  rw [evaluate, hparse, reduction]
  simp only [hresolve]
  rcases (Reducer.normalize fuel { budget := s.budget } t s.environment supply).result with
    (limit | reason) | normal <;> rfl

theorem evaluate_of_resolve_error (fuel : Nat) (hparse : Expression.parse argument = .ok e)
    (hresolve : e.resolve s.environment s.supply = (.error error, supply)) :
    s.evaluate fuel argument = .ok ({ s with supply }, .error (.unresolved error)) := by
  rw [evaluate, hparse]
  simp only [hresolve]

/-- The text is no expression, or a name in it means nothing, or its term is reduced. -/
theorem evaluate_cases (s : Session) (argument : String) :
    (∃ error, Expression.parse argument = .error error ∧
      ∀ fuel, s.evaluate fuel argument = .ok (s, .error (.illFormed error))) ∨
    (∃ e error supply, Expression.parse argument = .ok e ∧
      e.resolve s.environment s.supply = (.error error, supply) ∧
      ∀ fuel, s.evaluate fuel argument = .ok ({ s with supply }, .error (.unresolved error))) ∨
    ∃ e t supply, Expression.parse argument = .ok e ∧
      e.resolve s.environment s.supply = (.ok t, supply) ∧
      ∀ fuel, s.evaluate fuel argument =
        (answer s.environment (s.reduction fuel t supply).result).map fun result =>
          ({ s with supply := (s.reduction fuel t supply).supply }, result) := by
  cases hparse : Expression.parse argument with
  | error error =>
    refine .inl ⟨error, rfl, ?_⟩
    intro fuel
    rw [evaluate, hparse]
  | ok e =>
    right
    cases hresolve : e.resolve s.environment s.supply with
    | mk result supply =>
      cases result with
      | error error =>
        exact .inl ⟨e, error, supply, rfl, hresolve,
          fun fuel => evaluate_of_resolve_error fuel hparse hresolve⟩
      | ok t =>
        exact .inr ⟨e, t, supply, rfl, hresolve,
          fun fuel => evaluate_of_resolve fuel hparse hresolve⟩

/-- Only a term that was reduced to a normal form is answered with a text. -/
theorem exists_of_evaluate_eq_text {s' : Session} {text : String}
    (h : s.evaluate fuel argument = .ok (s', .ok text)) :
    ∃ e t supply normal, Expression.parse argument = .ok e ∧
      e.resolve s.environment s.supply = (.ok t, supply) ∧
      (s.reduction fuel t supply).result = .ok normal ∧ render normal s.environment = text := by
  rcases s.evaluate_cases argument with ⟨error, -, heq⟩ | ⟨e, error, supply, -, -, heq⟩ |
    ⟨e, t, supply, hparse, hresolve, heq⟩
  · cases (heq fuel).symm.trans h
  · cases (heq fuel).symm.trans h
  · rw [heq fuel, map_eq_ok_iff] at h
    obtain ⟨result, hanswer, hresult⟩ := h
    cases hresult
    obtain ⟨normal, hnormal, hrender⟩ := answer_eq_text_iff.mp hanswer
    exact ⟨e, t, supply, normal, hparse, hresolve, hnormal, hrender⟩

/-- Normal forms without free variables that differ only in the turn at which their binders were
drawn are shown alike. -/
theorem render_eq_of_related {t u : BoundTerm} {supply supply' : Supply}
    (h : t.Related (Binder.Drawn supply supply') u) (ht : ∀ b, ¬ t.IsFree b)
    (hu : ∀ b, ¬ u.IsFree b) (env env' : Environment) : render t env = render u env' := by
  have hdisplay := BoundTerm.display_eq_of_related (Binder.biUnique_drawn supply supply')
    (fun _ _ hbc => hbc.1) h ht hu env.freeNames env'.freeNames
  rw [render, render, hdisplay]

theorem answer_eq_of_agree {env env' : Environment} {supply supply' : Supply}
    {x y : Except Stop BoundTerm} (h : Agree (Term.Related (Binder.Drawn supply supply')) x y)
    (hx : ∀ t, x = .ok t → ∀ b, ¬ t.IsFree b) (hy : ∀ u, y = .ok u → ∀ b, ¬ u.IsFree b) :
    answer env x = answer env' y := by
  cases h with
  | ok htu =>
    rw [answer, answer, render_eq_of_related htu (hx _ rfl) (hy _ rfl) env env']
  | error stop =>
    cases stop with
    | limitExceeded limit => rfl
    | abort reason => rfl

def printed (result : Except CommandError String) : String :=
  (say {} result).output

theorem output_say (s : Session) (result : Except CommandError String) :
    (s.say result).output = printed result := by
  cases result <;> rfl

theorem session_say (s : Session) (result : Except CommandError String) :
    (s.say result).session = s := by
  cases result <;> rfl

theorem output_evaluate (fuel : Nat) (hparse : Expression.parse argument = .ok e)
    (hresolve : e.resolve s.environment s.supply = (.ok t, supply)) :
    (s.perform fuel (.evaluate argument)).map Reply.output =
      (answer s.environment (s.reduction fuel t supply).result).map printed := by
  rw [perform, evaluate_of_resolve fuel hparse hresolve]
  cases answer s.environment (s.reduction fuel t supply).result with
  | error reason => rfl
  | ok result => exact congrArg Except.ok (output_say _ result)

/-- The line is an `eval`, and it comes to the result if it has enough fuel. -/
def Answers (s : Session) (line : String) (result : Except CommandError String) : Prop :=
  ∃ fuel argument s', Command.ofLine? line = some (.evaluate argument) ∧
    s.evaluate fuel argument = .ok (s', result)

theorem Answers.execute {result : Except CommandError String} (h : s.Answers line result) :
    ∃ fuel reply, s.execute fuel line = .ok reply ∧ reply.output = printed result := by
  obtain ⟨fuel, argument, s', hline, hevaluate⟩ := h
  refine ⟨fuel, s'.say result, ?_, output_say s' result⟩
  rw [Session.execute, hline]
  simp only [perform, hevaluate]
  rfl

def PrintsAfter (s : Session) (k : Nat) (line text : String) : Prop :=
  ∃ argument e t supply normal, Command.ofLine? line = some (.evaluate argument) ∧
    Expression.parse argument = .ok e ∧
    e.resolve s.environment s.supply = (.ok t, supply) ∧
    Reducer.Normalizes k t s.environment supply normal ∧ render normal s.environment = text

def PrintsWithin (s : Session) (steps : Nat) (line text : String) : Prop :=
  ∃ k, k ≤ steps ∧ s.PrintsAfter k line text

variable {text body : String}

theorem exists_eval (hbody : Expression.parse body = .ok e) :
    ∃ argument, Command.ofLine? ("eval " ++ body) = some (.evaluate argument) ∧
      Expression.parse argument = .ok e := by
  obtain ⟨ts, hscan, -, hne⟩ := Expression.tokens_of_parse hbody
  obtain ⟨argument, hline, hargument⟩ := Command.ofLine?_eval hscan hne
  exact ⟨argument, hline, (Expression.parse_eq_of_scan hargument hscan).trans hbody⟩

theorem output_eval_of_parse (hbody : Expression.parse body = .ok e)
    (hresolve : e.resolve s.environment s.supply = (.ok t, supply)) (fuel : Nat) :
    (s.execute fuel ("eval " ++ body)).map Reply.output =
      (answer s.environment (s.reduction fuel t supply).result).map printed := by
  obtain ⟨argument, hline, hparse⟩ := exists_eval hbody
  rw [execute, hline]
  exact output_evaluate fuel hparse hresolve

theorem printsAfter_eval_iff (hbody : Expression.parse body = .ok e) {k : Nat} :
    s.PrintsAfter k ("eval " ++ body) text ↔
      ∃ t supply normal, e.resolve s.environment s.supply = (.ok t, supply) ∧
        Reducer.Normalizes k t s.environment supply normal ∧
        render normal s.environment = text := by
  obtain ⟨argument, hline, hparse⟩ := exists_eval hbody
  constructor
  · rintro ⟨argument', e', t, supply, normal, hline', hparse', hresolve, hnormal, hrender⟩
    rw [hline] at hline'
    cases hline'
    rw [hparse] at hparse'
    cases hparse'
    exact ⟨t, supply, normal, hresolve, hnormal, hrender⟩
  · rintro ⟨t, supply, normal, hresolve, hnormal, hrender⟩
    exact ⟨argument, e, t, supply, normal, hline, hparse, hresolve, hnormal, hrender⟩

/-- An `eval` prints a normal form if the budget has as many beta steps as it takes to reach it. -/
theorem answers_ok_iff :
    s.Answers line (.ok text) ↔ ∃ k, s.budget.Permits k ∧ s.PrintsAfter k line text := by
  constructor
  · rintro ⟨fuel, argument, s', hline, hevaluate⟩
    obtain ⟨e, t, supply, normal, hparse, hresolve, hnormal, hrender⟩ :=
      exists_of_evaluate_eq_text hevaluate
    obtain ⟨k, hpermits, hreaches⟩ := Reducer.exists_normalize_iff.mp ⟨fuel, hnormal⟩
    exact ⟨k, hpermits, argument, e, t, supply, normal, hline, hparse, hresolve, hreaches, hrender⟩
  · rintro ⟨k, hpermits, argument, e, t, supply, normal, hline, hparse, hresolve, hnormal, rfl⟩
    obtain ⟨fuel, hresult⟩ := Reducer.exists_normalize_iff.mpr ⟨k, hpermits, hnormal⟩
    have hevaluate := evaluate_of_resolve fuel hparse hresolve
    rw [reduction, hresult] at hevaluate
    exact ⟨fuel, argument, _, hline, hevaluate⟩

/-- An `eval` fails with the error that a name of its expression has. -/
theorem answers_unresolved_iff (hbody : Expression.parse body = .ok e) :
    s.Answers ("eval " ++ body) (.error (.unresolved error)) ↔
      (e.resolve s.environment s.supply).1 = .error error := by
  obtain ⟨argument, hline, hparse⟩ := exists_eval hbody
  constructor
  · rintro ⟨fuel, argument', s', hline', hevaluate⟩
    cases hline.symm.trans hline'
    rcases s.evaluate_cases argument with ⟨error', hparse', -⟩ |
      ⟨e', error', supply, hparse', hresolve, heq⟩ | ⟨e', t, supply, -, -, heq⟩
    · cases hparse.symm.trans hparse'
    · cases hparse.symm.trans hparse'
      cases (heq fuel).symm.trans hevaluate
      rw [hresolve]
    · rw [heq fuel, map_eq_ok_iff] at hevaluate
      obtain ⟨result, hanswer, hresult⟩ := hevaluate
      cases hresult
      exact absurd hanswer (answer_ne_unresolved _ _ error)
  · intro herror
    have hresolve : e.resolve s.environment s.supply =
        (.error error, (e.resolve s.environment s.supply).2) := Prod.ext herror rfl
    exact ⟨0, argument, _, hline, evaluate_of_resolve_error 0 hparse hresolve⟩

theorem parse_of_readDefinition {d : Definition} (h : readDefinition argument = .ok d) :
    Definition.parse argument = .ok d := by
  rw [readDefinition, bind_eq_ok_iff] at h
  obtain ⟨-, -, hparse⟩ := h
  exact mapError_eq_ok_iff.mp hparse

/-- A line that makes a definition puts its value in front of the environment. -/
theorem exists_of_definition? {d : Definition} {reply : Reply} (hd : s.definition? line = some d)
    (hexecute : s.execute fuel line = .ok reply) :
    ∃ argument t supply, Command.ofLine? line = some (.define argument) ∧
      readDefinition argument = .ok d ∧
      d.value.resolve s.environment s.supply = (.ok t, supply) ∧
      reply.session = { s with
        environment := .thunk (supply.fresh d.name).1 t s.environment s.environment
        supply := (supply.fresh d.name).2 } := by
  rw [definition?] at hd
  split at hd
  · next argument hline =>
    rw [execute, hline] at hexecute
    simp only [perform] at hexecute
    obtain ⟨d', t, supply, hread, hresolve, hdefine⟩ | ⟨supply, error, -, hdefine⟩ :=
      s.define_cases argument
    · rw [hdefine] at hexecute hd
      simp only [hread] at hd
      cases hexecute
      cases hd
      exact ⟨argument, t, supply, hline, hread, hresolve, rfl⟩
    · rw [hdefine] at hd
      cases hd
  · cases hd

theorem budget_evaluate {s' : Session} {result : Except CommandError String}
    (hevaluate : s.evaluate fuel argument = .ok (s', result)) : s'.budget = s.budget := by
  rcases s.evaluate_cases argument with ⟨error, -, heq⟩ | ⟨e, error, supply, -, -, heq⟩ |
    ⟨e, t, supply, -, -, heq⟩
  · cases (heq fuel).symm.trans hevaluate
    rfl
  · cases (heq fuel).symm.trans hevaluate
    rfl
  · rw [heq fuel, map_eq_ok_iff] at hevaluate
    obtain ⟨result', -, hresult⟩ := hevaluate
    cases hresult
    rfl

theorem budget_execute {reply : Reply} (hexecute : s.execute fuel line = .ok reply) :
    reply.session.budget = s.budget := by
  rw [execute] at hexecute
  cases hline : Command.ofLine? line with
  | none =>
    rw [hline] at hexecute
    cases hexecute
    rfl
  | some command =>
    rw [hline] at hexecute
    cases command with
    | define argument =>
      simp only [perform] at hexecute
      obtain ⟨d, t, supply, -, -, hdefine⟩ | ⟨supply, error, -, hdefine⟩ := s.define_cases argument
      · rw [hdefine] at hexecute
        cases hexecute
        rfl
      · rw [hdefine] at hexecute
        cases hexecute
        rfl
    | evaluate argument =>
      simp only [perform, bind_eq_ok_iff] at hexecute
      obtain ⟨⟨s', result⟩, hevaluate, hreply⟩ := hexecute
      cases hreply
      rw [session_say, budget_evaluate hevaluate]
    | inspect argument =>
      cases hexecute
      rw [session_say]
    | help =>
      cases hexecute
      rfl
    | exit =>
      cases hexecute
      rfl
    | unknown text =>
      cases hexecute
      rfl

theorem RunsTo.trans {start s' : Session} {lines later : List String}
    {laterMade : List Definition} (h : RunsTo start lines made s)
    (hlater : RunsTo s later laterMade s') :
    RunsTo start (lines ++ later) (laterMade ++ made) s' := by
  induction hlater with
  | start =>
    rw [List.append_nil]
    exact h
  | line _ hexecute ih =>
    rw [← List.append_assoc lines, List.append_assoc _ _ made]
    exact .line ih hexecute

end Shell.Session

end UntypedLambda
