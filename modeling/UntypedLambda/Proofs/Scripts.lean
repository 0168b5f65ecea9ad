import UntypedLambda.Proofs.Redefinition

namespace UntypedLambda

inductive Binding.SameOrigin : Binding → Binding → Prop
  | thunk {earlier : List Definition} {e : Expression} {t u : BoundTerm}
    {captured captured' : Environment} {supply supply' : Supply} :
    captured.Records earlier → captured'.Records earlier →
      (e.resolve captured supply).1 = .ok t → (e.resolve captured' supply').1 = .ok u →
      SameOrigin (.thunk t captured) (.thunk u captured')

namespace Environment

variable {env env' : Environment} {made : List Definition} {n : Name} {b c : Binder}
  {binding : Binding}

theorem newest?_of_lookupName? (h : env.lookupName? n = some (b, binding)) :
    env.newest? n = some b := by
  rw [newest?, h]
  rfl

theorem newest?_thunk (t : BoundTerm) (captured older : Environment) :
    (thunk b t captured older).newest? n = if b.name = n then some b else older.newest? n := by
  rw [newest?, lookupName?]
  split
  · rfl
  · rfl

def Namesakes (env env' : Environment) (b c : Binder) : Prop :=
  b.name = c.name ∧ env.newest? b.name = some b ∧ env'.newest? c.name = some c

/-- A name stands for the same definition on both sides, or for nothing on both. -/
theorem Records.lookupName?_cases (h : env.Records made) (h' : env'.Records made) (n : Name) :
    (env.lookupName? n = none ∧ env'.lookupName? n = none) ∨
    ∃ b c x y, env.lookupName? n = some (b, x) ∧ env'.lookupName? n = some (c, y) ∧
      x.SameOrigin y := by
  cases hfind : made.find? fun d => d.name = n with
  | none =>
    have hn : ∀ d ∈ made, d.name ≠ n := by simpa using hfind
    exact .inl ⟨h.lookupName?_eq_none hn, h'.lookupName?_eq_none hn⟩
  | some d =>
    obtain ⟨hname, later, earlier, rfl, hlater⟩ := List.find?_eq_some_iff_append.mp hfind
    have hd : d.name = n := by simpa using hname
    have hne : ∀ d' ∈ later, d'.name ≠ d.name := by simpa [hd] using hlater
    obtain ⟨b, t, captured, supply, hlookup, hrecords, hresolve, -⟩ := h.exists_lookupName? hne
    obtain ⟨c, u, captured', supply', hlookup', hrecords', hresolve', -⟩ :=
      h'.exists_lookupName? hne
    exact .inr ⟨b, c, .thunk t captured, .thunk u captured', hd ▸ hlookup, hd ▸ hlookup',
      .thunk hrecords hrecords' hresolve hresolve'⟩

theorem Records.sameReferents (h : env.Records made) (h' : env'.Records made) :
    Expression.SameReferents (env.Namesakes env') env.newest? env'.newest? := by
  intro n
  obtain ⟨hnone, hnone'⟩ | ⟨b, c, x, y, hb, hc, -⟩ := h.lookupName?_cases h' n
  · exact .inl ⟨congrArg (Option.map Prod.fst) hnone, congrArg (Option.map Prod.fst) hnone'⟩
  · have hb' := newest?_of_lookupName? hb
    have hc' := newest?_of_lookupName? hc
    have hbn := name_of_newest? hb'
    have hcn := name_of_newest? hc'
    exact .inr ⟨b, c, hb', hc', hbn, hcn, hbn.trans hcn.symm, hbn ▸ hb', hcn ▸ hc'⟩

/-- An expression means the same in front of the same definitions. -/
theorem Records.resolve_alike (h : env.Records made) (h' : env'.Records made) (e : Expression)
    (supply supply' : Supply) :
    Agree (BoundTerm.Alike Eq (env.Namesakes env')) (e.resolve env supply).1
      (e.resolve env' supply').1 := by
  rw [Expression.resolve_eq_resolveIn, Expression.resolve_eq_resolveIn]
  exact Expression.resolveIn_alike e (h.sameReferents h') supply supply'

theorem Records.alike_of_resolve (h : env.Records made) (h' : env'.Records made) {e : Expression}
    {t u : BoundTerm} {supply supply' : Supply} (ht : (e.resolve env supply).1 = .ok t)
    (hu : (e.resolve env' supply').1 = .ok u) : t.Alike Eq (env.Namesakes env') u := by
  have hagree := h.resolve_alike h' e supply supply'
  rw [ht, hu] at hagree
  cases hagree with
  | ok halike => exact halike

/-- The newest binders of one name have bindings that are alike. -/
theorem Records.corresponds_of_namesakes (h : env.Records made) (h' : env'.Records made)
    (R : Binder → Binder → Prop) (hbc : env.Namesakes env' b c) :
    env.Corresponds Eq R env' b c := by
  induction h generalizing env' b c with
  | empty =>
    obtain ⟨-, hb, -⟩ := hbc
    cases hb
  | @define made env d p t supply hrecords hresolve hp ih =>
    cases h' with
    | @define _ env' _ q u supply' hrecords' hresolve' hq =>
      obtain ⟨hname, hb, hc⟩ := hbc
      rw [newest?_thunk] at hb hc
      by_cases hd : d.name = b.name
      · rw [if_pos (hp.trans hd)] at hb
        rw [if_pos (hq.trans (hd.trans hname))] at hc
        cases hb
        cases hc
        have hterms := hrecords.alike_of_resolve hrecords' hresolve hresolve'
        exact ⟨.thunk t env, .thunk u env', by rw [lookup?, if_pos rfl],
          by rw [lookup?, if_pos rfl],
          Binding.alike_thunk (hterms.mono fun _ _ => ih hrecords')⟩
      · have hpb : p.name ≠ b.name := hp ▸ hd
        have hqc : q.name ≠ c.name := hq ▸ hname ▸ hd
        rw [if_neg hpb] at hb
        rw [if_neg hqc] at hc
        obtain ⟨x, y, hx, hy, hxy⟩ := ih hrecords' ⟨hname, hb, hc⟩
        refine ⟨x, y, ?_, ?_, hxy⟩
        · rw [lookup?, if_neg fun heq => hpb (congrArg _ heq), hx]
        · rw [lookup?, if_neg fun heq => hqc (congrArg _ heq), hy]

end Environment

theorem Binding.SameOrigin.render_eq {t u : BoundTerm} {captured captured' : Environment}
    (h : SameOrigin (.thunk t captured) (.thunk u captured')) :
    Shell.render t captured = Shell.render u captured' := by
  cases h with
  | thunk hrecords hrecords' ht hu =>
    have halike := hrecords.alike_of_resolve hrecords' ht hu
    rw [Shell.render, Shell.render, halike.display_eq (fun _ _ hbc => hbc.1)
      (Environment.namedApart_of_resolve ht) (Environment.namedApart_of_resolve hu)]

namespace Shell.Session

variable {s s' : Session} {made : List Definition}

theorem Invariant.inspect_eq (h : s.Invariant made) (h' : s'.Invariant made) (argument : String) :
    s.inspect argument = s'.inspect argument := by
  rw [inspect, inspect]
  cases Name.parse argument with
  | error error => rfl
  | ok n =>
    obtain ⟨hnone, hnone'⟩ | ⟨b, c, x, y, hb, hc, horigin⟩ :=
      h.records.lookupName?_cases h'.records n
    · simp only [hnone, hnone']
    · have hrender := horigin
      cases horigin with
      | thunk _ _ _ _ => simp only [hb, hc, hrender.render_eq]

theorem Invariant.define_eq (h : s.Invariant made) (h' : s'.Invariant made) (argument : String) :
    (s.define argument).2 = (s'.define argument).2 := by
  rw [Session.define, Session.define]
  cases readDefinition argument with
  | error error => rfl
  | ok d =>
    have hagree := h.records.resolve_alike h'.records d.value s.supply s'.supply
    cases hresolve : d.value.resolve s.environment s.supply with
    | mk result supply =>
      cases hresolve' : d.value.resolve s'.environment s'.supply with
      | mk result' supply' =>
        rw [hresolve, hresolve'] at hagree
        simp only [hresolve, hresolve']
        cases hagree with
        | error error => rfl
        | ok _ => rfl

theorem Invariant.definition?_eq (h : s.Invariant made) (h' : s'.Invariant made) (line : String) :
    s.definition? line = s'.definition? line := by
  rw [definition?, definition?]
  split
  · rw [h.define_eq h']
  · rfl

theorem Invariant.answer_eq (h : s.Invariant made) (h' : s'.Invariant made) {e : Expression}
    {t u : BoundTerm} {supply supply' : Supply}
    (ht : e.resolve s.environment s.supply = (.ok t, supply))
    (hu : e.resolve s'.environment s'.supply = (.ok u, supply')) (r : Reducer) (fuel : Nat) :
    answer s.environment (r.normalize fuel t s.environment supply).result =
      answer s'.environment (r.normalize fuel u s'.environment supply').result := by
  have ht' : (e.resolve s.environment s.supply).1 = .ok t := by rw [ht]
  have hu' : (e.resolve s'.environment s'.supply).1 = .ok u := by rw [hu]
  have halike : t.Alike Eq (s.environment.Corresponds Eq (Binder.Drawn supply supply')
      s'.environment) u :=
    (h.records.alike_of_resolve h'.records ht' hu').mono fun _ _ =>
      h.records.corresponds_of_namesakes h'.records _
  apply answer_eq_of_agree (Reducer.normalize_alike halike (Supply.alike_drawn _ _) fuel r)
  · intro normal hnormal
    exact h.closed hnormal
  · intro normal hnormal
    exact h'.closed hnormal

theorem Invariant.evaluate_eq (h : s.Invariant made) (h' : s'.Invariant made)
    (hbudget : s.budget = s'.budget) (fuel : Nat) (argument : String) :
    (s.evaluate fuel argument).map Prod.snd = (s'.evaluate fuel argument).map Prod.snd := by
  cases hparse : Expression.parse argument with
  | error error =>
    rw [Session.evaluate, Session.evaluate, hparse]
    rfl
  | ok e =>
    have hagree := h.records.resolve_alike h'.records e s.supply s'.supply
    cases hresolve : e.resolve s.environment s.supply with
    | mk result supply =>
      cases hresolve' : e.resolve s'.environment s'.supply with
      | mk result' supply' =>
        rw [hresolve, hresolve'] at hagree
        cases hagree with
        | error error =>
          rw [evaluate_of_resolve_error fuel hparse hresolve,
            evaluate_of_resolve_error fuel hparse hresolve']
          rfl
        | ok _ =>
          have hanswer := h.answer_eq h' hresolve hresolve' { budget := s.budget } fuel
          rw [evaluate_of_resolve fuel hparse hresolve, evaluate_of_resolve fuel hparse hresolve',
            reduction, reduction, ← hbudget, hanswer]
          cases answer s'.environment _ with
          | error reason => rfl
          | ok result => rfl

theorem map_output_evaluate (s : Session) (fuel : Nat) (argument : String) :
    (s.perform fuel (.evaluate argument)).map Reply.output =
      ((s.evaluate fuel argument).map Prod.snd).map printed := by
  rw [perform]
  cases s.evaluate fuel argument with
  | error reason => rfl
  | ok result => exact congrArg Except.ok (output_say result.1 result.2)

/-- A line prints the same behind the same definitions, or it needs more fuel both times. -/
theorem Invariant.output_eq (h : s.Invariant made) (h' : s'.Invariant made)
    (hbudget : s.budget = s'.budget) (fuel : Nat) (line : String) :
    (s.execute fuel line).map Reply.output = (s'.execute fuel line).map Reply.output := by
  rw [Session.execute, Session.execute]
  cases Command.ofLine? line with
  | none => rfl
  | some command =>
    cases command with
    | define argument =>
      have hdefine := h.define_eq h' argument
      simp only [perform]
      cases hs : s.define argument with
      | mk next result =>
        cases hs' : s'.define argument with
        | mk next' result' =>
          rw [hs, hs'] at hdefine
          cases hdefine
          cases result with
          | error error => rfl
          | ok _ => rfl
    | evaluate argument =>
      simp only [map_output_evaluate, h.evaluate_eq h' hbudget]
    | inspect argument =>
      simp only [perform, h.inspect_eq h' argument]
      exact congrArg Except.ok ((output_say s _).trans (output_say s' _).symm)
    | help => rfl
    | exit => rfl
    | unknown text => rfl

structure Entry where
  line : String
  output : String
  definition? : Option Definition

def log (fuel : Nat) : Session → List String → Except Abort (List Entry)
  | _, [] => .ok []
  | s, line :: lines => do
    let reply ← s.execute fuel line
    let entries ← log fuel reply.session lines
    .ok (⟨line, reply.output, s.definition? line⟩ :: entries)

/-- The second list is the first one without some of the lines that made no definition. -/
inductive Omits : List Entry → List Entry → Prop
  | nil : Omits [] []
  | keep {entries kept : List Entry} (entry : Entry) :
    Omits entries kept → Omits (entry :: entries) (entry :: kept)
  | drop {entries kept : List Entry} {entry : Entry} :
    entry.definition? = none → Omits entries kept → Omits (entry :: entries) kept

theorem log_cons_eq_ok_iff {fuel : Nat} {line : String} {lines : List String}
    {entries : List Entry} : log fuel s (line :: lines) = .ok entries ↔
      ∃ reply rest, s.execute fuel line = .ok reply ∧ log fuel reply.session lines = .ok rest ∧
        ⟨line, reply.output, s.definition? line⟩ :: rest = entries := by
  simp only [log, bind_eq_ok_iff, Except.ok.injEq, exists_and_left]

theorem log_cons {fuel : Nat} {line : String} {lines : List String} {reply : Reply}
    {d? : Option Definition} {entries : List Entry} (hexecute : s.execute fuel line = .ok reply)
    (hdefinition : s.definition? line = d?) (h : log fuel reply.session lines = .ok entries) :
    log fuel s (line :: lines) = .ok (⟨line, reply.output, d?⟩ :: entries) :=
  log_cons_eq_ok_iff.mpr ⟨reply, entries, hexecute, h, by rw [hdefinition]⟩

theorem exists_of_log_eq_cons {fuel : Nat} {lines : List String} {entry : Entry}
    {entries : List Entry} (h : log fuel s lines = .ok (entry :: entries)) :
    ∃ reply lines', s.execute fuel entry.line = .ok reply ∧ reply.output = entry.output ∧
      s.definition? entry.line = entry.definition? ∧
      log fuel reply.session lines' = .ok entries := by
  cases lines with
  | nil => cases h
  | cons line lines =>
    obtain ⟨reply, rest, hexecute, hlog, heq⟩ := log_cons_eq_ok_iff.mp h
    cases heq
    exact ⟨reply, lines, hexecute, rfl, rfl, hlog⟩

theorem Invariant.log_omits (h : s.Invariant made) (h' : s'.Invariant made)
    (hbudget : s.budget = s'.budget) {fuel : Nat} {lines : List String}
    {entries kept : List Entry} (hlog : log fuel s lines = .ok entries)
    (hkept : Omits entries kept) : log fuel s' (kept.map Entry.line) = .ok kept := by
  -- The same definitions were made in both sessions, before each line and after it.
  induction hkept generalizing s s' made lines with
  | nil => rfl
  | @keep entries kept entry _ ih =>
    obtain ⟨reply, lines', hexecute, houtput, hdefinition, hrest⟩ := exists_of_log_eq_cons hlog
    have hsame := h.output_eq h' hbudget fuel entry.line
    rw [hexecute] at hsame
    obtain ⟨reply', hexecute', houtput'⟩ := map_eq_ok_iff.mp hsame.symm
    have hafter := h.session_execute hexecute
    have hafter' := h'.session_execute hexecute'
    rw [← h.definition?_eq h'] at hafter'
    have hbudget' : reply.session.budget = reply'.session.budget := by
      rw [budget_execute hexecute, budget_execute hexecute', hbudget]
    have hdefinition' : s'.definition? entry.line = entry.definition? := by
      rw [← h.definition?_eq h', hdefinition]
    have hlog' := log_cons hexecute' hdefinition' (ih hafter hafter' hbudget' hrest)
    rw [houtput', houtput] at hlog'
    exact hlog'
  | @drop entries kept entry hnone _ ih =>
    obtain ⟨reply, lines', hexecute, -, hdefinition, hrest⟩ := exists_of_log_eq_cons hlog
    have hafter := h.session_execute hexecute
    rw [hdefinition, hnone] at hafter
    exact ih hafter h' ((budget_execute hexecute).trans hbudget) hrest

/-- Only definitions matter.  If all lines of a script come to an end, then without any of the lines
that made no definition, and with any serial numbers left at the start, the others come to an end,
too, and print the same. -/
theorem log_of_omits {budget : Budget} {supply : Supply} {fuel : Nat} {lines : List String}
    {entries kept : List Entry} (h : log fuel { budget, supply } lines = .ok entries)
    (hkept : Omits entries kept) (supply' : Supply) :
    log fuel { budget, supply := supply' } (kept.map Entry.line) = .ok kept :=
  (invariant_start budget supply).log_omits (invariant_start budget supply') rfl h hkept

def sampleEntries (evaluated shown : String) : List Entry :=
  [⟨"let y = z", "Undefined name: z\n", none⟩,
    ⟨"let x y = y", "", some ⟨⟨"x"⟩, [⟨"y"⟩], .var ⟨"y"⟩⟩⟩,
    ⟨"eval x", evaluated, none⟩,
    ⟨"show x", shown, none⟩]

/-- Without the line that fails and the evaluation the other two print the same. -/
theorem log_of_omits_of_sampleEntries :
    ∃ evaluated shown,
      log 30 {} ["let y = z", "let x y = y", "eval x", "show x"] =
        .ok (sampleEntries evaluated shown) ∧
      log 30 { supply := ⟨9⟩ } ["let x y = y", "show x"] =
        .ok [⟨"let x y = y", "", some ⟨⟨"x"⟩, [⟨"y"⟩], .var ⟨"y"⟩⟩⟩, ⟨"show x", shown, none⟩] := by
  have hread₁ : readDefinition "y = z" = .ok ⟨⟨"y"⟩, [], .var ⟨"z"⟩⟩ := rfl
  have hread₂ : readDefinition "x y = y" = .ok ⟨⟨"x"⟩, [⟨"y"⟩], .var ⟨"y"⟩⟩ := rfl
  have hfirst : Session.define {} "y = z" =
      ({}, .error (.unresolved (.undefinedName ⟨"z"⟩))) := by
    rw [Session.define, hread₁]
    simp only [Expression.resolve_eq_resolveIn]
    rfl
  have hsecond : Session.define {} "x y = y" = (definedOnce, .ok ()) := by
    rw [Session.define, hread₂]
    simp only [Expression.resolve_eq_resolveIn]
    rfl
  have hline₁ : Command.ofLine? "let y = z" = some (.define "y = z") := rfl
  have hline₂ : Command.ofLine? "let x y = y" = some (.define "x y = y") := rfl
  obtain ⟨hexecute₁, hnone⟩ := execute_of_define_error hline₁ hfirst 30
  obtain ⟨hexecute₂, hsome⟩ := execute_of_define hline₂ hread₂ hsecond 30
  have hfound : definedOnce.environment.lookupName? ⟨"x"⟩ =
      some (⟨2, ⟨"x"⟩⟩, .thunk (.lam ⟨1, ⟨"y"⟩⟩ (.var ⟨1, ⟨"y"⟩⟩)) .empty) := rfl
  have heval : (definedOnce.execute 30 "eval x").map Reply.output =
      .ok (printed (.ok (render (.lam ⟨3, ⟨"y"⟩⟩ (.var ⟨3, ⟨"y"⟩⟩)) definedOnce.environment))) :=
    output_eval (d := ⟨"x"⟩) rfl hfound 30
  obtain ⟨reply, hexecute₃, -⟩ := map_eq_ok_iff.mp heval
  obtain ⟨reply', hexecute₄, -⟩ :=
    map_eq_ok_iff.mp (output_show (d := ⟨"x"⟩) rfl reply.session 30)
  have hlog : log 30 {} ["let y = z", "let x y = y", "eval x", "show x"] =
      .ok (sampleEntries reply.output reply'.output) :=
    log_cons hexecute₁ hnone (log_cons hexecute₂ hsome (log_cons hexecute₃ rfl
      (log_cons hexecute₄ rfl rfl)))
  have homits : Omits (sampleEntries reply.output reply'.output)
      [⟨"let x y = y", "", some ⟨⟨"x"⟩, [⟨"y"⟩], .var ⟨"y"⟩⟩⟩,
        ⟨"show x", reply'.output, none⟩] :=
    .drop rfl (.keep _ (.drop rfl (.keep _ .nil)))
  exact ⟨reply.output, reply'.output, hlog, log_of_omits hlog homits ⟨9⟩⟩

end Shell.Session

end UntypedLambda
