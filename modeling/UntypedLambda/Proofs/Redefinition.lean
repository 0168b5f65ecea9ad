import UntypedLambda.Proofs.Evaluation

namespace UntypedLambda

namespace Environment

variable {env : Environment} {made : List Definition} {b : Binder} {n : Name} {binding : Binding}

theorem mem_entries_of_lookup? (h : env.lookup? b = some binding) :
    (b, binding) ∈ env.entries := by
  induction env using extend_induction with
  | empty => cases h
  | extend env c found ih =>
    rw [lookup?_extend] at h
    rw [entries_extend]
    split at h
    · next hcb =>
      cases h
      rw [hcb]
      exact List.mem_cons_self
    · exact List.mem_cons_of_mem _ (ih h)

theorem Records.exists_of_lookupName? (h : env.Records made) (hn : (env.lookupName? n).isSome) :
    ∃ d ∈ made, d.name = n := by
  induction h with
  | empty => cases hn
  | @define made env d b t supply _ _ hname ih =>
    rw [lookupName?] at hn
    split at hn
    · next hb => exact ⟨d, List.mem_cons_self, hname.symm.trans hb⟩
    · obtain ⟨d', hd', hn'⟩ := ih hn
      exact ⟨d', List.mem_cons_of_mem d hd', hn'⟩

theorem Records.lookupName?_eq_none (h : env.Records made) (hn : ∀ d ∈ made, d.name ≠ n) :
    env.lookupName? n = none := by
  by_contra hsome
  obtain ⟨d, hd, hname⟩ := h.exists_of_lookupName? (Option.isSome_iff_ne_none.mpr hsome)
  exact hn d hd hname

/-- A name stands for its newest definition.  That keeps the environment that it was made in, and
other names that were not defined since then mean what they meant there. -/
theorem Records.exists_lookupName? {later earlier : List Definition} {d : Definition}
    (h : env.Records (later ++ d :: earlier)) (hlater : ∀ d' ∈ later, d'.name ≠ d.name) :
    ∃ b t captured supply, env.lookupName? d.name = some (b, .thunk t captured) ∧
      captured.Records earlier ∧ (d.value.resolve captured supply).1 = .ok t ∧
      ∀ n, (∀ d' ∈ d :: later, d'.name ≠ n) → env.lookupName? n = captured.lookupName? n := by
  induction later generalizing env with
  | nil =>
    cases h with
    | define hrecords hresolve hname =>
      refine ⟨_, _, _, _, by rw [lookupName?, if_pos hname], hrecords, hresolve, ?_⟩
      intro n hn
      rw [lookupName?, if_neg (hname ▸ hn d List.mem_cons_self)]
  | cons d' later ih =>
    cases h with
    | define hrecords _ hname =>
      obtain ⟨b, t, captured, supply, hlookup, hcaptured, hresolve, hsame⟩ :=
        ih hrecords fun e he => hlater e (List.mem_cons_of_mem d' he)
      refine ⟨b, t, captured, supply, ?_, hcaptured, hresolve, ?_⟩
      · rw [lookupName?, if_neg (hname ▸ hlater d' List.mem_cons_self)]
        exact hlookup
      · intro n hn
        obtain ⟨hd, hd', hrest⟩ : d.name ≠ n ∧ d'.name ≠ n ∧ ∀ e ∈ later, e.name ≠ n := by
          simpa using hn
        rw [lookupName?, if_neg (hname ▸ hd')]
        exact hsame n (List.forall_mem_cons.mpr ⟨hd, hrest⟩)

end Environment

theorem Definition.eq_cons_of_ofTokens {ts : List Token} {d : Definition}
    (h : Definition.ofTokens ts = .ok d) : ∃ rest, ts = .ident d.name :: rest := by
  rw [Definition.ofTokens.eq_def] at h
  split at h
  · next name tokens =>
    obtain ⟨⟨parameters, rest⟩, -, hbody⟩ := bind_eq_ok_iff.mp h
    obtain ⟨body, -, hd⟩ := bind_eq_ok_iff.mp hbody
    cases hd
    exact ⟨tokens, rfl⟩
  · cases h

theorem Definition.isIdentifier_of_parse {source : String} {d : Definition}
    (h : Definition.parse source = .ok d) : d.name.isIdentifier = true := by
  obtain ⟨ts, hscan, htokens⟩ := bind_eq_ok_iff.mp h
  obtain ⟨rest, rfl⟩ := Definition.eq_cons_of_ofTokens htokens
  exact Token.isWritable_of_scan (Token.parse_eq_ok_iff.mp hscan) _ List.mem_cons_self

namespace Shell.Session

variable {s s' : Session} {made laterMade : List Definition} {lines later : List String}

/-- A line leaves the bindings that there are, and every name that it does not define. -/
theorem Invariant.lookups_execute (h : s.Invariant made) {fuel : Nat} {line : String}
    {reply : Reply} (hexecute : s.execute fuel line = .ok reply) :
    (∀ b, (s.environment.lookup? b).isSome →
      reply.session.environment.lookup? b = s.environment.lookup? b) ∧
    ∀ n, (∀ d ∈ s.definition? line, d.name ≠ n) →
      reply.session.environment.lookupName? n = s.environment.lookupName? n := by
  cases hd : s.definition? line with
  | none =>
    rcases h.execute fuel line with hfuel | ⟨reply', hreply, -, hkeeps⟩
    · rw [hfuel] at hexecute
      cases hexecute
    · rw [hreply] at hexecute
      cases hexecute
      rw [hkeeps hd]
      exact ⟨fun _ _ => rfl, fun _ _ => rfl⟩
  | some d =>
    obtain ⟨argument, t, supply, -, -, hresolve, hsession⟩ := exists_of_definition? hd hexecute
    rw [hsession]
    constructor
    · intro b hb
      obtain ⟨binding, hbinding⟩ := Option.isSome_iff_exists.mp hb
      have hlt := h.below _ (Environment.mem_entries_of_lookup? hbinding)
      have hle := Expression.next_le_resolve s.environment d.value s.supply
      rw [hresolve] at hle
      have hne : (supply.fresh d.name).1 ≠ b := by
        rintro rfl
        exact absurd hle (Nat.not_le_of_lt hlt)
      rw [Environment.lookup?, if_neg hne]
    · intro n hn
      have hne : (supply.fresh d.name).1.name ≠ n := hn d rfl
      rw [Environment.lookupName?, if_neg hne]

theorem RunsTo.lookups {start : Session} (hstart : start.Invariant [])
    (h : RunsTo start lines made s) (hlater : RunsTo s later laterMade s') :
    (∀ b, (s.environment.lookup? b).isSome →
      s'.environment.lookup? b = s.environment.lookup? b) ∧
    ∀ n, (∀ d ∈ laterMade, d.name ≠ n) →
      s'.environment.lookupName? n = s.environment.lookupName? n := by
  induction hlater with
  | start => exact ⟨fun _ _ => rfl, fun _ _ => rfl⟩
  | @line later laterMade s₁ fuel line reply hlater hexecute ih =>
    obtain ⟨hbinders, hnames⟩ := ih
    have hinvariant := (h.trans hlater).invariant hstart
    obtain ⟨hbinders₁, hnames₁⟩ := hinvariant.lookups_execute hexecute
    constructor
    · intro b hb
      have hb₁ := hbinders b hb
      rw [hbinders₁ b (hb₁ ▸ hb), hb₁]
    · intro n hn
      have hline : ∀ d ∈ s₁.definition? line, d.name ≠ n := fun d hd =>
        hn d (List.mem_append_left _ (Option.mem_toList.mpr hd))
      rw [hnames₁ n hline, hnames n fun d hd => hn d (List.mem_append_right _ hd)]

theorem RunsTo.budget_eq (h : RunsTo s later laterMade s') : s'.budget = s.budget := by
  induction h with
  | start => rfl
  | line _ hexecute ih => rw [budget_execute hexecute, ih]

theorem RunsTo.exists_parse (h : RunsTo s later laterMade s') :
    ∀ d ∈ laterMade, ∃ source, Definition.parse source = .ok d := by
  induction h with
  | start => exact List.forall_mem_nil _
  | @line later laterMade s₁ fuel line reply _ hexecute ih =>
    refine List.forall_mem_append.mpr ⟨?_, ih⟩
    intro d hd
    obtain ⟨argument, t, supply, -, hread, -, -⟩ :=
      exists_of_definition? (Option.mem_toList.mp hd) hexecute
    exact ⟨argument, parse_of_readDefinition hread⟩

theorem RunsTo.isIdentifier (h : RunsTo s later laterMade s') :
    ∀ d ∈ laterMade, d.name.isIdentifier = true := by
  intro d hd
  obtain ⟨source, hparse⟩ := h.exists_parse d hd
  exact Definition.isIdentifier_of_parse hparse

variable {d : Name} {b : Binder} {binding : Binding}

theorem resolve_var (h : s.environment.lookupName? d = some (b, binding)) (supply : Supply) :
    Expression.resolve (.var d) s.environment supply = (.ok (.var b), supply) := by
  rw [Expression.resolve_eq_resolveIn, Expression.resolveIn, h]

/-- A name with the same binding in two sessions is evaluated alike. -/
theorem answer_eq_of_lookup? (hs : s.Invariant made) (hs' : s'.Invariant laterMade)
    (hb : s.environment.lookup? b = some binding) (hb' : s'.environment.lookup? b = some binding)
    (r : Reducer) (fuel : Nat) :
    answer s'.environment (r.normalize fuel (.var b) s'.environment s'.supply).result =
      answer s.environment (r.normalize fuel (.var b) s.environment s.supply).result := by
  have hself := hs.records.alike_of_lookup? (Binder.Drawn s'.supply s.supply) hb
  have halike : BoundTerm.Alike Eq (s'.environment.Corresponds Eq
      (Binder.Drawn s'.supply s.supply) s.environment) (.var b) (.var b) :=
    .var ⟨binding, binding, hb', hb, hself⟩
  apply answer_eq_of_agree (Reducer.normalize_alike halike (Supply.alike_drawn _ _) fuel r)
  · intro t ht
    exact hs'.closed ht
  · intro t ht
    exact hs.closed ht

theorem scan_name (hd : d.isIdentifier = true) : Token.scan d.text = .ok [.ident d] := by
  have hwritable : ∀ token ∈ [Token.ident d], token.IsWritable := List.forall_mem_singleton.mpr hd
  have hspell : Token.spell [.ident d] = d.text := by
    simp [Token.spell, Token.spellOnto, Token.text]
  rw [← hspell]
  exact Token.scan_spell hwritable

theorem output_show (hd : d.isIdentifier = true) (s : Session) (fuel : Nat) :
    (s.execute fuel ("show " ++ d.text)).map Reply.output =
      .ok (printed (match s.environment.lookupName? d with
        | some (_, .thunk term captured) => .ok (render term captured)
        | some (binder, .value _) => .ok binder.name.text
        | none => .error (.unknownName d))) := by
  obtain ⟨argument, hline, hscan⟩ := Command.ofLine?_show (scan_name hd) (List.cons_ne_nil _ _)
  have hparse : Name.parse argument = .ok d := by
    rw [Name.parse, Token.parse, hscan]
    rfl
  rw [execute, hline]
  simp only [perform, inspect, hparse]
  exact congrArg Except.ok (output_say s _)

theorem output_eval (hd : d.isIdentifier = true)
    (h : s.environment.lookupName? d = some (b, binding)) (fuel : Nat) :
    (s.execute fuel ("eval " ++ d.text)).map Reply.output =
      (answer s.environment (s.reduction fuel (.var b) s.supply).result).map printed := by
  have hparse : Expression.parse d.text = .ok (.var d) := by
    rw [Expression.parse, Token.parse, scan_name hd]
    rfl
  exact output_eval_of_parse hparse (resolve_var h s.supply) fuel

/-- What a definition prints does not change as long as its own name is not defined again, whatever
other lines are run: `show` prints the same text, and `eval` prints the same text with the same
fuel, or needs more of it both times. -/
theorem RunsTo.keeps_outputs {budget : Budget} {supply : Supply}
    (h : RunsTo { budget, supply } lines made s) (hd : (s.environment.lookupName? d).isSome)
    (hlater : RunsTo s later laterMade s') (hnot : ∀ d' ∈ laterMade, d'.name ≠ d) (fuel : Nat) :
    (s'.execute fuel ("show " ++ d.text)).map Reply.output =
      (s.execute fuel ("show " ++ d.text)).map Reply.output ∧
    (s'.execute fuel ("eval " ++ d.text)).map Reply.output =
      (s.execute fuel ("eval " ++ d.text)).map Reply.output := by
  have hstart := invariant_start budget supply
  have hs := h.invariant hstart
  have hs' := (h.trans hlater).invariant hstart
  obtain ⟨hbinders, hnames⟩ := h.lookups hstart hlater
  have hname := hnames d hnot
  have hidentifier : d.isIdentifier = true := by
    obtain ⟨d', hmem, rfl⟩ := hs.records.exists_of_lookupName? hd
    exact h.isIdentifier d' hmem
  obtain ⟨⟨b, found⟩, hfound⟩ := Option.isSome_iff_exists.mp hd
  have hbound := Environment.lookup?_of_lookupName? hfound
  obtain ⟨binding, hbinding⟩ := Option.isSome_iff_exists.mp hbound
  have hbinding' : s'.environment.lookup? b = some binding := by rw [hbinders b hbound, hbinding]
  constructor
  · rw [output_show hidentifier, output_show hidentifier, hname]
  · rw [output_eval hidentifier hfound, output_eval hidentifier (hname.trans hfound),
      reduction, reduction, hlater.budget_eq, answer_eq_of_lookup? hs hs' hbinding hbinding']

def definedWithOther : Session where
  environment := .thunk ⟨3, ⟨"d"⟩⟩ (.app (.var ⟨2, ⟨"x"⟩⟩) (.var ⟨2, ⟨"x"⟩⟩))
    definedOnce.environment definedOnce.environment
  supply := ⟨4⟩

def otherRedefined : Session where
  environment := .thunk ⟨4, ⟨"x"⟩⟩ (.var ⟨3, ⟨"d"⟩⟩) definedWithOther.environment
    definedWithOther.environment
  supply := ⟨5⟩

/-- The name that the definition uses is defined again, by way of the definition itself. -/
theorem keeps_outputs_of_otherRedefined :
    RunsTo {} ["let x y = y", "let d = x x"]
      [⟨⟨"d"⟩, [], .app (.var ⟨"x"⟩) (.var ⟨"x"⟩)⟩, ⟨⟨"x"⟩, [⟨"y"⟩], .var ⟨"y"⟩⟩]
      definedWithOther ∧
    RunsTo definedWithOther ["let x = d"] [⟨⟨"x"⟩, [], .var ⟨"d"⟩⟩] otherRedefined ∧
    ∀ fuel, (otherRedefined.execute fuel "show d").map Reply.output =
        (definedWithOther.execute fuel "show d").map Reply.output ∧
      (otherRedefined.execute fuel "eval d").map Reply.output =
        (definedWithOther.execute fuel "eval d").map Reply.output := by
  have hread₁ : readDefinition "x y = y" = .ok ⟨⟨"x"⟩, [⟨"y"⟩], .var ⟨"y"⟩⟩ := rfl
  have hread₂ : readDefinition "d = x x" = .ok ⟨⟨"d"⟩, [], .app (.var ⟨"x"⟩) (.var ⟨"x"⟩)⟩ := rfl
  have hread₃ : readDefinition "x = d" = .ok ⟨⟨"x"⟩, [], .var ⟨"d"⟩⟩ := rfl
  have hfirst : Session.define {} "x y = y" = (definedOnce, .ok ()) := by
    rw [define, hread₁]
    simp only [Expression.resolve_eq_resolveIn]
    rfl
  have hsecond : definedOnce.define "d = x x" = (definedWithOther, .ok ()) := by
    rw [define, hread₂]
    simp only [Expression.resolve_eq_resolveIn]
    rfl
  have hthird : definedWithOther.define "x = d" = (otherRedefined, .ok ()) := by
    rw [define, hread₃]
    simp only [Expression.resolve_eq_resolveIn]
    rfl
  have hruns : RunsTo {} ["let x y = y", "let d = x x"]
      [⟨⟨"d"⟩, [], .app (.var ⟨"x"⟩) (.var ⟨"x"⟩)⟩, ⟨⟨"x"⟩, [⟨"y"⟩], .var ⟨"y"⟩⟩]
      definedWithOther :=
    (RunsTo.start.define rfl hread₁ hfirst).define rfl hread₂ hsecond
  have hlater : RunsTo definedWithOther ["let x = d"] [⟨⟨"x"⟩, [], .var ⟨"d"⟩⟩] otherRedefined :=
    RunsTo.start.define rfl hread₃ hthird
  have hdefined : (definedWithOther.environment.lookupName? ⟨"d"⟩).isSome = true := rfl
  have hnot : ∀ d' ∈ [Definition.mk ⟨"x"⟩ [] (.var ⟨"d"⟩)], d'.name ≠ ⟨"d"⟩ := by decide
  exact ⟨hruns, hlater, RunsTo.keeps_outputs hruns hdefined hlater hnot⟩

end Shell.Session

end UntypedLambda
