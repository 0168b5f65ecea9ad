import UntypedLambda.Proofs.Completeness
import UntypedLambda.Proofs.OnePass
import UntypedLambda.Proofs.Scoping
import UntypedLambda.Shell.Session

/-! The environment of a session is the list of the definitions that were made, each one with the
environment that it was made in. -/
namespace UntypedLambda

/-- The environment that definitions make one after the other, the newest first: each one stands for
its value as the environment before it reads it, and keeps that environment. -/
inductive Environment.Records : List Definition → Environment → Prop
  | empty : Records [] .empty
  | define {made : List Definition} {env : Environment} {d : Definition} {b : Binder}
    {t : BoundTerm} {supply : Supply} :
    Records made env → (d.value.resolve env supply).1 = .ok t → b.name = d.name →
      Records (d :: made) (.thunk b t env env)

namespace Environment

theorem entries_thunk (b : Binder) (t : BoundTerm) (captured older : Environment) :
    (thunk b t captured older).entries = (b, .thunk t captured) :: older.entries :=
  entries_extend older b (.thunk t captured)

theorem lookup?_of_lookupName? {env : Environment} {n : Name} {b : Binder} {binding : Binding}
    (h : env.lookupName? n = some (b, binding)) : (env.lookup? b).isSome := by
  induction env using extend_induction with
  | empty => cases h
  | extend env c found ih =>
    rw [lookupName?_extend] at h
    rw [lookup?_extend]
    split
    · rfl
    · next hne =>
      split at h
      · cases h
        exact absurd rfl hne
      · exact ih h

theorem isSome_lookup?_of_newest? {env : Environment} {n : Name} {b : Binder}
    (h : env.newest? n = some b) : (env.lookup? b).isSome := by
  obtain ⟨found, hfound, rfl⟩ := Option.map_eq_some_iff.mp h
  exact lookup?_of_lookupName? hfound

/-- A term that was resolved in an environment only asks for what is in it. -/
theorem covers_of_resolve {env : Environment} {e : Expression} {t : BoundTerm} {supply : Supply}
    (h : (e.resolve env supply).1 = .ok t) : env.Covers t :=
  fun _ hb => isSome_lookup?_of_newest? (Expression.newest?_of_resolve h hb)

theorem getElem?_freeNames {env : Environment} {b : Binder}
    (h : (env.lookup? b).isSome) : env.freeNames[b]? = some b.name := by
  have hfold (names : Std.HashMap Binder Name)
      (hb : names[b]? = some b.name ∨ (env.lookup? b).isSome) :
      (env.foldl (fun names c _ => names.insert c c.name) names)[b]? = some b.name := by
    clear h
    induction env using extend_induction generalizing names with
    | empty => exact hb.resolve_right fun h => by cases h
    | extend env c found ih =>
      rw [foldl_extend]
      apply ih
      rw [lookup?_extend] at hb
      rw [Std.HashMap.getElem?_insert]
      by_cases hc : c = b
      · simp [hc]
      · simpa [hc] using hb
  exact hfold ∅ (.inr h)

/-- Free binders that are the newest of their names are listed, and no two have the same name. -/
theorem namedApart_of_newest? {env : Environment} {t : BoundTerm}
    (h : ∀ b, t.IsFree b → env.newest? b.name = some b) : t.NamedApart env.freeNames where
  listed b hb := getElem?_freeNames (isSome_lookup?_of_newest? (h b hb))
  distinct b c hb hc hname := by
    have hb' := h b hb
    rw [hname, h c hc] at hb'
    exact (Option.some.inj hb').symm

/-- The free binders of a resolved term are those of definitions, the newest of their names. -/
theorem namedApart_of_resolve {env : Environment} {e : Expression} {t : BoundTerm} {supply : Supply}
    (h : (e.resolve env supply).1 = .ok t) : t.NamedApart env.freeNames :=
  namedApart_of_newest? fun _ hb => Expression.newest?_of_resolve h hb

variable {env : Environment} {made : List Definition}

theorem Records.wellScoped (h : env.Records made) : env.WellScoped := by
  induction h with
  | empty => trivial
  | define _ hresolve _ ih => exact ⟨⟨covers_of_resolve hresolve, ih⟩, ih⟩

/-- A definition refers to the newest binder of each name in the environment that it keeps. -/
theorem Records.newest? (h : env.Records made) {b : Binder} {t : BoundTerm}
    {captured : Environment} (hmem : (b, .thunk t captured) ∈ env.entries) {c : Binder}
    (hc : t.IsFree c) : captured.newest? c.name = some c := by
  induction h with
  | empty => cases hmem
  | @define made env d b' t' supply _ hresolve _ ih =>
    rw [entries_thunk] at hmem
    rcases List.mem_cons.mp hmem with heq | hmem
    · cases heq
      exact Expression.newest?_of_resolve hresolve hc
    · exact ih hmem

end Environment

namespace Shell.Session

def definition? (s : Session) (line : String) : Option Definition :=
  match Command.ofLine? line with
  | some (.define argument) =>
    match (s.define argument).2 with
    | .ok () => (readDefinition argument).toOption
    | .error _ => none
  | _ => none

/-- Running the lines one after the other leads to a session, and the definitions were made on the
way, the newest first. -/
inductive RunsTo (start : Session) : List String → List Definition → Session → Prop
  | start : RunsTo start [] [] start
  | line {lines : List String} {made : List Definition} {s : Session} {fuel : Nat}
    {line : String} {reply : Reply} :
    RunsTo start lines made s → s.execute fuel line = .ok reply →
      RunsTo start (lines ++ [line]) ((s.definition? line).toList ++ made) reply.session

/-- The environment records the definitions, and its binders are different from each other and from
all that are still to come. -/
structure Invariant (made : List Definition) (s : Session) : Prop where
  records : s.environment.Records made
  distinct : (s.environment.entries.map Prod.fst).Nodup
  below : ∀ entry ∈ s.environment.entries, entry.1.serial < s.supply.next

theorem invariant_start (budget : Budget) (supply : Supply) :
    Invariant [] { budget, supply } where
  records := .empty
  distinct := List.nodup_nil
  below _ hentry := by cases hentry

variable {s : Session} {made : List Definition}

theorem Invariant.of_next_le (h : s.Invariant made) {supply : Supply}
    (hle : s.supply.next ≤ supply.next) : Invariant made { s with supply } where
  records := h.records
  distinct := h.distinct
  below entry hentry := Nat.lt_of_lt_of_le (h.below entry hentry) hle

/-- A definition goes in front of the others, with a binder of its own. -/
theorem Invariant.define (h : s.Invariant made) {d : Definition} {t : BoundTerm} {supply : Supply}
    (hresolve : d.value.resolve s.environment s.supply = (.ok t, supply)) :
    Invariant (d :: made) { s with
      environment := .thunk (supply.fresh d.name).1 t s.environment s.environment
      supply := (supply.fresh d.name).2 } := by
  have hle : s.supply.next ≤ supply.next := by
    have hnext := Expression.next_le_resolve s.environment d.value s.supply
    rw [hresolve] at hnext
    exact hnext
  have hresolve' : (d.value.resolve s.environment s.supply).1 = .ok t := by rw [hresolve]
  refine ⟨.define h.records hresolve' rfl, ?_, ?_⟩
  · rw [Environment.entries_thunk, List.map_cons, List.nodup_cons]
    refine ⟨?_, h.distinct⟩
    intro hmem
    obtain ⟨entry, hentry, heq⟩ := List.mem_map.mp hmem
    have hlt := h.below entry hentry
    rw [heq] at hlt
    exact Nat.lt_irrefl _ (Nat.lt_of_lt_of_le hlt hle)
  · rw [Environment.entries_thunk]
    refine List.forall_mem_cons.mpr ⟨Nat.lt_succ_self _, ?_⟩
    intro entry hentry
    have hlt : entry.1.serial < supply.next := Nat.lt_of_lt_of_le (h.below entry hentry) hle
    exact Nat.lt_succ_of_lt hlt

theorem define_of_resolve {argument : String} {d : Definition} {t : BoundTerm} {supply : Supply}
    (hread : readDefinition argument = .ok d)
    (hresolve : d.value.resolve s.environment s.supply = (.ok t, supply)) :
    s.define argument = ({ s with
      environment := .thunk (supply.fresh d.name).1 t s.environment s.environment
      supply := (supply.fresh d.name).2 }, .ok ()) := by
  rw [define, hread]
  simp only [hresolve]
  rfl

/-- A definition is made, or only serial numbers are used up. -/
theorem define_cases (s : Session) (argument : String) :
    (∃ d t supply, readDefinition argument = .ok d ∧
      d.value.resolve s.environment s.supply = (.ok t, supply) ∧
      s.define argument = ({ s with
        environment := .thunk (supply.fresh d.name).1 t s.environment s.environment
        supply := (supply.fresh d.name).2 }, .ok ())) ∨
    (∃ supply error, s.supply.next ≤ supply.next ∧
      s.define argument = ({ s with supply }, .error error)) := by
  cases hread : readDefinition argument with
  | error error =>
    refine .inr ⟨s.supply, error, Nat.le_refl _, ?_⟩
    rw [define, hread]
  | ok d =>
    have hnext := Expression.next_le_resolve s.environment d.value s.supply
    cases hresolve : d.value.resolve s.environment s.supply with
    | mk result supply =>
      rw [hresolve] at hnext
      cases result with
      | error error =>
        refine .inr ⟨supply, .unresolved error, hnext, ?_⟩
        rw [define, hread]
        simp only [hresolve]
      | ok t => exact .inl ⟨d, t, supply, rfl, hresolve, define_of_resolve hread hresolve⟩

/-- An evaluation needs more fuel, or it only uses up serial numbers. -/
theorem Invariant.evaluate (h : s.Invariant made) (fuel : Nat) (argument : String) :
    s.evaluate fuel argument = .error .outOfFuel ∨
    ∃ supply result, s.supply.next ≤ supply.next ∧
      s.evaluate fuel argument = .ok ({ s with supply }, result) := by
  rw [Session.evaluate]
  cases hparse : Expression.parse argument with
  | error error => exact .inr ⟨s.supply, .error (.illFormed error), Nat.le_refl _, rfl⟩
  | ok e =>
    have hnext := Expression.next_le_resolve s.environment e s.supply
    cases hresolve : e.resolve s.environment s.supply with
    | mk result supply =>
      rw [hresolve] at hnext
      cases result with
      | error error =>
        refine .inr ⟨supply, .error (.unresolved error), hnext, ?_⟩
        simp only [hresolve]
      | ok t =>
        have hcovers : s.environment.Covers t :=
          Environment.covers_of_resolve (show (e.resolve s.environment s.supply).1 = .ok t by
            rw [hresolve])
        have hend := Reducer.normalize_result { budget := s.budget } fuel supply hcovers
          h.records.wellScoped
        have hnext' : s.supply.next ≤ _ := Nat.le_trans hnext
          (Reducer.next_le_normalize { budget := s.budget } fuel t s.environment supply)
        simp only [hresolve]
        rcases hend with ⟨normal, hok⟩ | ⟨limit, -, hlimit⟩ | hfuel
        · rw [hok]
          exact .inr ⟨_, _, hnext', rfl⟩
        · rw [hlimit]
          exact .inr ⟨_, _, hnext', rfl⟩
        · rw [hfuel]
          exact .inl rfl

/-- A line needs more fuel, or it keeps the invariant, and only a definition changes the
environment. -/
theorem Invariant.execute (h : s.Invariant made) (fuel : Nat) (line : String) :
    s.execute fuel line = .error .outOfFuel ∨
    ∃ reply, s.execute fuel line = .ok reply ∧
      reply.session.Invariant ((s.definition? line).toList ++ made) ∧
      (s.definition? line = none → reply.session.environment = s.environment) := by
  rw [Session.execute, definition?]
  cases hline : Command.ofLine? line with
  | none => exact .inr ⟨_, rfl, h, fun _ => rfl⟩
  | some command =>
    cases command with
    | define argument =>
      right
      obtain ⟨d, t, supply, hread, hresolve, hdefine⟩ | ⟨supply, error, hnext, hdefine⟩ :=
        s.define_cases argument
      · simp only [perform, hdefine, hread]
        refine ⟨_, rfl, h.define hresolve, ?_⟩
        intro hnone
        cases hnone
      · simp only [perform, hdefine]
        exact ⟨_, rfl, h.of_next_le hnext, fun _ => rfl⟩
    | evaluate argument =>
      rcases h.evaluate fuel argument with hfuel | ⟨supply, result, hnext, hevaluate⟩
      · left
        simp only [perform, hfuel]
        rfl
      · right
        simp only [perform, hevaluate]
        cases result with
        | ok text => exact ⟨_, rfl, h.of_next_le hnext, fun _ => rfl⟩
        | error error => exact ⟨_, rfl, h.of_next_le hnext, fun _ => rfl⟩
    | inspect argument =>
      right
      simp only [perform]
      cases s.inspect argument with
      | ok text => exact ⟨_, rfl, h, fun _ => rfl⟩
      | error error => exact ⟨_, rfl, h, fun _ => rfl⟩
    | help => exact .inr ⟨_, rfl, h, fun _ => rfl⟩
    | exit => exact .inr ⟨_, rfl, h, fun _ => rfl⟩
    | unknown line => exact .inr ⟨_, rfl, h, fun _ => rfl⟩

theorem Invariant.session_execute (h : s.Invariant made) {fuel : Nat} {line : String}
    {reply : Reply} (hexecute : s.execute fuel line = .ok reply) :
    reply.session.Invariant ((s.definition? line).toList ++ made) := by
  obtain hfuel | ⟨reply', hreply, hinvariant, -⟩ := h.execute fuel line
  · cases hfuel.symm.trans hexecute
  · cases hreply.symm.trans hexecute
    exact hinvariant

theorem execute_of_define {s' : Session} {line argument : String} {d : Definition}
    (hline : Command.ofLine? line = some (.define argument))
    (hread : readDefinition argument = .ok d) (hdefine : s.define argument = (s', .ok ()))
    (fuel : Nat) :
    s.execute fuel line = .ok { session := s' } ∧ s.definition? line = some d := by
  rw [Session.execute, definition?, hline]
  simp only [perform, hdefine, hread]
  exact ⟨trivial, rfl⟩

theorem execute_of_define_error {s' : Session} {line argument : String} {error : CommandError}
    (hline : Command.ofLine? line = some (.define argument))
    (hdefine : s.define argument = (s', .error error)) (fuel : Nat) :
    s.execute fuel line = .ok (s'.say (.error error)) ∧ s.definition? line = none := by
  rw [Session.execute, definition?, hline]
  simp only [perform, hdefine]
  exact ⟨trivial, trivial⟩

theorem RunsTo.define {start s' : Session} {lines : List String} {line argument : String}
    {d : Definition} (h : RunsTo start lines made s)
    (hline : Command.ofLine? line = some (.define argument))
    (hread : readDefinition argument = .ok d) (hdefine : s.define argument = (s', .ok ())) :
    RunsTo start (lines ++ [line]) (d :: made) s' := by
  obtain ⟨hexecute, hdefinition⟩ := execute_of_define hline hread hdefine 0
  have hline := RunsTo.line h hexecute
  rw [hdefinition] at hline
  exact hline

theorem RunsTo.define_error {start s' : Session} {lines : List String} {line argument : String}
    {error : CommandError} (h : RunsTo start lines made s)
    (hline : Command.ofLine? line = some (.define argument))
    (hdefine : s.define argument = (s', .error error)) :
    RunsTo start (lines ++ [line]) made s' := by
  obtain ⟨hexecute, hdefinition⟩ := execute_of_define_error hline hdefine 0
  have hline := RunsTo.line h hexecute
  rw [hdefinition] at hline
  exact hline

theorem RunsTo.invariant {start : Session} {lines : List String}
    (hstart : start.Invariant []) (h : RunsTo start lines made s) : s.Invariant made := by
  -- The run is extended at its end, by one line at a time.
  induction h with
  | start => exact hstart
  | line _ hexecute ih => exact ih.session_execute hexecute

/-- Whatever lines a session runs, its environment records the definitions that were made, with
binders that are all different, and each definition refers to the newest binder of each name in the
environment that it keeps.  A line that makes no definition leaves the environment as it is, and
every line ends unless its reduction needs more fuel: the machine never breaks down, and resolving
and naming never take anything from an empty stack. -/
theorem RunsTo.keeps_definitions {budget : Budget} {supply : Supply} {lines : List String}
    (h : RunsTo { budget, supply } lines made s) :
    s.environment.Records made ∧
    (s.environment.entries.map Prod.fst).Nodup ∧
    (∀ b t captured, (b, .thunk t captured) ∈ s.environment.entries →
      ∀ c, t.IsFree c → captured.newest? c.name = some c) ∧
    (∀ fuel line reply, s.execute fuel line = .ok reply → s.definition? line = none →
      reply.session.environment = s.environment) ∧
    (∀ fuel line reason, s.execute fuel line = .error reason → reason = .outOfFuel) ∧
    (∀ (e : Expression) (supply : Supply),
      Expression.resolveOnto s.environment e.events {} supply [] =
        some (e.resolve s.environment supply)) ∧
    (∀ (t : BoundTerm) (freeNames : Std.HashMap Binder Name),
      (DisplayWalk.start t freeNames).displayOnto t.events [] = some (t.display freeNames)) := by
  have hinvariant := h.invariant (invariant_start budget supply)
  refine ⟨hinvariant.records, hinvariant.distinct, ?_, ?_, ?_, ?_, ?_⟩
  · intro b t captured hmem c hc
    exact hinvariant.records.newest? hmem hc
  · intro fuel line reply hreply hnone
    rcases hinvariant.execute fuel line with hfuel | ⟨reply', hreply', -, hkeeps⟩
    · rw [hfuel] at hreply
      cases hreply
    · rw [hreply'] at hreply
      cases hreply
      exact hkeeps hnone
  · intro fuel line reason herror
    rcases hinvariant.execute fuel line with hfuel | ⟨reply', hreply', -, -⟩
    · rw [hfuel] at herror
      cases herror
      rfl
    · rw [hreply'] at herror
      cases herror
  · intro e supply
    exact e.resolveOnto_eq_resolve s.environment supply
  · intro t freeNames
    exact t.displayOnto_eq_display freeNames

def definedOnce : Session where
  environment := .thunk ⟨2, ⟨"x"⟩⟩ (.lam ⟨1, ⟨"y"⟩⟩ (.var ⟨1, ⟨"y"⟩⟩)) .empty .empty
  supply := ⟨3⟩

def definedTwice : Session where
  environment := .thunk ⟨3, ⟨"x"⟩⟩ (.app (.var ⟨2, ⟨"x"⟩⟩) (.var ⟨2, ⟨"x"⟩⟩))
    definedOnce.environment definedOnce.environment
  supply := ⟨4⟩

theorem keeps_definitions_of_redefinition :
    RunsTo {} ["let x y = y", "let x = x x", "let y = z"]
      [⟨⟨"x"⟩, [], .app (.var ⟨"x"⟩) (.var ⟨"x"⟩)⟩, ⟨⟨"x"⟩, [⟨"y"⟩], .var ⟨"y"⟩⟩] definedTwice ∧
    definedTwice.environment.Records
      [⟨⟨"x"⟩, [], .app (.var ⟨"x"⟩) (.var ⟨"x"⟩)⟩, ⟨⟨"x"⟩, [⟨"y"⟩], .var ⟨"y"⟩⟩] ∧
    (definedTwice.environment.entries.map Prod.fst).Nodup ∧
    ∀ fuel reason, definedTwice.execute fuel "eval x" = .error reason → reason = .outOfFuel := by
  have hread₁ : readDefinition "x y = y" = .ok ⟨⟨"x"⟩, [⟨"y"⟩], .var ⟨"y"⟩⟩ := rfl
  have hread₂ : readDefinition "x = x x" = .ok ⟨⟨"x"⟩, [], .app (.var ⟨"x"⟩) (.var ⟨"x"⟩)⟩ := rfl
  have hread₃ : readDefinition "y = z" = .ok ⟨⟨"y"⟩, [], .var ⟨"z"⟩⟩ := rfl
  have hfirst : Session.define {} "x y = y" = (definedOnce, .ok ()) := by
    rw [define, hread₁]
    simp only [Expression.resolve_eq_resolveIn]
    rfl
  have hsecond : definedOnce.define "x = x x" = (definedTwice, .ok ()) := by
    rw [define, hread₂]
    simp only [Expression.resolve_eq_resolveIn]
    rfl
  have hthird : definedTwice.define "y = z" =
      (definedTwice, .error (.unresolved (.undefinedName ⟨"z"⟩))) := by
    rw [define, hread₃]
    simp only [Expression.resolve_eq_resolveIn]
    rfl
  have hruns : RunsTo {} ["let x y = y", "let x = x x", "let y = z"]
      [⟨⟨"x"⟩, [], .app (.var ⟨"x"⟩) (.var ⟨"x"⟩)⟩, ⟨⟨"x"⟩, [⟨"y"⟩], .var ⟨"y"⟩⟩] definedTwice :=
    ((RunsTo.start.define rfl hread₁ hfirst).define rfl hread₂ hsecond).define_error rfl hthird
  obtain ⟨hrecords, hdistinct, -, -, hends, -⟩ := RunsTo.keeps_definitions hruns
  exact ⟨hruns, hrecords, hdistinct, fun fuel reason h => hends fuel "eval x" reason h⟩

end Shell.Session

end UntypedLambda
