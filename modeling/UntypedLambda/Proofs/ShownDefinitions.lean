import UntypedLambda.Proofs.DefinitionChecks
import UntypedLambda.Proofs.NamesOfResults

namespace UntypedLambda.Shell.Session

variable {s : Session} {later earlier : List Definition} {lines : List String}
  {d : Definition} {n : Name} {parameters : List Name} {value : String} {e : Expression}
  {t : BoundTerm} {supply : Supply}

/-- A definition whose names all mean something is made by its line. -/
theorem execute_letLine (hnames : ∀ m ∈ n :: parameters, m.isIdentifier = true)
    (hvalue : Expression.parse value = .ok e)
    (hresolve : (Definition.mk n parameters e).value.resolve s.environment s.supply =
      (.ok t, supply)) (fuel : Nat) :
    s.execute fuel (letLine n parameters value) = .ok { session := { s with
        environment := s.environment.extend (supply.fresh n).1 (.thunk t s.environment)
        supply := (supply.fresh n).2 } } ∧
      s.definition? (letLine n parameters value) = some ⟨n, parameters, e⟩ := by
  obtain ⟨argument, hline, hread⟩ := exists_define_letLine hnames hvalue
  exact execute_of_define hline hread (define_of_resolve hread hresolve) fuel

/-- `let` takes back what `show` prints.  The text that is shown for the newest definition of a name
is read, where the definition was made, as a term that is alpha-equivalent to the stored one.  If no
name that is free in the text was defined since then, the definition itself included, then every
identifier can be defined as the text, and what is stored is alpha-equivalent to the old term. -/
theorem RunsTo.let_shown {budget : Budget} {supply : Supply}
    (h : RunsTo { budget, supply } lines (later ++ d :: earlier) s)
    (hlater : ∀ d' ∈ later, d'.name ≠ d.name) :
    ∃ b t captured e supply₀, s.environment.lookupName? d.name = some (b, .thunk t captured) ∧
      captured.Records earlier ∧ (d.value.resolve captured supply₀).1 = .ok t ∧
      (∀ fuel, (s.execute fuel ("show " ++ d.name.text)).map Reply.output =
        .ok (render t captured ++ "\n")) ∧
      Expression.parse (render t captured) = .ok e ∧
      (∀ supply', ∃ t', (e.resolve captured supply').1 = .ok t' ∧ t'.alphaEquiv t = true) ∧
      ((∀ d' ∈ d :: later, ¬ e.IsFree d'.name) → ∀ m, m.isIdentifier = true → ∀ fuel,
        ∃ reply c u, s.execute fuel (letLine m [] (render t captured)) = .ok reply ∧
          reply.output = "" ∧
          s.definition? (letLine m [] (render t captured)) = some ⟨m, [], e⟩ ∧
          c.name = m ∧
          reply.session.environment = s.environment.extend c (.thunk u s.environment) ∧
          u.alphaEquiv t = true) := by
  have hs := h.invariant (invariant_start budget supply)
  obtain ⟨b, t, captured, supply₀, hlookup, hcaptured, hresolve, hsame⟩ :=
    hs.records.exists_lookupName? hlater
  have hd : d ∈ later ++ d :: earlier := List.mem_append_right later List.mem_cons_self
  have hapart := Environment.namedApart_of_resolve hresolve
  have hnewest : ∀ c, t.IsFree c → captured.newest? c.name = some c :=
    fun c hc => Expression.newest?_of_resolve hresolve hc
  have hnames : ∀ c, t.Mentions c → c.name.isIdentifier = true := fun c hc =>
    Expression.names_of_resolve (P := fun n => n.isIdentifier = true) hresolve
      (h.isIdentifier_value d hd) hc
  have hparse : Expression.parse (render t captured) = .ok (t.display captured.freeNames) :=
    hapart.parse_display hnames
  refine ⟨b, t, captured, _, supply₀, hlookup, hcaptured, hresolve, ?_, hparse, ?_, ?_⟩
  · intro fuel
    rw [output_show (h.isIdentifier d hd), hlookup]
    rfl
  · intro supply'
    obtain ⟨t', rest, ht', halpha⟩ := hapart.exists_resolve_display hnewest supply'
    exact ⟨t', congrArg Prod.fst ht', halpha⟩
  · intro hfree m hm fuel
    have hnewest' : ∀ c, t.IsFree c → s.environment.newest? c.name = some c := by
      intro c hc
      have hold : ∀ d' ∈ d :: later, d'.name ≠ c.name := by
        intro d' hd' hname
        exact hfree d' hd' (hname ▸ hapart.isFree_display hc)
      rw [Environment.newest?, hsame c.name hold]
      exact hnewest c hc
    obtain ⟨u, rest, hu, halpha⟩ := hapart.exists_resolve_display hnewest' s.supply
    have hidentifier : ∀ n ∈ [m], n.isIdentifier = true := List.forall_mem_singleton.mpr hm
    obtain ⟨hexecute, hdefinition⟩ := execute_letLine hidentifier hparse hu fuel
    exact ⟨_, _, u, hexecute, rfl, hdefinition, rfl, rfl, halpha⟩

def definedInBetween : Session where
  environment := .thunk ⟨4, ⟨"y"⟩⟩ (.var ⟨3, ⟨"d"⟩⟩) definedWithOther.environment
    definedWithOther.environment
  supply := ⟨5⟩

/-- What is shown for `d` uses the name `x`, which was not defined since then, and so `x` itself can
be defined as the text. -/
theorem let_shown_of_definedInBetween :
    RunsTo {} ["let x y = y", "let d = x x", "let y = d"]
      [⟨⟨"y"⟩, [], .var ⟨"d"⟩⟩, ⟨⟨"d"⟩, [], .app (.var ⟨"x"⟩) (.var ⟨"x"⟩)⟩,
        ⟨⟨"x"⟩, [⟨"y"⟩], .var ⟨"y"⟩⟩] definedInBetween ∧
    (∀ fuel, (definedInBetween.execute fuel "show d").map Reply.output = .ok "x x\n") ∧
    ∀ fuel, ∃ reply c u, definedInBetween.execute fuel "let x = x x" = .ok reply ∧
      c.name = ⟨"x"⟩ ∧ reply.session.environment =
        definedInBetween.environment.extend c (.thunk u definedInBetween.environment) ∧
      u.alphaEquiv (.app (.var ⟨2, ⟨"x"⟩⟩) (.var ⟨2, ⟨"x"⟩⟩)) = true := by
  have hread₁ : readDefinition "x y = y" = .ok ⟨⟨"x"⟩, [⟨"y"⟩], .var ⟨"y"⟩⟩ := rfl
  have hread₂ : readDefinition "d = x x" = .ok ⟨⟨"d"⟩, [], .app (.var ⟨"x"⟩) (.var ⟨"x"⟩)⟩ := rfl
  have hread₃ : readDefinition "y = d" = .ok ⟨⟨"y"⟩, [], .var ⟨"d"⟩⟩ := rfl
  have hfirst : Session.define {} "x y = y" = (definedOnce, .ok ()) := by
    rw [define, hread₁]
    simp only [Expression.resolve_eq_resolveIn]
    rfl
  have hsecond : definedOnce.define "d = x x" = (definedWithOther, .ok ()) := by
    rw [define, hread₂]
    simp only [Expression.resolve_eq_resolveIn]
    rfl
  have hthird : definedWithOther.define "y = d" = (definedInBetween, .ok ()) := by
    rw [define, hread₃]
    simp only [Expression.resolve_eq_resolveIn]
    rfl
  have hruns : RunsTo {} ["let x y = y", "let d = x x", "let y = d"]
      ([⟨⟨"y"⟩, [], .var ⟨"d"⟩⟩] ++ ⟨⟨"d"⟩, [], .app (.var ⟨"x"⟩) (.var ⟨"x"⟩)⟩ ::
        [⟨⟨"x"⟩, [⟨"y"⟩], .var ⟨"y"⟩⟩]) definedInBetween :=
    ((RunsTo.start.define rfl hread₁ hfirst).define rfl hread₂ hsecond).define rfl hread₃ hthird
  have hlater : ∀ d' ∈ [Definition.mk ⟨"y"⟩ [] (.var ⟨"d"⟩)], d'.name ≠ ⟨"d"⟩ := by decide
  obtain ⟨b, t, captured, e, supply₀, hlookup, -, hresolve, hshow, hparse, -, hlet⟩ :=
    RunsTo.let_shown hruns hlater
  have hfound : definedInBetween.environment.lookupName? ⟨"d"⟩ = some (⟨3, ⟨"d"⟩⟩,
      .thunk (.app (.var ⟨2, ⟨"x"⟩⟩) (.var ⟨2, ⟨"x"⟩⟩)) definedOnce.environment) := rfl
  cases hfound.symm.trans hlookup
  have hrender : render (.app (.var ⟨2, ⟨"x"⟩⟩) (.var ⟨2, ⟨"x"⟩⟩)) definedOnce.environment =
      "x x" := by
    obtain ⟨shown, hshown, hdisplay⟩ := (Environment.namedApart_of_resolve hresolve).display_eq
    rw [render, hdisplay]
    simp [BoundTerm.displayIn, hshown, Expression.source, Expression.tokens,
      Expression.tokensOnto, Slot.whole, Slot.function, Token.spell, Token.spellOnto, Token.text,
      Token.isIdent]
  rw [hrender] at hshow hparse hlet
  have he : Expression.parse "x x" = .ok (.app (.var ⟨"x"⟩) (.var ⟨"x"⟩)) := rfl
  cases he.symm.trans hparse
  have hfree : ∀ d' ∈ [Definition.mk ⟨"d"⟩ [] (.app (.var ⟨"x"⟩) (.var ⟨"x"⟩)),
      ⟨⟨"y"⟩, [], .var ⟨"d"⟩⟩],
      ¬ (Term.app (.var (Name.mk "x")) (.var ⟨"x"⟩)).IsFree d'.name := by
    simp [Term.IsFree]
  refine ⟨hruns, hshow, fun fuel => ?_⟩
  obtain ⟨reply, c, u, hexecute, -, -, hname, hsession, halpha⟩ := hlet hfree ⟨"x"⟩ rfl fuel
  exact ⟨reply, c, u, hexecute, hname, hsession, halpha⟩

end UntypedLambda.Shell.Session
