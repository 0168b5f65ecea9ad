import UntypedLambda.Proofs.NamesOfResults
import UntypedLambda.Proofs.NormalTerms

namespace UntypedLambda

namespace BoundTerm

variable {t : BoundTerm} (ht : ∀ b, ¬ t.IsFree b)
include ht

/-- A term without free variables is read from its text by the names that it is shown with. -/
theorem parse_display (hnames : ∀ b, t.Mentions b → b.name.isIdentifier = true)
    (freeNames : Std.HashMap Binder Name) :
    Expression.parse (t.display freeNames).source = .ok (t.display freeNames) :=
  (namedApart_of_closed ht freeNames).parse_display hnames

/-- No name in its text means a definition, so it means the same in every environment. -/
theorem exists_resolve_display (freeNames : Std.HashMap Binder Name) (env : Environment)
    (supply : Supply) :
    ∃ u rest, (t.display freeNames).resolve env supply = (.ok u, rest) ∧
      u.alphaEquiv t = true :=
  (namedApart_of_closed ht freeNames).exists_resolve_display (fun b hb => absurd hb (ht b)) supply

theorem closed_of_alphaEquiv {u : BoundTerm} (h : u.alphaEquiv t = true) (b : Binder) :
    ¬ u.IsFree b :=
  fun hb => ht b (isFree_of_alphaEquiv h hb)

end BoundTerm

namespace Shell.Session

variable {s : Session} {made : List Definition} {lines : List String}

/-- A session evaluates the text of a normal form without free variables to the same text, whatever
its definitions and its budget are. -/
theorem Invariant.output_display (hs : s.Invariant made) {t : BoundTerm}
    (hclosed : ∀ b, ¬ t.IsFree b) (ht : t.IsNormal)
    (hnames : ∀ b, t.Mentions b → b.name.isIdentifier = true)
    (freeNames : Std.HashMap Binder Name) :
    ∃ fuel, ∀ more, fuel ≤ more →
      (s.execute more ("eval " ++ (t.display freeNames).source)).map Reply.output =
        .ok ((t.display freeNames).source ++ "\n") := by
  have hparse := BoundTerm.parse_display hclosed hnames freeNames
  obtain ⟨u, rest, hresolve, halpha⟩ :=
    BoundTerm.exists_resolve_display hclosed freeNames s.environment s.supply
  have huclosed := BoundTerm.closed_of_alphaEquiv hclosed halpha
  obtain ⟨normal, hnormal, hsame⟩ := Reducer.exists_normalizes_zero
    (BoundTerm.isNormal_of_alphaEquiv halpha ht)
    (Environment.renames_of_closed huclosed s.environment) rest
  have hnclosed := hs.closed_of_normalizes hnormal
  have hnormalnames : normal.map Binder.name = t.display freeNames := by
    rw [hsame, Expression.map_name_of_resolve (congrArg Prod.fst hresolve)]
  have hunshadowed : Expression.Unshadowed [] (normal.map Binder.name) :=
    hnormalnames ▸ (BoundTerm.displays_of_closed hclosed freeNames).unshadowed
  have hdisplay : normal.display s.environment.freeNames = t.display freeNames :=
    (BoundTerm.display_eq_map_name hnclosed hunshadowed _).trans hnormalnames
  have hzero : s.budget.Permits 0 := fun n _ => Nat.zero_le _
  obtain ⟨fuel, hfuel⟩ := hnormal.exists_result hzero
  refine ⟨fuel, fun more hle => ?_⟩
  rw [output_eval_of_parse hparse hresolve, reduction, hfuel more hle, answer, render, hdisplay]
  rfl

/-- What `eval` prints is a fixed point.  If a line of a session prints a normal form, its text is
read without any definitions as a normal term without free variables that is alpha-equivalent to the
normal form, and every session prints the text for itself, under every budget. -/
theorem RunsTo.eval_fixed {budget : Budget} {supply : Supply}
    (h : RunsTo { budget, supply } lines made s) {fuel : Nat} {line argument text : String}
    {s₁ : Session} (hline : Command.ofLine? line = some (.evaluate argument))
    (hevaluate : s.evaluate fuel argument = .ok (s₁, .ok text)) :
    (s.execute fuel line).map Reply.output = .ok (text ++ "\n") ∧
    ∃ e t rest normal, Expression.parse argument = .ok e ∧
      e.resolve s.environment s.supply = (.ok t, rest) ∧
      (s.reduction fuel t rest).result = .ok normal ∧
      (∀ supply', ∃ e' t', Expression.parse text = .ok e' ∧
        (e'.resolve .empty supply').1 = .ok t' ∧ (∀ b, ¬ t'.IsFree b) ∧ t'.IsNormal ∧
        t'.alphaEquiv normal = true) ∧
      ∀ budget' supply' lines' made' s',
        RunsTo { budget := budget', supply := supply' } lines' made' s' →
        ∃ fuel', ∀ more, fuel' ≤ more →
          (s'.execute more ("eval " ++ text)).map Reply.output = .ok (text ++ "\n") := by
  have hs := h.invariant (invariant_start budget supply)
  have houtput : (s.execute fuel line).map Reply.output = .ok (text ++ "\n") := by
    rw [execute, hline]
    simp only [perform, hevaluate]
    rfl
  obtain ⟨e, t, rest, normal, hparse, hresolve, hnormal, rfl⟩ :=
    exists_of_evaluate_eq_text hevaluate
  have hresolve' : (e.resolve s.environment s.supply).1 = .ok t := by rw [hresolve]
  have hclosed := hs.closed hnormal
  have hnames : ∀ b, normal.Mentions b → b.name.isIdentifier = true := fun b hb =>
    h.isIdentifier_of_normalize hparse hresolve' hnormal hb
  obtain ⟨k, -, hnormalizes⟩ := Reducer.exists_normalize_iff.mp ⟨fuel, hnormal⟩
  refine ⟨houtput, e, t, rest, normal, hparse, hresolve, hnormal, ?_, ?_⟩
  · intro supply'
    obtain ⟨u, rest', hu, halpha⟩ :=
      BoundTerm.exists_resolve_display hclosed s.environment.freeNames .empty supply'
    exact ⟨_, u, BoundTerm.parse_display hclosed hnames _, congrArg Prod.fst hu,
      BoundTerm.closed_of_alphaEquiv hclosed halpha,
      BoundTerm.isNormal_of_alphaEquiv halpha hnormalizes.isNormal, halpha⟩
  · intro budget' supply' lines' made' s' h'
    exact (h'.invariant (invariant_start budget' supply')).output_display hclosed
      hnormalizes.isNormal hnames s.environment.freeNames

def hidingParameter : BoundTerm :=
  .lam ⟨5, ⟨"x"⟩⟩ (.lam ⟨6, ⟨"x"⟩⟩ (.var ⟨6, ⟨"x"⟩⟩))

theorem source_display_hidingParameter (freeNames : Std.HashMap Binder Name) :
    (hidingParameter.display freeNames).source = "\\x x0.x0" := by
  have hclosed : ∀ b, ¬ hidingParameter.IsFree b := by
    rintro b ⟨-, hne, heq⟩
    exact hne heq
  have hnumbered : Name.numbered ⟨"x"⟩ 0 = ⟨"x0"⟩ := rfl
  let shown : Expression := .lam ⟨"x"⟩ (.lam ⟨"x0"⟩ (.var ⟨"x0"⟩))
  have hevents : (DisplayWalk.start hidingParameter freeNames).run hidingParameter.events [] =
      shown.events := by
    rw [BoundTerm.start_of_closed hclosed]
    simp [hidingParameter, shown, hnumbered, DisplayWalk.run, DisplayWalk.next, DisplayWalk.enter,
      DisplayWalk.leave, NamePool.draw, NamePool.isTaken, NamePool.occupy, NamePool.firstFree,
      Std.HashMap.size_insert]
  rw [BoundTerm.display_eq_of_run hevents]
  simp [shown, Expression.source, Expression.tokens, Expression.tokensOnto, Term.stripLams,
    Slot.whole, Token.spell, Token.spellOnto, Token.text, Token.isIdent]

/-- The text is printed again after its name `x` is redefined, and without any beta step. -/
theorem eval_fixed_of_hidingParameter :
    RunsTo {} ["let x y = y"] [⟨⟨"x"⟩, [⟨"y"⟩], .var ⟨"y"⟩⟩] definedOnce ∧
    Command.ofLine? "eval x (\\x x. x)" = some (.evaluate "x (\\x x. x)") ∧
    definedOnce.evaluate 20 "x (\\x x. x)" =
      .ok ({ definedOnce with supply := ⟨7⟩ }, .ok "\\x x0.x0") ∧
    (∃ fuel, ∀ more, fuel ≤ more →
      (definedTwice.execute more "eval \\x x0.x0").map Reply.output = .ok "\\x x0.x0\n") ∧
    ∃ fuel, ∀ more, fuel ≤ more →
      (execute more { budget := .limited 0 } "eval \\x x0.x0").map Reply.output =
        .ok "\\x x0.x0\n" := by
  have hread₁ : readDefinition "x y = y" = .ok ⟨⟨"x"⟩, [⟨"y"⟩], .var ⟨"y"⟩⟩ := rfl
  have hread₂ : readDefinition "x = x x" = .ok ⟨⟨"x"⟩, [], .app (.var ⟨"x"⟩) (.var ⟨"x"⟩)⟩ := rfl
  have hfirst : Session.define {} "x y = y" = (definedOnce, .ok ()) := by
    rw [define, hread₁]
    simp only [Expression.resolve_eq_resolveIn]
    rfl
  have hsecond : definedOnce.define "x = x x" = (definedTwice, .ok ()) := by
    rw [define, hread₂]
    simp only [Expression.resolve_eq_resolveIn]
    rfl
  have hruns : RunsTo {} ["let x y = y"] [⟨⟨"x"⟩, [⟨"y"⟩], .var ⟨"y"⟩⟩] definedOnce :=
    RunsTo.start.define rfl hread₁ hfirst
  have hline : Command.ofLine? "eval x (\\x x. x)" = some (.evaluate "x (\\x x. x)") := rfl
  have hevaluate : definedOnce.evaluate 20 "x (\\x x. x)" =
      .ok ({ definedOnce with supply := ⟨7⟩ }, .ok "\\x x0.x0") := by
    have hparse : Expression.parse "x (\\x x. x)" =
        .ok (.app (.var ⟨"x"⟩) (.lam ⟨"x"⟩ (.lam ⟨"x"⟩ (.var ⟨"x"⟩)))) := rfl
    have hresolve : Expression.resolve (.app (.var ⟨"x"⟩) (.lam ⟨"x"⟩ (.lam ⟨"x"⟩ (.var ⟨"x"⟩))))
        definedOnce.environment definedOnce.supply = (.ok (.app (.var ⟨2, ⟨"x"⟩⟩)
          (.lam ⟨3, ⟨"x"⟩⟩ (.lam ⟨4, ⟨"x"⟩⟩ (.var ⟨4, ⟨"x"⟩⟩)))), ⟨5⟩) := by
      rw [Expression.resolve_eq_resolveIn]
      rfl
    rw [evaluate_of_resolve 20 hparse hresolve,
      ← source_display_hidingParameter definedOnce.environment.freeNames]
    rfl
  obtain ⟨-, -, -, -, -, -, -, -, -, hprints⟩ := RunsTo.eval_fixed hruns hline hevaluate
  have hredefined := hprints .unbounded {} ["let x y = y", "let x = x x"] _ _
    (hruns.define rfl hread₂ hsecond)
  have hfresh := hprints (.limited 0) {} [] [] _ .start
  exact ⟨hruns, hline, hevaluate, hredefined, hfresh⟩

end Shell.Session

end UntypedLambda
