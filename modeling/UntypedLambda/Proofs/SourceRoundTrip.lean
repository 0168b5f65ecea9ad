import UntypedLambda.Proofs.Printing
import UntypedLambda.Proofs.Scoping

namespace UntypedLambda

theorem Term.Mentions.map {ν μ : Type} {t : Term ν} {x : ν} (h : t.Mentions x) (f : ν → μ) :
    (t.map f).Mentions (f x) := by
  induction t with
  | var y =>
    have hx : x = y := h
    exact congrArg f hx
  | app t s iht ihs => exact h.imp iht ihs
  | lam y t ih => exact h.imp (congrArg f) ih

theorem Term.IsFree.mentions {ν : Type} {t : Term ν} {x : ν} (h : t.IsFree x) : t.Mentions x := by
  induction t with
  | var y => exact h
  | app t s iht ihs => exact h.imp iht ihs
  | lam y t ih => exact .inr (ih h.2)

/-- Every name in an expression that shows a term can be written if the names of the term can. -/
theorem Displays.isIdentifier {shown : Binder → Option Name} {used : List Name} {t : BoundTerm}
    {e : Expression} (h : Displays shown used t e)
    (hshown : ∀ b n, shown b = some n → n.isIdentifier = true)
    (ht : ∀ b, t.Mentions b → b.name.isIdentifier = true) {n : Name} (hn : e.Mentions n) :
    n.isIdentifier = true := by
  induction h with
  | var hb =>
    cases hn
    exact hshown _ _ hb
  | app _ _ ihe iha =>
    rcases hn with hn | hn
    · exact ihe hshown (fun b hb => ht b (.inl hb)) hn
    · exact iha hshown (fun b hb => ht b (.inr hb)) hn
  | @lam shown used b t m e hm hname _ ih =>
    have hb : b.name.isIdentifier = true := ht b (.inl rfl)
    have hm : m.isIdentifier = true := by
      rcases hname with rfl | ⟨-, i, rfl⟩
      · exact hb
      · exact Name.isIdentifier_numbered hb i
    rcases hn with rfl | hn
    · exact hm
    · refine ih ?_ (fun c hc => ht c (.inr hc)) hn
      intro c k hk
      rcases update_eq_some_iff.mp hk with ⟨-, rfl⟩ | ⟨-, hc⟩
      · exact hm
      · exact hshown c k hc

theorem Environment.getD_freeNames (env : Environment) (b : Binder) :
    env.freeNames.getD b b.name = b.name := by
  have hinsert (names : Std.HashMap Binder Name) (hnames : names.getD b b.name = b.name)
      (c : Binder) : (names.insert c c.name).getD b b.name = b.name := by
    rw [Std.HashMap.getD_insert]
    split
    · next hc => rw [beq_iff_eq.mp hc]
    · exact hnames
  have hfold (names : Std.HashMap Binder Name) (hnames : names.getD b b.name = b.name) :
      (env.foldl (fun names c _ => names.insert c c.name) names).getD b b.name = b.name := by
    induction env generalizing names with
    | empty => exact hnames
    | value c target older ih => exact ih _ (hinsert names hnames c)
    | thunk c t captured older _ ih => exact ih _ (hinsert names hnames c)
  exact hfold ∅ (by simp)

namespace BoundTerm.NamedApart

variable {t : BoundTerm} {freeNames : Std.HashMap Binder Name}

/-- A term whose names can be written is read from its text by the names that it is shown with. -/
theorem parse_display (h : t.NamedApart freeNames)
    (hnames : ∀ b, t.Mentions b → b.name.isIdentifier = true) :
    Expression.parse (t.display freeNames).source = .ok (t.display freeNames) := by
  obtain ⟨shown, used, hshown, hdisplays⟩ := h.displays_display
  apply Expression.parse_source
  intro n hn
  refine hdisplays.isIdentifier ?_ hnames hn
  intro b m hm
  obtain ⟨hb, rfl, -⟩ := hshown b m hm
  exact hnames b hb.mentions

/-- Where the name of each free binder refers to the binder, the text means the term. -/
theorem exists_resolve_display (h : t.NamedApart freeNames) {env : Environment}
    (hnewest : ∀ b, t.IsFree b → env.newest? b.name = some b) (supply : Supply) :
    ∃ u rest, (t.display freeNames).resolve env supply = (.ok u, rest) ∧
      u.alphaEquiv t = true := by
  obtain ⟨shown, used, hshown, hdisplays⟩ := h.displays_display
  have hmeaning : (t.display freeNames).nameless? env.newest? [] = some (t.nameless []) := by
    rw [nameless_eq_replace]
    apply hdisplays.nameless?_eq
    intro b n hn
    obtain ⟨hb, rfl, hused⟩ := hshown b n hn
    refine ⟨hused, ?_⟩
    rw [Expression.meaning?, hnewest b hb]
    rfl
  obtain ⟨u, hu, heq⟩ := Expression.exists_resolve_eq_ok hmeaning supply
  exact ⟨u, _, Prod.ext hu rfl, alphaEquiv_iff.mpr heq⟩

theorem isFree_display (h : t.NamedApart freeNames) {b : Binder} (hb : t.IsFree b) :
    (t.display freeNames).IsFree b.name := by
  obtain ⟨shown, used, hshown, hdisplays⟩ := h.displays_display
  obtain ⟨n, hn, hfree⟩ := hdisplays.exists_isFree (fun c m hm => (hshown c m hm).2.2) hb
  obtain ⟨-, rfl, -⟩ := hshown b n hn
  exact hfree

end BoundTerm.NamedApart

namespace Expression

variable {env : Environment} {e : Expression} {t : BoundTerm} {supply : Supply}

/-- The text of a resolved term can be read and resolved again, and it means the same term. -/
theorem resolve_parse_display {source : String} (hparse : parse source = .ok e)
    (hresolve : (e.resolve env supply).1 = .ok t) (supply' : Supply) :
    ∃ e' t', parse (t.display env.freeNames).source = .ok e' ∧
      (e'.resolve env supply').1 = .ok t' ∧ t'.alphaEquiv t = true := by
  have hwritable : ∀ b, t.Mentions b → b.name.isIdentifier = true := by
    intro b hb
    have hname : e.Mentions b.name := map_name_of_resolve hresolve ▸ hb.map Binder.name
    exact isIdentifier_of_parse hparse hname
  have hne : ∀ b c, t.IsFree b → t.IsFree c → b.name = c.name → b = c := by
    intro b c hb hc hname
    have hb' := newest?_of_resolve hresolve hb
    have hc' := newest?_of_resolve hresolve hc
    rw [hname, hc'] at hb'
    exact (Option.some.inj hb').symm
  obtain ⟨shown, used, hshown, hdisplays⟩ :=
    BoundTerm.displays_display (fun b _ => env.getD_freeNames b) hne
  have hidentifiers : ∀ n, (t.display env.freeNames).Mentions n → n.isIdentifier = true := by
    intro n hn
    refine hdisplays.isIdentifier ?_ hwritable hn
    intro b m hm
    obtain ⟨hb, rfl, -⟩ := hshown b m hm
    exact hwritable b hb.mentions
  have hmeaning : (t.display env.freeNames).nameless? env.newest? [] = some (t.nameless []) := by
    rw [BoundTerm.nameless_eq_replace]
    apply hdisplays.nameless?_eq
    intro b n hn
    obtain ⟨hb, rfl, hused⟩ := hshown b n hn
    refine ⟨hused, ?_⟩
    rw [meaning?, newest?_of_resolve hresolve hb]
    rfl
  obtain ⟨t', ht', heq⟩ := exists_resolve_eq_ok hmeaning supply'
  have hparse' := parse_source hidentifiers
  exact ⟨t.display env.freeNames, t', hparse', ht', BoundTerm.alphaEquiv_iff.mpr heq⟩

def shadowingEnv : Environment :=
  let first := Environment.thunk ⟨1, ⟨"x"⟩⟩ (.lam ⟨2, ⟨"y"⟩⟩ (.var ⟨2, ⟨"y"⟩⟩)) .empty .empty
  let second := Environment.thunk ⟨3, ⟨"x1"⟩⟩ (.var ⟨1, ⟨"x"⟩⟩) first first
  .thunk ⟨4, ⟨"x"⟩⟩ (.var ⟨1, ⟨"x"⟩⟩) second second

def shadowing : Expression :=
  .lam ⟨"x0"⟩ (.app (.var ⟨"x"⟩) (.lam ⟨"x"⟩ (.app (.app (.var ⟨"x"⟩) (.var ⟨"x0"⟩))
    (.lam ⟨"x"⟩ (.app (.var ⟨"x1"⟩) (.var ⟨"x"⟩))))))

def shadowingTerm : BoundTerm :=
  .lam ⟨5, ⟨"x0"⟩⟩ (.app (.var ⟨4, ⟨"x"⟩⟩) (.lam ⟨6, ⟨"x"⟩⟩
    (.app (.app (.var ⟨6, ⟨"x"⟩⟩) (.var ⟨5, ⟨"x0"⟩⟩))
      (.lam ⟨7, ⟨"x"⟩⟩ (.app (.var ⟨3, ⟨"x1"⟩⟩) (.var ⟨7, ⟨"x"⟩⟩))))))

theorem resolve_parse_display_of_shadowing :
    parse "\\x0. x (\\x. x x0 (\\x. x1 x))" = .ok shadowing ∧
    (shadowing.resolve shadowingEnv ⟨5⟩).1 = .ok shadowingTerm ∧
    ∃ e' t', parse (shadowingTerm.display shadowingEnv.freeNames).source = .ok e' ∧
      (e'.resolve shadowingEnv ⟨8⟩).1 = .ok t' ∧ t'.alphaEquiv shadowingTerm = true := by
  have hparse : parse "\\x0. x (\\x. x x0 (\\x. x1 x))" = .ok shadowing := rfl
  have hresolve : (shadowing.resolve shadowingEnv ⟨5⟩).1 = .ok shadowingTerm := by
    rw [resolve_eq_resolveIn]
    rfl
  exact ⟨hparse, hresolve, resolve_parse_display hparse hresolve ⟨8⟩⟩

end Expression

end UntypedLambda
