import UntypedLambda.Proofs.LexicalScope
import UntypedLambda.Proofs.NormalTerms
import UntypedLambda.Proofs.SessionInvariant
import UntypedLambda.Proofs.SourceRoundTrip

namespace UntypedLambda

namespace Expression

/-- Looking at the places of an expression is enough to see that no parameter hides a name. -/
theorem unshadowed_iff {used scope : List Name} {e : Expression} :
    e.Unshadowed (scope ++ used) ↔
      ∀ inner n, .lam inner n ∈ e.places scope → n ∉ inner ∧ n ∉ used := by
  induction e generalizing scope with
  | var n => simp [Unshadowed, Term.places]
  | app e a ihe iha =>
    rw [Unshadowed, ihe, iha, Term.places]
    constructor
    · rintro ⟨he, ha⟩ inner n hmem
      exact (List.mem_append.mp hmem).elim (he inner n) (ha inner n)
    · intro h
      exact ⟨fun inner n hmem => h inner n (List.mem_append_left _ hmem),
        fun inner n hmem => h inner n (List.mem_append_right _ hmem)⟩
  | lam m e ih =>
    rw [Unshadowed, ← List.cons_append, ih, Term.places, List.mem_append, not_or]
    constructor
    · rintro ⟨hm, he⟩ inner n hmem
      rcases List.mem_cons.mp hmem with heq | hmem
      · cases heq
        exact hm
      · exact he inner n hmem
    · intro h
      exact ⟨h scope m List.mem_cons_self,
        fun inner n hmem => h inner n (List.mem_cons_of_mem _ hmem)⟩

variable {env : Environment} {supply rest : Supply} {e : Expression} {t : BoundTerm} {n : Name}

theorem Means.places_eq (h : Means env [] supply rest e t) :
    e.places [] = (t.places []).map (Place.map Binder.name) := by
  rw [← Term.places_map, h.names, List.map_nil]

/-- The free names of an expression are those of the free binders of its meaning. -/
theorem Means.isFree_iff (h : Means env [] supply rest e t) :
    e.IsFree n ↔ ∃ b, t.IsFree b ∧ b.name = n := by
  simp only [Term.isFree_iff_exists_place, h.places_eq, List.mem_map]
  constructor
  · rintro ⟨scope, ⟨place, hplace, heq⟩, hn⟩
    cases place with
    | lam cs b => cases heq
    | var cs b =>
      cases heq
      exact ⟨b, ⟨cs, hplace, fun hb => hn (List.mem_map_of_mem hb)⟩, rfl⟩
  · rintro ⟨b, ⟨cs, hplace, hb⟩, rfl⟩
    refine ⟨cs.map Binder.name, ⟨.var cs b, hplace, rfl⟩, ?_⟩
    intro hname
    obtain ⟨c, hc, hcb⟩ := List.mem_map.mp hname
    have hfind := h.refers cs b hplace
    have hsome : (cs.find? fun c => c.name = b.name).isSome := by
      rw [List.find?_isSome]
      exact ⟨c, hc, by simpa using hcb⟩
    obtain ⟨d, hd⟩ := Option.isSome_iff_exists.mp hsome
    rw [List.find?_append, hd, Option.some_or] at hfind
    cases hfind
    exact hb (List.mem_of_find?_eq_some hd)

/-- A resolved expression is shown as it was written exactly when no parameter hides a name. -/
theorem display_eq_iff (h : e.resolve env supply = (.ok t, rest)) :
    t.display env.freeNames = e ↔
      ∀ scope n, .lam scope n ∈ e.places [] → n ∉ scope ∧ ¬ e.IsFree n := by
  have hmeans := means_of_resolve h
  have happart := Environment.namedApart_of_resolve (congrArg Prod.fst h)
  obtain ⟨shown, used, hshown, hused, hdisplays⟩ :=
    BoundTerm.exists_displays_display (fun _ => happart.getD_eq) happart.distinct
  have hfree (n : Name) : n ∈ used ↔ e.IsFree n := (hused n).trans hmeans.isFree_iff.symm
  have hunshadowed : e.Unshadowed used ↔
      ∀ scope n, .lam scope n ∈ e.places [] → n ∉ scope ∧ ¬ e.IsFree n := by
    rw [← List.nil_append used, unshadowed_iff]
    simp only [hfree]
  rw [← hunshadowed]
  constructor
  · intro heq
    exact heq ▸ hdisplays.unshadowed
  · intro hkept
    rw [← hmeans.names] at hkept
    rw [hdisplays.eq_map_name (fun b hb => (hshown b b.name).mpr ⟨hb, rfl⟩) hkept, hmeans.names]

/-- What a resolved expression is shown as hides no name. -/
theorem display_apart (h : e.resolve env supply = (.ok t, rest)) {scope : List Name} {n : Name}
    (hn : .lam scope n ∈ (t.display env.freeNames).places []) :
    n ∉ scope ∧ ∀ b, t.IsFree b → b.name ≠ n := by
  have happart := Environment.namedApart_of_resolve (congrArg Prod.fst h)
  obtain ⟨shown, used, -, hused, hdisplays⟩ :=
    BoundTerm.exists_displays_display (fun _ => happart.getD_eq) happart.distinct
  have hunshadowed := hdisplays.unshadowed
  rw [← List.nil_append used, unshadowed_iff] at hunshadowed
  obtain ⟨hscope, hnot⟩ := hunshadowed scope n hn
  exact ⟨hscope, fun b hb heq => hnot ((hused n).mpr ⟨b, hb, heq⟩)⟩

/-- A resolved expression is shown by its own names exactly when no parameter has the name of a
parameter around it or a name that is free in the expression.  Whether it is or not, what it is
shown as can be resolved, and the outcome is shown as the same again. -/
theorem display_keepsNames (h : e.resolve env supply = (.ok t, rest)) :
    (t.display env.freeNames = e ↔
      ∀ scope n, .lam scope n ∈ e.places [] → n ∉ scope ∧ ¬ e.IsFree n) ∧
    ∀ supply', ∃ u rest', (t.display env.freeNames).resolve env supply' = (.ok u, rest') ∧
      u.display env.freeNames = t.display env.freeNames := by
  refine ⟨display_eq_iff h, fun supply' => ?_⟩
  have happart := Environment.namedApart_of_resolve (congrArg Prod.fst h)
  obtain ⟨u, rest', hu, halpha⟩ := happart.exists_resolve_display
    (fun b hb => newest?_of_resolve (congrArg Prod.fst h) hb) supply'
  refine ⟨u, rest', hu, (display_eq_iff hu).mpr fun scope n hn => ?_⟩
  obtain ⟨hscope, hfree⟩ := display_apart h hn
  refine ⟨hscope, fun hn => ?_⟩
  obtain ⟨b, hb, rfl⟩ := (means_of_resolve hu).isFree_iff.mp hn
  exact hfree b (BoundTerm.isFree_of_alphaEquiv halpha hb) rfl

def numberedParameter : Expression :=
  .app (.app (.var ⟨"y"⟩) (.lam ⟨"x"⟩ (.lam ⟨"x0"⟩ (.app (.var ⟨"x0"⟩) (.var ⟨"x"⟩)))))
    (.lam ⟨"x"⟩ (.app (.var ⟨"x"⟩) (.var ⟨"y"⟩)))

def hidingFree : Expression :=
  .app (.lam ⟨"y"⟩ (.var ⟨"y"⟩)) (.var ⟨"y"⟩)

theorem display_keepsNames_of_numberedParameter :
    let y : Binder := ⟨2, ⟨"y"⟩⟩
    let env : Environment := .value y y (.value ⟨1, ⟨"y"⟩⟩ ⟨1, ⟨"y"⟩⟩ .empty)
    let t : BoundTerm := .app (.app (.var y) (.lam ⟨3, ⟨"x"⟩⟩ (.lam ⟨4, ⟨"x0"⟩⟩
      (.app (.var ⟨4, ⟨"x0"⟩⟩) (.var ⟨3, ⟨"x"⟩⟩)))))
        (.lam ⟨5, ⟨"x"⟩⟩ (.app (.var ⟨5, ⟨"x"⟩⟩) (.var y)))
    let u : BoundTerm := .app (.lam ⟨3, ⟨"y"⟩⟩ (.var ⟨3, ⟨"y"⟩⟩)) (.var y)
    numberedParameter.resolve env ⟨3⟩ = (.ok t, ⟨6⟩) ∧ t.display env.freeNames = numberedParameter ∧
    hidingFree.resolve env ⟨3⟩ = (.ok u, ⟨4⟩) ∧ u.display env.freeNames ≠ hidingFree ∧
    ∃ v rest, (u.display env.freeNames).resolve env ⟨4⟩ = (.ok v, rest) ∧
      v.display env.freeNames = u.display env.freeNames := by
  intro y env t u
  have ht : numberedParameter.resolve env ⟨3⟩ = (.ok t, ⟨6⟩) := by
    rw [resolve_eq_resolveIn]
    rfl
  have hu : hidingFree.resolve env ⟨3⟩ = (.ok u, ⟨4⟩) := by
    rw [resolve_eq_resolveIn]
    rfl
  obtain ⟨hnumbered, -⟩ := display_keepsNames ht
  obtain ⟨hhiding, hagain⟩ := display_keepsNames hu
  refine ⟨ht, hnumbered.mpr fun scope n hn => ?_, hu, fun heq => ?_, hagain ⟨4⟩⟩
  · simp only [numberedParameter, Term.places, List.cons_append, List.nil_append, List.mem_cons,
      Place.lam.injEq, reduceCtorEq, false_or, List.not_mem_nil, or_false] at hn
    rcases hn with ⟨rfl, rfl⟩ | ⟨rfl, rfl⟩ | ⟨rfl, rfl⟩ <;>
      simp [numberedParameter, Term.IsFree]
  · exact (hhiding.mp heq [] ⟨"y"⟩ List.mem_cons_self).2 (.inr rfl)

end Expression

end UntypedLambda
