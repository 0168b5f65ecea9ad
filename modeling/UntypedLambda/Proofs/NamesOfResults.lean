import UntypedLambda.Proofs.Redefinition
import UntypedLambda.Proofs.SourceRoundTrip

namespace UntypedLambda

variable {P : Name → Prop}

theorem Term.Related.exists_of_mentions {ν μ : Type} {R : ν → μ → Prop} {t : Term ν} {u : Term μ}
    (h : t.Related R u) {x : ν} (hx : t.Mentions x) : ∃ y, R x y := by
  induction h with
  | @var _ y hxy =>
    cases hx
    exact ⟨y, hxy⟩
  | app _ _ iht ihs => exact hx.elim iht ihs
  | @lam _ y _ _ hxy _ ih =>
    rcases hx with rfl | hx
    · exact ⟨y, hxy⟩
    · exact ih hx

/-- What holds of all names in a term, in the terms of its environment and of the values there holds
of the names in its normal form. -/
theorem Reducer.names_of_normalize {r : Reducer} {fuel : Nat} {t normal : BoundTerm}
    {env : Environment} {supply : Supply} (hcovers : env.Covers t) (hscoped : env.WellScoped)
    (ht : ∀ b, t.Mentions b → P b.name)
    (hterms : ∀ u b, env.HasTerm u → u.Mentions b → P b.name)
    (hvalues : ∀ b, env.HasValue b → P b.name)
    (h : (r.normalize fuel t env supply).result = .ok normal) {b : Binder}
    (hb : normal.Mentions b) : P b.name := by
  -- A reduction is in lockstep with itself, and binders are related to themselves if `P` holds.
  have halike : t.Alike (fun n _ => P n)
      (env.Corresponds (fun n _ => P n) (fun b _ => P b.name) env) t := by
    apply BoundTerm.alike_self ht
    intro c hc
    obtain ⟨x, hx⟩ := Option.isSome_iff_exists.mp (hcovers c hc)
    exact ⟨x, x, hx, hx, Environment.alike_of_lookup? hterms hscoped hvalues hx⟩
  have hsupply : supply.Alike (fun n _ => P n) (fun b _ => P b.name) supply :=
    fun _ _ _ hn => hn
  have hagree := Reducer.normalize_alike halike hsupply fuel r
  rw [h] at hagree
  cases hagree with
  | ok hrelated =>
    obtain ⟨-, hname⟩ := hrelated.exists_of_mentions hb
    exact hname

namespace Definition

theorem mem_of_readParameters {ts rest : List Token} {seen parameters : List Name}
    (h : readParameters ts seen = .ok (parameters, rest)) :
    (∀ n ∈ parameters, n ∈ seen ∨ .ident n ∈ ts) ∧ ∀ n, .ident n ∈ rest → .ident n ∈ ts := by
  induction ts, seen using readParameters.induct with
  | case1 seen parameter ts ih =>
    rw [readParameters] at h
    obtain ⟨hparameters, hrest⟩ := ih h
    constructor
    · intro n hn
      simpa [or_assoc, or_comm, or_left_comm] using hparameters n hn
    · intro n hn
      exact List.mem_cons_of_mem _ (hrest n hn)
  | case2 seen ts =>
    cases h
    constructor
    · intro n hn
      exact .inl (List.mem_reverse.mp hn)
    · intro n hn
      exact List.mem_cons_of_mem _ hn
  | case3 ts seen hident hequal =>
    rw [readParameters] at h
    · cases h
    · exact hident
    · exact hequal

theorem mem_of_ofTokens {ts : List Token} {d : Definition} (h : ofTokens ts = .ok d) {n : Name}
    (hn : d.value.Mentions n) : .ident n ∈ ts := by
  rw [ofTokens.eq_def] at h
  split at h
  · next name tokens =>
    obtain ⟨⟨parameters, rest⟩, hparameters, hvalue⟩ := bind_eq_ok_iff.mp h
    obtain ⟨body, hbody, hd⟩ := bind_eq_ok_iff.mp hvalue
    cases hd
    obtain ⟨hseen, hrest⟩ := mem_of_readParameters hparameters
    rcases Term.mentions_lams.mp hn with hn | hn
    · rcases hseen n hn with hnil | hmem
      · cases hnil
      · exact List.mem_cons_of_mem _ hmem
    · exact List.mem_cons_of_mem _ (hrest n (Expression.mem_of_ofTokens hbody hn))
  · cases h

theorem isIdentifier_value_of_parse {source : String} {d : Definition}
    (h : parse source = .ok d) {n : Name} (hn : d.value.Mentions n) : n.isIdentifier = true := by
  obtain ⟨ts, hscan, htokens⟩ := bind_eq_ok_iff.mp h
  exact Token.isWritable_of_scan (Token.parse_eq_ok_iff.mp hscan) _ (mem_of_ofTokens htokens hn)

end Definition

theorem Expression.names_of_resolve {e : Expression} {env : Environment} {supply : Supply}
    {t : BoundTerm} (h : (e.resolve env supply).1 = .ok t) (he : ∀ n, e.Mentions n → P n)
    {b : Binder} (hb : t.Mentions b) : P b.name :=
  he b.name (map_name_of_resolve h ▸ hb.map Binder.name)

theorem Environment.Records.names {env : Environment} {made : List Definition}
    (h : env.Records made) (hmade : ∀ d ∈ made, ∀ n, d.value.Mentions n → P n) {t : BoundTerm}
    (ht : env.HasTerm t) {b : Binder} (hb : t.Mentions b) : P b.name := by
  induction h with
  | empty => cases ht
  | @define made env d _ _ _ _ hresolve _ ih =>
    have hold := ih fun d' hd' => hmade d' (List.mem_cons_of_mem d hd')
    rcases ht with rfl | ht | ht
    · exact Expression.names_of_resolve hresolve (hmade d List.mem_cons_self) hb
    · exact hold ht
    · exact hold ht

namespace Shell.Session

variable {s : Session} {made : List Definition} {lines : List String}

/-- Every name in a definition was read from a text, so it can be written. -/
theorem RunsTo.isIdentifier_value {start : Session} (h : RunsTo start lines made s) :
    ∀ d ∈ made, ∀ n, d.value.Mentions n → n.isIdentifier = true := by
  intro d hd n hn
  obtain ⟨source, hsource⟩ := h.exists_parse d hd
  exact Definition.isIdentifier_value_of_parse hsource hn

/-- Every name in a normal form that a session finds can be written. -/
theorem RunsTo.isIdentifier_of_normalize {budget : Budget} {supply : Supply}
    (h : RunsTo { budget, supply } lines made s) {argument : String} {e : Expression}
    {t normal : BoundTerm} {r : Reducer} {fuel : Nat} {rest : Supply}
    (hparse : Expression.parse argument = .ok e)
    (hresolve : (e.resolve s.environment s.supply).1 = .ok t)
    (hnormal : (r.normalize fuel t s.environment rest).result = .ok normal) {b : Binder}
    (hb : normal.Mentions b) : b.name.isIdentifier = true := by
  have hrecords := (h.invariant (invariant_start budget supply)).records
  refine Reducer.names_of_normalize (P := fun n => n.isIdentifier = true)
    (Environment.covers_of_resolve hresolve) hrecords.wellScoped ?_ ?_ ?_ hnormal hb
  · intro c hc
    exact Expression.names_of_resolve (P := fun n => n.isIdentifier = true) hresolve
      (fun n hn => Expression.isIdentifier_of_parse hparse hn) hc
  · intro u c hu hc
    exact hrecords.names (P := fun n => n.isIdentifier = true) h.isIdentifier_value hu hc
  · intro c hc
    exact absurd hc (hrecords.not_hasValue c)

end Shell.Session

end UntypedLambda
