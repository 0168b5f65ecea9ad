import UntypedLambda.Term.Event

namespace UntypedLambda.Term

variable {ν : Type} {t s : Term ν} {before after rest rest' : List (Event ν)}
  {e : Event ν}

/-- Events begin with the walk of one term at most. -/
theorem events_append_inj (h : t.events ++ rest = s.events ++ rest') : t = s ∧ rest = rest' := by
  induction t generalizing s rest rest' with
  | var x =>
    cases s with
    | var y => simpa using h
    | _ => simp at h
  | app t u iht ihu =>
    cases s with
    | app t' u' =>
      simp only [events_app, List.cons_append, List.append_assoc, List.cons.injEq, true_and] at h
      obtain ⟨rfl, hargument⟩ := iht h
      obtain ⟨rfl, hclose⟩ := ihu hargument
      exact ⟨rfl, (List.cons.inj hclose).2⟩
    | _ => simp at h
  | lam x b ih =>
    cases s with
    | lam y b' =>
      simp only [events_lam, List.cons_append, List.append_assoc, List.cons.injEq,
        Event.openLam.injEq] at h
      obtain ⟨rfl, hbody⟩ := h
      obtain ⟨rfl, hclose⟩ := ih hbody
      exact ⟨rfl, (List.cons.inj hclose).2⟩
    | _ => simp at h

theorem events_inj : t.events = s.events ↔ t = s := by
  constructor
  · intro h
    rw [← List.append_nil t.events, ← List.append_nil s.events] at h
    exact (events_append_inj h).1
  · intro h
    rw [h]

/-- No walk goes on where the walk of another term ends. -/
theorem events_prefix_iff : t.events <+: s.events ↔ t = s := by
  constructor
  · rintro ⟨rest, h⟩
    rw [← List.append_nil s.events] at h
    exact (events_append_inj h).1
  · rintro rfl
    exact List.prefix_rfl

theorem beq_iff [DecidableEq ν] : (t == s) = true ↔ t = s := by
  have hevents : (t == s) = (t.events == s.events) := rfl
  rw [hevents, beq_iff_eq, events_inj]

namespace Rebuild

variable {r r' : Rebuild ν}

theorem exists_of_feed_closeApp (h : r.feed .closeApp = some r') :
    ∃ argument function built, r.built = argument :: function :: built ∧
      r' = { r with built := app function argument :: built } := by
  rw [feed] at h
  split at h
  · next argument function built hbuilt =>
    exact ⟨argument, function, built, hbuilt, by simpa using h.symm⟩
  · cases h

theorem exists_of_feed_closeLam (h : r.feed .closeLam = some r') :
    ∃ body built x outer, r.built = body :: built ∧ r.parameters = x :: outer ∧
      r' = { built := lam x body :: built, parameters := outer } := by
  rw [feed] at h
  split at h
  · next body built x outer hbuilt hparameters =>
    exact ⟨body, built, x, outer, hbuilt, hparameters, by simpa using h.symm⟩
  · cases h

end Rebuild

/-- Wherever a walk is stopped the term is half put together, and what is left of the walk adds what
is missing. -/
theorem exists_foldlM_feed (h : t.events = before ++ after) :
    ∃ r : Rebuild ν, before.foldlM Rebuild.feed {} = some r ∧
      after.foldlM Rebuild.feed r = some { built := [t] } := by
  have hall := foldlM_feed_events t {}
  rw [h, List.foldlM_append] at hall
  exact Option.bind_eq_some_iff.mp hall

theorem exists_feed (h : t.events = before ++ e :: after) :
    ∃ r r' : Rebuild ν, before.foldlM Rebuild.feed {} = some r ∧ r.feed e = some r' := by
  obtain ⟨r, hbefore, hafter⟩ := exists_foldlM_feed h
  rw [List.foldlM_cons] at hafter
  obtain ⟨r', hfeed, -⟩ := Option.bind_eq_some_iff.mp hafter
  exact ⟨r, r', hbefore, hfeed⟩

/-- Terms are compared by their walks, and that is enough: equal walks come from the same term, and
no walk is a proper beginning of another one.  From its walk a term is put together as it was, and
wherever a node is closed on the way, its parts and its parameter are there. -/
theorem events_determine [DecidableEq ν] :
    (∀ t s : Term ν, ((t == s) = true ↔ t = s) ∧
      (t.events <+: s.events → t.events = s.events)) ∧
    ∀ t : Term ν, ofEvents? t.events = some t ∧
      ∀ before e after, t.events = before ++ e :: after →
        ∃ r, before.foldlM Rebuild.feed {} = some r ∧
          (e = .closeApp → ∃ argument function built, r.built = argument :: function :: built) ∧
          (e = .closeLam → r.built ≠ [] ∧ r.parameters ≠ []) := by
  refine ⟨fun t s => ⟨beq_iff, fun h => events_inj.mpr (events_prefix_iff.mp h)⟩, fun t => ?_⟩
  refine ⟨ofEvents?_events t, fun before e after hsplit => ?_⟩
  obtain ⟨r, r', hbefore, hfeed⟩ := exists_feed hsplit
  refine ⟨r, hbefore, ?_, ?_⟩
  · rintro rfl
    obtain ⟨argument, function, built, hbuilt, -⟩ := Rebuild.exists_of_feed_closeApp hfeed
    exact ⟨argument, function, built, hbuilt⟩
  · rintro rfl
    obtain ⟨body, built, x, outer, hbuilt, hparameters, -⟩ := Rebuild.exists_of_feed_closeLam hfeed
    rw [hbuilt, hparameters]
    exact ⟨List.cons_ne_nil _ _, List.cons_ne_nil _ _⟩

/-- While `(\x.x) y` is put together, its finished parts stand on one stack and the parameter of its
abstraction on the other. -/
theorem events_determine_of_appliedIdentity :
    let t : Term String := .app (.lam "x" (.var "x")) (.var "y")
    let inside : List (Event String) := [.openApp, .openLam "x", .var "x"]
    let behind : List (Event String) := [.openApp, .openLam "x", .var "x", .closeLam, .var "y"]
    t.events = inside ++ .closeLam :: [.var "y", .closeApp] ∧
    (∃ r, inside.foldlM Rebuild.feed {} = some r ∧ r.built ≠ [] ∧ r.parameters ≠ []) ∧
    t.events = behind ++ .closeApp :: [] ∧
    (∃ r, behind.foldlM Rebuild.feed {} = some r ∧
      ∃ argument function built, r.built = argument :: function :: built) ∧
    ofEvents? t.events = some t ∧ (∃ s : Term String, t.events <+: s.events ∧ t.events = s.events) ∧
    (t == .var "x") = false := by
  intro t inside behind
  obtain ⟨hdetermine, hrebuild⟩ := events_determine (ν := String)
  obtain ⟨hagain, hstops⟩ := hrebuild t
  have hevents : t.events = inside ++ .closeLam :: [.var "y", .closeApp] := by simp [t, inside]
  have hevents' : t.events = behind ++ .closeApp :: [] := by simp [t, behind]
  obtain ⟨r, hr, -, hlam⟩ := hstops inside .closeLam _ hevents
  obtain ⟨r', hr', happ, -⟩ := hstops behind .closeApp _ hevents'
  have hother : (t == .var "x") = false := by
    rw [Bool.eq_false_iff]
    intro h
    exact absurd ((hdetermine t (.var "x")).1.mp h) (by simp [t])
  exact ⟨hevents, ⟨r, hr, hlam rfl⟩, hevents', ⟨r', hr', happ rfl⟩, hagain,
    ⟨t, List.prefix_rfl, (hdetermine t t).2 List.prefix_rfl⟩, hother⟩

end UntypedLambda.Term
