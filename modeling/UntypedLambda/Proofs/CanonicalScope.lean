import UntypedLambda.Canonical.Nameless
import UntypedLambda.Proofs.EventStreams

namespace UntypedLambda

namespace CanonicalWalk

def entries : List Binder → List (Binder × Option Nat)
  | [] => []
  | b :: outer =>
    (b, (outer.idxOf? b).map fun index => outer.length - 1 - index) :: entries outer

structure Tracks (w : CanonicalWalk) (scope : List Binder) : Prop extends w.Below scope where
  hidden : w.hidden = entries scope

variable {w w' : CanonicalWalk} {scope : List Binder} {b : Binder} {r r' : Term.Rebuild Binder}

theorem tracks_start : Tracks {} [] where
  toBelow := below_start
  hidden := rfl

theorem Tracks.enter (h : w.Tracks scope) (b : Binder) : (w.enter b).Tracks (b :: scope) where
  toBelow := h.toBelow.enter b
  hidden := by rw [CanonicalWalk.enter, h.introduced, h.hidden, entries]

theorem Tracks.leave (h : w.Tracks (b :: scope)) : w.leave.Tracks scope := by
  obtain ⟨hbelow, hhidden⟩ := h.toBelow.leave h.hidden
  exact ⟨hbelow, hhidden⟩

/-- The abstractions that are open for a walk are those whose parameters are kept while the term is
put together. -/
theorem Tracks.next (h : w.Tracks r.parameters) {e : Event Binder} (hfeed : r.feed e = some r') :
    (w.next e).1.Tracks r'.parameters := by
  cases e with
  | var b =>
    cases hfeed
    exact h
  | openApp =>
    cases hfeed
    exact h
  | closeApp =>
    obtain ⟨-, -, -, -, rfl⟩ := Term.Rebuild.exists_of_feed_closeApp hfeed
    exact h
  | openLam b =>
    cases hfeed
    exact h.enter b
  | closeLam =>
    obtain ⟨-, -, b, outer, -, hparameters, rfl⟩ := Term.Rebuild.exists_of_feed_closeLam hfeed
    rw [hparameters] at h
    exact h.leave

theorem Tracks.run {events : List (Event Binder)} {done : List CanonicalToken}
    (h : w.Tracks r.parameters) (hfeed : events.foldlM Term.Rebuild.feed r = some r') :
    (w.run events done).1.Tracks r'.parameters := by
  induction events generalizing w r done with
  | nil =>
    cases hfeed
    exact h
  | cons e events ih =>
    rw [List.foldlM_cons] at hfeed
    obtain ⟨middle, hfirst, hrest⟩ := Option.bind_eq_some_iff.mp hfeed
    exact ih (h.next hfirst) hrest

/-- A subterm that is put together changes none of the parameters that are kept, so behind it the
same abstractions are open as before. -/
theorem Tracks.run_events (h : w.Tracks scope) (t : BoundTerm) (done : List CanonicalToken) :
    (w.run t.events done).1.Tracks scope :=
  Tracks.run (r := { parameters := scope }) h (Term.foldlM_feed_events t _)

theorem Below.lt_depth (h : w.Below scope) {depth : Nat} (hb : w.introduced[b]? = some depth) :
    depth < w.depth := by
  rw [h.introduced] at hb
  obtain ⟨index, hindex, rfl⟩ := Option.map_eq_some_iff.mp hb
  have hlt := idxOf?_lt_length hindex
  rw [h.depth]
  omega

theorem Below.equiv (h : w.Below scope) (h' : w'.Below scope) :
    w'.depth = w.depth ∧ w'.introduced.Equiv w.introduced := by
  refine ⟨h'.depth.trans h.depth.symm, Std.HashMap.Equiv.of_forall_getElem?_eq fun b => ?_⟩
  rw [h.introduced, h'.introduced]

theorem Tracks.leaves (h : w.Tracks (b :: scope)) : 0 < w.depth ∧ w.hidden ≠ [] := by
  rw [h.depth, h.hidden, entries]
  exact ⟨Nat.zero_lt_succ _, List.cons_ne_nil _ _⟩

end CanonicalWalk

/-- The canonical form of a term is its nameless form written out: a variable is the number of
abstractions between it and the innermost one around it that has its binder, or its binder if there
is none.  Wherever the walk stops on the way, every depth it knows is smaller than its own; where an
abstraction ends there is one to leave; and after the walk of a subterm everything is as it was
before. -/
theorem BoundTerm.canonicalWalk_exact (t : BoundTerm) :
    t.canonical = (t.nameless []).tokens ∧
    ∀ before after, t.events = before ++ after →
      let w := (CanonicalWalk.run {} before []).1
      (∀ (b : Binder) (depth : Nat), w.introduced[b]? = some depth → depth < w.depth) ∧
      (∀ rest, after = .closeLam :: rest → 0 < w.depth ∧ w.hidden ≠ []) ∧
      ∀ (s : BoundTerm) rest, after = s.events ++ rest →
        let w' := (w.run s.events []).1
        w'.depth = w.depth ∧ w'.introduced.Equiv w.introduced ∧ w'.hidden = w.hidden := by
  refine ⟨t.canonical_eq, fun before after hsplit => ?_⟩
  intro w
  obtain ⟨r, hbefore, hafter⟩ := Term.exists_foldlM_feed hsplit
  have hw : w.Tracks r.parameters := CanonicalWalk.tracks_start.run hbefore
  refine ⟨fun b depth hb => hw.toBelow.lt_depth hb, ?_, ?_⟩
  · rintro rest rfl
    obtain ⟨r', hfeed, -⟩ := Option.bind_eq_some_iff.mp hafter
    obtain ⟨-, -, b, outer, -, hparameters, -⟩ := Term.Rebuild.exists_of_feed_closeLam hfeed
    rw [hparameters] at hw
    exact hw.leaves
  · rintro s rest rfl
    intro w'
    have hw' : w'.Tracks r.parameters := hw.run_events s []
    obtain ⟨hdepth, hintroduced⟩ := hw.toBelow.equiv hw'.toBelow
    exact ⟨hdepth, hintroduced, hw'.hidden.trans hw.hidden.symm⟩

/-- In `\x.(\x.x) x`, with one binder for both abstractions, the inner abstraction hides the entry
of the outer one and brings it back. -/
theorem BoundTerm.canonicalWalk_exact_of_reusedBinder :
    let x : Binder := ⟨1, ⟨"x"⟩⟩
    let inner : BoundTerm := .lam x (.var x)
    let t : BoundTerm := .lam x (.app inner (.var x))
    let w := (CanonicalWalk.run {} [.openLam x, .openApp] []).1
    let w' := (w.run inner.events []).1
    t.canonical = [.lam, .app, .lam, .bound 0, .bound 0] ∧
    t.events = [.openLam x, .openApp] ++ (inner.events ++ [.var x, .closeApp, .closeLam]) ∧
    w.introduced[x]? = some 0 ∧ 0 < w.depth ∧ w'.depth = w.depth ∧ w'.introduced[x]? = some 0 ∧
    t.events = [.openLam x, .openApp, .openLam x, .var x] ++
      .closeLam :: [.var x, .closeApp, .closeLam] ∧
    0 < (CanonicalWalk.run {} [.openLam x, .openApp, .openLam x, .var x] []).1.depth := by
  intro x inner t w w'
  obtain ⟨hcanonical, hstops⟩ := canonicalWalk_exact t
  have hinner : t.events =
      [.openLam x, .openApp] ++ (inner.events ++ [.var x, .closeApp, .closeLam]) := by
    simp [t, inner]
  have hclose : t.events = [.openLam x, .openApp, .openLam x, .var x] ++
      .closeLam :: [.var x, .closeApp, .closeLam] := by
    simp [t, inner]
  obtain ⟨hdepths, -, hsubterm⟩ := hstops _ _ hinner
  obtain ⟨-, hleave, -⟩ := hstops _ _ hclose
  obtain ⟨hdepth, hintroduced, -⟩ := hsubterm inner _ rfl
  have hx : w.introduced[x]? = some 0 := by
    simp [w, CanonicalWalk.run, CanonicalWalk.next, CanonicalWalk.enter]
  refine ⟨hcanonical, hinner, hx, hdepths x 0 hx, hdepth, ?_, hclose, (hleave _ rfl).1⟩
  exact hintroduced.getElem?_eq.trans hx

end UntypedLambda
