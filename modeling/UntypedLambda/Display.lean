import UntypedLambda.Canonical
import UntypedLambda.NamePool

/-! Free binders get the names that they should be shown by, no two the same.  The parameter of a
lambda keeps its name unless that name already means something there. -/
namespace UntypedLambda

def BoundTerm.freeBinders (t : BoundTerm) : List Binder :=
  (t.canonical.filterMap CanonicalToken.free?).eraseDups

/-- Where a walk that chooses names stands: the names in use, the names of the binders in scope,
and for each open lambda, innermost first, its binder, its name and the name that it hides. -/
structure DisplayWalk where
  pool : NamePool := {}
  names : Std.HashMap Binder Name := ∅
  hidden : List (Binder × Name × Option Name) := []

namespace DisplayWalk

def nameFree (freeNames : Std.HashMap Binder Name) (w : DisplayWalk) (b : Binder) :
    DisplayWalk :=
  let (name, pool) := w.pool.draw (freeNames.getD b b.name)
  { w with pool, names := w.names.insert b name }

def start (t : BoundTerm) (freeNames : Std.HashMap Binder Name) : DisplayWalk :=
  let free := t.freeBinders
  let listed := free.filter freeNames.contains
  let unlisted := free.filter fun b => !freeNames.contains b
  (listed ++ unlisted).foldl (nameFree freeNames) {}

def enter (w : DisplayWalk) (b : Binder) : Name × DisplayWalk :=
  let (name, pool) := w.pool.draw b.name
  let entry := w.names[b]?
  (name, { pool, names := w.names.insert b name, hidden := (b, name, entry) :: w.hidden })

def leave (w : DisplayWalk) : DisplayWalk :=
  match w.hidden with
  | [] => w
  | (b, name, entry) :: outer =>
    { pool := w.pool.putBack name
      names :=
        match entry with
        | some shown => w.names.insert b shown
        | none => w.names.erase b
      hidden := outer }

theorem names_leave {w : DisplayWalk} {b : Binder} {name : Name} {entry : Option Name}
    {outer : List (Binder × Name × Option Name)} (h : w.hidden = (b, name, entry) :: outer)
    (c : Binder) : w.leave.names[c]? = if b = c then entry else w.names[c]? := by
  rw [leave, h]
  cases entry with
  | none => simp [Std.HashMap.getElem?_erase]
  | some shown => simp [Std.HashMap.getElem?_insert]

def next (w : DisplayWalk) : Event Binder → Event Name × DisplayWalk
  | .var b => (.var (w.names.getD b b.name), w)
  | .openApp => (.openApp, w)
  | .closeApp => (.closeApp, w)
  | .openLam b =>
    let (name, w) := w.enter b
    (.openLam name, w)
  | .closeLam => (.closeLam, w.leave)

def run : DisplayWalk → List (Event Binder) → List (Event Name) → List (Event Name)
  | _, [], done => done.reverse
  | w, e :: events, done =>
    let (e', w') := w.next e
    w'.run events (e' :: done)

theorem shape_next (w : DisplayWalk) (e : Event Binder) : (w.next e).1.shape = e.shape := by
  cases e <;> rfl

theorem shape_run (w : DisplayWalk) (events : List (Event Binder)) (done : List (Event Name)) :
    (w.run events done).map Event.shape =
      done.reverse.map Event.shape ++ events.map Event.shape := by
  induction events generalizing w done with
  | nil => simp [run]
  | cons e events ih =>
    rw [run, ih]
    simp [shape_next]

end DisplayWalk

/-- Give every binder of a term a name to show it by.  Free binders are shown by their names in
`freeNames`, or else by their own. -/
def BoundTerm.display (t : BoundTerm) (freeNames : Std.HashMap Binder Name) : Expression :=
  t.relabel ((DisplayWalk.start t freeNames).run t.events []) (by
    simpa using DisplayWalk.shape_run (DisplayWalk.start t freeNames) t.events [])

theorem BoundTerm.display_eq_of_run {t : BoundTerm} {freeNames : Std.HashMap Binder Name}
    {e : Expression} (h : (DisplayWalk.start t freeNames).run t.events [] = e.events) :
    t.display freeNames = e :=
  Term.relabel_eq h _

theorem BoundTerm.display_eq_of_run_append {t : BoundTerm} {freeNames : Std.HashMap Binder Name}
    {e : Expression} {w : DisplayWalk}
    (h : ∀ rest done, (DisplayWalk.start t freeNames).run (t.events ++ rest) done =
      w.run rest (e.events.reverse ++ done)) :
    t.display freeNames = e := by
  have hevents := h [] []
  rw [List.append_nil, List.append_nil, DisplayWalk.run, List.reverse_reverse] at hevents
  exact display_eq_of_run hevents

end UntypedLambda
