import UntypedLambda.Environment

namespace UntypedLambda

inductive ResolutionError where
  | undefinedName (name : Name)
  deriving DecidableEq, Repr

def ResolutionError.message : ResolutionError → String
  | undefinedName name => "Undefined name: " ++ name.text

/-- The lambdas that are open at a place: for each name their binders, and the names of all of
them, both innermost first. -/
structure Scope where
  byName : Std.HashMap Name (List Binder) := ∅
  opened : List Name := []

namespace Scope

def binders (s : Scope) (name : Name) : List Binder :=
  s.byName.getD name []

def enter (s : Scope) (b : Binder) : Scope where
  byName := s.byName.insert b.name (b :: s.binders b.name)
  opened := b.name :: s.opened

def leave (s : Scope) : Scope :=
  match s.opened with
  | [] => s
  | name :: outer => { byName := s.byName.insert name (s.binders name).tail, opened := outer }

def find? (s : Scope) (name : Name) : Option Binder :=
  (s.binders name).head?

theorem binders_enter (s : Scope) (b : Binder) (name : Name) :
    (s.enter b).binders name = if b.name = name then b :: s.binders name else s.binders name := by
  simp only [binders, enter, Std.HashMap.getD_insert, beq_iff_eq]
  split
  · next h => rw [h]
  · rfl

theorem binders_leave {s : Scope} {n : Name} {outer : List Name} (h : s.opened = n :: outer)
    (name : Name) :
    s.leave.binders name = if n = name then (s.binders name).tail else s.binders name := by
  simp only [binders, leave, h, Std.HashMap.getD_insert, beq_iff_eq]
  split
  · next h => rw [h]
  · rfl

end Scope

namespace Expression

def binderOf? (scope : Scope) (globals : Environment) (name : Name) : Option Binder :=
  match scope.find? name with
  | some b => some b
  | none => (globals.lookupName? name).map Prod.fst

def resolveEvents (globals : Environment) :
    List (Event Name) → Scope → Supply → List (Event Binder) →
      Except ResolutionError (List (Event Binder)) × Supply
  | [], _, supply, done => (.ok done.reverse, supply)
  | .var name :: events, scope, supply, done =>
    match binderOf? scope globals name with
    | some b => resolveEvents globals events scope supply (.var b :: done)
    | none => (.error (.undefinedName name), supply)
  | .openLam name :: events, scope, supply, done =>
    let (b, supply) := supply.fresh name
    resolveEvents globals events (scope.enter b) supply (.openLam b :: done)
  | .closeLam :: events, scope, supply, done =>
    resolveEvents globals events scope.leave supply (.closeLam :: done)
  | .openApp :: events, scope, supply, done =>
    resolveEvents globals events scope supply (.openApp :: done)
  | .closeApp :: events, scope, supply, done =>
    resolveEvents globals events scope supply (.closeApp :: done)

theorem shape_resolveEvents {globals : Environment} {events : List (Event Name)}
    {scope : Scope} {supply : Supply} {done out : List (Event Binder)}
    (h : (resolveEvents globals events scope supply done).1 = .ok out) :
    out.map Event.shape = done.reverse.map Event.shape ++ events.map Event.shape := by
  induction events generalizing scope supply done with
  | nil =>
    cases h
    simp
  | cons e events ih =>
    cases e with
    | var name =>
      rw [resolveEvents] at h
      split at h
      · rw [ih h]
        simp [Event.shape, Event.map]
      · cases h
    | openApp =>
      rw [ih h]
      simp [Event.shape, Event.map]
    | closeApp =>
      rw [ih h]
      simp [Event.shape, Event.map]
    | openLam name =>
      rw [ih h]
      simp [Event.shape, Event.map]
    | closeLam =>
      rw [ih h]
      simp [Event.shape, Event.map]

/-- Give every lambda a fresh binder and every name its meaning.  The binders of the lambdas
opened before an error stay used up. -/
def resolve (e : Expression) (globals : Environment) (supply : Supply) :
    Except ResolutionError BoundTerm × Supply :=
  match h : resolveEvents globals e.events {} supply [] with
  | (.ok events, supply) =>
    (.ok (e.relabel events (by
      have := shape_resolveEvents (congrArg Prod.fst h)
      simpa using this)), supply)
  | (.error error, supply) => (.error error, supply)

end Expression

end UntypedLambda
