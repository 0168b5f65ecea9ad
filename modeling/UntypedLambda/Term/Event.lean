import UntypedLambda.Term.Basic

/-! A layout says what stands at each place of a term.  It is written with a stack of its own, so
the depth of a term never matters. -/
namespace UntypedLambda

variable {ν μ α : Type}

/-- What stands at each place of a term when it is written out from left to right. -/
structure Layout (ν α : Type) where
  atVar : ν → List α
  openApp : List α := []
  betweenApp : List α := []
  closeApp : List α := []
  openLam : ν → List α
  closeLam : List α := []

inductive Pending (ν α : Type) where
  | term (t : Term ν)
  | items (items : List α)

namespace Pending

def weight : Pending ν α → Nat
  | term t => t.weight
  | items _ => 1

end Pending

namespace Layout

/-- Write the pending entries in order, in front of the items already `done` and in reverse. -/
def writeOnto (l : Layout ν α) : List (Pending ν α) → List α → List α
  | [], done => done
  | .items items :: rest, done => l.writeOnto rest (items.reverseAux done)
  | .term (.var x) :: rest, done => l.writeOnto rest ((l.atVar x).reverseAux done)
  | .term (.app t s) :: rest, done =>
    l.writeOnto (.term t :: .items l.betweenApp :: .term s :: .items l.closeApp :: rest)
      (l.openApp.reverseAux done)
  | .term (.lam x b) :: rest, done =>
    l.writeOnto (.term b :: .items l.closeLam :: rest) ((l.openLam x).reverseAux done)
termination_by pending _ => (pending.map Pending.weight).foldr (· + ·) 0
decreasing_by
  all_goals simp only [List.map_cons, List.foldr_cons, Pending.weight, Term.weight, Term.nodes]
  all_goals omega

def write (l : Layout ν α) (t : Term ν) : List α :=
  (l.writeOnto [.term t] []).reverse

def line (l : Layout ν α) : Term ν → List α
  | .var x => l.atVar x
  | .app t s => l.openApp ++ l.line t ++ l.betweenApp ++ l.line s ++ l.closeApp
  | .lam x b => l.openLam x ++ l.line b ++ l.closeLam

theorem writeOnto_term (l : Layout ν α) (t : Term ν) (rest : List (Pending ν α))
    (done : List α) :
    l.writeOnto (.term t :: rest) done = l.writeOnto rest ((l.line t).reverse ++ done) := by
  induction t generalizing rest done with
  | var x => rw [writeOnto, List.reverseAux_eq, line]
  | app t s iht ihs =>
    rw [writeOnto, iht, writeOnto, ihs, writeOnto]
    simp [List.reverseAux_eq, line]
  | lam x b ih =>
    rw [writeOnto, ih, writeOnto]
    simp [List.reverseAux_eq, line]

theorem write_eq_line (l : Layout ν α) (t : Term ν) : l.write t = l.line t := by
  rw [write, writeOnto_term, writeOnto]
  simp

end Layout

inductive Event (ν : Type) where
  | var (x : ν)
  | openApp
  | closeApp
  | openLam (parameter : ν)
  | closeLam
  deriving DecidableEq, Repr

namespace Event

def map (f : ν → μ) : Event ν → Event μ
  | var x => var (f x)
  | openApp => openApp
  | closeApp => closeApp
  | openLam x => openLam (f x)
  | closeLam => closeLam

def shape : Event ν → Event Unit :=
  map fun _ => ()

def entersNode : Event ν → Bool
  | var _ => true
  | openApp => true
  | openLam _ => true
  | closeApp => false
  | closeLam => false

end Event

namespace Term

def eventLayout : Layout ν (Event ν) where
  atVar x := [.var x]
  openApp := [.openApp]
  closeApp := [.closeApp]
  openLam x := [.openLam x]
  closeLam := [.closeLam]

def events (t : Term ν) : List (Event ν) :=
  eventLayout.write t

@[simp] theorem events_var (x : ν) : (var x).events = [.var x] :=
  Layout.write_eq_line _ _

@[simp] theorem events_app (t s : Term ν) :
    (app t s).events = .openApp :: (t.events ++ s.events ++ [.closeApp]) := by
  simp [events, Layout.write_eq_line, Layout.line, eventLayout]

@[simp] theorem events_lam (x : ν) (b : Term ν) :
    (lam x b).events = .openLam x :: (b.events ++ [.closeLam]) := by
  simp [events, Layout.write_eq_line, Layout.line, eventLayout]

instance [DecidableEq ν] : BEq (Term ν) where
  beq t s := t.events == s.events

def size (t : Term ν) : Nat :=
  t.events.countP Event.entersNode

theorem size_eq_nodes (t : Term ν) : t.size = t.nodes := by
  induction t with
  | var x => simp [size, nodes, Event.entersNode]
  | app t s iht ihs =>
    rw [size] at iht ihs
    simp only [size, nodes, events_app, List.countP_cons, List.countP_append, iht, ihs,
      List.countP_nil, Event.entersNode]
    simp only [if_true, Bool.false_eq_true, if_false]
    omega
  | lam x b ih =>
    rw [size] at ih
    simp only [size, nodes, events_lam, List.countP_cons, List.countP_append, ih,
      List.countP_nil, Event.entersNode]
    simp only [if_true, Bool.false_eq_true, if_false]
    omega

/-- A term that is being put together again: the finished parts and the parameters of the
abstractions that are still open, the newest first. -/
structure Rebuild (ν : Type) where
  built : List (Term ν) := []
  parameters : List ν := []

def Rebuild.feed (r : Rebuild ν) : Event ν → Option (Rebuild ν)
  | .var x => some { r with built := var x :: r.built }
  | .openApp => some r
  | .closeApp =>
    match r.built with
    | argument :: function :: rest => some { r with built := app function argument :: rest }
    | _ => none
  | .openLam x => some { r with parameters := x :: r.parameters }
  | .closeLam =>
    match r.built, r.parameters with
    | body :: rest, x :: outer => some { built := lam x body :: rest, parameters := outer }
    | _, _ => none

def ofEvents? (events : List (Event ν)) : Option (Term ν) :=
  match events.foldlM Rebuild.feed {} with
  | some { built := [t], parameters := [] } => some t
  | _ => none

/-- The events of a term add that term to the finished parts and change nothing else. -/
theorem foldlM_feed_events (t : Term ν) (r : Rebuild ν) :
    t.events.foldlM Rebuild.feed r = some { r with built := t :: r.built } := by
  induction t generalizing r with
  | var x => simp [Rebuild.feed]
  | app t s iht ihs => simp [iht, ihs, Rebuild.feed]
  | lam x b ih => simp [ih, Rebuild.feed]

@[simp] theorem ofEvents?_events (t : Term ν) : ofEvents? t.events = some t := by
  simp [ofEvents?, foldlM_feed_events]

def Rebuild.map (f : ν → μ) (r : Rebuild ν) : Rebuild μ where
  built := r.built.map (Term.map f)
  parameters := r.parameters.map f

theorem Rebuild.feed_map (f : ν → μ) (r : Rebuild ν) (e : Event ν) :
    (r.map f).feed (e.map f) = (r.feed e).map (Rebuild.map f) := by
  obtain ⟨built, parameters⟩ := r
  cases e with
  | var x => rfl
  | openApp => rfl
  | closeApp => rcases built with _ | ⟨s, _ | ⟨t, rest⟩⟩ <;> rfl
  | openLam x => rfl
  | closeLam => rcases built with _ | ⟨b, rest⟩ <;> rcases parameters with _ | ⟨x, xs⟩ <;> rfl

theorem foldlM_feed_map (f : ν → μ) (events : List (Event ν)) (r : Rebuild ν) :
    (events.map (Event.map f)).foldlM Rebuild.feed (r.map f) =
      (events.foldlM Rebuild.feed r).map (Rebuild.map f) := by
  induction events generalizing r with
  | nil => rfl
  | cons e rest ih =>
    rw [List.map_cons, List.foldlM_cons, List.foldlM_cons, Rebuild.feed_map]
    cases r.feed e with
    | none => rfl
    | some r' => exact ih r'

theorem ofEvents?_map (f : ν → μ) (events : List (Event ν)) :
    ofEvents? (events.map (Event.map f)) = (ofEvents? events).map (Term.map f) := by
  have h : (events.map (Event.map f)).foldlM Rebuild.feed {} =
      (events.foldlM Rebuild.feed {}).map (Rebuild.map f) := foldlM_feed_map f events {}
  rw [ofEvents?, ofEvents?, h]
  rcases events.foldlM Rebuild.feed {} with _ | ⟨_ | ⟨t, _ | ⟨s, rest⟩⟩, _ | ⟨x, xs⟩⟩ <;> rfl

/-- A walk of the same shape as the walk of a term describes a term too. -/
theorem isSome_ofEvents?_of_shape {t : Term ν} {events : List (Event μ)}
    (h : events.map Event.shape = t.events.map Event.shape) :
    (ofEvents? events).isSome := by
  have hm : (ofEvents? events).map (Term.map fun _ => ()) =
      (ofEvents? t.events).map (Term.map fun _ => ()) := by
    rw [← ofEvents?_map, ← ofEvents?_map]
    exact congrArg ofEvents? h
  rw [ofEvents?_events] at hm
  cases he : ofEvents? events with
  | none => rw [he] at hm; cases hm
  | some s => rfl

def relabel (t : Term ν) (events : List (Event μ))
    (h : events.map Event.shape = t.events.map Event.shape) : Term μ :=
  (ofEvents? events).get (isSome_ofEvents?_of_shape h)

theorem relabel_eq {t : Term ν} {s : Term μ} {events : List (Event μ)} (hevents : events = s.events)
    (h : events.map Event.shape = t.events.map Event.shape) : t.relabel events h = s := by
  subst hevents
  simp [relabel]

def textLayout (text : ν → String) : Layout ν String where
  atVar x := [text x]
  openApp := ["("]
  betweenApp := [" "]
  closeApp := [")"]
  openLam x := ["(\\", text x, ". "]
  closeLam := [")"]

def text (name : ν → String) (t : Term ν) : String :=
  String.join ((textLayout name).write t)

end Term

end UntypedLambda
