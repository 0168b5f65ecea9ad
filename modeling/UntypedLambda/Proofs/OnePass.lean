import UntypedLambda.Display
import UntypedLambda.Resolution.Lexical

namespace UntypedLambda

def Scope.innermost? (s : Scope) : Option Binder :=
  match s.opened with
  | [] => none
  | name :: _ => s.find? name

namespace Expression

/-- Resolve the names along a walk behind the terms already `built`, the newest first.  There is no
result if a part or an open lambda is missing, or if something other than one term is left. -/
def resolveOnto (globals : Environment) :
    List (Event Name) → Scope → Supply → List BoundTerm →
      Option (Except ResolutionError BoundTerm × Supply)
  | [], _, supply, [t] => some (.ok t, supply)
  | [], _, _, _ => none
  | .var name :: events, scope, supply, built =>
    match binderOf? scope globals name with
    | some b => resolveOnto globals events scope supply (.var b :: built)
    | none => some (.error (.undefinedName name), supply)
  | .openLam name :: events, scope, supply, built =>
    resolveOnto globals events (scope.enter (supply.fresh name).1) (supply.fresh name).2 built
  | .closeLam :: events, scope, supply, body :: built =>
    match scope.innermost? with
    | some b => resolveOnto globals events scope.leave supply (.lam b body :: built)
    | none => none
  | .closeLam :: _, _, _, [] => none
  | .openApp :: events, scope, supply, built => resolveOnto globals events scope supply built
  | .closeApp :: events, scope, supply, argument :: function :: built =>
    resolveOnto globals events scope supply (.app function argument :: built)
  | .closeApp :: _, _, _, _ => none

/-- The walk of an expression adds its term to the terms that are built, and leaves the scope as it
was. -/
theorem resolveOnto_events (globals : Environment) (e : Expression) {s : Scope}
    {inner : Name → Option Binder} {opened : List Name} {binders : Name → List Binder}
    (h : Reads s inner opened binders) (supply : Supply) :
    ∃ s' : Scope, Reads s' inner opened binders ∧ ∀ rest built,
      resolveOnto globals (e.events ++ rest) s supply built =
        match resolveIn globals inner e supply with
        | (.ok t, supply) => resolveOnto globals rest s' supply (t :: built)
        | (.error error, supply) => some (.error error, supply) := by
  induction e generalizing s inner opened binders supply with
  | var name =>
    refine ⟨s, h, ?_⟩
    intro rest built
    rw [Term.events_var, List.singleton_append, resolveOnto, binderOf?, h.find?, resolveIn]
    cases inner name with
    | some b => rfl
    | none =>
      cases globals.lookupName? name with
      | some found => rfl
      | none => rfl
  | app function argument ihf iha =>
    obtain ⟨s₁, h₁, run₁⟩ := ihf h supply
    cases hf : resolveIn globals inner function supply with
    | mk result supply₁ =>
      obtain ⟨s₂, h₂, run₂⟩ := iha h₁ supply₁
      refine ⟨s₂, h₂, ?_⟩
      intro rest built
      have hopen : resolveOnto globals ((Term.app function argument).events ++ rest) s supply
          built = resolveOnto globals
            (function.events ++ (argument.events ++ (Event.closeApp :: rest))) s supply built := by
        simp [resolveOnto]
      rw [hopen, run₁, resolveIn, hf]
      cases result with
      | error error => rfl
      | ok t =>
        simp only
        rw [run₂]
        cases resolveIn globals inner argument supply₁ with
        | mk result supply₂ =>
          cases result with
          | error error => rfl
          | ok u => simp only [resolveOnto]
  | lam name body ih =>
    have henter := h.enter (supply.fresh name).1
    obtain ⟨s₁, h₁, run₁⟩ := ih henter (supply.fresh name).2
    refine ⟨s₁.leave, h.leave h₁, ?_⟩
    intro rest built
    have hopen : resolveOnto globals ((Term.lam name body).events ++ rest) s supply built =
        resolveOnto globals (body.events ++ (Event.closeLam :: rest))
          (s.enter (supply.fresh name).1) (supply.fresh name).2 built := by
      simp [resolveOnto]
    have hinnermost : s₁.innermost? = some (supply.fresh name).1 := by
      rw [Scope.innermost?, h₁.opened_eq]
      simp only
      rw [h₁.find?, Binder.shadow, if_pos rfl]
    rw [hopen, run₁, resolveIn]
    cases resolveIn globals ((supply.fresh name).1.shadow inner) body (supply.fresh name).2 with
    | mk result supply₁ =>
      cases result with
      | error error => rfl
      | ok t => simp only [resolveOnto, hinnermost]

theorem resolveOnto_eq_resolve (globals : Environment) (e : Expression) (supply : Supply) :
    resolveOnto globals e.events {} supply [] = some (e.resolve globals supply) := by
  have hstart : Reads {} (fun _ => none) [] (fun _ => []) :=
    ⟨rfl, fun name => by simp [Scope.binders], fun _ => rfl⟩
  obtain ⟨s, -, hrun⟩ := resolveOnto_events globals e hstart supply
  have h := hrun [] []
  rw [List.append_nil] at h
  rw [h, resolve_eq_resolveIn]
  cases resolveIn globals (fun _ => none) e supply with
  | mk result rest =>
    cases result with
    | error error => rfl
    | ok t => rfl

end Expression

namespace DisplayWalk

def displayOnto : DisplayWalk → List (Event Binder) → List Expression → Option Expression
  | _, [], [e] => some e
  | _, [], _ => none
  | w, .var b :: events, built => w.displayOnto events (.var (w.names.getD b b.name) :: built)
  | w, .openLam b :: events, built => (w.enter b).2.displayOnto events built
  | w, .closeLam :: events, body :: built =>
    match w.hidden with
    | (_, name, _) :: _ => w.leave.displayOnto events (.lam name body :: built)
    | [] => none
  | _, .closeLam :: _, [] => none
  | w, .openApp :: events, built => w.displayOnto events built
  | w, .closeApp :: events, argument :: function :: built =>
    w.displayOnto events (.app function argument :: built)
  | _, .closeApp :: _, _ => none

theorem run_app (w : DisplayWalk) (t s : BoundTerm) (rest : List (Event Binder))
    (done : List (Event Name)) :
    w.run ((Term.app t s).events ++ rest) done =
      w.run (t.events ++ (s.events ++ (Event.closeApp :: rest))) (.openApp :: done) := by
  simp [run, next]

theorem run_lam (w : DisplayWalk) (b : Binder) (t : BoundTerm) (rest : List (Event Binder))
    (done : List (Event Name)) :
    w.run ((Term.lam b t).events ++ rest) done =
      (w.enter b).2.run (t.events ++ (Event.closeLam :: rest))
        (.openLam (w.enter b).1 :: done) := by
  simp [run, next]

/-- The walk of a term adds one expression to those that are built, the same that `run` writes
down, and leaves the same lambdas open. -/
theorem displayOnto_events (t : BoundTerm) (w : DisplayWalk) :
    ∃ (e : Expression) (w' : DisplayWalk), w'.hidden = w.hidden ∧
      (∀ rest done, w.run (t.events ++ rest) done = w'.run rest (e.events.reverse ++ done)) ∧
      ∀ rest built, w.displayOnto (t.events ++ rest) built = w'.displayOnto rest (e :: built) := by
  induction t generalizing w with
  | var b =>
    refine ⟨.var (w.names.getD b b.name), w, rfl, ?_, ?_⟩
    · intro rest done
      simp [run, next]
    · intro rest built
      rw [Term.events_var, List.singleton_append, displayOnto]
  | app t s iht ihs =>
    obtain ⟨e, w₁, hidden₁, run₁, display₁⟩ := iht w
    obtain ⟨a, w₂, hidden₂, run₂, display₂⟩ := ihs w₁
    refine ⟨.app e a, w₂, hidden₂.trans hidden₁, ?_, ?_⟩
    · intro rest done
      rw [run_app, run₁, run₂]
      simp [run, next]
    · intro rest built
      have hopen : w.displayOnto ((Term.app t s).events ++ rest) built =
          w.displayOnto (t.events ++ (s.events ++ (Event.closeApp :: rest))) built := by
        simp [displayOnto]
      rw [hopen, display₁, display₂, displayOnto]
  | lam b t ih =>
    obtain ⟨e, w₁, hidden₁, run₁, display₁⟩ := ih (w.enter b).2
    have hhidden : w₁.hidden = (b, (w.enter b).1, w.names[b]?) :: w.hidden := hidden₁
    have hleave : w₁.leave.hidden = w.hidden := by
      rw [leave, hhidden]
    refine ⟨.lam (w.enter b).1 e, w₁.leave, hleave, ?_, ?_⟩
    · intro rest done
      rw [run_lam, run₁]
      simp [run, next]
    · intro rest built
      have hopen : w.displayOnto ((Term.lam b t).events ++ rest) built =
          (w.enter b).2.displayOnto (t.events ++ (Event.closeLam :: rest)) built := by
        simp [displayOnto]
      rw [hopen, display₁, displayOnto, hhidden]

end DisplayWalk

theorem BoundTerm.displayOnto_eq_display (t : BoundTerm) (freeNames : Std.HashMap Binder Name) :
    (DisplayWalk.start t freeNames).displayOnto t.events [] = some (t.display freeNames) := by
  obtain ⟨e, w, -, hrun, hdisplay⟩ :=
    DisplayWalk.displayOnto_events t (DisplayWalk.start t freeNames)
  have hbuilt := hdisplay [] []
  rw [List.append_nil] at hbuilt
  rw [hbuilt, DisplayWalk.displayOnto, display_eq_of_run_append hrun]

end UntypedLambda
