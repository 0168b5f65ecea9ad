import UntypedLambda.Resolution

namespace UntypedLambda

def Binder.shadow (b : Binder) (outer : Name → Option Binder) (name : Name) : Option Binder :=
  if b.name = name then some b else outer name

namespace Expression

/-- Resolve an expression in which `inner` says what names mean; a name that it leaves open is
looked up in `globals`. -/
def resolveIn (globals : Environment) (inner : Name → Option Binder) :
    Expression → Supply → Except ResolutionError BoundTerm × Supply
  | .var name, supply =>
    match inner name with
    | some b => (.ok (.var b), supply)
    | none =>
      match globals.lookupName? name with
      | some (b, _) => (.ok (.var b), supply)
      | none => (.error (.undefinedName name), supply)
  | .app function argument, supply =>
    match resolveIn globals inner function supply with
    | (.error error, supply) => (.error error, supply)
    | (.ok t, supply) =>
      match resolveIn globals inner argument supply with
      | (.error error, supply) => (.error error, supply)
      | (.ok s, supply) => (.ok (.app t s), supply)
  | .lam name body, supply =>
    match resolveIn globals ((supply.fresh name).1.shadow inner) body (supply.fresh name).2 with
    | (.error error, supply) => (.error error, supply)
    | (.ok t, rest) => (.ok (.lam (supply.fresh name).1 t), rest)

structure Reads (s : Scope) (inner : Name → Option Binder) (opened : List Name)
    (binders : Name → List Binder) : Prop where
  opened_eq : s.opened = opened
  binders_eq : ∀ name, s.binders name = binders name
  inner_eq : ∀ name, inner name = (binders name).head?

theorem Reads.find? {s : Scope} {inner : Name → Option Binder} {opened : List Name}
    {binders : Name → List Binder} (h : Reads s inner opened binders) (name : Name) :
    s.find? name = inner name := by
  rw [Scope.find?, h.binders_eq, h.inner_eq]

theorem Reads.enter {s : Scope} {inner : Name → Option Binder} {opened : List Name}
    {binders : Name → List Binder} (h : Reads s inner opened binders) (b : Binder) :
    Reads (s.enter b) (b.shadow inner) (b.name :: opened)
      (fun name => if b.name = name then b :: binders name else binders name) where
  opened_eq := by rw [Scope.enter, h.opened_eq]
  binders_eq name := by rw [Scope.binders_enter, h.binders_eq]
  inner_eq name := by
    rw [Binder.shadow]
    split
    · rfl
    · exact h.inner_eq name

/-- What was read before a lambda was entered is read again after it is left. -/
theorem Reads.leave {s s' : Scope} {inner : Name → Option Binder} {opened : List Name}
    {binders : Name → List Binder} {b : Binder} (h : Reads s inner opened binders)
    (h' : Reads s' (b.shadow inner) (b.name :: opened)
      (fun name => if b.name = name then b :: binders name else binders name)) :
    Reads s'.leave inner opened binders where
  opened_eq := by rw [Scope.leave, h'.opened_eq]
  binders_eq name := by
    rw [Scope.binders_leave h'.opened_eq, h'.binders_eq]
    by_cases hname : b.name = name <;> simp [hname]
  inner_eq := h.inner_eq

/-- Resolving the walk of an expression is resolving the expression, then the rest of the walk in
the same scope. -/
theorem resolveEvents_events (globals : Environment) (e : Expression) {s : Scope}
    {inner : Name → Option Binder} {opened : List Name} {binders : Name → List Binder}
    (h : Reads s inner opened binders) (supply : Supply) :
    ∃ s' : Scope, Reads s' inner opened binders ∧ ∀ rest done,
      resolveEvents globals (e.events ++ rest) s supply done =
        match resolveIn globals inner e supply with
        | (.ok t, supply) => resolveEvents globals rest s' supply (t.events.reverse ++ done)
        | (.error error, supply) => (.error error, supply) := by
  induction e generalizing s inner opened binders supply with
  | var name =>
    refine ⟨s, h, ?_⟩
    intro rest done
    rw [Term.events_var, List.singleton_append, resolveEvents, binderOf?, h.find?, resolveIn]
    cases inner name with
    | some b => simp
    | none =>
      cases globals.lookupName? name with
      | some found => simp
      | none => simp
  | app function argument ihf iha =>
    obtain ⟨s₁, h₁, run₁⟩ := ihf h supply
    cases hf : resolveIn globals inner function supply with
    | mk result supply₁ =>
      obtain ⟨s₂, h₂, run₂⟩ := iha h₁ supply₁
      refine ⟨s₂, h₂, ?_⟩
      intro rest done
      have hopen : resolveEvents globals ((Term.app function argument).events ++ rest) s supply
          done = resolveEvents globals
            (function.events ++ (argument.events ++ (Event.closeApp :: rest))) s supply
            (.openApp :: done) := by
        simp [resolveEvents]
      rw [hopen, run₁, resolveIn, hf]
      cases result with
      | error error => rfl
      | ok t =>
        simp only
        rw [run₂]
        cases resolveIn globals inner argument supply₁ with
        | mk result supply₂ =>
          cases result with
          | error error => rfl
          | ok s => simp [resolveEvents]
  | lam name body ih =>
    obtain ⟨s₁, h₁, run₁⟩ := ih (h.enter (supply.fresh name).1) (supply.fresh name).2
    refine ⟨s₁.leave, h.leave h₁, ?_⟩
    intro rest done
    have hopen : resolveEvents globals ((Term.lam name body).events ++ rest) s supply done =
        resolveEvents globals (body.events ++ (Event.closeLam :: rest))
          (s.enter (supply.fresh name).1) (supply.fresh name).2
          (.openLam (supply.fresh name).1 :: done) := by
      simp [resolveEvents]
    rw [hopen, run₁, resolveIn]
    cases resolveIn globals ((supply.fresh name).1.shadow inner) body (supply.fresh name).2 with
    | mk result supply₁ =>
      cases result with
      | error error => rfl
      | ok t => simp [resolveEvents]

/-- Resolving along the walk of an expression is resolving it by recursion, with names that mean
nothing outside of the lambdas. -/
theorem resolve_eq_resolveIn (globals : Environment) (e : Expression) (supply : Supply) :
    e.resolve globals supply = resolveIn globals (fun _ => none) e supply := by
  have hstart : Reads {} (fun _ => none) [] (fun _ => []) :=
    ⟨rfl, fun name => by simp [Scope.binders], fun _ => rfl⟩
  obtain ⟨s, -, hrun⟩ := resolveEvents_events globals e hstart supply
  have h := hrun [] []
  rw [List.append_nil] at h
  rw [resolve]
  cases hr : resolveIn globals (fun _ => none) e supply with
  | mk result rest =>
    rw [hr] at h
    cases result with
    | error error =>
      split
      · next heq => rw [heq] at h; cases h
      · next heq => rw [heq] at h; cases h; rfl
    | ok t =>
      simp only [resolveEvents, List.append_nil, List.reverse_reverse] at h
      split
      · next heq =>
        rw [heq] at h
        cases h
        rw [Term.relabel_eq rfl]
      · next heq => rw [heq] at h; cases h

end Expression

end UntypedLambda
