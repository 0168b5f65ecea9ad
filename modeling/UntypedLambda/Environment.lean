import Std.Data.HashMap
import UntypedLambda.Binder

namespace UntypedLambda

/-- A list of bindings, the newest outermost.  `value` gives a binder the name of another one;
`thunk` gives it a term that has still to be reduced, with the environment of that term. -/
inductive Environment where
  | empty
  | value (binder target : Binder) (older : Environment)
  | thunk (binder : Binder) (term : BoundTerm) (captured older : Environment)
  deriving DecidableEq, Repr

inductive Binding where
  | value (target : Binder)
  | thunk (term : BoundTerm) (captured : Environment)
  deriving DecidableEq, Repr

namespace Environment

variable {β : Type}

def extend (env : Environment) (binder : Binder) : Binding → Environment
  | .value target => .value binder target env
  | .thunk term captured => .thunk binder term captured env

def foldl (f : β → Binder → Binding → β) (start : β) : Environment → β
  | empty => start
  | value binder target older => older.foldl f (f start binder (.value target))
  | thunk binder term captured older => older.foldl f (f start binder (.thunk term captured))

def entries (env : Environment) : List (Binder × Binding) :=
  (env.foldl (fun seen binder binding => (binder, binding) :: seen) []).reverse

def size (env : Environment) : Nat :=
  env.foldl (fun count _ _ => count + 1) 0

def isEmpty : Environment → Bool
  | empty => true
  | value _ _ _ => false
  | thunk _ _ _ _ => false

def lookup? (b : Binder) : Environment → Option Binding
  | empty => none
  | value binder target older =>
    if binder = b then some (.value target) else older.lookup? b
  | thunk binder term captured older =>
    if binder = b then some (.thunk term captured) else older.lookup? b

def lookupName? (name : Name) : Environment → Option (Binder × Binding)
  | empty => none
  | value binder target older =>
    if binder.name = name then some (binder, .value target) else older.lookupName? name
  | thunk binder term captured older =>
    if binder.name = name then some (binder, .thunk term captured) else older.lookupName? name

def freeNames (env : Environment) : Std.HashMap Binder Name :=
  env.foldl (fun names binder _ => names.insert binder binder.name) ∅

def text (env : Environment) : String :=
  "[" ++ ", ".intercalate (env.entries.map fun entry => entry.1.text) ++ "]"

theorem foldl_extend (f : β → Binder → Binding → β) (start : β) (env : Environment)
    (binder : Binder) (binding : Binding) :
    (env.extend binder binding).foldl f start = env.foldl f (f start binder binding) := by
  cases binding <;> rfl

theorem foldl_cons_entries (env : Environment) (seen : List (Binder × Binding)) :
    env.foldl (fun seen binder binding => (binder, binding) :: seen) seen =
      env.entries.reverse ++ seen := by
  induction env generalizing seen with
  | empty => rfl
  | value binder target older ih => rw [entries, foldl, foldl, ih, ih]; simp
  | thunk binder term captured older _ ih => rw [entries, foldl, foldl, ih, ih]; simp

@[simp] theorem entries_extend (env : Environment) (binder : Binder) (binding : Binding) :
    (env.extend binder binding).entries = (binder, binding) :: env.entries := by
  rw [entries, foldl_extend, foldl_cons_entries]
  simp

theorem lookup?_extend (env : Environment) (binder b : Binder) (binding : Binding) :
    (env.extend binder binding).lookup? b =
      if binder = b then some binding else env.lookup? b := by
  cases binding <;> rfl

theorem lookupName?_extend (env : Environment) (binder : Binder) (binding : Binding)
    (name : Name) :
    (env.extend binder binding).lookupName? name =
      if binder.name = name then some (binder, binding) else env.lookupName? name := by
  cases binding <;> rfl

end Environment

end UntypedLambda
