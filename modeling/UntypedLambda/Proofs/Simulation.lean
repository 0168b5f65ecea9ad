import Mathlib.Algebra.GroupWithZero.Nat
import UntypedLambda.Proofs.MachineStep

/-! The tasks are the surroundings of the term that is being reduced, innermost first, so the state
of the machine can be read back as a whole. -/
namespace UntypedLambda

def Task.scope : List Task → Binder → Nameless
  | [] => .free
  | .buildLam p :: tasks => p.below (scope tasks)
  | .reduce _ _ _ :: tasks => scope tasks
  | .apply _ _ _ :: tasks => scope tasks
  | .buildApp :: tasks => scope tasks

def Task.plug : List Task → List Head → Nameless → Nameless
  | .apply s env _ :: tasks, values, t =>
    plug tasks values (.app t (s.replace (env.meaning (scope tasks))))
  | .buildApp :: tasks, .neutral f :: values, t =>
    plug tasks values (.app (f.replace (scope tasks)) t)
  | .buildLam _ :: tasks, values, t => plug tasks values (.lam t)
  | _, _, t => t

def Head.readback (ρ : Binder → Nameless) : Head → Nameless
  | .closure p body env => BoundTerm.replace (env.meaning ρ) (.lam p body)
  | .neutral t => t.replace ρ

namespace Machine

def readback? (m : Machine) : Option Nameless :=
  match m.tasks with
  | .reduce t env _ :: tasks =>
    some (Task.plug tasks m.values (t.replace (env.meaning (Task.scope tasks))))
  | tasks =>
    match m.values with
    | head :: values => some (Task.plug tasks values (head.readback (Task.scope tasks)))
    | [] => none

variable {tasks : List Task} {values : List Head} {supply : Supply} {tally : Tally}
variable {form goal : Form}

theorem readback?_reduce (t : BoundTerm) (env : Environment) :
    readback? ⟨.reduce t env form :: tasks, values, supply, tally⟩ =
      some (Task.plug tasks values (t.replace (env.meaning (Task.scope tasks)))) :=
  rfl

theorem Awaits.readback? (h : Awaits goal form tasks values) (head : Head) :
    readback? ⟨tasks, head :: values, supply, tally⟩ =
      some (Task.plug tasks values (head.readback (Task.scope tasks))) := by
  cases h <;> rfl

theorem scope_isNeutral (tasks : List Task) (b : Binder) : (Task.scope tasks b).IsNeutral := by
  induction tasks generalizing b with
  | nil => exact ⟨trivial, id⟩
  | cons task tasks ih =>
    cases task with
    | buildLam p => exact Nameless.IsNeutral.below ih p b
    | reduce t env form => exact ih b
    | apply s env form => exact ih b
    | buildApp => exact ih b

/-- A redex in the place that the tasks wait for is the leftmost outermost one.  An abstraction
never stands in a place where the tasks would apply it. -/
theorem Awaits.leftmost? (h : Awaits goal form tasks values) {t t' : Nameless}
    (hlam : form = .weakHead → ¬ t.IsLam) (hstep : t.leftmost? = some t') :
    (Task.plug tasks values t).leftmost? = some (Task.plug tasks values t') := by
  induction h generalizing t t' with
  | done => exact hstep
  | apply _ ih =>
    apply ih (fun _ => id)
    exact Nameless.leftmost?_function (hlam rfl) hstep
  | @buildApp f form tasks values hf hflam _ ih =>
    have hnormal : (f.replace (Task.scope tasks)).IsNormal :=
      BoundTerm.isNormal_replace (scope_isNeutral tasks) hf
    have hnot : ¬ (f.replace (Task.scope tasks)).IsLam :=
      fun h => hflam (BoundTerm.isLam_of_replace (scope_isNeutral tasks) h)
    apply ih (fun _ => id)
    exact Nameless.leftmost?_argument hnot hnormal.leftmost? hstep
  | buildLam _ ih =>
    apply ih (fun h => by cases h)
    exact Nameless.leftmost?_body hstep

/-- Searching for a redex leaves the term alone. -/
theorem Searches.readback? {m m' : Machine} (h : m.Searches m') (hready : Ready goal m)
    (hbelow : m.Holds fun n _ env => env.ValuesBelow n) : m'.readback? = m.readback? := by
  cases h with
  | @thunk b env captured t form tasks values supply tally h =>
    have hmeaning := Environment.meaning_of_lookup? (Task.scope tasks) h
    rw [readback?_reduce, readback?_reduce, BoundTerm.replace, hmeaning]
    rfl
  | @value b target env form tasks values supply tally h =>
    cases hready with
    | value _ hwait => cases hwait
    | reduce hwait =>
      have hmeaning := Environment.meaning_of_lookup? (Task.scope tasks) h
      rw [readback?_reduce, hwait.readback?, BoundTerm.replace, hmeaning]
      rfl
  | app => rfl
  | closure =>
    cases hready with
    | value _ hwait => cases hwait
    | reduce hwait =>
      rw [readback?_reduce, hwait.readback?]
      rfl
  | @enter p body env tasks values supply tally =>
    have henv : env.ValuesBelow (supply.fresh p.name).1.serial :=
      hbelow.tasks _ List.mem_cons_self
    -- The new binder occurs nowhere yet, so only the parameter gets a new meaning.
    have hmeaning : (Environment.value p (supply.fresh p.name).1 env).meaning
          ((supply.fresh p.name).1.below (Task.scope tasks)) =
        p.below (env.meaning (Task.scope tasks)) := by
      funext b
      rw [Environment.meaning, Environment.meaning_below henv, Binder.below, Binder.below]
      by_cases hb : p = b
      · rw [if_pos hb, if_pos rfl, if_pos hb.symm]
      · rw [if_neg hb, if_neg fun h => hb h.symm]
    rw [readback?_reduce, readback?_reduce, Task.scope, hmeaning]
    rfl
  | argument =>
    cases hready with
    | value _ hwait =>
      cases hwait with
      | apply hwait => rfl
  | buildApp =>
    cases hready with
    | value _ hwait =>
      cases hwait with
      | buildApp _ _ hwait =>
        rw [hwait.readback?]
        rfl
  | buildLam =>
    cases hready with
    | value _ hwait =>
      cases hwait with
      | buildLam hwait =>
        rw [hwait.readback?]
        rfl

/-- The redex that is contracted is the leftmost outermost one. -/
theorem Contracts.readback? {m m' : Machine} (h : m.Contracts m') (hready : Ready goal m) :
    m'.readback? = m.readback?.bind Nameless.leftmost? := by
  cases h with
  | @beta p s body env captured form tasks values supply tally =>
    cases hready with
    | value _ hwait =>
      cases hwait with
      | apply hwait =>
        have hredex : (Nameless.app
              (BoundTerm.replace (captured.meaning (Task.scope tasks)) (.lam p body))
              (s.replace (env.meaning (Task.scope tasks)))).leftmost? =
            some (body.replace
              ((Environment.thunk p s env captured).meaning (Task.scope tasks))) := by
          rw [BoundTerm.replace, Nameless.leftmost?_contract, BoundTerm.replace_instantiate]
          congr 2
          funext b
          rw [Environment.meaning]
          by_cases hb : p = b
          · rw [if_pos hb, if_pos hb.symm]
          · rw [if_neg hb, if_neg fun h => hb h.symm]
        have hstep := hwait.leftmost? (fun _ => id) hredex
        rw [readback?_reduce]
        exact hstep.symm

end Machine

/-- The number of steps that a term can take without contracting a redex, when a variable takes
`w` of them after its look-up. -/
def BoundTerm.work (w : Binder → Nat) : BoundTerm → Nat
  | .var b => 1 + w b
  | .app t s => 3 + work w t + work w s
  | .lam p body => 2 + work (fun b => if p = b then 0 else w b) body

def Environment.work : Environment → Binder → Nat
  | empty, _ => 0
  | value p _ older, b => if p = b then 0 else older.work b
  | thunk p t captured older, b => if p = b then t.work captured.work else older.work b

def Task.work : Task → Nat
  | .reduce t env _ => t.work env.work
  | .apply s env _ => 2 + s.work env.work
  | .buildApp => 1
  | .buildLam _ => 1

namespace Machine

def work (m : Machine) : Nat :=
  (m.tasks.map Task.work).sum

theorem work_thunk {env captured : Environment} {b : Binder} {t : BoundTerm}
    (h : env.lookup? b = some (.thunk t captured)) : env.work b = t.work captured.work := by
  induction env using Environment.extend_induction with
  | empty => cases h
  | extend env p found ih =>
    rw [Environment.lookup?_extend] at h
    cases found with
    | value target =>
      split at h
      · cases h
      · next hp => rw [Environment.extend, Environment.work, if_neg hp, ih h]
    | thunk s e =>
      split at h
      · next hp =>
        cases h
        rw [Environment.extend, Environment.work, if_pos hp]
      · next hp => rw [Environment.extend, Environment.work, if_neg hp, ih h]

theorem Searches.work_lt {m m' : Machine} (h : m.Searches m') : m'.work < m.work := by
  cases h with
  -- The look-up is paid for by the occurrence, the rest by what the variable stands for.
  | thunk h =>
    have hwork := work_thunk h
    simp only [work, List.map_cons, List.sum_cons, Task.work, BoundTerm.work, hwork]
    omega
  | value h =>
    simp only [work, List.map_cons, List.sum_cons, Task.work, BoundTerm.work]
    omega
  | app =>
    simp only [work, List.map_cons, List.sum_cons, Task.work, BoundTerm.work]
    omega
  | closure =>
    simp only [work, List.map_cons, List.sum_cons, Task.work, BoundTerm.work]
    omega
  | @enter p body env tasks values supply tally =>
    have hwork : (Environment.value p (supply.fresh p.name).1 env).work =
        fun b => if p = b then 0 else env.work b := by
      funext b
      rw [Environment.work]
    simp only [work, List.map_cons, List.sum_cons, Task.work, BoundTerm.work, hwork]
    omega
  | argument =>
    simp only [work, List.map_cons, List.sum_cons, Task.work]
    omega
  | buildApp =>
    simp only [work, List.map_cons, List.sum_cons, Task.work]
    omega
  | buildLam =>
    simp only [work, List.map_cons, List.sum_cons, Task.work]
    omega

end Machine

end UntypedLambda
