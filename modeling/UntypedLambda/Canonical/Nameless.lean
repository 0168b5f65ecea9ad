import UntypedLambda.Canonical

namespace UntypedLambda

/-- A term whose bound variables count the abstractions between them and their own. -/
inductive Nameless where
  | bound (index : Nat)
  | free (binder : Binder)
  | app (function argument : Nameless)
  | lam (body : Nameless)
  deriving DecidableEq, Repr

def Nameless.tokens : Nameless → List CanonicalToken
  | bound index => [.bound index]
  | free binder => [.free binder]
  | app function argument => .app :: (function.tokens ++ argument.tokens)
  | lam body => .lam :: body.tokens

namespace BoundTerm

/-- The nameless form of a term below the abstractions of the binders `scope`, innermost first. -/
def nameless (scope : List Binder) : BoundTerm → Nameless
  | .var b =>
    match scope.idxOf? b with
    | some index => .bound index
    | none => .free b
  | .app function argument => .app (nameless scope function) (nameless scope argument)
  | .lam parameter body => .lam (nameless (parameter :: scope) body)

end BoundTerm

namespace CanonicalWalk

structure Below (w : CanonicalWalk) (scope : List Binder) : Prop where
  depth : w.depth = scope.length
  introduced : ∀ b, w.introduced[b]? = (scope.idxOf? b).map fun index => scope.length - 1 - index

theorem below_start : Below {} [] where
  depth := rfl
  introduced b := by simp

theorem idxOf?_lt_length {scope : List Binder} {b : Binder} {index : Nat}
    (h : scope.idxOf? b = some index) : index < scope.length := by
  induction scope generalizing index with
  | nil => simp at h
  | cons c scope ih =>
    rw [List.idxOf?_cons] at h
    split at h
    · cases h
      exact Nat.zero_lt_succ _
    · obtain ⟨i, hi, rfl⟩ := Option.map_eq_some_iff.mp h
      exact Nat.succ_lt_succ (ih hi)

theorem Below.token {w : CanonicalWalk} {scope : List Binder} (h : w.Below scope) (b : Binder) :
    [w.token b] = (BoundTerm.nameless scope (.var b)).tokens := by
  rw [CanonicalWalk.token, BoundTerm.nameless, h.introduced, h.depth]
  cases hi : scope.idxOf? b with
  | none => rfl
  | some index =>
    have hlt := idxOf?_lt_length hi
    simp only [Option.map_some, Nameless.tokens]
    congr 2
    omega

theorem Below.enter {w : CanonicalWalk} {scope : List Binder} (h : w.Below scope) (b : Binder) :
    (w.enter b).Below (b :: scope) where
  depth := by rw [CanonicalWalk.enter, List.length_cons, ← h.depth]
  introduced c := by
    rw [CanonicalWalk.enter, Std.HashMap.getElem?_insert, h.introduced, h.depth, List.idxOf?_cons]
    split
    · simp
    · rw [Option.map_map]
      congr 1
      funext index
      simp only [Function.comp_apply, List.length_cons]
      omega

/-- The innermost open abstraction is left for the scope around it if the entry that it hid is the
one that its binder has there. -/
theorem Below.leave {w : CanonicalWalk} {scope : List Binder} {b : Binder}
    {outer : List (Binder × Option Nat)} (h : w.Below (b :: scope))
    (hidden : w.hidden =
      (b, (scope.idxOf? b).map fun index => scope.length - 1 - index) :: outer) :
    w.leave.Below scope ∧ w.leave.hidden = outer := by
  refine ⟨⟨?_, ?_⟩, by rw [CanonicalWalk.leave, hidden]⟩
  · rw [CanonicalWalk.leave, hidden]
    simp only [h.depth, List.length_cons, Nat.add_sub_cancel]
  · intro c
    rw [introduced_leave hidden]
    split
    · next hbc => rw [hbc]
    · next hbc =>
      -- A binder that is not left belongs to an abstraction nearer now, at the depth it always had.
      have hne : (b == c) = false := by simpa using hbc
      rw [h.introduced, List.idxOf?_cons, hne, if_neg Bool.false_ne_true, Option.map_map]
      congr 1
      funext index
      simp only [Function.comp_apply, List.length_cons]
      omega

/-- Walking through a term puts its nameless form down and changes nothing else. -/
theorem run_events (t : BoundTerm) {w : CanonicalWalk} {scope : List Binder}
    (h : w.Below scope) :
    ∃ w' : CanonicalWalk, w'.Below scope ∧ w'.hidden = w.hidden ∧
      ∀ rest done, w.run (t.events ++ rest) done =
        w'.run rest ((t.nameless scope).tokens.reverse ++ done) := by
  induction t generalizing w scope with
  | var b =>
    refine ⟨w, h, rfl, ?_⟩
    intro rest done
    rw [← h.token b]
    simp [CanonicalWalk.run, CanonicalWalk.next]
  | app t s iht ihs =>
    obtain ⟨w₁, h₁, hidden₁, run₁⟩ := iht h
    obtain ⟨w₂, h₂, hidden₂, run₂⟩ := ihs h₁
    refine ⟨w₂, h₂, hidden₂.trans hidden₁, ?_⟩
    intro rest done
    have hopen : w.run ((Term.app t s).events ++ rest) done =
        w.run (t.events ++ (s.events ++ (Event.closeApp :: rest))) (.app :: done) := by
      simp [CanonicalWalk.run, CanonicalWalk.next]
    have hclose (items : List CanonicalToken) :
        w₂.run (Event.closeApp :: rest) items = w₂.run rest items := by
      simp [CanonicalWalk.run, CanonicalWalk.next]
    rw [hopen, run₁, run₂, hclose, BoundTerm.nameless, Nameless.tokens]
    simp
  | lam b t ih =>
    obtain ⟨w₁, h₁, hidden₁, run₁⟩ := ih (h.enter b)
    rw [enter, h.introduced b] at hidden₁
    have hleave := h₁.leave hidden₁
    refine ⟨w₁.leave, hleave.1, hleave.2, ?_⟩
    intro rest done
    have hopen : w.run ((Term.lam b t).events ++ rest) done =
        (w.enter b).run (t.events ++ (Event.closeLam :: rest)) (.lam :: done) := by
      simp [CanonicalWalk.run, CanonicalWalk.next]
    have hclose (items : List CanonicalToken) :
        w₁.run (Event.closeLam :: rest) items = w₁.leave.run rest items := by
      simp [CanonicalWalk.run, CanonicalWalk.next]
    rw [hopen, run₁, hclose, BoundTerm.nameless, Nameless.tokens]
    simp

end CanonicalWalk

/-- The canonical form of a term is its nameless form, written out. -/
theorem BoundTerm.canonical_eq (t : BoundTerm) : t.canonical = (t.nameless []).tokens := by
  obtain ⟨w, -, -, hrun⟩ := CanonicalWalk.run_events t CanonicalWalk.below_start
  have h := hrun [] []
  rw [List.append_nil, List.append_nil] at h
  rw [BoundTerm.canonical, h, CanonicalWalk.run, List.reverse_reverse]

end UntypedLambda
