import UntypedLambda.Proofs.FreeNames
import UntypedLambda.Proofs.Hints

namespace UntypedLambda

/-- What a parameter called `base` is shown as where the names `visible` mean something: as itself,
or else with a number behind it.  If `exact base` the number is the smallest that makes it none of
them. -/
structure Name.Chosen (exact visible : Name → Prop) (base n : Name) : Prop where
  own : ¬ visible base → n = base
  numbered : visible base → ∃ k, n = base.numbered k ∧ ¬ visible n ∧
    (exact base → ∀ j, j < k → visible (base.numbered j))

inductive Chooses (exact free : Name → Prop) : List Name → BoundTerm → Expression → Prop
  | var {around : List Name} {b : Binder} {n : Name} : Chooses exact free around (.var b) (.var n)
  | app {around : List Name} {t s : BoundTerm} {e a : Expression} :
    Chooses exact free around t e → Chooses exact free around s a →
      Chooses exact free around (.app t s) (.app e a)
  | lam {around : List Name} {b : Binder} {t : BoundTerm} {n : Name} {e : Expression} :
    b.name.Chosen exact (fun m => free m ∨ m ∈ around) n → Chooses exact free (n :: around) t e →
      Chooses exact free around (.lam b t) (.lam n e)

namespace NamePool

variable {pool : NamePool} {used : List Name}

theorem Holds.chosen_draw (h : pool.Holds used) (hhints : pool.HintsHold) (base : Name) :
    base.Chosen (fun m => m ≠ Name.empty) (fun m => m ∈ used) (pool.draw base).1 where
  own hbase := by rw [h.draw_of_not_mem hbase]
  numbered hbase := by
    obtain ⟨k, hk, hsmallest⟩ := hhints.draw_name (h.isTaken_iff.mpr hbase)
    exact ⟨k, hk, (h.draw base).1, fun hne j hj => h.isTaken_iff.mp (hsmallest hne j hj)⟩

end NamePool

namespace DisplayWalk

theorem hintsHold_start (t : BoundTerm) (freeNames : Std.HashMap Binder Name) :
    (start t freeNames).pool.HintsHold := by
  have hfold (bs : List Binder) (w : DisplayWalk) (hw : w.pool.HintsHold) :
      (bs.foldl (nameFree freeNames) w).pool.HintsHold := by
    induction bs generalizing w with
    | nil => exact hw
    | cons b bs ih => exact ih _ (hw.draw (freeNames.getD b b.name))
  exact hfold _ {} NamePool.hintsHold_empty

end DisplayWalk

namespace BoundTerm

/-- Drawing names on the way through a term chooses them, and every name is put back behind its
abstraction. -/
theorem chooses_displayIn {shown : Binder → Option Name} {free : Name → Prop}
    {around used : List Name} {pool : NamePool} (t : BoundTerm) (hpool : pool.Holds used)
    (hhints : pool.HintsHold) (hused : ∀ n, n ∈ used ↔ free n ∨ n ∈ around) :
    Chooses (fun m => m ≠ Name.empty) free around t (t.displayIn shown pool).1 ∧
      (t.displayIn shown pool).2.Holds used ∧ (t.displayIn shown pool).2.HintsHold := by
  induction t generalizing shown around used pool with
  | var b => exact ⟨.var, hpool, hhints⟩
  | app t s iht ihs =>
    obtain ⟨ht, hpool₁, hhints₁⟩ := iht hpool hhints hused
    obtain ⟨hs, hpool₂, hhints₂⟩ := ihs hpool₁ hhints₁ hused
    exact ⟨.app ht hs, hpool₂, hhints₂⟩
  | lam b t ih =>
    obtain ⟨hn, hdrawn⟩ := hpool.draw b.name
    have hbody (n : Name) : n ∈ (pool.draw b.name).1 :: used ↔
        free n ∨ n ∈ (pool.draw b.name).1 :: around := by
      rw [List.mem_cons, List.mem_cons, hused, or_left_comm]
    obtain ⟨ht, hpool₁, hhints₁⟩ := ih hdrawn (hhints.draw b.name) hbody
    have hvisible : (fun m => m ∈ used) = fun m => free m ∨ m ∈ around :=
      funext fun m => propext (hused m)
    exact ⟨.lam (hvisible ▸ hpool.chosen_draw hhints b.name) ht, hpool₁.putBack hn,
      hhints₁.putBack _⟩

/-- The binders that have a name at the start of a walk are the free ones, and the name is the one
that they are shown by. -/
theorem shown_eq_some_iff {shown : Binder → Option Name} {used : List Name} {t : BoundTerm}
    {freeNames : Std.HashMap Binder Name} (h : (DisplayWalk.start t freeNames).Shows shown used)
    (hsome : ∀ b, (shown b).isSome ↔ t.IsFree b) {b : Binder} {n : Name} :
    shown b = some n ↔ t.IsFree b ∧ t.freeName freeNames b = n := by
  have hname : t.freeName freeNames b = (shown b).getD b.name := by
    rw [freeName, Std.HashMap.getD_eq_getD_getElem?, h.names]
  rw [hname, ← hsome]
  cases shown b <;> simp

/-- The free names of what a term is shown as are those of its free binders, and the parameters are
chosen from these names and those of the abstractions around them.  What a parameter with the empty
name is shown as is not one of them either. -/
theorem display_chooses (t : BoundTerm) (freeNames : Std.HashMap Binder Name) :
    (∀ n, (t.display freeNames).IsFree n ↔ ∃ b, t.IsFree b ∧ t.freeName freeNames b = n) ∧
    Chooses (fun base => base ≠ Name.empty) (t.display freeNames).IsFree [] t
      (t.display freeNames) := by
  obtain ⟨shown, used, hshows, hcalls, hsome⟩ := DisplayWalk.exists_calls_start t freeNames
  have hdisplays : Displays shown used t (t.display freeNames) :=
    displays_of_shows_start hshows fun b => (hsome b).mpr
  have hused (n : Name) : (t.display freeNames).IsFree n ↔ n ∈ used :=
    hdisplays.isFree_iff_mem hcalls fun b => (hsome b).mp
  constructor
  · intro n
    rw [hused, hcalls.mem_iff]
    exact exists_congr fun b => shown_eq_some_iff hshows hsome
  · have hvisible (n : Name) :
        n ∈ used ↔ (t.display freeNames).IsFree n ∨ n ∈ ([] : List Name) := by
      rw [hused, or_iff_left List.not_mem_nil]
    have hchooses : Chooses (fun base => base ≠ Name.empty) (t.display freeNames).IsFree [] t
        (t.displayIn shown (DisplayWalk.start t freeNames).pool).1 :=
      (chooses_displayIn t hshows.pool (DisplayWalk.hintsHold_start t freeNames) hvisible).1
    rwa [← display_eq_displayIn hshows] at hchooses

def unnamed : BoundTerm :=
  .app (.lam ⟨1, .empty⟩ (.lam ⟨2, .empty⟩ (.var ⟨2, .empty⟩)))
    (.lam ⟨3, .empty⟩ (.lam ⟨4, .empty⟩ (.var ⟨4, .empty⟩)))

def unnamedShown : Expression :=
  .app (.lam .empty (.lam ⟨"0"⟩ (.var ⟨"0"⟩))) (.lam .empty (.lam ⟨"1"⟩ (.var ⟨"1"⟩)))

theorem display_unnamed (freeNames : Std.HashMap Binder Name) :
    unnamed.display freeNames = unnamedShown := by
  have hclosed : ∀ b, ¬ unnamed.IsFree b := by
    intro b hb
    simp only [unnamed, Term.IsFree] at hb
    rcases hb with ⟨-, hne, heq⟩ | ⟨-, hne, heq⟩ <;> exact hne heq
  have hzero : Name.empty.numbered 0 = ⟨"0"⟩ := rfl
  have hone : Name.empty.numbered 1 = ⟨"1"⟩ := rfl
  have hne₀ : Name.empty ≠ ⟨"0"⟩ := by decide
  have hne₁ : Name.empty ≠ ⟨"1"⟩ := by decide
  have hnumberings₀ (bound : Nat) : Name.numberings ⟨"0"⟩ bound = [] := rfl
  have hnumberings (bound : Nat) : Name.numberings .empty bound = [] := rfl
  apply display_eq_of_run
  rw [start_of_closed hclosed]
  simp [unnamed, unnamedShown, DisplayWalk.run, DisplayWalk.next, DisplayWalk.enter,
    DisplayWalk.leave, NamePool.draw, NamePool.isTaken, NamePool.occupy, NamePool.firstFree,
    NamePool.putBack, Std.HashMap.size_insert, Std.HashMap.size_erase, Std.HashMap.getElem_insert,
    Std.HashMap.getD_insert, Std.HashMap.getD_erase, hzero, hone, hne₀, hne₁, hne₀.symm,
    hne₁.symm, hnumberings₀, hnumberings]

/-- The number behind the empty name is not always the smallest: the number 0, which the first part
has used, is passed over in the second one, where it means nothing. -/
theorem not_chooses_unnamed :
    unnamed.display ∅ = unnamedShown ∧
    ¬ Chooses (fun _ => True) (unnamed.display ∅).IsFree [] unnamed (unnamed.display ∅) := by
  rw [display_unnamed]
  refine ⟨rfl, fun hchooses => ?_⟩
  cases hchooses with
  | app _ hsecond =>
    cases hsecond with
    | lam _ hbody =>
      cases hbody with
      | lam hname _ =>
        obtain ⟨k, hk, -, hsmallest⟩ := hname.numbered (.inr List.mem_cons_self)
        have hone : (⟨"1"⟩ : Name) = Name.empty.numbered 1 := rfl
        have hpos : 0 < k := by
          rw [hone, Name.numbered_inj] at hk
          omega
        rcases hsmallest trivial 0 hpos with hfree | haround
        · simp [unnamedShown, Term.IsFree, Name.empty, Name.numbered] at hfree
        · simp [Name.empty, Name.numbered] at haround

end BoundTerm

end UntypedLambda
