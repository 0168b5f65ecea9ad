import Mathlib.Logic.Function.Basic
import UntypedLambda.Canonical.Nameless
import UntypedLambda.Proofs.Naming
import UntypedLambda.Proofs.OnePass
import UntypedLambda.Proofs.Replacement

namespace UntypedLambda

/-- The expression shows a term whose free binders have the names `shown`.  No parameter has a name
among those `used` around it, and it has that of its binder, or one made from it if that is used. -/
inductive Displays : (Binder → Option Name) → List Name → BoundTerm → Expression → Prop
  | var {shown : Binder → Option Name} {used : List Name} {b : Binder} {n : Name} :
    shown b = some n → Displays shown used (.var b) (.var n)
  | app {shown : Binder → Option Name} {used : List Name} {t s : BoundTerm} {e a : Expression} :
    Displays shown used t e → Displays shown used s a → Displays shown used (.app t s) (.app e a)
  | lam {shown : Binder → Option Name} {used : List Name} {b : Binder} {t : BoundTerm} {n : Name}
    {e : Expression} :
    n ∉ used → (n = b.name ∨ b.name ∈ used ∧ ∃ i, n = b.name.numbered i) →
      Displays (Function.update shown b (some n)) (n :: used) t e →
      Displays shown used (.lam b t) (.lam n e)

/-- A name is that of the binder that was named last, or that of another binder before. -/
theorem update_eq_some_iff {shown : Binder → Option Name} {b c : Binder} {n m : Name} :
    Function.update shown b (some n) c = some m ↔ c = b ∧ m = n ∨ c ≠ b ∧ shown c = some m := by
  by_cases hc : c = b
  · simp [hc, eq_comm]
  · simp [hc]

def Expression.Unshadowed : List Name → Expression → Prop
  | _, .var _ => True
  | used, .app e a => Unshadowed used e ∧ Unshadowed used a
  | used, .lam n e => n ∉ used ∧ Unshadowed (n :: used) e

theorem Displays.unshadowed {shown : Binder → Option Name} {used : List Name} {t : BoundTerm}
    {e : Expression} (h : Displays shown used t e) : e.Unshadowed used := by
  induction h with
  | var _ => trivial
  | app _ _ ihe iha => exact ⟨ihe, iha⟩
  | lam hn _ _ ih => exact ⟨hn, ih⟩

/-- A term in which no parameter hides a name is shown by the names that it has. -/
theorem Displays.eq_map_name {shown : Binder → Option Name} {used : List Name} {t : BoundTerm}
    {e : Expression} (h : Displays shown used t e)
    (hshown : ∀ b, t.IsFree b → shown b = some b.name)
    (ht : Expression.Unshadowed used (t.map Binder.name)) : e = t.map Binder.name := by
  induction h with
  | @var _ _ b n hn =>
    have hb := hshown b rfl
    rw [hn] at hb
    exact congrArg Term.var (Option.some.inj hb)
  | app _ _ ihe iha =>
    rw [Term.map, ← ihe (fun b hb => hshown b (.inl hb)) ht.1,
      ← iha (fun b hb => hshown b (.inr hb)) ht.2]
  | @lam shown used b t n e _ hname _ ih =>
    obtain rfl | ⟨hused, -⟩ := hname
    · have hbody : ∀ c, t.IsFree c → Function.update shown b (some b.name) c = some c.name := by
        intro c hc
        rw [Function.update_apply]
        split
        · next hcb => rw [hcb]
        · next hcb => exact hshown c ⟨hcb, hc⟩
      rw [Term.map, ← ih hbody ht.2]
    · exact absurd hused ht.1

/-- A free binder is shown by a name that is free, as no parameter has a name that is in use. -/
theorem Displays.exists_isFree {shown : Binder → Option Name} {used : List Name} {t : BoundTerm}
    {e : Expression} (h : Displays shown used t e) (hshown : ∀ b n, shown b = some n → n ∈ used)
    {b : Binder} (hb : t.IsFree b) : ∃ n, shown b = some n ∧ e.IsFree n := by
  induction h with
  | @var _ _ c n hn =>
    have hbc : b = c := hb
    exact ⟨n, hbc ▸ hn, rfl⟩
  | app _ _ ihe iha =>
    rcases hb with hb | hb
    · obtain ⟨n, hn, hfree⟩ := ihe hshown hb
      exact ⟨n, hn, .inl hfree⟩
    · obtain ⟨n, hn, hfree⟩ := iha hshown hb
      exact ⟨n, hn, .inr hfree⟩
  | @lam shown used p t n e hn _ _ ih =>
    obtain ⟨hbp, hb⟩ := hb
    have hbody : ∀ c m, Function.update shown p (some n) c = some m → m ∈ n :: used := by
      intro c m hm
      rcases update_eq_some_iff.mp hm with ⟨-, rfl⟩ | ⟨-, hc⟩
      · exact List.mem_cons_self
      · exact List.mem_cons_of_mem n (hshown c m hc)
    obtain ⟨m, hm, hfree⟩ := ih hbody hb
    rw [Function.update_of_ne hbp] at hm
    have hne : m ≠ n := fun heq => hn (heq ▸ hshown b m hm)
    exact ⟨m, hm, hne, hfree⟩

/-- Only free binders are shown by free names. -/
theorem Displays.exists_of_isFree {shown : Binder → Option Name} {used : List Name} {t : BoundTerm}
    {e : Expression} (h : Displays shown used t e) {n : Name} (hn : e.IsFree n) :
    ∃ b, t.IsFree b ∧ shown b = some n := by
  induction h with
  | @var _ _ b m hm =>
    cases hn
    exact ⟨b, rfl, hm⟩
  | app _ _ ihe iha =>
    rcases hn with hn | hn
    · obtain ⟨b, hb, hshown⟩ := ihe hn
      exact ⟨b, .inl hb, hshown⟩
    · obtain ⟨b, hb, hshown⟩ := iha hn
      exact ⟨b, .inr hb, hshown⟩
  | lam _ _ _ ih =>
    obtain ⟨hne, hn⟩ := hn
    obtain ⟨c, hc, hshown⟩ := ih hn
    rcases update_eq_some_iff.mp hshown with ⟨-, heq⟩ | ⟨hcb, hold⟩
    · exact absurd heq hne
    · exact ⟨c, ⟨hcb, hc⟩, hold⟩

def BoundTerm.displayIn (shown : Binder → Option Name) (pool : NamePool) :
    BoundTerm → Expression × NamePool
  | .var b => (.var ((shown b).getD b.name), pool)
  | .app t s =>
    let (e, pool) := displayIn shown pool t
    let (a, pool) := displayIn shown pool s
    (.app e a, pool)
  | .lam b t =>
    let (n, pool) := pool.draw b.name
    let (e, pool) := displayIn (Function.update shown b (some n)) pool t
    (.lam n e, pool.putBack n)

theorem BoundTerm.displays_displayIn {shown : Binder → Option Name} {used : List Name}
    {pool : NamePool} (t : BoundTerm) (hpool : pool.Holds used)
    (hshown : ∀ b, t.IsFree b → (shown b).isSome) :
    Displays shown used t (t.displayIn shown pool).1 ∧
      (t.displayIn shown pool).2.Holds used := by
  induction t generalizing shown used pool with
  | var b =>
    obtain ⟨n, hn⟩ := Option.isSome_iff_exists.mp (hshown b rfl)
    rw [displayIn, hn]
    exact ⟨.var hn, hpool⟩
  | app t s iht ihs =>
    obtain ⟨he, hpool₁⟩ := iht hpool fun b hb => hshown b (.inl hb)
    obtain ⟨ha, hpool₂⟩ := ihs hpool₁ fun b hb => hshown b (.inr hb)
    exact ⟨.app he ha, hpool₂⟩
  | lam b t ih =>
    obtain ⟨hn, hdrawn⟩ := hpool.draw b.name
    have hbody : ∀ c, t.IsFree c →
        (Function.update shown b (some (pool.draw b.name).1) c).isSome := by
      intro c hc
      rw [Function.update_apply]
      split
      · rfl
      · next hne => exact hshown c ⟨hne, hc⟩
    obtain ⟨he, hpool₁⟩ := ih hdrawn hbody
    exact ⟨.lam hn (hpool.draw_name b.name) he, hpool₁.putBack hn⟩

namespace DisplayWalk

structure Shows (w : DisplayWalk) (shown : Binder → Option Name) (used : List Name) : Prop where
  names : ∀ b, w.names[b]? = shown b
  pool : w.pool.Holds used

variable {w : DisplayWalk} {shown : Binder → Option Name} {used : List Name} {b : Binder}

theorem shows_start : Shows {} (fun _ => none) [] where
  names b := by simp
  pool := NamePool.holds_empty

theorem getElem?_insert_names {names : Std.HashMap Binder Name} (h : ∀ c, names[c]? = shown c)
    (b : Binder) (n : Name) (c : Binder) :
    (names.insert b n)[c]? = Function.update shown b (some n) c := by
  rw [Function.update_apply, Std.HashMap.getElem?_insert, ← h]
  by_cases hc : c = b
  · simp [hc]
  · simp [hc, Ne.symm hc]

theorem Shows.enter (h : w.Shows shown used) (b : Binder) :
    (w.enter b).1 ∉ used ∧
      (w.enter b).2.Shows (Function.update shown b (some (w.enter b).1))
        ((w.enter b).1 :: used) ∧
      (w.enter b).2.hidden = (b, (w.enter b).1, shown b) :: w.hidden := by
  have hdraw := h.pool.draw b.name
  refine ⟨hdraw.1, ⟨getElem?_insert_names h.names b _, hdraw.2⟩, ?_⟩
  rw [DisplayWalk.enter, h.names]

theorem Shows.leave {n : Name} {outer : List (Binder × Name × Option Name)} (hn : n ∉ used)
    (h : w.Shows (Function.update shown b (some n)) (n :: used))
    (hidden : w.hidden = (b, n, shown b) :: outer) :
    w.leave.Shows shown used ∧ w.leave.hidden = outer := by
  have hleave : w.leave.pool = w.pool.putBack n ∧ w.leave.hidden = outer := by
    rw [DisplayWalk.leave, hidden]
    exact ⟨rfl, rfl⟩
  refine ⟨⟨fun c => ?_, hleave.1 ▸ h.pool.putBack hn⟩, hleave.2⟩
  rw [names_leave hidden, h.names, Function.update_apply]
  split
  · next hbc => rw [hbc]
  · next hbc => rw [if_neg (Ne.symm hbc)]

/-- Walking through a term puts down what it is shown by, and then everything is called as
before. -/
theorem Shows.run_events (t : BoundTerm) (h : w.Shows shown used) :
    ∃ w' : DisplayWalk, w'.Shows shown used ∧ w'.hidden = w.hidden ∧
      w'.pool = (t.displayIn shown w.pool).2 ∧
      ∀ rest done, w.run (t.events ++ rest) done =
        w'.run rest ((t.displayIn shown w.pool).1.events.reverse ++ done) := by
  -- What the walk knows is the same behind every part, so the induction is over the term.
  induction t generalizing w shown used with
  | var b =>
    refine ⟨w, h, rfl, rfl, ?_⟩
    intro rest done
    have hname : w.names.getD b b.name = (shown b).getD b.name := by
      rw [Std.HashMap.getD_eq_getD_getElem?, h.names]
    simp [run, next, BoundTerm.displayIn, hname]
  | app t s iht ihs =>
    obtain ⟨w₁, h₁, hidden₁, pool₁, run₁⟩ := iht h
    obtain ⟨w₂, h₂, hidden₂, pool₂, run₂⟩ := ihs h₁
    rw [pool₁] at pool₂ run₂
    refine ⟨w₂, h₂, hidden₂.trans hidden₁, pool₂, ?_⟩
    intro rest done
    rw [run_app, run₁, run₂]
    simp [run, next, BoundTerm.displayIn]
  | lam b t ih =>
    obtain ⟨hn, henter, hhidden⟩ := h.enter b
    obtain ⟨w₁, h₁, hidden₁, pool₁, run₁⟩ := ih henter
    have hhidden₁ := hidden₁.trans hhidden
    obtain ⟨hleave, hhidden₂⟩ := h₁.leave hn hhidden₁
    refine ⟨w₁.leave, hleave, hhidden₂, ?_, ?_⟩
    · rw [DisplayWalk.leave, hhidden₁, pool₁]
      rfl
    · intro rest done
      have hlam : (BoundTerm.displayIn shown w.pool (.lam b t)).1 =
          .lam (w.enter b).1 (BoundTerm.displayIn
            (Function.update shown b (some (w.enter b).1)) (w.enter b).2.pool t).1 := rfl
      rw [run_lam, run₁, hlam]
      simp [run, next]

/-- A free binder gets a name that was not in use. -/
theorem Shows.nameOne (h : w.Shows shown used) (freeNames : Std.HashMap Binder Name)
    (b : Binder) :
    (w.pool.draw (freeNames.getD b b.name)).1 ∉ used ∧
      (nameFree freeNames w b).Shows
        (Function.update shown b (some (w.pool.draw (freeNames.getD b b.name)).1))
        ((w.pool.draw (freeNames.getD b b.name)).1 :: used) := by
  have hdraw := h.pool.draw (freeNames.getD b b.name)
  exact ⟨hdraw.1, getElem?_insert_names h.names b _, hdraw.2⟩

/-- Binders whose names are different and not in use yet are called by their names. -/
theorem Shows.foldl_nameFree {freeNames : Std.HashMap Binder Name} (bs : List Binder)
    (h : w.Shows shown used) (hnames : ∀ b ∈ bs, freeNames.getD b b.name = b.name)
    (hne : (bs.map Binder.name).Nodup) (hused : ∀ b ∈ bs, b.name ∉ used) :
    (bs.foldl (nameFree freeNames) w).Shows (fun b => if b ∈ bs then some b.name else shown b)
      ((bs.map Binder.name).reverse ++ used) := by
  induction bs generalizing w shown used with
  | nil => simpa using h
  | cons b bs ih =>
    have hb : b.name ∉ used := hused b List.mem_cons_self
    have hne' : b.name ∉ bs.map Binder.name ∧ (bs.map Binder.name).Nodup :=
      List.nodup_cons.mp hne
    have hname : freeNames.getD b b.name = b.name := hnames b List.mem_cons_self
    have hfirst : (nameFree freeNames w b).Shows (Function.update shown b (some b.name))
        (b.name :: used) := by
      have hnamed := (h.nameOne freeNames b).2
      rwa [hname, h.pool.draw_of_not_mem hb] at hnamed
    have hused' : ∀ c ∈ bs, c.name ∉ b.name :: used := by
      intro c hc hmem
      rcases List.mem_cons.mp hmem with heq | hmem
      · exact hne'.1 (heq ▸ List.mem_map_of_mem hc)
      · exact hused c (List.mem_cons_of_mem b hc) hmem
    have hrest := ih hfirst (fun c hc => hnames c (List.mem_cons_of_mem b hc)) hne'.2 hused'
    have hshown : (fun c => if c ∈ bs then some c.name
          else Function.update shown b (some b.name) c) =
        fun c => if c ∈ b :: bs then some c.name else shown c := by
      funext c
      rw [Function.update_apply]
      by_cases hc : c ∈ bs
      · simp [hc]
      · by_cases hcb : c = b
        · simp [hcb]
        · simp [hc, hcb]
    rw [hshown] at hrest
    simpa using hrest

theorem pool_foldl_nameFree {freeNames : Std.HashMap Binder Name} {bs : List Binder}
    (h : ∀ b ∈ bs, freeNames.getD b b.name = b.name) (w : DisplayWalk) :
    (bs.foldl (nameFree freeNames) w).pool =
      (bs.map Binder.name).foldl (fun pool n => (pool.draw n).2) w.pool := by
  induction bs generalizing w with
  | nil => rfl
  | cons b bs ih =>
    rw [List.foldl_cons, ih fun c hc => h c (List.mem_cons_of_mem b hc), List.map_cons,
      List.foldl_cons, nameFree, h b List.mem_cons_self]

end DisplayWalk

namespace BoundTerm

theorem free_mem_tokens_nameless {t : BoundTerm} {scope : List Binder} {b : Binder} :
    .free b ∈ (t.nameless scope).tokens ↔ t.IsFree b ∧ b ∉ scope := by
  induction t generalizing scope with
  | var c =>
    rw [nameless]
    cases hc : scope.idxOf? c with
    | none =>
      have hnot : c ∉ scope := List.idxOf?_eq_none_iff.mp hc
      simp only [Nameless.tokens, List.mem_singleton, CanonicalToken.free.injEq, Term.IsFree]
      constructor
      · intro h
        exact ⟨h, h ▸ hnot⟩
      · exact And.left
    | some i =>
      have hmem : c ∈ scope := by
        by_contra hnot
        rw [List.idxOf?_eq_none_iff.mpr hnot] at hc
        cases hc
      constructor
      · intro h
        cases h with
        | tail _ h => cases h
      · rintro ⟨hfree, hnot⟩
        have heq : b = c := hfree
        exact absurd hmem (heq ▸ hnot)
  | app t s iht ihs =>
    simp only [nameless, Nameless.tokens, List.mem_cons, List.mem_append, iht, ihs, Term.IsFree,
      reduceCtorEq, false_or, or_and_right]
  | lam c t ih =>
    simp only [nameless, Nameless.tokens, List.mem_cons, ih, Term.IsFree, reduceCtorEq, false_or,
      not_or, and_left_comm, and_assoc]

theorem free_mem_canonical {t : BoundTerm} {b : Binder} : .free b ∈ t.canonical ↔ t.IsFree b := by
  rw [canonical_eq, free_mem_tokens_nameless]
  exact and_iff_left List.not_mem_nil

theorem mem_freeBinders {t : BoundTerm} {b : Binder} : b ∈ t.freeBinders ↔ t.IsFree b := by
  have htoken (token : CanonicalToken) : token.free? = some b ↔ token = .free b := by
    cases token <;> simp [CanonicalToken.free?]
  rw [freeBinders, List.mem_eraseDups, List.mem_filterMap, ← free_mem_canonical]
  constructor
  · rintro ⟨token, hmem, htok⟩
    exact (htoken token).mp htok ▸ hmem
  · intro hmem
    exact ⟨.free b, hmem, rfl⟩

/-- What removing repetitions leaves is the first element, and what it leaves of the others. -/
@[elab_as_elim]
theorem eraseDups_induction {P : List Binder → Prop} (nil : P [])
    (cons : ∀ b bs, P (bs.filter fun c => !c == b) → P (b :: bs)) (bs : List Binder) : P bs := by
  induction hn : bs.length using Nat.strongRecOn generalizing bs with
  | ind n ih =>
    cases bs with
    | nil => exact nil
    | cons b bs =>
      -- What is left of the tail is no longer a tail, only shorter.
      have hlength : (bs.filter fun c => !c == b).length ≤ bs.length := List.length_filter_le _ _
      rw [List.length_cons] at hn
      exact cons b bs (ih _ (by omega) _ rfl)

theorem nodup_freeBinders (t : BoundTerm) : t.freeBinders.Nodup := by
  have h (bs : List Binder) : bs.eraseDups.Nodup := by
    induction bs using eraseDups_induction with
    | nil => simp
    | cons b bs ih =>
      rw [List.eraseDups_cons, List.nodup_cons]
      refine ⟨?_, ih⟩
      simp
  exact h _

theorem display_eq_displayIn {t : BoundTerm} {freeNames : Std.HashMap Binder Name}
    {shown : Binder → Option Name} {used : List Name}
    (hstart : (DisplayWalk.start t freeNames).Shows shown used) :
    t.display freeNames = (t.displayIn shown (DisplayWalk.start t freeNames).pool).1 := by
  obtain ⟨w, -, -, -, hrun⟩ := hstart.run_events t
  exact display_eq_of_run_append hrun

theorem displays_of_shows_start {t : BoundTerm} {freeNames : Std.HashMap Binder Name}
    {shown : Binder → Option Name} {used : List Name}
    (hstart : (DisplayWalk.start t freeNames).Shows shown used)
    (hshown : ∀ b, t.IsFree b → (shown b).isSome) :
    Displays shown used t (t.display freeNames) := by
  rw [display_eq_displayIn hstart]
  exact (t.displays_displayIn hstart.pool hshown).1

/-- A term whose free binders have different names is shown with these names, and no others are in
use around it. -/
theorem exists_displays_display {t : BoundTerm} {freeNames : Std.HashMap Binder Name}
    (hnames : ∀ b, t.IsFree b → freeNames.getD b b.name = b.name)
    (hne : ∀ b c, t.IsFree b → t.IsFree c → b.name = c.name → b = c) :
    ∃ (shown : Binder → Option Name) (used : List Name),
      (∀ b n, shown b = some n ↔ t.IsFree b ∧ b.name = n) ∧
      (∀ n, n ∈ used ↔ ∃ b, t.IsFree b ∧ b.name = n) ∧
        Displays shown used t (t.display freeNames) := by
  let order := t.freeBinders.filter freeNames.contains ++
    t.freeBinders.filter fun b => !freeNames.contains b
  have hperm : order.Perm t.freeBinders := List.filter_append_perm _ _
  have hfree (b : Binder) : b ∈ order ↔ t.IsFree b := hperm.mem_iff.trans mem_freeBinders
  have hnodup : (order.map Binder.name).Nodup := by
    apply List.Nodup.map_on
    · intro b hb c hc hbc
      exact hne b c ((hfree b).mp hb) ((hfree c).mp hc) hbc
    · exact hperm.nodup_iff.mpr t.nodup_freeBinders
  let shown : Binder → Option Name := fun b => if b ∈ order then some b.name else none
  have hstart : (DisplayWalk.start t freeNames).Shows shown
      ((order.map Binder.name).reverse ++ []) := by
    apply DisplayWalk.shows_start.foldl_nameFree order _ hnodup
    · intro b _ hb
      cases hb
    · intro b hb
      exact hnames b ((hfree b).mp hb)
  have hshown (b : Binder) (n : Name) : shown b = some n ↔ t.IsFree b ∧ b.name = n := by
    by_cases hb : b ∈ order
    · simp [shown, hb, (hfree b).mp hb]
    · simp [shown, hb, mt (hfree b).mpr hb]
  refine ⟨shown, (order.map Binder.name).reverse ++ [], hshown, fun n => ?_,
    displays_of_shows_start hstart fun b hb => ?_⟩
  · simp [hfree]
  · rw [(hshown b b.name).mpr ⟨hb, rfl⟩]
    rfl

theorem displays_display {t : BoundTerm} {freeNames : Std.HashMap Binder Name}
    (hnames : ∀ b, t.IsFree b → freeNames.getD b b.name = b.name)
    (hne : ∀ b c, t.IsFree b → t.IsFree c → b.name = c.name → b = c) :
    ∃ (shown : Binder → Option Name) (used : List Name),
      (∀ b n, shown b = some n → t.IsFree b ∧ n = b.name ∧ n ∈ used) ∧
        Displays shown used t (t.display freeNames) := by
  obtain ⟨shown, used, hshown, hused, hdisplays⟩ := exists_displays_display hnames hne
  refine ⟨shown, used, fun b n hn => ?_, hdisplays⟩
  obtain ⟨hb, rfl⟩ := (hshown b n).mp hn
  exact ⟨hb, rfl, (hused b.name).mpr ⟨b, hb, rfl⟩⟩

structure NamedApart (t : BoundTerm) (freeNames : Std.HashMap Binder Name) : Prop where
  listed : ∀ b, t.IsFree b → freeNames[b]? = some b.name
  distinct : ∀ b c, t.IsFree b → t.IsFree c → b.name = c.name → b = c

theorem namedApart_of_closed {t : BoundTerm} (ht : ∀ b, ¬ t.IsFree b)
    (freeNames : Std.HashMap Binder Name) : t.NamedApart freeNames where
  listed b hb := absurd hb (ht b)
  distinct b _ hb := absurd hb (ht b)

namespace NamedApart

variable {t : BoundTerm} {freeNames : Std.HashMap Binder Name}

theorem getD_eq (h : t.NamedApart freeNames) {b : Binder} (hb : t.IsFree b) :
    freeNames.getD b b.name = b.name := by
  rw [Std.HashMap.getD_eq_getD_getElem?, h.listed b hb]
  rfl

theorem displays_display (h : t.NamedApart freeNames) :
    ∃ (shown : Binder → Option Name) (used : List Name),
      (∀ b n, shown b = some n → t.IsFree b ∧ n = b.name ∧ n ∈ used) ∧
        Displays shown used t (t.display freeNames) :=
  BoundTerm.displays_display (fun _ => h.getD_eq) h.distinct

theorem start_eq (h : t.NamedApart freeNames) : DisplayWalk.start t freeNames =
    t.freeBinders.foldl (DisplayWalk.nameFree freeNames) {} := by
  have hcontains : ∀ b ∈ t.freeBinders, freeNames.contains b = true := by
    intro b hb
    rw [Std.HashMap.contains_eq_isSome_getElem?, h.listed b (mem_freeBinders.mp hb)]
    rfl
  have hall : t.freeBinders.filter freeNames.contains = t.freeBinders :=
    List.filter_eq_self.mpr hcontains
  have hnone : (t.freeBinders.filter fun b => !freeNames.contains b) = [] := by
    apply List.filter_eq_nil_iff.mpr
    intro b hb
    simp [hcontains b hb]
  rw [DisplayWalk.start, hall, hnone, List.append_nil]

end NamedApart

variable {t : BoundTerm} (ht : ∀ b, ¬ t.IsFree b)
include ht

theorem start_of_closed (freeNames : Std.HashMap Binder Name) :
    DisplayWalk.start t freeNames = {} := by
  have hnone : t.freeBinders = [] := by
    apply List.eq_nil_iff_forall_not_mem.mpr
    intro b hb
    exact ht b (mem_freeBinders.mp hb)
  simp [DisplayWalk.start, hnone]

theorem displays_of_closed (freeNames : Std.HashMap Binder Name) :
    Displays (fun _ => none) [] t (t.display freeNames) := by
  apply displays_of_shows_start
  · rw [start_of_closed ht]
    exact DisplayWalk.shows_start
  · intro b hb
    exact absurd hb (ht b)

theorem display_eq_map_name (hnames : Expression.Unshadowed [] (t.map Binder.name))
    (freeNames : Std.HashMap Binder Name) : t.display freeNames = t.map Binder.name :=
  (displays_of_closed ht freeNames).eq_map_name (fun b hb => absurd hb (ht b)) hnames

end BoundTerm

end UntypedLambda
