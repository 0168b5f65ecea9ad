import Mathlib.Logic.Relator
import UntypedLambda.Proofs.Lockstep
import UntypedLambda.Proofs.Scoping

namespace UntypedLambda

namespace Expression

def referent? (env : Environment) (inner : Name → Option Binder) (n : Name) : Option Binder :=
  (inner n).or (env.newest? n)

def SameReferents (V : Binder → Binder → Prop) (find find' : Name → Option Binder) : Prop :=
  ∀ n, (find n = none ∧ find' n = none) ∨
    ∃ b c, find n = some b ∧ find' n = some c ∧ b.name = n ∧ c.name = n ∧ V b c

variable {env env' : Environment} {inner inner' : Name → Option Binder}
  {V : Binder → Binder → Prop}

theorem referent?_shadow (b : Binder) (n : Name) :
    referent? env (b.shadow inner) n = if b.name = n then some b else referent? env inner n := by
  rw [referent?, Binder.shadow]
  split
  · rfl
  · rfl

theorem SameReferents.shadow (h : SameReferents V (referent? env inner) (referent? env' inner'))
    {p q : Binder} (hpq : p.name = q.name) :
    SameReferents (p.Inside q V) (referent? env (p.shadow inner))
      (referent? env' (q.shadow inner')) := by
  intro n
  rw [referent?_shadow, referent?_shadow]
  by_cases hp : p.name = n
  · have hq : q.name = n := hpq ▸ hp
    rw [if_pos hp, if_pos hq]
    exact .inr ⟨p, q, rfl, rfl, hp, hq, .inl ⟨rfl, rfl⟩⟩
  · have hq : q.name ≠ n := hpq ▸ hp
    rw [if_neg hp, if_neg hq]
    rcases h n with hnone | ⟨b, c, hb, hc, hbn, hcn, hbc⟩
    · exact .inl hnone
    · have hbp : b ≠ p := fun heq => hp (heq ▸ hbn)
      have hcq : c ≠ q := fun heq => hq (heq ▸ hcn)
      exact .inr ⟨b, c, hb, hc, hbn, hcn, .inr ⟨hbp, hcq, hbc⟩⟩

theorem resolveIn_var_eq (n : Name) (supply : Supply) : (resolveIn env inner (.var n) supply).1 =
    match referent? env inner n with
    | some b => .ok (.var b)
    | none => .error (.undefinedName n) := by
  rw [resolveIn, referent?]
  cases inner n with
  | some b => rfl
  | none =>
    rw [Option.none_or, Environment.newest?]
    cases env.lookupName? n with
    | some found => rfl
    | none => rfl

/-- In scopes whose names refer to related binders an expression is resolved to terms that are
alike, or fails at the same name. -/
theorem resolveIn_alike (e : Expression)
    (h : SameReferents V (referent? env inner) (referent? env' inner')) (supply supply' : Supply) :
    Agree (BoundTerm.Alike Eq V) (resolveIn env inner e supply).1
      (resolveIn env' inner' e supply').1 := by
  -- The supplies are arbitrary: no name refers to a binder because of its serial number.
  induction e generalizing V inner inner' supply supply' with
  | var n =>
    rw [resolveIn_var_eq, resolveIn_var_eq]
    rcases h n with ⟨hb, hc⟩ | ⟨b, c, hb, hc, -, -, hbc⟩
    · rw [hb, hc]
      exact .error _
    · rw [hb, hc]
      exact .ok (.var hbc)
  | app e a ihe iha =>
    have hfunction := ihe h supply supply'
    rw [resolveIn, resolveIn]
    cases he : resolveIn env inner e supply with
    | mk result rest =>
      cases he' : resolveIn env' inner' e supply' with
      | mk result' rest' =>
        rw [he, he'] at hfunction
        cases hfunction with
        | error error => exact .error error
        | ok htu =>
          have hargument := iha h rest rest'
          cases ha : resolveIn env inner a rest with
          | mk result rest =>
            cases ha' : resolveIn env' inner' a rest' with
            | mk result' rest' =>
              rw [ha, ha'] at hargument
              simp only [ha, ha']
              cases hargument with
              | error error => exact .error error
              | ok hsv => exact .ok (.app htu hsv)
  | lam n e ih =>
    have hinside : (supply.fresh n).1.name = (supply'.fresh n).1.name := rfl
    have hbody := ih (h.shadow hinside) (supply.fresh n).2 (supply'.fresh n).2
    rw [resolveIn, resolveIn]
    cases he : resolveIn env ((supply.fresh n).1.shadow inner) e (supply.fresh n).2 with
    | mk result rest =>
      cases he' : resolveIn env' ((supply'.fresh n).1.shadow inner') e (supply'.fresh n).2 with
      | mk result' rest' =>
        rw [he, he'] at hbody
        cases hbody with
        | error error => exact .error error
        | ok htu => exact .ok (.lam hinside htu)

end Expression

namespace BoundTerm

variable {V : Binder → Binder → Prop} {t u : BoundTerm}

/-- Terms that are alike are shown by the same expression where their free binders are. -/
theorem Alike.displayIn_eq (h : t.Alike Eq V u) {shown shown' : Binder → Option Name}
    (hshown : ∀ b c, V b c → (shown b).getD b.name = (shown' c).getD c.name) (pool : NamePool) :
    t.displayIn shown pool = u.displayIn shown' pool := by
  induction h generalizing shown shown' pool with
  | var hbc => rw [displayIn, displayIn, hshown _ _ hbc]
  | app _ _ iht ihs => simp only [displayIn, iht hshown, ihs hshown]
  | @lam V p q t u hpq _ ih =>
    rw [displayIn, displayIn, hpq]
    have hbody : t.displayIn (Function.update shown p (some (pool.draw q.name).1))
          (pool.draw q.name).2 =
        u.displayIn (Function.update shown' q (some (pool.draw q.name).1))
          (pool.draw q.name).2 := by
      apply ih
      rintro b c (⟨hb, hc⟩ | ⟨hb, hc, hbc⟩)
      · rw [Function.update_apply, Function.update_apply, if_pos hb, if_pos hc]
        rfl
      · rw [Function.update_apply, Function.update_apply, if_neg hb, if_neg hc]
        exact hshown b c hbc
    simp only [hbody]

def freeNamesIn (scope : List Binder) : BoundTerm → List Name
  | .var b => if b ∈ scope then [] else [b.name]
  | .app t s => freeNamesIn scope t ++ freeNamesIn scope s
  | .lam p t => freeNamesIn (p :: scope) t

theorem map_name_free?_tokens (t : BoundTerm) (scope : List Binder) :
    ((t.nameless scope).tokens.filterMap CanonicalToken.free?).map Binder.name =
      t.freeNamesIn scope := by
  induction t generalizing scope with
  | var b =>
    rw [nameless, freeNamesIn]
    cases hb : scope.idxOf? b with
    | none =>
      rw [if_neg (List.idxOf?_eq_none_iff.mp hb)]
      rfl
    | some i =>
      have hmem : b ∈ scope := by
        by_contra hnot
        rw [List.idxOf?_eq_none_iff.mpr hnot] at hb
        cases hb
      rw [if_pos hmem]
      rfl
  | app t s iht ihs =>
    rw [freeNamesIn, ← iht, ← ihs, ← List.map_append, ← List.filterMap_append]
    rfl
  | lam p t ih =>
    rw [freeNamesIn, ← ih]
    rfl

theorem Alike.freeNamesIn_eq (h : t.Alike Eq V u) {scope scope' : List Binder}
    (hV : ∀ b c, V b c → b.name = c.name ∧ (b ∈ scope ↔ c ∈ scope')) :
    t.freeNamesIn scope = u.freeNamesIn scope' := by
  induction h generalizing scope scope' with
  | var hbc =>
    obtain ⟨hname, hmem⟩ := hV _ _ hbc
    rw [freeNamesIn, freeNamesIn, hname]
    exact if_congr hmem rfl rfl
  | app _ _ iht ihs => rw [freeNamesIn, freeNamesIn, iht hV, ihs hV]
  | lam hpq _ ih =>
    apply ih
    rintro b c (⟨rfl, rfl⟩ | ⟨hb, hc, hbc⟩)
    · exact ⟨hpq, iff_of_true List.mem_cons_self List.mem_cons_self⟩
    · obtain ⟨hname, hmem⟩ := hV b c hbc
      refine ⟨hname, ?_⟩
      rw [List.mem_cons, List.mem_cons, or_iff_right hb, or_iff_right hc, hmem]

theorem map_name_eraseDups {bs : List Binder}
    (h : ∀ b ∈ bs, ∀ c ∈ bs, b.name = c.name → b = c) :
    bs.eraseDups.map Binder.name = (bs.map Binder.name).eraseDups := by
  induction bs using eraseDups_induction with
  | nil => rfl
  | cons b bs ih =>
    have hrest : ∀ c ∈ bs.filter fun c => !c == b, c ∈ b :: bs :=
      fun c hc => List.mem_cons_of_mem b (List.mem_of_mem_filter hc)
    rw [List.eraseDups_cons, List.map_cons, List.map_cons, List.eraseDups_cons,
      ih fun c hc d hd => h c (hrest c hc) d (hrest d hd), List.filter_map]
    congr 3
    apply List.filter_congr
    intro c hc
    have hiff : c = b ↔ c.name = b.name :=
      ⟨congrArg _, h c (List.mem_cons_of_mem b hc) b List.mem_cons_self⟩
    simp [hiff]

variable {freeNames freeNames' : Std.HashMap Binder Name}

theorem NamedApart.map_name_freeBinders (h : t.NamedApart freeNames) :
    t.freeBinders.map Binder.name = (t.freeNamesIn []).eraseDups := by
  rw [freeBinders, map_name_eraseDups, canonical_eq, map_name_free?_tokens]
  intro b hb c hc
  exact h.distinct b c (mem_freeBinders.mp (List.mem_eraseDups.mpr hb))
    (mem_freeBinders.mp (List.mem_eraseDups.mpr hc))

/-- The free binders get their own names, in the order of the text. -/
theorem NamedApart.display_eq (h : t.NamedApart freeNames) :
    ∃ shown : Binder → Option Name, (∀ b, (shown b).getD b.name = b.name) ∧
      t.display freeNames = (t.displayIn shown ((t.freeNamesIn []).eraseDups.foldl
        (fun pool n => (pool.draw n).2) {})).1 := by
  have hnames : ∀ b ∈ t.freeBinders, freeNames.getD b b.name = b.name :=
    fun b hb => h.getD_eq (mem_freeBinders.mp hb)
  have hnodup : (t.freeBinders.map Binder.name).Nodup := by
    apply t.nodup_freeBinders.map_on
    intro b hb c hc
    exact h.distinct b c (mem_freeBinders.mp hb) (mem_freeBinders.mp hc)
  have hshows := DisplayWalk.shows_start.foldl_nameFree t.freeBinders hnames hnodup
    fun _ _ hmem => by cases hmem
  rw [← h.start_eq] at hshows
  refine ⟨fun b => if b ∈ t.freeBinders then some b.name else none, ?_, ?_⟩
  · intro b
    dsimp only
    split <;> rfl
  · rw [display_eq_displayIn hshows, h.start_eq, DisplayWalk.pool_foldl_nameFree hnames,
      h.map_name_freeBinders]

/-- Terms that are alike are shown by the same expression if their free binders have the same
names. -/
theorem Alike.display_eq (h : t.Alike Eq V u) (hV : ∀ b c, V b c → b.name = c.name)
    (ht : t.NamedApart freeNames) (hu : u.NamedApart freeNames') :
    t.display freeNames = u.display freeNames' := by
  obtain ⟨shown, hshown, hdisplay⟩ := ht.display_eq
  obtain ⟨shown', hshown', hdisplay'⟩ := hu.display_eq
  have hfree : t.freeNamesIn [] = u.freeNamesIn [] :=
    h.freeNamesIn_eq fun b c hbc => ⟨hV b c hbc, by simp⟩
  have hcalled : ∀ b c, V b c → (shown b).getD b.name = (shown' c).getD c.name := by
    intro b c hbc
    rw [hshown, hshown', hV b c hbc]
  rw [hdisplay, hdisplay', hfree, h.displayIn_eq hcalled]

/-- Related terms are alike, if each binder of one is related to one binder of the other. -/
theorem alike_of_related {R : Binder → Binder → Prop} (hunique : Relator.BiUnique R)
    (hname : ∀ b c, R b c → b.name = c.name) (h : t.Related R u)
    (hV : ∀ b c, R b c → V b c) : t.Alike Eq V u := by
  induction h generalizing V with
  | var hbc => exact .var (hV _ _ hbc)
  | app _ _ iht ihs => exact .app (iht hV) (ihs hV)
  | @lam p q t u hpq _ ih =>
    refine .lam (hname p q hpq) (ih ?_)
    intro b c hbc
    have hiff : b = p ↔ c = q := Relator.rel_eq hunique hbc hpq
    by_cases hb : b = p
    · exact .inl ⟨hb, hiff.mp hb⟩
    · exact .inr ⟨hb, mt hiff.mpr hb, hV b c hbc⟩

/-- Terms without free variables whose binders have the same names are shown by the same
expression. -/
theorem display_eq_of_related {R : Binder → Binder → Prop} (hunique : Relator.BiUnique R)
    (hname : ∀ b c, R b c → b.name = c.name) (h : t.Related R u) (ht : ∀ b, ¬ t.IsFree b)
    (hu : ∀ b, ¬ u.IsFree b) (freeNames freeNames' : Std.HashMap Binder Name) :
    t.display freeNames = u.display freeNames' :=
  (alike_of_related hunique hname h fun _ _ => id).display_eq hname
    (namedApart_of_closed ht freeNames) (namedApart_of_closed hu freeNames')

end BoundTerm

theorem Binder.eq_of_serial_of_name {b c : Binder} (hserial : b.serial = c.serial)
    (hname : b.name = c.name) : b = c := by
  cases b
  cases c
  cases hserial
  cases hname
  rfl

def Binder.Drawn (s s' : Supply) (b c : Binder) : Prop :=
  b.name = c.name ∧ ∃ k, b.serial = s.next + k ∧ c.serial = s'.next + k

theorem Binder.biUnique_drawn (s s' : Supply) : Relator.BiUnique (Drawn s s') := by
  constructor
  · intro b b' c hbc hbc'
    obtain ⟨hname, k, hb, hc⟩ := hbc
    obtain ⟨hname', k', hb', hc'⟩ := hbc'
    have hserial : b.serial = b'.serial := by omega
    exact Binder.eq_of_serial_of_name hserial (hname.trans hname'.symm)
  · intro b c c' hbc hbc'
    obtain ⟨hname, k, hb, hc⟩ := hbc
    obtain ⟨hname', k', hb', hc'⟩ := hbc'
    have hserial : c.serial = c'.serial := by omega
    exact Binder.eq_of_serial_of_name hserial (hname.symm.trans hname')

theorem Supply.alike_drawn (s s' : Supply) : s.Alike Eq (Binder.Drawn s s') s' := by
  rintro k n _ rfl
  exact ⟨rfl, k, rfl, rfl⟩

end UntypedLambda
