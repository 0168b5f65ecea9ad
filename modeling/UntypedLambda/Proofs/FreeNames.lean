import UntypedLambda.Proofs.Scoping

namespace UntypedLambda

structure Apart (shown : Binder → Option Name) (used : List Name) : Prop where
  mem : ∀ b n, shown b = some n → n ∈ used
  inj : ∀ b c n, shown b = some n → shown c = some n → b = c

variable {shown : Binder → Option Name} {used : List Name}

theorem apart_nil : Apart (fun _ => none) [] where
  mem _ _ h := by cases h
  inj _ _ _ h := by cases h

theorem Apart.update (h : Apart shown used) (b : Binder) {n : Name} (hn : n ∉ used) :
    Apart (Function.update shown b (some n)) (n :: used) where
  mem c m hm := by
    rcases update_eq_some_iff.mp hm with ⟨-, rfl⟩ | ⟨-, hc⟩
    · exact List.mem_cons_self
    · exact List.mem_cons_of_mem n (h.mem c m hc)
  inj c d m hc hd := by
    rcases update_eq_some_iff.mp hc with ⟨rfl, rfl⟩ | ⟨-, hold⟩
    · rcases update_eq_some_iff.mp hd with ⟨rfl, -⟩ | ⟨-, hold⟩
      · rfl
      · exact absurd (h.mem d m hold) hn
    · rcases update_eq_some_iff.mp hd with ⟨rfl, rfl⟩ | ⟨-, hold'⟩
      · exact absurd (h.mem c m hold) hn
      · exact h.inj c d m hold hold'

structure Calls (shown : Binder → Option Name) (used : List Name) : Prop extends
    Apart shown used where
  called : ∀ n ∈ used, ∃ b, shown b = some n

theorem calls_nil : Calls (fun _ => none) [] where
  toApart := apart_nil
  called _ h := by cases h

theorem Calls.update (h : Calls shown used) {b : Binder} (hb : shown b = none) {n : Name}
    (hn : n ∉ used) : Calls (Function.update shown b (some n)) (n :: used) where
  toApart := h.toApart.update b hn
  called m hm := by
    rcases List.mem_cons.mp hm with rfl | hm
    · exact ⟨b, update_eq_some_iff.mpr (.inl ⟨rfl, rfl⟩)⟩
    · obtain ⟨c, hc⟩ := h.called m hm
      have hcb : c ≠ b := by
        rintro rfl
        rw [hb] at hc
        cases hc
      exact ⟨c, update_eq_some_iff.mpr (.inr ⟨hcb, hc⟩)⟩

theorem Calls.mem_iff (h : Calls shown used) {n : Name} : n ∈ used ↔ ∃ b, shown b = some n :=
  ⟨h.called n, fun ⟨b, hb⟩ => h.mem b n hb⟩

/-- Where every binder that has a name is free, the free names of the expression are the names in
use. -/
theorem Displays.isFree_iff_mem {t : BoundTerm} {e : Expression} (h : Displays shown used t e)
    (hcalls : Calls shown used) (hfree : ∀ b, (shown b).isSome → t.IsFree b) {n : Name} :
    e.IsFree n ↔ n ∈ used := by
  rw [hcalls.mem_iff]
  constructor
  · intro hn
    obtain ⟨b, -, hb⟩ := h.exists_of_isFree hn
    exact ⟨b, hb⟩
  · rintro ⟨b, hb⟩
    obtain ⟨m, hm, hmfree⟩ := h.exists_isFree hcalls.mem (hfree b (Option.isSome_of_eq_some hb))
    rw [hb] at hm
    cases hm
    exact hmfree

namespace DisplayWalk

variable {w : DisplayWalk}

/-- Naming binders one after the other keeps the names apart, whatever names are asked for. -/
theorem Shows.exists_foldl_nameFree (freeNames : Std.HashMap Binder Name) (bs : List Binder)
    (h : w.Shows shown used) (hcalls : Calls shown used) (hnew : ∀ b ∈ bs, shown b = none)
    (hnodup : bs.Nodup) :
    ∃ shown' used', (bs.foldl (nameFree freeNames) w).Shows shown' used' ∧ Calls shown' used' ∧
      ∀ b, (shown' b).isSome ↔ b ∈ bs ∨ (shown b).isSome := by
  induction bs generalizing w shown used with
  | nil => exact ⟨shown, used, h, hcalls, fun b => by simp⟩
  | cons b bs ih =>
    obtain ⟨hn, hnamed⟩ := h.nameOne freeNames b
    obtain ⟨hb, hnodup⟩ := List.nodup_cons.mp hnodup
    have hlater (c : Binder) (hc : c ∈ bs) :
        Function.update shown b (some (w.pool.draw (freeNames.getD b b.name)).1) c = none := by
      have hcb : c ≠ b := fun heq => hb (heq ▸ hc)
      rw [Function.update_of_ne hcb]
      exact hnew c (List.mem_cons_of_mem b hc)
    obtain ⟨shown', used', hshows, hcalls', hsome⟩ :=
      ih hnamed (hcalls.update (hnew b List.mem_cons_self) hn) hlater hnodup
    refine ⟨shown', used', hshows, hcalls', fun c => ?_⟩
    rw [hsome, Function.update_apply, List.mem_cons]
    by_cases hcb : c = b <;> simp [hcb]

/-- At the start of a walk exactly the free binders have names, and no other names are in use. -/
theorem exists_calls_start (t : BoundTerm) (freeNames : Std.HashMap Binder Name) :
    ∃ shown used, (start t freeNames).Shows shown used ∧ Calls shown used ∧
      ∀ b, (shown b).isSome ↔ t.IsFree b := by
  have hperm := List.filter_append_perm freeNames.contains t.freeBinders
  obtain ⟨shown, used, hshows, hcalls, hsome⟩ :=
    shows_start.exists_foldl_nameFree freeNames (t.freeBinders.filter freeNames.contains ++
      t.freeBinders.filter fun b => !freeNames.contains b) calls_nil (fun _ _ => rfl)
      (hperm.nodup_iff.mpr t.nodup_freeBinders)
  refine ⟨shown, used, hshows, hcalls, fun b => ?_⟩
  rw [hsome, hperm.mem_iff, BoundTerm.mem_freeBinders]
  simp

theorem exists_shows_start (t : BoundTerm) (freeNames : Std.HashMap Binder Name) :
    ∃ shown used, (start t freeNames).Shows shown used ∧ Apart shown used ∧
      ∀ b, (shown b).isSome ↔ t.IsFree b := by
  obtain ⟨shown, used, hshows, hcalls, hsome⟩ := exists_calls_start t freeNames
  exact ⟨shown, used, hshows, hcalls.toApart, hsome⟩

end DisplayWalk

namespace BoundTerm

def freeName (t : BoundTerm) (freeNames : Std.HashMap Binder Name) (b : Binder) : Name :=
  (DisplayWalk.start t freeNames).names.getD b b.name

def renameFree (γ : Binder → Binder) : BoundTerm → BoundTerm
  | .var b => .var (γ b)
  | .app t s => .app (renameFree γ t) (renameFree γ s)
  | .lam p t => .lam p (renameFree (Function.update γ p p) t)

def CapturesNone (t : BoundTerm) (γ : Binder → Binder) : Prop :=
  ∀ b, t.IsFree b → γ b = b ∨ γ b ∉ t.parameters

variable {t : BoundTerm} {γ : Binder → Binder}

theorem replace_renameFree {σ τ : Binder → Nameless} (hγ : t.CapturesNone γ)
    (h : ∀ b, t.IsFree b → τ (γ b) = σ b) : (t.renameFree γ).replace τ = t.replace σ := by
  induction t generalizing γ σ τ with
  | var b => exact h b rfl
  | app t s iht ihs =>
    have ht : CapturesNone t γ := fun b hb =>
      (hγ b (.inl hb)).imp id fun hnot hmem => hnot (List.mem_append_left _ hmem)
    have hs : CapturesNone s γ := fun b hb =>
      (hγ b (.inr hb)).imp id fun hnot hmem => hnot (List.mem_append_right _ hmem)
    exact congrArg₂ Nameless.app (iht ht fun b hb => h b (.inl hb))
      (ihs hs fun b hb => h b (.inr hb))
  | lam p t ih =>
    have hbelow : CapturesNone t (Function.update γ p p) := by
      intro b hb
      by_cases hbp : b = p
      · rw [hbp, Function.update_self]
        exact .inl rfl
      · rw [Function.update_of_ne hbp]
        exact (hγ b ⟨hbp, hb⟩).imp id fun hnot hmem => hnot (List.mem_cons_of_mem p hmem)
    have hmeaning (b : Binder) (hb : t.IsFree b) :
        p.below τ (Function.update γ p p b) = p.below σ b := by
      by_cases hbp : b = p
      · rw [hbp, Function.update_self, Binder.below, Binder.below, if_pos rfl, if_pos rfl]
      · have hne : γ b ≠ p := by
          rcases hγ b ⟨hbp, hb⟩ with heq | hnot
          · rwa [heq]
          · exact fun heq => hnot (heq ▸ List.mem_cons_self)
        rw [Function.update_of_ne hbp, Binder.below, Binder.below, if_neg hne, if_neg hbp,
          h b ⟨hbp, hb⟩]
    exact congrArg Nameless.lam (ih hbelow hmeaning)

theorem alphaEquiv_renameFree {u : BoundTerm} (hγ : t.CapturesNone γ)
    (hu : u.nameless [] = t.replace fun b => .free (γ b)) :
    u.alphaEquiv (t.renameFree γ) = true := by
  rw [alphaEquiv_iff, hu, nameless_eq_replace]
  exact (replace_renameFree hγ fun _ _ => rfl).symm

/-- The free binders of a term are shown by different names, whatever names they are given by
`freeNames`.  Wherever these names stand for binders, the expression means the term with its free
variables replaced by them, so no parameter of the expression captures a name. -/
theorem display_keeps_freeNames (t : BoundTerm) (freeNames : Std.HashMap Binder Name) :
    (∀ b c, t.IsFree b → t.IsFree c → t.freeName freeNames b = t.freeName freeNames c → b = c) ∧
    ∀ (env : Environment) (γ : Binder → Binder) (supply : Supply),
      (∀ b, t.IsFree b → env.newest? (t.freeName freeNames b) = some (γ b)) →
      ∃ u rest, (t.display freeNames).resolve env supply = (.ok u, rest) ∧
        u.nameless [] = (t.replace fun b => .free (γ b)) ∧
        (t.CapturesNone γ → u.alphaEquiv (t.renameFree γ) = true) := by
  obtain ⟨shown, used, hshows, hapart, hsome⟩ := DisplayWalk.exists_shows_start t freeNames
  have hname (b : Binder) (n : Name) (hn : shown b = some n) : t.freeName freeNames b = n := by
    rw [freeName, Std.HashMap.getD_eq_getD_getElem?, hshows.names, hn]
    rfl
  constructor
  · intro b c hb hc heq
    obtain ⟨n, hn⟩ := Option.isSome_iff_exists.mp ((hsome b).mpr hb)
    obtain ⟨m, hm⟩ := Option.isSome_iff_exists.mp ((hsome c).mpr hc)
    rw [hname b n hn, hname c m hm] at heq
    exact hapart.inj b c n hn (heq ▸ hm)
  · intro env γ supply henv
    have hdisplays : Displays shown used t (t.display freeNames) :=
      displays_of_shows_start hshows fun b => (hsome b).mpr
    have hmeaning : (t.display freeNames).nameless? env.newest? [] =
        some (t.replace fun b => .free (γ b)) := by
      apply hdisplays.nameless?_eq
      intro b n hn
      have hb : t.IsFree b := (hsome b).mp (Option.isSome_iff_exists.mpr ⟨n, hn⟩)
      refine ⟨hapart.mem b n hn, ?_⟩
      rw [Expression.meaning?, ← hname b n hn, henv b hb]
      rfl
    obtain ⟨u, hu, heq⟩ := Expression.exists_resolve_eq_ok hmeaning supply
    exact ⟨u, _, Prod.ext hu rfl, heq, fun hγ => alphaEquiv_renameFree hγ heq⟩

def namesakes : BoundTerm :=
  .app (.app (.var ⟨1, ⟨"n"⟩⟩) (.var ⟨2, ⟨"n"⟩⟩))
    (.lam ⟨1, ⟨"n"⟩⟩ (.lam ⟨1, ⟨"n"⟩⟩ (.app (.var ⟨1, ⟨"n"⟩⟩) (.var ⟨2, ⟨"n"⟩⟩))))

/-- Both of the free binders are to be called `m`. -/
theorem display_keeps_freeNames_of_namesakes :
    let a : Binder := ⟨1, ⟨"n"⟩⟩
    let b : Binder := ⟨2, ⟨"n"⟩⟩
    let freeNames := ((∅ : Std.HashMap Binder Name).insert a ⟨"m"⟩).insert b ⟨"m"⟩
    let a' : Binder := ⟨3, freeName namesakes freeNames a⟩
    let b' : Binder := ⟨4, freeName namesakes freeNames b⟩
    a'.name ≠ b'.name ∧
    ∃ u rest, (display namesakes freeNames).resolve (.value a' a' (.value b' b' .empty)) ⟨5⟩ =
        (.ok u, rest) ∧
      u.alphaEquiv (.app (.app (.var a') (.var b'))
        (.lam a (.lam a (.app (.var a) (.var b'))))) = true := by
  intro a b freeNames a' b'
  obtain ⟨hinj, hresolve⟩ := display_keeps_freeNames namesakes freeNames
  have hfree (c : Binder) (hc : Term.IsFree namesakes c) : c = a ∨ c = b := by
    simp only [namesakes, Term.IsFree] at hc
    tauto
  have hab : a ≠ b := by decide
  have hne : a'.name ≠ b'.name := fun h => hab (hinj a b (.inl (.inl rfl)) (.inl (.inr rfl)) h)
  let env : Environment := .value a' a' (.value b' b' .empty)
  let γ : Binder → Binder := fun c => if c = a then a' else b'
  have ha : env.newest? a'.name = some a' := by
    simp [env, Environment.newest?, Environment.lookupName?]
  have hb : env.newest? b'.name = some b' := by
    simp [env, Environment.newest?, Environment.lookupName?, hne]
  have henv (c : Binder) (hc : Term.IsFree namesakes c) :
      env.newest? (freeName namesakes freeNames c) = some (γ c) := by
    rcases hfree c hc with rfl | rfl
    · exact ha
    · exact hb
  have hγ : CapturesNone namesakes γ := by
    intro c _
    refine .inr fun hmem => ?_
    have hserial : (γ c).serial = 1 := by
      have hc : γ c = a := by simpa [namesakes, Term.parameters] using hmem
      exact congrArg Binder.serial hc
    by_cases hca : c = a <;> simp [γ, hca, a', b'] at hserial
  obtain ⟨u, rest, hu, -, hequiv⟩ := hresolve env γ ⟨5⟩ henv
  exact ⟨hne, u, rest, hu, hequiv hγ⟩

end BoundTerm

end UntypedLambda
