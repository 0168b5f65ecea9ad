import UntypedLambda.Proofs.Displaying
import UntypedLambda.Resolution.Lexical

namespace UntypedLambda

def Environment.newest? (env : Environment) (n : Name) : Option Binder :=
  (env.lookupName? n).map Prod.fst

theorem Environment.name_of_newest? {env : Environment} {n : Name} {b : Binder}
    (h : env.newest? n = some b) : b.name = n := by
  induction env with
  | empty => cases h
  | value c target older ih =>
    rw [newest?, lookupName?] at h
    split at h
    · next hname =>
      cases h
      exact hname
    · exact ih h
  | thunk c t captured older _ ih =>
    rw [newest?, lookupName?] at h
    split at h
    · next hname =>
      cases h
      exact hname
    · exact ih h

namespace Expression

def meaning? (globals : Name → Option Binder) (scope : List Name) (n : Name) : Option Nameless :=
  match scope.idxOf? n with
  | some i => some (.bound i)
  | none => (globals n).map .free

def nameless? (globals : Name → Option Binder) (scope : List Name) :
    Expression → Option Nameless
  | .var n => meaning? globals scope n
  | .app e a =>
    match nameless? globals scope e, nameless? globals scope a with
    | some t, some s => some (.app t s)
    | _, _ => none
  | .lam n e => (nameless? globals (n :: scope) e).map .lam

variable {globals : Name → Option Binder} {scope : List Name} {n m : Name}

theorem meaning?_cons_self : meaning? globals (n :: scope) n = some (.bound 0) := by
  simp [meaning?, List.idxOf?_cons]

/-- Below one more parameter every other name means the same, one abstraction further out. -/
theorem meaning?_cons_of_ne (h : m ≠ n) :
    meaning? globals (n :: scope) m = (meaning? globals scope m).map Nameless.shift := by
  have hne : (n == m) = false := by simpa using Ne.symm h
  rw [meaning?, meaning?, List.idxOf?_cons, hne, if_neg Bool.false_ne_true]
  cases scope.idxOf? m with
  | some i => rfl
  | none => cases globals m <;> rfl

end Expression

/-- An expression that shows a term means the term, with its free binders replaced by what their
names mean. -/
theorem Displays.nameless?_eq {shown : Binder → Option Name} {used : List Name} {t : BoundTerm}
    {e : Expression} (h : Displays shown used t e) {globals : Name → Option Binder}
    {scope : List Name} {σ : Binder → Nameless}
    (hσ : ∀ b n, shown b = some n → n ∈ used ∧ Expression.meaning? globals scope n = some (σ b)) :
    e.nameless? globals scope = some (t.replace σ) := by
  induction h generalizing scope σ with
  | var hn => exact (hσ _ _ hn).2
  | app _ _ ihe iha => rw [Expression.nameless?, ihe hσ, iha hσ, BoundTerm.replace]
  | @lam shown used b t n e hn _ _ ih =>
    have hbody : ∀ c m, Function.update shown b (some n) c = some m →
        m ∈ n :: used ∧ Expression.meaning? globals (n :: scope) m = some (b.below σ c) := by
      intro c m hm
      rw [Binder.below]
      rcases update_eq_some_iff.mp hm with ⟨hc, rfl⟩ | ⟨hc, hm⟩
      · rw [if_pos hc]
        exact ⟨List.mem_cons_self, Expression.meaning?_cons_self⟩
      · obtain ⟨hused, hmeaning⟩ := hσ c m hm
        have hne : m ≠ n := fun heq => hn (heq ▸ hused)
        rw [if_neg hc, Expression.meaning?_cons_of_ne hne, hmeaning]
        exact ⟨List.mem_cons_of_mem n hused, rfl⟩
    rw [Expression.nameless?, ih hbody, BoundTerm.replace]
    rfl

namespace Expression

variable {env : Environment} {inner : Name → Option Binder} {e : Expression} {t : BoundTerm}
  {supply : Supply}

theorem idxOf?_map_name {cs : List Binder} {n : Name} {b : Binder}
    (h : (cs.find? fun c => c.name = n) = some b) :
    ∃ i, (cs.map Binder.name).idxOf? n = some i ∧ cs.idxOf? b = some i := by
  induction cs with
  | nil => cases h
  | cons c cs ih =>
    rw [List.find?_cons] at h
    by_cases hc : c.name = n
    · have hb : c = b := by simpa [hc] using h
      subst hb
      exact ⟨0, by simp [List.idxOf?_cons, hc], by simp [List.idxOf?_cons]⟩
    · have hfind : (cs.find? fun c => c.name = n) = some b := by simpa [hc] using h
      have hname : b.name = n := by simpa using List.find?_some hfind
      have hne : c ≠ b := fun heq => hc (heq ▸ hname)
      obtain ⟨i, hi, hi'⟩ := ih hfind
      exact ⟨i + 1, by simp [List.idxOf?_cons, hc, hi], by simp [List.idxOf?_cons, hne, hi']⟩

theorem shadow_find? (b : Binder) (cs : List Binder) :
    b.shadow (fun n => cs.find? fun c => c.name = n) =
      fun n => (b :: cs).find? fun c => c.name = n := by
  funext n
  rw [Binder.shadow, List.find?_cons]
  by_cases hb : b.name = n <;> simp [hb]

/-- Resolving an expression below the abstractions of `cs` gives a term of its nameless form, and it
fails only if there is none. -/
theorem nameless?_eq (env : Environment) (e : Expression) (cs : List Binder) (supply : Supply) :
    e.nameless? env.newest? (cs.map Binder.name) =
      (resolveIn env (fun n => cs.find? fun c => c.name = n) e supply).1.toOption.map
        (BoundTerm.nameless cs) := by
  induction e generalizing cs supply with
  | var n =>
    rw [nameless?, meaning?, resolveIn]
    cases hfind : cs.find? fun c => c.name = n with
    | some b =>
      obtain ⟨i, hi, hi'⟩ := idxOf?_map_name hfind
      simp [hi, hi', BoundTerm.nameless, Except.toOption]
    | none =>
      have hnot : ∀ c ∈ cs, c.name ≠ n := by simpa using hfind
      have hscope : (cs.map Binder.name).idxOf? n = none := by
        rw [List.idxOf?_eq_none_iff]
        simpa using hnot
      cases hlookup : env.lookupName? n with
      | none => simp [hscope, Environment.newest?, hlookup, Except.toOption]
      | some found =>
        have hnewest : env.newest? n = some found.1 := by rw [Environment.newest?, hlookup]; rfl
        have hname := Environment.name_of_newest? hnewest
        have hcs : cs.idxOf? found.1 = none := by
          rw [List.idxOf?_eq_none_iff]
          exact fun hmem => hnot found.1 hmem hname
        simp [hscope, hnewest, hcs, BoundTerm.nameless, Except.toOption]
  | app e a ihe iha =>
    rw [nameless?, resolveIn, ihe cs supply]
    cases he : resolveIn env (fun n => cs.find? fun c => c.name = n) e supply with
    | mk result rest =>
      cases result with
      | error error => rfl
      | ok t =>
        rw [iha cs rest]
        cases ha : resolveIn env (fun n => cs.find? fun c => c.name = n) a rest with
        | mk result rest =>
          cases result with
          | error error =>
            simp only [ha]
            rfl
          | ok s =>
            simp only [ha]
            rfl
  | lam n e ih =>
    have hbody := ih ((supply.fresh n).1 :: cs) (supply.fresh n).2
    have hscope : ((supply.fresh n).1 :: cs).map Binder.name = n :: cs.map Binder.name := rfl
    rw [hscope] at hbody
    rw [nameless?, resolveIn, hbody, shadow_find?]
    cases he : resolveIn env (fun n' => ((supply.fresh n).1 :: cs).find? fun c => c.name = n') e
        (supply.fresh n).2 with
    | mk result rest =>
      cases result with
      | error error => rfl
      | ok t => rfl

theorem resolveIn_var {n : Name} (hinner : ∀ m b, inner m = some b → b.name = m)
    (h : (resolveIn env inner (.var n) supply).1 = .ok t) :
    ∃ b, t = .var b ∧ b.name = n ∧ (inner n = some b ∨ env.newest? n = some b) := by
  rw [resolveIn] at h
  cases hn : inner n with
  | some b =>
    rw [hn] at h
    cases h
    exact ⟨b, rfl, hinner n b hn, .inl rfl⟩
  | none =>
    rw [hn] at h
    cases hlookup : env.lookupName? n with
    | none =>
      simp only [hlookup] at h
      cases h
    | some found =>
      simp only [hlookup] at h
      cases h
      have hnewest : env.newest? n = some found.1 := by
        rw [Environment.newest?, hlookup]
        rfl
      exact ⟨found.1, rfl, Environment.name_of_newest? hnewest, .inr hnewest⟩

theorem resolveIn_app {a : Expression} (h : (resolveIn env inner (.app e a) supply).1 = .ok t) :
    ∃ f s, t = .app f s ∧ (resolveIn env inner e supply).1 = .ok f ∧
      (resolveIn env inner a (resolveIn env inner e supply).2).1 = .ok s := by
  rw [resolveIn] at h
  cases he : resolveIn env inner e supply with
  | mk result rest =>
    rw [he] at h
    cases result with
    | error error => cases h
    | ok f =>
      cases ha : resolveIn env inner a rest with
      | mk result rest =>
        simp only [ha] at h
        cases result with
        | error error => cases h
        | ok s =>
          cases h
          exact ⟨f, s, rfl, rfl, rfl⟩

theorem resolveIn_lam {n : Name} (h : (resolveIn env inner (.lam n e) supply).1 = .ok t) :
    ∃ s, t = .lam (supply.fresh n).1 s ∧
      (resolveIn env ((supply.fresh n).1.shadow inner) e (supply.fresh n).2).1 = .ok s := by
  rw [resolveIn] at h
  cases he : resolveIn env ((supply.fresh n).1.shadow inner) e (supply.fresh n).2 with
  | mk result rest =>
    rw [he] at h
    cases result with
    | error error => cases h
    | ok s =>
      cases h
      exact ⟨s, rfl, rfl⟩

theorem name_of_shadow (hinner : ∀ m b, inner m = some b → b.name = m) (c : Binder) (m : Name)
    (b : Binder) (h : c.shadow inner m = some b) : b.name = m := by
  rw [Binder.shadow] at h
  split at h
  · next hm =>
    cases h
    exact hm
  · exact hinner m b h

/-- A free binder of a resolved term is what its name means around the expression. -/
theorem newest?_of_isFree (hinner : ∀ m b, inner m = some b → b.name = m)
    (h : (resolveIn env inner e supply).1 = .ok t) {b : Binder} (hb : t.IsFree b) :
    inner b.name = some b ∨ env.newest? b.name = some b := by
  induction e generalizing inner supply t with
  | var n =>
    obtain ⟨c, rfl, hname, hc⟩ := resolveIn_var hinner h
    cases hb
    rw [hname]
    exact hc
  | app e a ihe iha =>
    obtain ⟨f, s, rfl, hf, hs⟩ := resolveIn_app h
    rcases hb with hb | hb
    · exact ihe hinner hf hb
    · exact iha hinner hs hb
  | lam n e ih =>
    obtain ⟨s, rfl, hs⟩ := resolveIn_lam h
    rcases ih (name_of_shadow hinner _) hs hb.2 with hshadow | hnewest
    · rw [Binder.shadow] at hshadow
      split at hshadow
      · cases hshadow
        exact absurd rfl hb.1
      · exact .inl hshadow
    · exact .inr hnewest

theorem map_name_of_resolveIn (hinner : ∀ m b, inner m = some b → b.name = m)
    (h : (resolveIn env inner e supply).1 = .ok t) : t.map Binder.name = e := by
  induction e generalizing inner supply t with
  | var n =>
    obtain ⟨c, rfl, hname, -⟩ := resolveIn_var hinner h
    rw [Term.map, hname]
  | app e a ihe iha =>
    obtain ⟨f, s, rfl, hf, hs⟩ := resolveIn_app h
    rw [Term.map, ihe hinner hf, iha hinner hs]
  | lam n e ih =>
    obtain ⟨s, rfl, hs⟩ := resolveIn_lam h
    rw [Term.map, ih (name_of_shadow hinner _) hs]
    rfl

theorem next_le_resolveIn (env : Environment) (inner : Name → Option Binder) (e : Expression)
    (supply : Supply) : supply.next ≤ (resolveIn env inner e supply).2.next := by
  induction e generalizing inner supply with
  | var n =>
    rw [resolveIn]
    split
    · exact Nat.le_refl _
    · split <;> exact Nat.le_refl _
  | app e a ihe iha =>
    have he := ihe inner supply
    rw [resolveIn]
    split
    · next heq =>
      rw [heq] at he
      exact he
    · next rest heq =>
      rw [heq] at he
      have ha := iha inner rest
      split
      · next heq' =>
        rw [heq'] at ha
        exact Nat.le_trans he ha
      · next heq' =>
        rw [heq'] at ha
        exact Nat.le_trans he ha
  | lam n e ih =>
    have he := ih ((supply.fresh n).1.shadow inner) (supply.fresh n).2
    have hfresh : supply.next ≤ (supply.fresh n).2.next := Nat.le_succ _
    rw [resolveIn]
    split
    · next heq =>
      rw [heq] at he
      exact Nat.le_trans hfresh he
    · next heq =>
      rw [heq] at he
      exact Nat.le_trans hfresh he

/-- A free binder of a term is the newest one of its name in the environment that the term was
resolved in. -/
theorem newest?_of_resolve (h : (e.resolve env supply).1 = .ok t) {b : Binder} (hb : t.IsFree b) :
    env.newest? b.name = some b := by
  rw [resolve_eq_resolveIn] at h
  rcases newest?_of_isFree (fun _ _ hnone => by cases hnone) h hb with hb | hb
  · cases hb
  · exact hb

theorem map_name_of_resolve (h : (e.resolve env supply).1 = .ok t) : t.map Binder.name = e := by
  rw [resolve_eq_resolveIn] at h
  exact map_name_of_resolveIn (fun _ _ hnone => by cases hnone) h

/-- An expression of which all names mean something can be resolved. -/
theorem exists_resolve_eq_ok {u : Nameless} (h : e.nameless? env.newest? [] = some u)
    (supply : Supply) : ∃ t, (e.resolve env supply).1 = .ok t ∧ t.nameless [] = u := by
  have hresolve := nameless?_eq env e [] supply
  rw [List.map_nil, h] at hresolve
  obtain ⟨t, ht, hu⟩ := Option.map_eq_some_iff.mp hresolve.symm
  refine ⟨t, ?_, hu⟩
  rw [resolve_eq_resolveIn]
  cases hresult : (resolveIn env (fun _ => none) e supply).1 with
  | error error =>
    have hnone : (resolveIn env (fun _ => none) e supply).1.toOption = some t := ht
    rw [hresult] at hnone
    cases hnone
  | ok t' =>
    have hsome : (resolveIn env (fun _ => none) e supply).1.toOption = some t := ht
    rw [hresult] at hsome
    cases hsome
    rfl

theorem next_le_resolve (env : Environment) (e : Expression) (supply : Supply) :
    supply.next ≤ (e.resolve env supply).2.next := by
  rw [resolve_eq_resolveIn]
  exact next_le_resolveIn env _ e supply

end Expression

end UntypedLambda
