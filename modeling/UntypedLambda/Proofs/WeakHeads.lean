import UntypedLambda.Proofs.OwnBinders

namespace UntypedLambda

namespace Reducer

variable {form : Form} {t body : BoundTerm} {p : Binder} {env captured : Environment}
  {supply mid rest : Supply} {k l k₁ k₂ l₁ l₂ : Nat} {head : Head}

/-- What a reduction comes to is the weak head already, or the normal form of the function that the
weak head is. -/
theorem Evaluates.exists_weakHead (h : Evaluates form t env supply k l head rest) :
    Evaluates .weakHead t env supply k l head rest ∨
    ∃ p body captured mid k₁ k₂ l₁ l₂, k = k₁ + k₂ ∧ l = l₁ + l₂ ∧
      Evaluates .weakHead t env supply k₁ l₁ (.closure p body captured) mid ∧
      Evaluates .normal (.lam p body) captured mid k₂ l₂ head rest := by
  induction h with
  | thunk hlookup _ ih =>
    rcases ih with hhead | ⟨p, body, e, mid, k₁, k₂, l₁, l₂, rfl, rfl, hclosure, hnormal⟩
    · exact .inl (.thunk hlookup hhead)
    · exact .inr ⟨p, body, e, mid, k₁, k₂, l₁ + 1, l₂, rfl, by omega, .thunk hlookup hclosure,
        hnormal⟩
  | value hlookup => exact .inl (.value hlookup)
  | @beta _ _ _ _ _ _ _ _ _ _ j _ i _ _ hfunction _ _ ihbody =>
    rcases ihbody with hhead | ⟨p, body, e, mid, k₁, k₂, l₁, l₂, rfl, rfl, hclosure, hnormal⟩
    · exact .inl (.beta hfunction hhead)
    · exact .inr ⟨p, body, e, mid, j + k₁ + 1, k₂, i + l₁, l₂, by omega, by omega,
        .beta hfunction hclosure, hnormal⟩
  | stuck hfunction hargument _ _ => exact .inl (.stuck hfunction hargument)
  | closure => exact .inl .closure
  | @enter p body _ env supply _ k l hbody _ =>
    exact .inr ⟨p, body, env, supply, 0, k, 0, l, by omega, by omega, .closure, .enter hbody⟩

theorem Evaluates.of_neutral {t' : BoundTerm}
    (h : Evaluates .weakHead t env supply k l (.neutral t') rest) (form : Form) :
    Evaluates form t env supply k l (.neutral t') rest := by
  generalize hform : Form.weakHead = whnf at h
  generalize hhead : Head.neutral t' = head at h
  induction h with
  | thunk hlookup _ ih => exact .thunk hlookup (ih hform hhead)
  | value hlookup => exact .value hlookup
  | beta hfunction _ _ ihbody => exact .beta hfunction (ihbody hform hhead)
  | stuck hfunction hargument _ _ => exact .stuck hfunction hargument
  | closure => cases hhead
  | enter _ _ => cases hform

/-- If the weak head is a function, its normal form is the normal form of the whole term. -/
theorem Evaluates.of_closure
    (h : Evaluates .weakHead t env supply k₁ l₁ (.closure p body captured) mid)
    (hnormal : Evaluates .normal (.lam p body) captured mid k₂ l₂ head rest) :
    Evaluates .normal t env supply (k₁ + k₂) (l₁ + l₂) head rest := by
  generalize hform : Form.weakHead = whnf at h
  generalize hclosure : Head.closure p body captured = weak at h
  induction h with
  | @thunk _ _ _ _ _ _ _ k₁ l₁ _ hlookup _ ih =>
    have hcaptured := Evaluates.thunk hlookup (ih hnormal hform hclosure)
    rwa [Nat.add_right_comm] at hcaptured
  | value _ => cases hclosure
  | @beta _ _ _ _ _ _ _ _ _ _ j₁ j₂ i₁ i₂ _ hfunction _ _ ihbody =>
    have happ := Evaluates.beta hfunction (ihbody hnormal hform hclosure)
    have hk : j₁ + (j₂ + k₂) + 1 = j₁ + j₂ + 1 + k₂ := by omega
    rwa [hk, ← Nat.add_assoc] at happ
  | stuck _ _ _ _ => cases hclosure
  | closure =>
    cases hclosure
    rwa [Nat.zero_add, Nat.zero_add]
  | enter _ _ => cases hform

/-- The weak head is the normal form, or it is a function whose normal form is that of the whole
term.  No serial number is gone when the function is met. -/
theorem evaluates_normal_iff {normal : BoundTerm} :
    Evaluates .normal t env supply k l (.neutral normal) rest ↔
      Evaluates .weakHead t env supply k l (.neutral normal) rest ∨
      ∃ p body captured k₁ k₂ l₁ l₂, k = k₁ + k₂ ∧ l = l₁ + l₂ ∧
        Evaluates .weakHead t env supply k₁ l₁ (.closure p body captured) supply ∧
        Evaluates .normal (.lam p body) captured supply k₂ l₂ (.neutral normal) rest := by
  constructor
  · intro h
    rcases h.exists_weakHead with
      hweak | ⟨p, body, captured, mid, k₁, k₂, l₁, l₂, hk, hl, hclosure, hnormal⟩
    · exact .inl hweak
    · obtain rfl : mid = supply := hclosure.draws.eq_of_nil
      exact .inr ⟨p, body, captured, k₁, k₂, l₁, l₂, hk, hl, hclosure, hnormal⟩
  · rintro (hweak | ⟨p, body, captured, k₁, k₂, l₁, l₂, rfl, rfl, hclosure, hnormal⟩)
    · exact hweak.of_neutral .normal
    · exact hclosure.of_closure hnormal

theorem Evaluates.reduce_eq (h : Evaluates form t env supply k l head rest) {r : Reducer}
    (hr : r.budget = .unbounded) {fuel : Nat} {head' : Head}
    (hok : (r.reduce fuel form t env supply).result = .ok head') :
    r.reduce fuel form t env supply =
      ⟨.ok head, { r with tally := r.tally.after k l }, rest⟩ := by
  obtain ⟨more, hmore⟩ := h.exists_reduce hr
  have hend : (Machine.run r.budget r.tally.betaSteps fuel
      ⟨[.reduce t env form], [], supply, r.tally⟩).2 ≠ .error (.abort .outOfFuel) := by
    intro hfuel
    cases hok.symm.trans hfuel
  rw [← hmore (max more fuel) (Nat.le_max_left _ _), reduce, reduce,
    Machine.run_of_le (Nat.le_max_right more fuel) hend]

theorem Evaluates.normalize_eq {normal normal' : BoundTerm}
    (h : Evaluates .normal t env supply k l (.neutral normal) rest) {r : Reducer}
    (hr : r.budget = .unbounded) {fuel : Nat}
    (hok : (r.normalize fuel t env supply).result = .ok normal') :
    r.normalize fuel t env supply =
      ⟨.ok normal, { r with tally := r.tally.after k l }, rest⟩ :=
  normalize_eq_iff.mpr (h.reduce_eq hr (bind_termOf_eq_ok_iff.mp hok))

/-- Finding a normal form in one call comes to the same as finding it by way of the weak head. -/
structure FoundByHead (t : BoundTerm) (env : Environment) (supply : Supply) (normal : BoundTerm) :
    Prop where
  /-- One call finds the normal form if and only if the weak head is that normal form, or is a
  function from which a second call finds it.  Counters and serial numbers end up the same. -/
  found : ∀ (r r' : Reducer) (rest : Supply), r.budget = .unbounded →
    ((∃ fuel, r.normalize fuel t env supply = ⟨.ok normal, r', rest⟩) ↔
      (∃ fuel, r.weakHead fuel t env supply = ⟨.ok (.neutral normal), r', rest⟩) ∨
      ∃ p body captured r₁,
        (∃ fuel, r.weakHead fuel t env supply = ⟨.ok (.closure p body captured), r₁, supply⟩) ∧
        ∃ fuel, r₁.normalize fuel (.lam p body) captured supply = ⟨.ok normal, r', rest⟩)
  /-- Whatever the counters stood at, a call for a weak head that is no function adds to them what
  the call for the normal form adds. -/
  neutral : ∀ (r r₁ : Reducer) (fuel fuel₁ : Nat) (head : BoundTerm), r.budget = .unbounded →
    r₁.budget = .unbounded → (r.normalize fuel t env supply).result = .ok normal →
    (r₁.weakHead fuel₁ t env supply).result = .ok (.neutral head) →
      ∃ k l rest,
        r.normalize fuel t env supply =
          ⟨.ok normal, { r with tally := r.tally.after k l }, rest⟩ ∧
        r₁.weakHead fuel₁ t env supply =
          ⟨.ok (.neutral normal), { r₁ with tally := r₁.tally.after k l }, rest⟩
  /-- Otherwise the two calls add together what the one call adds. -/
  closure : ∀ (r r₁ r₂ : Reducer) (fuel fuel₁ fuel₂ : Nat) (p : Binder) (body : BoundTerm)
    (captured : Environment) (again : BoundTerm), r.budget = .unbounded →
    r₁.budget = .unbounded → r₂.budget = .unbounded →
    (r.normalize fuel t env supply).result = .ok normal →
    (r₁.weakHead fuel₁ t env supply).result = .ok (.closure p body captured) →
    (r₂.normalize fuel₂ (.lam p body) captured supply).result = .ok again →
      ∃ k₁ k₂ l₁ l₂ rest,
        r.normalize fuel t env supply =
          ⟨.ok normal, { r with tally := r.tally.after (k₁ + k₂) (l₁ + l₂) }, rest⟩ ∧
        r₁.weakHead fuel₁ t env supply =
          ⟨.ok (.closure p body captured), { r₁ with tally := r₁.tally.after k₁ l₁ }, supply⟩ ∧
        r₂.normalize fuel₂ (.lam p body) captured supply =
          ⟨.ok normal, { r₂ with tally := r₂.tally.after k₂ l₂ }, rest⟩

theorem exists_normalize_eq_iff {r r' : Reducer} {normal : BoundTerm} (hr : r.budget = .unbounded) :
    (∃ fuel, r.normalize fuel t env supply = ⟨.ok normal, r', rest⟩) ↔
      ∃ k l, Evaluates .normal t env supply k l (.neutral normal) rest ∧
        r' = { r with tally := r.tally.after k l } := by
  simp only [normalize_eq_iff]
  exact exists_reduce_iff hr

/-- Without a limit, for every term and every environment, a normal form is found by way of the weak
head as it is found in one call. -/
theorem normalize_foundByHead (t : BoundTerm) (env : Environment) (supply : Supply)
    (normal : BoundTerm) : FoundByHead t env supply normal where
  found r r' rest hr := by
    have hafter (k l : Nat) :
        Reducer.budget { r with tally := r.tally.after k l } = .unbounded := hr
    rw [exists_normalize_eq_iff hr]
    constructor
    · rintro ⟨k, l, hnormal, rfl⟩
      rcases evaluates_normal_iff.mp hnormal with
        hweak | ⟨p, body, captured, k₁, k₂, l₁, l₂, rfl, rfl, hclosure, hbody⟩
      · exact .inl ((exists_reduce_iff hr).mpr ⟨k, l, hweak, rfl⟩)
      · refine .inr ⟨p, body, captured, { r with tally := r.tally.after k₁ l₁ },
          (exists_reduce_iff hr).mpr ⟨k₁, l₁, hclosure, rfl⟩, ?_⟩
        refine (exists_normalize_eq_iff (hafter k₁ l₁)).mpr ⟨k₂, l₂, hbody, ?_⟩
        rw [Tally.after_after, Nat.add_comm k₂, Nat.add_comm l₂]
    · rintro (hweak | ⟨p, body, captured, r₁, hweak, hfollow⟩)
      · obtain ⟨k, l, hneutral, rfl⟩ := (exists_reduce_iff hr).mp hweak
        exact ⟨k, l, hneutral.of_neutral .normal, rfl⟩
      · obtain ⟨k₁, l₁, hclosure, rfl⟩ := (exists_reduce_iff hr).mp hweak
        obtain ⟨k₂, l₂, hbody, rfl⟩ := (exists_normalize_eq_iff (hafter k₁ l₁)).mp hfollow
        refine ⟨k₁ + k₂, l₁ + l₂, Evaluates.of_closure hclosure hbody, ?_⟩
        rw [Tally.after_after, Nat.add_comm k₂, Nat.add_comm l₂]
  neutral r r₁ fuel fuel₁ head hr hr₁ hnormal hweak := by
    obtain ⟨k, l, hneutral, -⟩ := exists_evaluates_of_reduce hweak
    have hone := (hneutral.of_neutral .normal).normalize_eq hr hnormal
    obtain rfl : head = normal := by
      rw [hone] at hnormal
      exact Except.ok.inj hnormal
    exact ⟨k, l, _, hone, hneutral.reduce_eq hr₁ hweak⟩
  closure r r₁ r₂ fuel fuel₁ fuel₂ p body captured again hr hr₁ hr₂ hnormal hweak hfollow := by
    obtain ⟨k₁, l₁, hclosure, -⟩ := exists_evaluates_of_reduce hweak
    obtain ⟨k₂, l₂, hbody, -⟩ := exists_evaluates_of_reduce (bind_termOf_eq_ok_iff.mp hfollow)
    rw [hclosure.draws.eq_of_nil] at hclosure
    have hone := (hclosure.of_closure hbody).normalize_eq hr hnormal
    obtain rfl : again = normal := by
      rw [hone] at hnormal
      exact Except.ok.inj hnormal
    exact ⟨k₁, k₂, l₁, l₂, _, hone, hclosure.reduce_eq hr₁ hweak, hbody.normalize_eq hr₂ hfollow⟩

/-- The head of `sharedBinder` is a function after one beta step, and its parameter hides the one
that the argument waits for. -/
theorem normalize_foundByHead_of_sharedBinder :
    let x : Binder := ⟨3, ⟨"x"⟩⟩
    let body : BoundTerm := .app (.var ⟨2, ⟨"d"⟩⟩) (.var x)
    let captured := sharedBinderEnv.extend x (.thunk (.var ⟨1, ⟨"y"⟩⟩) sharedBinderEnv)
    let normal : BoundTerm := .lam ⟨4, ⟨"x"⟩⟩ (.var ⟨4, ⟨"x"⟩⟩)
    weakHead 20 {} sharedBinder sharedBinderEnv ⟨4⟩ =
      ⟨.ok (.closure x body captured), { tally := ⟨1, 0⟩ }, ⟨4⟩⟩ ∧
    normalize 20 { tally := ⟨1, 0⟩ } (.lam x body) captured ⟨4⟩ =
      ⟨.ok normal, { tally := ⟨2, 3⟩ }, ⟨5⟩⟩ ∧
    (∃ fuel, normalize fuel {} sharedBinder sharedBinderEnv ⟨4⟩ =
      ⟨.ok normal, { tally := ⟨2, 3⟩ }, ⟨5⟩⟩) ∧
    ∃ k₁ k₂ l₁ l₂ rest,
      normalize 30 { tally := ⟨7, 7⟩ } sharedBinder sharedBinderEnv ⟨4⟩ =
        ⟨.ok normal, { tally := Tally.after ⟨7, 7⟩ (k₁ + k₂) (l₁ + l₂) }, rest⟩ ∧
      weakHead 20 {} sharedBinder sharedBinderEnv ⟨4⟩ =
        ⟨.ok (.closure x body captured), { tally := Tally.after {} k₁ l₁ }, ⟨4⟩⟩ ∧
      normalize 20 {} (.lam x body) captured ⟨4⟩ =
        ⟨.ok normal, { tally := Tally.after {} k₂ l₂ }, rest⟩ := by
  intro x body captured normal
  have hfound : FoundByHead sharedBinder sharedBinderEnv ⟨4⟩ normal :=
    normalize_foundByHead sharedBinder sharedBinderEnv ⟨4⟩ normal
  have hweak : weakHead 20 {} sharedBinder sharedBinderEnv ⟨4⟩ =
      ⟨.ok (.closure x body captured), { tally := ⟨1, 0⟩ }, ⟨4⟩⟩ := rfl
  have hfollow : normalize 20 { tally := ⟨1, 0⟩ } (.lam x body) captured ⟨4⟩ =
      ⟨.ok normal, { tally := ⟨2, 3⟩ }, ⟨5⟩⟩ := rfl
  refine ⟨hweak, hfollow, ?_, ?_⟩
  · exact (hfound.found _ _ _ rfl).mpr (.inr ⟨x, body, captured, _, ⟨20, hweak⟩, 20, hfollow⟩)
  · exact hfound.closure _ _ _ _ _ _ x body captured normal rfl rfl rfl rfl rfl rfl

end Reducer

end UntypedLambda
