import UntypedLambda.Proofs.NormalOrder

namespace UntypedLambda

namespace Budget

def Permits (budget : Budget) (k : Nat) : Prop :=
  ∀ n, budget.maxSteps? = some n → k ≤ n.toNat

theorem Permits.mono {budget : Budget} {j k : Nat} (h : budget.Permits k) (hle : j ≤ k) :
    budget.Permits j := fun n hn => Nat.le_trans hle (h n hn)

theorem permits_unbounded (k : Nat) : Permits .unbounded k := by
  intro n hn
  cases hn

theorem permits_limited {n : UInt64} {k : Nat} : Permits (.limited n) k ↔ k ≤ n.toNat := by
  constructor
  · intro h
    exact h n rfl
  · intro h m hm
    cases hm
    exact h

end Budget

theorem toNat_saturatingSub (n m : UInt64) : (saturatingSub n m).toNat = n.toNat - m.toNat := by
  rw [saturatingSub]
  split
  · next h => exact UInt64.toNat_sub_of_le n m h
  · next h =>
    have hlt : n.toNat < m.toNat := by simpa [UInt64.le_iff_toNat_le] using h
    rw [UInt64.toNat_zero, Nat.sub_eq_zero_of_le (Nat.le_of_lt hlt)]

namespace Machine

inductive Reaches : Nat → Machine → Machine → Prop
  | refl (m : Machine) : Reaches 0 m m
  | search {k : Nat} {m m₁ m₂ : Machine} : m.Searches m₁ → Reaches k m₁ m₂ → Reaches k m m₂
  | contract {k : Nat} {m m₁ m₂ : Machine} :
    m.Contracts m₁ → Reaches k m₁ m₂ → Reaches (k + 1) m m₂

def Delivers (k : Nat) (m : Machine) (head : Head) : Prop :=
  ∃ supply tally, Reaches k m ⟨[], [head], supply, tally⟩

def Yields (k : Nat) (m : Machine) (t : BoundTerm) : Prop :=
  ∃ supply tally, Reaches k m ⟨[], [.neutral t], supply, tally⟩

/-- Of the beta steps of a budget `k` were done since the counter stood at `start`, and it has room
for the others. -/
def Spent (budget : Budget) (start : UInt64) (k : Nat) (m : Machine) : Prop :=
  ∀ n, budget.maxSteps? = some n → m.tally.betaSteps.toNat = start.toNat + k ∧ k ≤ n.toNat ∧
    start.toNat + n.toNat < UInt64.size

variable {budget : Budget} {start : UInt64} {j k : Nat} {m m₁ m₂ : Machine}

theorem spent_start {t : BoundTerm} {env : Environment} {form : Form} {supply : Supply}
    {tally : Tally} (hsize : ∀ n, budget.maxSteps? = some n →
      tally.betaSteps.toNat + n.toNat < UInt64.size) :
    Spent budget tally.betaSteps 0 ⟨[.reduce t env form], [], supply, tally⟩ := by
  intro n hn
  exact ⟨rfl, Nat.zero_le _, hsize n hn⟩

theorem Spent.permits (h : m.Spent budget start k) : budget.Permits k :=
  fun n hn => (h n hn).2.1

theorem Spent.allows_iff (h : m.Spent budget start k) :
    budget.allows (m.taken start) = true ↔ budget.Permits (k + 1) := by
  cases budget with
  | unbounded => exact iff_of_true rfl (Budget.permits_unbounded _)
  | limited n =>
    obtain ⟨hsteps, -, -⟩ := h n rfl
    have htaken : (m.taken start).toNat = k := by
      rw [taken, toNat_saturatingSub, hsteps, Nat.add_sub_cancel_left]
    rw [Budget.permits_limited, Budget.allows, decide_eq_true_iff, UInt64.lt_iff_toNat_lt, htaken]
    exact Nat.lt_iff_add_one_le

theorem Spent.searches (h : m.Spent budget start k) (hsearch : m.Searches m₁) :
    m₁.Spent budget start k := by
  intro n hn
  rw [hsearch.betaSteps]
  exact h n hn

theorem Spent.contracts (h : m.Spent budget start k) (hcontract : m.Contracts m₁)
    (hpermits : budget.Permits (k + 1)) : m₁.Spent budget start (k + 1) := by
  intro n hn
  obtain ⟨hsteps, -, hsize⟩ := h n hn
  have hle : k + 1 ≤ n.toNat := hpermits n hn
  refine ⟨?_, hle, hsize⟩
  rw [hcontract.toNat_betaSteps, hsteps]
  omega

/-- What a run comes to at its last state: a value, a beta step that the budget does not have, a
variable without a binding, or the end of the fuel. -/
inductive Ends (budget : Budget) (start : UInt64) : Machine → Machine × Except Stop Head → Prop
  | value {head : Head} {supply : Supply} {tally : Tally} :
    Ends budget start ⟨[], [head], supply, tally⟩ (⟨[], [head], supply, tally⟩, .ok head)
  | limit {m m₁ : Machine} (hcontract : m.Contracts m₁)
    (hallows : budget.allows (m.taken start) = false) :
    Ends budget start m ({ m with tasks := m.tasks.tail },
      .error (.limitExceeded (budget.maxSteps?.getD (m.taken start))))
  | unbound {b : Binder} {env : Environment} {form : Form} {tasks : List Task}
    {values : List Head} {supply : Supply} {tally : Tally} (hnone : env.lookup? b = none) :
    Ends budget start ⟨.reduce (.var b) env form :: tasks, values, supply, tally⟩
      (⟨tasks, values, supply, lookedUp tally⟩, .error (.abort (.fault (.unboundVariable b))))
  | outOfFuel (m : Machine) : Ends budget start m (m, .error (.abort .outOfFuel))

/-- A run goes through as many beta steps as its budget allows, and then it ends. -/
theorem Ready.run_ends {goal : Form} (hready : Ready goal m) (hspent : m.Spent budget start j)
    (fuel : Nat) :
    ∃ k m₁, Reaches k m m₁ ∧ Ready goal m₁ ∧ m₁.Spent budget start (j + k) ∧
      Ends budget start m₁ (run budget start fuel m) := by
  induction fuel generalizing m j with
  | zero => exact ⟨0, m, .refl m, hready, hspent, .outOfFuel m⟩
  | succ fuel ih =>
    rw [run]
    obtain ⟨m₁, hsearch⟩ | ⟨m₁, hcontract⟩ | ⟨last, supply, tally, rfl, -⟩ |
      ⟨b, env, form, tasks, values, supply, tally, rfl, hnone⟩ := hready.progress
    · rw [hsearch.step]
      obtain ⟨k, m₂, hreaches, hready₂, hspent₂, hends⟩ :=
        ih (hsearch.ready hready) (hspent.searches hsearch)
      exact ⟨k, m₂, .search hsearch hreaches, hready₂, hspent₂, hends⟩
    · cases hallows : budget.allows (m.taken start) with
      | false =>
        rw [hcontract.step_of_not_allows hallows]
        exact ⟨0, m, .refl m, hready, hspent, .limit hcontract hallows⟩
      | true =>
        rw [hcontract.step hallows]
        have hspent₁ := hspent.contracts hcontract (hspent.allows_iff.mp hallows)
        obtain ⟨k, m₂, hreaches, hready₂, hspent₂, hends⟩ := ih (hcontract.ready hready) hspent₁
        have hcount : j + 1 + k = j + (k + 1) := by omega
        exact ⟨k + 1, m₂, .contract hcontract hreaches, hready₂, hcount ▸ hspent₂, hends⟩
    · exact ⟨0, _, .refl _, hready, hspent, .value⟩
    · rw [step_of_unbound hnone]
      exact ⟨0, _, .refl _, hready, hspent, .unbound hnone⟩

theorem Ready.reaches_of_run {goal : Form} (hready : Ready goal m)
    (hspent : m.Spent budget start j) {fuel : Nat} {m' : Machine} {head : Head}
    (hrun : run budget start fuel m = (m', .ok head)) :
    ∃ k, Reaches k m ⟨[], [head], m'.supply, m'.tally⟩ ∧ budget.Permits (j + k) := by
  obtain ⟨k, m₁, hreaches, -, hspent₁, hends⟩ := hready.run_ends hspent fuel
  rw [hrun] at hends
  cases hends
  exact ⟨k, hreaches, hspent₁.permits⟩

/-- The beta steps on the way from one state to another are leftmost contractions of the term that
the machine stands for. -/
theorem Reaches.leftmostAfter? {goal : Form} {t : Nameless} (h : Reaches k m m₂)
    (hready : Ready goal m) (hbelow : m.Holds fun n _ env => env.ValuesBelow n)
    (ht : m.readback? = some t) :
    ∃ t₂, m₂.readback? = some t₂ ∧ Nameless.leftmostAfter? k t = some t₂ := by
  induction h generalizing t with
  | refl m => exact ⟨t, ht, rfl⟩
  | search hsearch _ ih =>
    have hread := (hsearch.readback? hready hbelow).trans ht
    exact ih (hsearch.ready hready) (hsearch.holds hereditary_valuesBelow hbelow) hread
  | contract hcontract _ ih =>
    obtain ⟨t₁, ht₁⟩ := (hcontract.ready hready).readback?
    have hread := hcontract.readback? hready
    rw [ht, ht₁] at hread
    have hstep : t.leftmost? = some t₁ := hread.symm
    rw [Nameless.leftmostAfter?_succ hstep]
    exact ih (hcontract.ready hready) (hcontract.holds hereditary_valuesBelow hbelow) ht₁

theorem Delivers.leftmostAfter? {goal : Form} {t : Nameless} {head : Head}
    (h : m.Delivers k head) (hready : Ready goal m)
    (hbelow : m.Holds fun n _ env => env.ValuesBelow n) (ht : m.readback? = some t) :
    Nameless.leftmostAfter? k t = some (head.readback .free) := by
  obtain ⟨supply, tally, hreaches⟩ := h
  obtain ⟨t₂, ht₂, hk⟩ := hreaches.leftmostAfter? hready hbelow ht
  cases ht₂
  exact hk

theorem Reaches.run (h : Reaches k m m₂) (hspent : m.Spent budget start j)
    (hpermits : budget.Permits (j + k)) :
    ∃ more, ∀ fuel, run budget start (fuel + more) m = run budget start fuel m₂ := by
  -- The fuel that the steps take does not depend on what is left for the steps after them.
  induction h generalizing j with
  | refl m => exact ⟨0, fun _ => rfl⟩
  | search hsearch _ ih =>
    obtain ⟨more, hmore⟩ := ih (hspent.searches hsearch) hpermits
    refine ⟨more + 1, ?_⟩
    intro fuel
    rw [← Nat.add_assoc, Machine.run, hsearch.step]
    exact hmore fuel
  | @contract k m m₁ m₂ hcontract _ ih =>
    have hnext : budget.Permits (j + 1) := hpermits.mono (by omega)
    have hrest : budget.Permits (j + 1 + k) := hpermits.mono (by omega)
    obtain ⟨more, hmore⟩ := ih (hspent.contracts hcontract hnext) hrest
    refine ⟨more + 1, ?_⟩
    intro fuel
    rw [← Nat.add_assoc, Machine.run, hcontract.step (hspent.allows_iff.mpr hnext)]
    exact hmore fuel

end Machine

namespace Reducer

def Normalizes (k : Nat) (t : BoundTerm) (env : Environment) (supply : Supply)
    (normal : BoundTerm) : Prop :=
  Machine.Yields k ⟨[.reduce t env .normal], [], supply, {}⟩ normal

/-- A reduction with a budget comes to a normal form that is reached within the budget, and to no
other. -/
theorem exists_normalize_iff {budget : Budget} {t normal : BoundTerm} {env : Environment}
    {supply : Supply} :
    (∃ fuel, (normalize fuel { budget } t env supply).result = .ok normal) ↔
      ∃ k, budget.Permits k ∧ Normalizes k t env supply normal := by
  have hspent : Machine.Spent budget 0 0 ⟨[.reduce t env .normal], [], supply, {}⟩ := by
    apply Machine.spent_start
    intro n _
    have hlt : n.toNat < UInt64.size := n.toNat_lt_size
    simpa using hlt
  constructor
  · rintro ⟨fuel, h⟩
    obtain ⟨m, hrun, -, -⟩ := run_of_normalize h
    obtain ⟨k, hreaches, hpermits⟩ :=
      (Machine.ready_start t env .normal supply {}).reaches_of_run hspent hrun
    rw [Nat.zero_add] at hpermits
    exact ⟨k, hpermits, m.supply, m.tally, hreaches⟩
  · rintro ⟨k, hpermits, supply', tally', hreaches⟩
    obtain ⟨more, hmore⟩ := hreaches.run hspent (by rwa [Nat.zero_add])
    refine ⟨1 + more, ?_⟩
    have hrun := hmore 1
    rw [normalize, reduce, hrun]
    rfl

end Reducer

end UntypedLambda
