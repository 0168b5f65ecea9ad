import UntypedLambda.Proofs.Completeness
import UntypedLambda.Proofs.StepCount

/-! Every look-up is paid for by what is left of the work of the tasks, so from no state at all can
the machine search forever. -/
namespace UntypedLambda

namespace Machine

inductive SearchesFor : Nat → Machine → Machine → Prop
  | refl (m : Machine) : SearchesFor 0 m m
  | step {i : Nat} {m m₁ m₂ : Machine} :
    m.Searches m₁ → SearchesFor i m₁ m₂ → SearchesFor (i + 1) m m₂

variable {i : Nat} {m m₁ : Machine} {budget : Budget} {start n : UInt64}

theorem SearchesFor.betaSteps (h : SearchesFor i m m₁) :
    m₁.tally.betaSteps = m.tally.betaSteps := by
  induction h with
  | refl m => rfl
  | step hsearch _ ih => rw [ih, hsearch.betaSteps]

theorem SearchesFor.run (h : SearchesFor i m m₁) (budget : Budget) (start : UInt64) (fuel : Nat) :
    Machine.run budget start (fuel + i) m = Machine.run budget start fuel m₁ := by
  induction h with
  | refl m => rfl
  | step hsearch _ ih =>
    rw [← Nat.add_assoc, Machine.run, hsearch.step]
    exact ih

/-- A search of as many steps as there is work leads to a beta step or to the end of the run. -/
theorem exists_searchesFor (m : Machine) :
    ∃ i m₁, i ≤ m.work ∧ SearchesFor i m m₁ ∧ ((∃ m₂, m₁.Contracts m₂) ∨ m₁.Halts) := by
  induction hwork : m.work using Nat.strongRecOn generalizing m with
  | ind work ih =>
    obtain ⟨m₁, hsearch⟩ | hends := m.step_cases
    · have hlt : m₁.work < work := hwork ▸ hsearch.work_lt
      obtain ⟨i, m₂, hle, hsearches, hends⟩ := ih m₁.work hlt m₁ rfl
      exact ⟨i + 1, m₂, by omega, .step hsearch hsearches, hends⟩
    · exact ⟨0, m, Nat.zero_le _, .refl m, hends⟩

theorem betaSteps_lt_of_allows (h : (Budget.limited n).allows (m.taken start) = true) :
    m.tally.betaSteps.toNat < start.toNat + n.toNat := by
  rw [Budget.allows, decide_eq_true_iff, UInt64.lt_iff_toNat_lt, taken, toNat_saturatingSub] at h
  omega

theorem Halts.run_ne_outOfFuel (h : m.Halts) (budget : Budget) (start : UInt64) :
    (Machine.run budget start 1 m).2 ≠ .error (.abort .outOfFuel) := by
  cases h with
  | value h =>
    rw [Machine.run, h]
    exact fun heq => by cases heq
  | fault h =>
    rw [Machine.run, h]
    exact fun heq => by cases heq

/-- With a limit that the counter can reach, a run from any state at all comes to an end. -/
theorem exists_run_ne_outOfFuel (hsize : start.toNat + n.toNat < UInt64.size) (m : Machine) :
    ∃ fuel, (run (.limited n) start fuel m).2 ≠ .error (.abort .outOfFuel) := by
  -- Searches end by themselves, so only the beta steps that the limit leaves have to be counted.
  induction hleft : start.toNat + n.toNat - m.tally.betaSteps.toNat using Nat.strongRecOn
    generalizing m with
  | ind left ih =>
    obtain ⟨i, m₁, -, hsearch, ⟨m₂, hcontract⟩ | hhalts⟩ := m.exists_searchesFor
    · cases hallows : (Budget.limited n).allows (m₁.taken start) with
      | false =>
        refine ⟨1 + i, ?_⟩
        rw [hsearch.run, run, hcontract.step_of_not_allows hallows]
        exact fun heq => by cases heq
      | true =>
        have hlt := betaSteps_lt_of_allows hallows
        have hsame := hsearch.betaSteps
        have hnext := hcontract.toNat_betaSteps
        rw [hsame] at hlt hnext
        have hless : start.toNat + n.toNat - m₂.tally.betaSteps.toNat < left := by omega
        obtain ⟨fuel, hfuel⟩ := ih _ hless m₂ rfl
        refine ⟨fuel + 1 + i, ?_⟩
        rw [hsearch.run, run, hcontract.step hallows]
        exact hfuel
    · refine ⟨1 + i, ?_⟩
      rw [hsearch.run]
      exact hhalts.run_ne_outOfFuel (.limited n) start

end Machine

namespace Reducer

theorem bind_termOf_ne_outOfFuel {result : Except Stop Head}
    (h : result ≠ .error (.abort .outOfFuel)) :
    result >>= termOf ≠ .error (.abort .outOfFuel) := by
  cases result with
  | error stop =>
    intro heq
    cases heq
    exact h rfl
  | ok head =>
    cases head with
    | closure p body env => exact fun heq => by cases heq
    | neutral t => exact fun heq => by cases heq

/-- Every reduction with a limit ends, of any term in any environment, as long as the counter has
room for the beta steps that the limit allows.  From every state of the machine at most `work` steps
lead to a beta step or to the end, whatever the budget. -/
theorem limited_ends :
    (∀ (n : UInt64) (tally : Tally), tally.betaSteps.toNat + n.toNat < UInt64.size →
      ∀ (t : BoundTerm) (env : Environment) (supply : Supply),
        (∃ fuel, (normalize fuel { budget := .limited n, tally } t env supply).result ≠
          .error (.abort .outOfFuel)) ∧
        ∃ fuel, (weakHead fuel { budget := .limited n, tally } t env supply).result ≠
          .error (.abort .outOfFuel)) ∧
    ∀ m : Machine, ∃ i m₁, i ≤ m.work ∧ Machine.SearchesFor i m m₁ ∧
      ((∃ m₂, m₁.Contracts m₂) ∨ m₁.Halts) := by
  refine ⟨?_, Machine.exists_searchesFor⟩
  intro n tally hsize t env supply
  have hends (form : Form) := Machine.exists_run_ne_outOfFuel hsize
    ⟨[.reduce t env form], [], supply, tally⟩
  constructor
  · obtain ⟨fuel, hfuel⟩ := hends .normal
    exact ⟨fuel, bind_termOf_ne_outOfFuel hfuel⟩
  · obtain ⟨fuel, hfuel⟩ := hends .weakHead
    exact ⟨fuel, hfuel⟩

/-- A term that reduces to itself, up to the largest number that the counter has. -/
theorem limited_ends_of_selfReducing :
    (18446744073709551610 : UInt64).toNat + (5 : UInt64).toNat < UInt64.size ∧
    ∃ fuel, (normalize fuel { budget := .limited 5, tally := ⟨18446744073709551610, 0⟩ }
      selfReducing .empty ⟨2⟩).result ≠ .error (.abort .outOfFuel) := by
  have hsize : (18446744073709551610 : UInt64).toNat + (5 : UInt64).toNat < UInt64.size := by
    decide
  exact ⟨hsize, (limited_ends.1 5 ⟨18446744073709551610, 0⟩ hsize selfReducing .empty ⟨2⟩).1⟩

end Reducer

end UntypedLambda
