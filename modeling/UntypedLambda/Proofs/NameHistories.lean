import UntypedLambda.Proofs.Hints

namespace UntypedLambda.NamePool

inductive Seeks (pool : NamePool) (base : Name) : Nat → Nat → Prop
  | free {number : Nat} : pool.isTaken (base.numbered number) = false → Seeks pool base number number
  | taken {number found : Nat} : pool.isTaken (base.numbered number) = true →
      Seeks pool base (number + 1) found → Seeks pool base number found

variable {pool : NamePool} {base : Name}

/-- A search with a bound that finds a free name is the beginning of the one without. -/
theorem seeks_firstFree (tries number : Nat)
    (hfree : pool.isTaken (base.numbered (pool.firstFree base tries number)) = false) :
    pool.Seeks base number (pool.firstFree base tries number) := by
  induction tries generalizing number with
  | zero => exact .free hfree
  | succ tries ih =>
    rw [firstFree] at hfree ⊢
    split at hfree
    · next htaken =>
      rw [if_pos htaken]
      exact .taken htaken (ih (number + 1) hfree)
    · next hnot =>
      rw [if_neg hnot]
      exact .free hfree

theorem seeks_draw (htaken : pool.isTaken base = true) :
    ∃ k, pool.Seeks base (pool.hints.getD base 0) k ∧ (pool.draw base).1 = base.numbered k := by
  rw [draw, if_pos htaken]
  exact ⟨_, seeks_firstFree _ _ (isTaken_firstFree htaken _), rfl⟩

inductive Request where
  | draw (base : Name)
  | occupy (n : Name)
  | putBack (n : Name)
  deriving DecidableEq, Repr

/-- A pool with an account of its names: how often each one was drawn or occupied, and how often it
was put back while it was in use. -/
structure Account where
  pool : NamePool := {}
  taken : Name → Nat := fun _ => 0
  returned : Name → Nat := fun _ => 0

namespace Account

def IsLive (a : Account) (n : Name) : Prop :=
  a.returned n < a.taken n

instance (a : Account) (n : Name) : Decidable (a.IsLive n) :=
  inferInstanceAs (Decidable (a.returned n < a.taken n))

def take (a : Account) (n : Name) (pool : NamePool) : Account :=
  { a with pool := pool, taken := Function.update a.taken n (a.taken n + 1) }

def serve (a : Account) : Request → Account
  | .draw base => a.take (a.pool.draw base).1 (a.pool.draw base).2
  | .occupy n => a.take n (a.pool.occupy n)
  | .putBack n =>
    { a with
      pool := a.pool.putBack n
      returned :=
        if a.IsLive n then Function.update a.returned n (a.returned n + 1) else a.returned }

def after (requests : List Request) : Account :=
  requests.foldl serve {}

def users (a : Account) (n : Name) : Nat :=
  a.taken n - a.returned n

structure Sound (a : Account) : Prop where
  counts : a.pool.Counts a.users
  le : ∀ n, a.returned n ≤ a.taken n
  hints : a.pool.HintsHold

variable {a : Account} {n : Name} {pool : NamePool}

theorem Sound.isTaken_iff (h : a.Sound) : a.pool.isTaken n = true ↔ a.IsLive n := by
  rw [h.counts.isTaken_iff, users, IsLive, Nat.sub_pos_iff_lt]

theorem sound_empty : Sound {} where
  counts := counts_empty
  le _ := Nat.le_refl _
  hints := hintsHold_empty

theorem users_take (hle : a.returned n ≤ a.taken n) (pool : NamePool) :
    (a.take n pool).users = Function.update a.users n (a.users n + 1) := by
  funext m
  simp only [users, take, Function.update_apply]
  split
  · next hm =>
    rw [hm]
    omega
  · rfl

theorem users_putBack (a : Account) (n : Name) :
    (a.serve (.putBack n)).users = Function.update a.users n (a.users n - 1) := by
  funext m
  simp only [users, serve, Function.update_apply]
  by_cases hlive : a.IsLive n
  · rw [if_pos hlive, Function.update_apply]
    split
    · next hm => rw [hm, Nat.sub_sub]
    · rfl
  · have hzero : a.taken n - a.returned n = 0 := Nat.sub_eq_zero_of_le (Nat.le_of_not_lt hlive)
    rw [if_neg hlive]
    split
    · next hm => rw [hm, hzero]
    · rfl

/-- A pool with one user more for a name belongs to the account with the name taken once more. -/
theorem Sound.take (h : a.Sound)
    (hcounts : pool.Counts (Function.update a.users n (a.users n + 1)))
    (hhints : pool.HintsHold) : (a.take n pool).Sound where
  counts := by
    rw [users_take (h.le n)]
    exact hcounts
  le m := by
    simp only [Account.take, Function.update_apply]
    split
    · next hm =>
      rw [hm]
      exact Nat.le_succ_of_le (h.le n)
    · exact h.le m
  hints := hhints

theorem Sound.putBack (h : a.Sound) (n : Name) : (a.serve (.putBack n)).Sound where
  counts := by
    rw [users_putBack]
    exact h.counts.putBack n
  le m := by
    simp only [serve]
    split
    · next hlive =>
      rw [Function.update_apply]
      split
      · next hm =>
        rw [hm]
        exact hlive
      · exact h.le m
    · exact h.le m
  hints := h.hints.putBack n

theorem Sound.serve (h : a.Sound) (request : Request) : (a.serve request).Sound := by
  cases request with
  | draw base => exact h.take (h.counts.draw base) (h.hints.draw base)
  | occupy n => exact h.take (h.counts.occupy n) (h.hints.occupy n)
  | putBack n => exact h.putBack n

theorem Sound.foldl_serve (h : a.Sound) (requests : List Request) :
    (requests.foldl Account.serve a).Sound := by
  induction requests generalizing a with
  | nil => exact h
  | cons request requests ih => exact ih (h.serve request)

theorem sound_after (requests : List Request) : (after requests).Sound :=
  sound_empty.foldl_serve requests

end Account

/-- After any requests to a new pool, in any order and for any names, a name that is drawn is not
live.  It is the name asked for if that one is not live.  Otherwise the search for a number ends, and
the number that it ends at stands behind the name; unless the name is empty it is the smallest one
that makes a name which is not live. -/
theorem draw_smallest (requests : List Request) (base : Name) :
    let a := Account.after requests
    let n := (a.pool.draw base).1
    ¬ a.IsLive n ∧
    (¬ a.IsLive base → n = base) ∧
    (a.IsLive base → ∃ k, a.pool.Seeks base (a.pool.hints.getD base 0) k ∧ n = base.numbered k ∧
      (base ≠ Name.empty → ∀ j, j < k → a.IsLive (base.numbered j))) := by
  intro a n
  have h : a.Sound := Account.sound_after requests
  have hfree := isTaken_draw_name a.pool base
  refine ⟨fun hlive => ?_, fun hnot => ?_, fun hlive => ?_⟩
  · rw [h.isTaken_iff.mpr hlive] at hfree
    cases hfree
  · have hbase := Bool.eq_false_iff.mpr fun htaken => hnot (h.isTaken_iff.mp htaken)
    exact congrArg Prod.fst (draw_of_not_isTaken hbase)
  · have htaken := h.isTaken_iff.mpr hlive
    obtain ⟨k, hseeks, hk⟩ := seeks_draw htaken
    obtain ⟨k', hk', hsmallest⟩ := h.hints.draw_name htaken
    obtain rfl := Name.numbered_inj.mp (hk.symm.trans hk')
    exact ⟨k, hseeks, hk, fun hbase j hj => h.isTaken_iff.mp (hsmallest hbase j hj)⟩

/-- While `x` and `x0` are in use the name drawn for `x` is `x1`, and the next number to try is 2.
Once `x0` has been returned it is drawn again. -/
theorem draw_smallest_of_returnedNumber :
    let first : List Request := [.occupy ⟨"x"⟩, .occupy ⟨"x0"⟩]
    let second := first ++ [.draw ⟨"x"⟩, .putBack ⟨"x0"⟩, .putBack ⟨"y"⟩]
    (⟨"x"⟩ : Name) ≠ Name.empty ∧
    (Account.after first).IsLive ⟨"x"⟩ ∧ ((Account.after first).pool.draw ⟨"x"⟩).1 = ⟨"x1"⟩ ∧
    (Account.after second).IsLive ⟨"x"⟩ ∧ ((Account.after second).pool.draw ⟨"x"⟩).1 = ⟨"x0"⟩ ∧
    ¬ (Account.after second).IsLive ⟨"y"⟩ ∧
    ((Account.after second).pool.draw ⟨"y"⟩).1 = ⟨"y"⟩ := by
  intro first second
  have hx : (⟨"x"⟩ : Name) ≠ Name.empty := by decide
  have hfirst : (Account.after first).IsLive ⟨"x"⟩ := by decide
  obtain ⟨hfree, -, hnumber⟩ := draw_smallest first ⟨"x"⟩
  obtain ⟨k, -, hk, hbelow⟩ := hnumber hfirst
  have hname : ((Account.after first).pool.draw ⟨"x"⟩).1 = ⟨"x1"⟩ := by
    rcases Nat.lt_trichotomy k 1 with hlt | rfl | hgt
    · obtain rfl := Nat.lt_one_iff.mp hlt
      rw [hk] at hfree
      exact absurd (by decide) hfree
    · exact hk
    · exact absurd (hbelow hx 1 hgt) (by decide)
  -- With the name that was drawn put in, the account does not depend on the pool any more.
  have hsecond : Account.after second = (((Account.after first).take ⟨"x1"⟩
      ((Account.after first).pool.draw ⟨"x"⟩).2).serve (.putBack ⟨"x0"⟩)).serve
        (.putBack ⟨"y"⟩) := by
    rw [← hname]
    rfl
  have hlive : (Account.after second).IsLive ⟨"x"⟩ := by
    rw [hsecond]
    decide
  have hother : ¬ (Account.after second).IsLive ⟨"y"⟩ := by
    rw [hsecond]
    decide
  have hreturned : ¬ (Account.after second).IsLive ⟨"x0"⟩ := by
    rw [hsecond]
    decide
  obtain ⟨-, -, hnumber'⟩ := draw_smallest second ⟨"x"⟩
  obtain ⟨k', -, hk', hbelow'⟩ := hnumber' hlive
  have hagain : ((Account.after second).pool.draw ⟨"x"⟩).1 = ⟨"x0"⟩ := by
    rcases Nat.eq_zero_or_pos k' with rfl | hpos
    · exact hk'
    · exact absurd (hbelow' hx 0 hpos) hreturned
  exact ⟨hx, hfirst, hname, hlive, hagain, hother, (draw_smallest second ⟨"y"⟩).2.1 hother⟩

end UntypedLambda.NamePool
