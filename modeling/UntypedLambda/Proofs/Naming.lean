import Mathlib.Data.List.Nodup
import Mathlib.Logic.Function.Basic
import Std.Data.HashMap.Lemmas
import Std.Data.String.ToNat
import UntypedLambda.NamePool

namespace UntypedLambda

namespace Name

theorem numbered_inj {n : Name} {i j : Nat} : n.numbered i = n.numbered j ↔ i = j := by
  constructor
  · intro h
    have htext : n.text ++ i.repr = n.text ++ j.repr := congrArg Name.text h
    exact Nat.repr_injective ((String.append_right_inj n.text).mp htext)
  · intro h
    rw [h]

theorem numbered_ne (n : Name) (i : Nat) : n.numbered i ≠ n := by
  intro h
  have htext : n.text ++ i.repr = n.text := congrArg Name.text h
  have hlength := congrArg String.length htext
  have hpos : 0 < i.repr.length := Nat.length_repr_pos
  rw [String.length_append] at hlength
  omega

theorem isIdentifier_numbered {n : Name} (h : n.isIdentifier = true) (i : Nat) :
    (n.numbered i).isIdentifier = true := by
  have hn : n.text ≠ "" ∧ ∀ c ∈ n.text.toList, isIdentifierChar c = true := by
    simpa [isIdentifier, UntypedLambda.isIdentifier] using h
  have hdigits : ∀ c ∈ i.repr.toList, isIdentifierChar c = true := by
    intro c hc
    rw [Nat.toList_repr] at hc
    have hdigit : c.isDigit = true := Nat.isDigit_of_mem_toDigits (by decide) (by decide) hc
    simp [isIdentifierChar, Char.isAlphanum, hdigit]
  have htext : (n.numbered i).text = n.text ++ i.repr := rfl
  have hchars : ∀ c ∈ (n.numbered i).text.toList, isIdentifierChar c = true := by
    intro c hc
    rw [htext, String.toList_append, List.mem_append] at hc
    exact hc.elim (hn.2 c) (hdigits c)
  have hne : (n.numbered i).text ≠ "" := by
    rw [htext]
    simp [hn.1]
  simpa [isIdentifier, UntypedLambda.isIdentifier, hne] using hchars

end Name

namespace NamePool

def Counts (pool : NamePool) (users : Name → Nat) : Prop :=
  ∀ n, pool.users[n]? = if users n = 0 then none else some (users n)

def Holds (pool : NamePool) (names : List Name) : Prop :=
  ∀ n, pool.users[n]? = if n ∈ names then some 1 else none

def oneEach (names : List Name) (n : Name) : Nat :=
  if n ∈ names then 1 else 0

variable {pool : NamePool} {users : Name → Nat} {names : List Name} {base n : Name}

theorem counts_empty : Counts {} fun _ => 0 := by
  intro n
  simp

theorem Counts.isTaken_iff (h : pool.Counts users) : pool.isTaken n = true ↔ 0 < users n := by
  rw [isTaken, Std.HashMap.contains_eq_isSome_getElem?, h]
  split <;> simp_all [Nat.pos_iff_ne_zero]

theorem Counts.occupy (h : pool.Counts users) (n : Name) :
    (pool.occupy n).Counts (Function.update users n (users n + 1)) := by
  have hcount : pool.users.getD n 0 = users n := by
    rw [Std.HashMap.getD_eq_getD_getElem?, h]
    split <;> simp_all
  intro m
  rw [NamePool.occupy, Std.HashMap.getElem?_insert, hcount, h, Function.update_apply]
  by_cases hm : n = m
  · simp [hm]
  · simp [hm, Ne.symm hm]

/-- A name that has users loses one of them. -/
theorem Counts.putBack (h : pool.Counts users) (n : Name) :
    (pool.putBack n).Counts (Function.update users n (users n - 1)) := by
  rw [NamePool.putBack, h n]
  rcases Nat.eq_zero_or_pos (users n) with hzero | hpos
  · rw [if_pos hzero, hzero, Function.update_eq_self_iff.mpr hzero.symm]
    exact h
  · rw [if_neg (Nat.ne_of_gt hpos)]
    intro m
    rw [Function.update_apply]
    by_cases hm : m = n
    · by_cases hmore : 1 < users n
      · simp [hm, hmore, Nat.sub_ne_zero_of_lt hmore]
      · simp [hm, hmore, Nat.sub_eq_zero_of_le (Nat.le_of_not_lt hmore)]
    · rw [if_neg hm, ← h m]
      by_cases hmore : 1 < users n
      · simp [hmore, Std.HashMap.getElem?_insert, Ne.symm hm]
      · simp [hmore, Std.HashMap.getElem?_erase, Ne.symm hm]

theorem holds_iff_counts : pool.Holds names ↔ pool.Counts (oneEach names) := by
  refine forall_congr' fun n => ?_
  by_cases hn : n ∈ names <;> simp [oneEach, hn]

theorem oneEach_cons (n : Name) (names : List Name) :
    oneEach (n :: names) = Function.update (oneEach names) n 1 := by
  funext m
  rw [Function.update_apply]
  by_cases hm : m = n <;> simp [oneEach, hm]

theorem oneEach_of_not_mem (hn : n ∉ names) :
    Function.update (oneEach (n :: names)) n 0 = oneEach names := by
  rw [oneEach_cons, Function.update_idem, Function.update_eq_self_iff, oneEach, if_neg hn]

theorem holds_empty : Holds {} [] := by
  intro n
  simp

theorem Holds.isTaken_iff (h : pool.Holds names) : pool.isTaken n = true ↔ n ∈ names := by
  rw [(holds_iff_counts.mp h).isTaken_iff, oneEach]
  split <;> simp_all

/-- Every number in front of the one that is found makes a name in use. -/
theorem isTaken_of_lt_firstFree (tries number : Nat) {i : Nat} (hle : number ≤ i)
    (hlt : i < pool.firstFree base tries number) : pool.isTaken (base.numbered i) = true := by
  induction tries generalizing number with
  | zero =>
    rw [firstFree] at hlt
    omega
  | succ tries ih =>
    rw [firstFree] at hlt
    split at hlt
    · next htaken =>
      by_cases hi : i = number
      · rw [hi]
        exact htaken
      · exact ih (number + 1) (by omega) hlt
    · omega

/-- The search stops early only at a name that is free. -/
theorem firstFree_eq_add_of_isTaken (tries number : Nat)
    (h : pool.isTaken (base.numbered (pool.firstFree base tries number)) = true) :
    pool.firstFree base tries number = number + tries := by
  induction tries generalizing number with
  | zero => rfl
  | succ tries ih =>
    rw [firstFree] at h ⊢
    split at h
    · next htaken =>
      rw [if_pos htaken, ih (number + 1) h]
      omega
    · next hfree => exact absurd h hfree

/-- Different names in use are not more than there are names in use. -/
theorem length_le_size (hnodup : names.Nodup) (htaken : ∀ n ∈ names, pool.isTaken n = true) :
    names.length ≤ pool.users.size := by
  have hsub : names ⊆ pool.users.keys := fun n hn => Std.HashMap.mem_keys.mpr (htaken n hn)
  have hlength := hnodup.length_le_of_subset hsub
  rwa [Std.HashMap.length_keys] at hlength

/-- There are not enough names in use to make every try fail. -/
theorem isTaken_firstFree (htaken : pool.isTaken base = true) (number : Nat) :
    pool.isTaken (base.numbered (pool.firstFree base pool.users.size number)) = false := by
  by_contra hne
  rw [Bool.not_eq_false] at hne
  have hlast := firstFree_eq_add_of_isTaken _ _ hne
  let tried := (List.range pool.users.size).map fun i => base.numbered (number + i)
  have htried : tried.Nodup := by
    apply List.Nodup.map
    · intro i j hij
      have hnumber := Name.numbered_inj.mp hij
      omega
    · exact List.nodup_range
  have hbase : base ∉ tried := by
    intro hmem
    obtain ⟨i, -, hi⟩ := List.mem_map.mp hmem
    exact base.numbered_ne _ hi
  have hnodup : (base :: tried).Nodup := List.nodup_cons.mpr ⟨hbase, htried⟩
  -- With the name itself they are one more than there are names in use.
  have hlength : (base :: tried).length ≤ pool.users.size := by
    apply length_le_size hnodup
    intro n hn
    rcases List.mem_cons.mp hn with rfl | hn
    · exact htaken
    · obtain ⟨i, hi, rfl⟩ := List.mem_map.mp hn
      have hlt : i < pool.users.size := List.mem_range.mp hi
      have hbefore : number + i < pool.firstFree base pool.users.size number := by omega
      exact isTaken_of_lt_firstFree _ _ (Nat.le_add_right number i) hbefore
  rw [List.length_cons, List.length_map, List.length_range] at hlength
  omega

theorem isTaken_draw_name (pool : NamePool) (base : Name) :
    pool.isTaken (pool.draw base).1 = false := by
  rw [draw]
  split
  · next htaken => exact isTaken_firstFree htaken _
  · next hfree => exact Bool.eq_false_iff.mpr hfree

theorem Counts.draw (h : pool.Counts users) (base : Name) :
    (pool.draw base).2.Counts
      (Function.update users (pool.draw base).1 (users (pool.draw base).1 + 1)) := by
  rw [NamePool.draw]
  split
  · exact Counts.occupy (fun n => h n) _
  · exact h.occupy base

theorem Holds.draw_name (h : pool.Holds names) (base : Name) :
    (pool.draw base).1 = base ∨ base ∈ names ∧ ∃ i, (pool.draw base).1 = base.numbered i := by
  rw [draw]
  split
  · next htaken => exact .inr ⟨h.isTaken_iff.mp htaken, _, rfl⟩
  · exact .inl rfl

theorem draw_of_not_isTaken (hfree : pool.isTaken base = false) :
    pool.draw base = (base, pool.occupy base) := by
  rw [draw, if_neg (Bool.eq_false_iff.mp hfree)]

theorem Holds.draw_of_not_mem (h : pool.Holds names) (hbase : base ∉ names) :
    pool.draw base = (base, pool.occupy base) :=
  draw_of_not_isTaken (Bool.eq_false_iff.mpr fun htaken => hbase (h.isTaken_iff.mp htaken))

/-- A name that is drawn was free, and now it is in use. -/
theorem Holds.draw (h : pool.Holds names) (base : Name) :
    (pool.draw base).1 ∉ names ∧ (pool.draw base).2.Holds ((pool.draw base).1 :: names) := by
  have hnot : (pool.draw base).1 ∉ names := by
    intro hmem
    have hfree := isTaken_draw_name pool base
    rw [h.isTaken_iff.mpr hmem] at hfree
    cases hfree
  have hcounts := (holds_iff_counts.mp h).draw base
  have hzero : oneEach names (pool.draw base).1 = 0 := if_neg hnot
  rw [hzero, Nat.zero_add, ← oneEach_cons] at hcounts
  exact ⟨hnot, holds_iff_counts.mpr hcounts⟩

theorem Holds.putBack (h : pool.Holds (n :: names)) (hn : n ∉ names) :
    (pool.putBack n).Holds names := by
  have hone : oneEach (n :: names) n = 1 := if_pos List.mem_cons_self
  have hcounts := (holds_iff_counts.mp h).putBack n
  rw [hone, Nat.sub_self, oneEach_of_not_mem hn] at hcounts
  exact holds_iff_counts.mpr hcounts

end NamePool

end UntypedLambda
