import UntypedLambda.Proofs.Naming

/-! Every number below the hint of a name is in use.  Only the empty name is left out: a name made
of digits alone is not read as a number with nothing in front of it, so putting it back lowers no
hint. -/
namespace UntypedLambda

namespace Name

/-- A digit is worth `unit` times its value, and a number starts with it if it is no zero or the
only digit. -/
theorem numberingsFrom_digit {bound d number unit : Nat} {before : List Char} (hd : d < 10)
    (hbefore : before ≠ []) (hbound : unit ≤ bound) :
    numberingsFrom bound (d.digitChar :: before) number unit =
      if d ≠ 0 ∨ unit = 1 then
        (⟨String.ofList before.reverse⟩, d * unit + number) ::
          numberingsFrom bound before (d * unit + number) (10 * unit)
      else numberingsFrom bound before (d * unit + number) (10 * unit) := by
  have hdigit : d.digitChar.isDigit = true := by
    rw [Nat.isDigit_digitChar]
    exact decide_eq_true hd
  have hvalue : d.digitChar.toNat - '0'.toNat = d := by
    rw [Nat.toNat_digitChar_of_lt_ten hd]
    exact Nat.add_sub_cancel_left 48 d
  have hzero : d.digitChar = '0' ↔ d = 0 := by
    constructor
    · intro h
      rw [h] at hvalue
      exact hvalue.symm
    · rintro rfl
      rfl
  rw [numberingsFrom, if_pos (by simp [hdigit, hbefore, hbound]), hvalue]
  simp [hzero]

/-- Reading the digits of a number from the last to the first, in front of a text that is not empty,
comes across the number. -/
theorem mem_numberingsFrom {bound : Nat} {before : List Char} (hbefore : before ≠ [])
    (i number : Nat) {unit : Nat} (hunit : unit = 1 ∨ 0 < i) (hbound : unit ≤ bound)
    (hvalue : i * unit ≤ bound) :
    (⟨String.ofList before.reverse⟩, i * unit + number) ∈
      numberingsFrom bound ((Nat.toDigits 10 i).reverse ++ before) number unit := by
  induction i using Nat.strongRecOn generalizing number unit with
  | ind i ih =>
    by_cases hlt : i < 10
    · have hfirst : i ≠ 0 ∨ unit = 1 := hunit.symm.imp Nat.ne_of_gt id
      rw [Nat.toDigits_of_lt_base hlt, List.reverse_singleton, List.singleton_append,
        numberingsFrom_digit hlt hbefore hbound, if_pos hfirst]
      exact List.mem_cons_self
    · have hlast : i % 10 < 10 := Nat.mod_lt i (by decide)
      have hpos : 0 < i / 10 := by omega
      have hdigits : (Nat.toDigits 10 i).reverse ++ before =
          (i % 10).digitChar :: ((Nat.toDigits 10 (i / 10)).reverse ++ before) := by
        rw [← Nat.div_add_mod i 10, ← Nat.toDigits_append_toDigits (by decide) hpos hlast,
          Nat.div_add_mod, Nat.toDigits_of_lt_base hlast]
        simp
      have hsum : i / 10 * (10 * unit) + (i % 10 * unit + number) = i * unit + number := by
        rw [← Nat.add_assoc, ← Nat.mul_assoc, ← Nat.add_mul, Nat.div_add_mod']
      have hten : 10 * unit ≤ i / 10 * (10 * unit) := Nat.le_mul_of_pos_left _ hpos
      have hrest := ih (i / 10) (by omega) (i % 10 * unit + number) (.inr hpos)
        (show 10 * unit ≤ bound by omega) (by omega)
      rw [hsum] at hrest
      rw [hdigits, numberingsFrom_digit hlast (by simp [hbefore]) hbound]
      split
      · exact List.mem_cons_of_mem _ hrest
      · exact hrest

theorem mem_numberings {base : Name} (hbase : base ≠ empty) {bound i : Nat} (hi : i < bound) :
    (base, i) ∈ (base.numbered i).numberings bound := by
  have hchars : (base.numbered i).text.toList.reverse =
      (Nat.toDigits 10 i).reverse ++ base.text.toList.reverse := by
    have htext : (base.numbered i).text = base.text ++ i.repr := rfl
    rw [htext, String.toList_append, Nat.toList_repr, List.reverse_append]
  have hne : base.text.toList.reverse ≠ [] := by
    intro hnil
    have htext : base.text = "" := by simpa using hnil
    exact hbase (congrArg Name.mk htext)
  have hmem := mem_numberingsFrom hne i 0 (.inl rfl) (show 1 ≤ bound by omega) (by omega)
  rw [List.reverse_reverse, String.ofList_toList, Nat.mul_one, Nat.add_zero] at hmem
  rw [numberings, hchars]
  exact hmem

end Name

namespace NamePool

/-- Every number below a hint makes a name in use, unless the hint is one for the empty name. -/
def HintsHold (pool : NamePool) : Prop :=
  ∀ base, base ≠ Name.empty → ∀ i, i < pool.hints.getD base 0 →
    pool.isTaken (base.numbered i) = true

variable {pool : NamePool} {base n : Name}

theorem hintsHold_empty : HintsHold {} := by
  intro base _ i hi
  simp at hi

theorem isTaken_occupy : (pool.occupy n).isTaken base = (n == base || pool.isTaken base) := by
  rw [isTaken, occupy, Std.HashMap.contains_insert, isTaken]

theorem HintsHold.occupy (h : pool.HintsHold) (n : Name) : (pool.occupy n).HintsHold := by
  intro base hbase i hi
  rw [isTaken_occupy, h base hbase i hi, Bool.or_true]

theorem HintsHold.isTaken_of_lt (h : pool.HintsHold) (hbase : base ≠ Name.empty) {tries i : Nat}
    (hi : i < pool.firstFree base tries (pool.hints.getD base 0)) :
    pool.isTaken (base.numbered i) = true := by
  by_cases hhint : i < pool.hints.getD base 0
  · exact h base hbase i hhint
  · exact isTaken_of_lt_firstFree tries _ (Nat.le_of_not_lt hhint) hi

/-- The number behind a drawn name is the smallest one that makes it free. -/
theorem HintsHold.draw_name (h : pool.HintsHold) (htaken : pool.isTaken base = true) :
    ∃ k, (pool.draw base).1 = base.numbered k ∧
      (base ≠ Name.empty → ∀ j, j < k → pool.isTaken (base.numbered j) = true) := by
  rw [draw, if_pos htaken]
  exact ⟨_, rfl, fun hbase j hj => h.isTaken_of_lt hbase hj⟩

theorem HintsHold.draw (h : pool.HintsHold) (n : Name) : (pool.draw n).2.HintsHold := by
  intro base hbase i hi
  rw [NamePool.draw] at hi ⊢
  split at hi
  · next htaken =>
    rw [if_pos htaken, isTaken_occupy, Bool.or_eq_true, beq_iff_eq]
    simp only [NamePool.occupy, Std.HashMap.getD_insert, beq_iff_eq] at hi
    split at hi
    · next hn =>
      subst hn
      rcases Nat.lt_succ_iff_lt_or_eq.mp hi with hlt | heq
      · exact .inr (h.isTaken_of_lt hbase hlt)
      · exact .inl (congrArg n.numbered heq.symm)
    · exact .inr (h base hbase i hi)
  · next hfree =>
    rw [if_neg hfree, isTaken_occupy, Bool.or_eq_true]
    exact .inr (h base hbase i hi)

theorem getD_lowerHint (hints : Std.HashMap Name Nat) (freed : Name × Nat) (base : Name) :
    (lowerHint hints freed).getD base 0 =
      if freed.1 = base then min (hints.getD base 0) freed.2 else hints.getD base 0 := by
  rw [lowerHint]
  split
  · next hint hhint =>
    rw [Std.HashMap.getD_insert]
    by_cases hbase : freed.1 = base
    · rw [hbase] at hhint
      simp [hbase, Std.HashMap.getD_eq_getD_getElem?, hhint]
    · simp [hbase]
  · next hnone =>
    by_cases hbase : freed.1 = base
    · rw [hbase] at hnone
      simp [hbase, Std.HashMap.getD_eq_getD_getElem?, hnone]
    · simp [hbase]

/-- Hints are only lowered, each one to every number that has become free behind its name. -/
theorem getD_foldl_lowerHint (hints : Std.HashMap Name Nat) (freed : List (Name × Nat))
    (base : Name) :
    (freed.foldl lowerHint hints).getD base 0 ≤ hints.getD base 0 ∧
      ∀ i, (base, i) ∈ freed → (freed.foldl lowerHint hints).getD base 0 ≤ i := by
  induction freed generalizing hints with
  | nil => exact ⟨Nat.le_refl _, nofun⟩
  | cons first freed ih =>
    obtain ⟨hle, hmem⟩ := ih (lowerHint hints first)
    have hfirst : (lowerHint hints first).getD base 0 ≤ hints.getD base 0 := by
      rw [getD_lowerHint]
      split
      · exact Nat.min_le_left _ _
      · exact Nat.le_refl _
    refine ⟨Nat.le_trans hle hfirst, fun i hi => ?_⟩
    rcases List.mem_cons.mp hi with rfl | hi
    · rw [getD_lowerHint, if_pos rfl] at hle
      exact Nat.le_trans hle (Nat.min_le_right _ _)
    · exact hmem i hi

/-- The numbers below a hint are not more than the names in use. -/
theorem HintsHold.le_size (h : pool.HintsHold) (hbase : base ≠ Name.empty) :
    pool.hints.getD base 0 ≤ pool.users.size := by
  let below := (List.range (pool.hints.getD base 0)).map base.numbered
  have hnodup : below.Nodup := List.nodup_range.map fun i j hij => Name.numbered_inj.mp hij
  have hlength : below.length ≤ pool.users.size := by
    apply length_le_size hnodup
    intro n hn
    obtain ⟨i, hi, rfl⟩ := List.mem_map.mp hn
    exact h base hbase i (List.mem_range.mp hi)
  rwa [List.length_map, List.length_range] at hlength

theorem HintsHold.putBack (h : pool.HintsHold) (n : Name) : (pool.putBack n).HintsHold := by
  rw [NamePool.putBack]
  split
  · exact h
  · next count hcount =>
    split
    · intro base hbase i hi
      have htaken := h base hbase i hi
      rw [isTaken] at htaken ⊢
      rw [Std.HashMap.contains_insert, htaken, Bool.or_true]
    · intro base hbase i hi
      obtain ⟨hle, hfreed⟩ := getD_foldl_lowerHint pool.hints (n.numberings pool.users.size) base
      have hold : i < pool.hints.getD base 0 := Nat.lt_of_lt_of_le hi hle
      have htaken := h base hbase i hold
      -- If the name that is put back had this number, the hint would have been lowered to it.
      have hne : n ≠ base.numbered i := by
        rintro rfl
        have hmem := Name.mem_numberings hbase (Nat.lt_of_lt_of_le hold (h.le_size hbase))
        exact absurd (hfreed i hmem) (Nat.not_le_of_lt hi)
      rw [isTaken] at htaken ⊢
      simp [Std.HashMap.contains_erase, hne, htaken]

end NamePool

end UntypedLambda
