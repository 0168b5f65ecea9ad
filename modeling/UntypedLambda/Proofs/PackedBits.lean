import Mathlib.Data.List.Basic
import Mathlib.Data.Nat.Bitwise
import UntypedLambda.BitString

namespace UntypedLambda.BitString

def bitAt (words : Array UInt64) (i : Nat) : Bool :=
  (words[i / 64]?.getD 0).toNat.testBit (i % 64)

/-- The words hold the bits in order, there are no more words than needed, and bits that are not in
use are zero. -/
structure Holds (s : BitString) (bits : List Bool) : Prop where
  length : s.length = bits.length
  size : s.words.size = (bits.length + 63) / 64
  bitAt : ∀ i, bitAt s.words i = bits.getD i false

variable {s : BitString} {bits : List Bool} {k : Nat}

theorem holds_empty : empty.Holds [] where
  length := rfl
  size := rfl
  bitAt i := by simp [BitString.bitAt, empty]

theorem toNat_one_shiftLeft (hk : k < 64) : ((1 : UInt64) <<< k.toUInt64).toNat = 2 ^ k := by
  have hpow : 2 ^ k < 2 ^ 64 := Nat.pow_lt_pow_right (by decide) hk
  have hamount : k.toUInt64.toNat % 64 = k := by
    rw [Nat.toUInt64_eq, UInt64.toNat_ofNat']
    omega
  rw [UInt64.toNat_shiftLeft, hamount, UInt64.toNat_one, Nat.one_shiftLeft, Nat.mod_eq_of_lt hpow]

/-- Masking a word with one bit tells whether the bit is set. -/
theorem and_one_shiftLeft_bne_zero (word : UInt64) (hk : k < 64) :
    (word &&& 1 <<< k.toUInt64 != 0) = word.toNat.testBit k := by
  have hmask : (word &&& 1 <<< k.toUInt64).toNat = (word.toNat.testBit k).toNat * 2 ^ k := by
    rw [UInt64.toNat_and, toNat_one_shiftLeft hk, Nat.and_two_pow]
  cases hbit : word.toNat.testBit k with
  | false =>
    have hzero : word &&& 1 <<< k.toUInt64 = 0 := by
      apply UInt64.toNat_inj.mp
      simp [hmask, hbit]
    simp [hzero]
  | true =>
    have hne : word &&& 1 <<< k.toUInt64 ≠ 0 := by
      intro hzero
      have hpow : 0 = 2 ^ k := by simpa [hzero, hbit] using hmask
      exact absurd hpow (Nat.two_pow_pos k).ne
    simp [hne]

theorem bitAt_push_zero (words : Array UInt64) (i : Nat) :
    bitAt (words.push 0) i = bitAt words i := by
  rw [bitAt, bitAt, Array.getElem?_push]
  split
  · next h => simp [h]
  · rfl

/-- Setting a bit in a word leaves all others as they are. -/
theorem bitAt_modify {words : Array UInt64} {m : Nat} (hm : m < words.size) (hk : k < 64) (i : Nat) :
    bitAt (words.modify m (· ||| 1 <<< k.toUInt64)) i =
      (bitAt words i || decide (i = 64 * m + k)) := by
  rw [bitAt, bitAt, Array.getElem?_modify]
  by_cases hi : m = i / 64
  · subst hi
    have hplace : k = i % 64 ↔ i = 64 * (i / 64) + k := by omega
    rw [if_pos rfl, Array.getElem?_eq_getElem hm]
    simp [toNat_one_shiftLeft hk, Nat.testBit_two_pow, hplace]
  · have hplace : ¬ i = 64 * m + k := by omega
    simp [hi, hplace]

def withRoom (s : BitString) : Array UInt64 :=
  if s.length % 64 = 0 then s.words.push 0 else s.words

theorem Holds.size_withRoom (h : s.Holds bits) : s.withRoom.size = bits.length / 64 + 1 := by
  have hsize := h.size
  rw [withRoom, h.length]
  split
  · rw [Array.size_push]
    omega
  · omega

theorem Holds.bitAt_withRoom (h : s.Holds bits) (i : Nat) :
    BitString.bitAt s.withRoom i = bits.getD i false := by
  rw [withRoom, ← h.bitAt i]
  split
  · exact bitAt_push_zero s.words i
  · rfl

theorem words_push (s : BitString) (bit : Bool) :
    (s.push bit).words =
      if bit then
        s.withRoom.modify (s.withRoom.size - 1) (· ||| 1 <<< (s.length % 64).toUInt64)
      else s.withRoom := rfl

theorem getD_append_singleton (bits : List Bool) (bit : Bool) (i : Nat) :
    (bits ++ [bit]).getD i false = (bits.getD i false || (bit && decide (i = bits.length))) := by
  rcases Nat.lt_trichotomy i bits.length with hlt | rfl | hgt
  · simp [List.getElem?_append_left hlt, Nat.ne_of_lt hlt]
  · simp
  · have hnone : bits[i]? = none := List.getElem?_eq_none (Nat.le_of_lt hgt)
    have hnone' : (bits ++ [bit])[i]? = none := by
      apply List.getElem?_eq_none
      rw [List.length_append]
      exact hgt
    simp [List.getD_eq_getElem?_getD, hnone, hnone', Nat.ne_of_gt hgt]

/-- One more bit is held behind the others. -/
theorem Holds.push (h : s.Holds bits) (bit : Bool) : (s.push bit).Holds (bits ++ [bit]) where
  length := by rw [length_push, h.length, List.length_append, List.length_singleton]
  size := by
    rw [words_push, apply_ite Array.size, Array.size_modify, ite_self, h.size_withRoom,
      List.length_append, List.length_singleton]
    omega
  bitAt i := by
    rw [words_push, getD_append_singleton, ← h.bitAt_withRoom]
    cases bit with
    | false => simp
    | true =>
      have hlast : s.withRoom.size - 1 < s.withRoom.size := by
        rw [h.size_withRoom]
        omega
      have hplace : 64 * (s.withRoom.size - 1) + s.length % 64 = bits.length := by
        rw [h.size_withRoom, h.length]
        omega
      simp [bitAt_modify hlast (Nat.mod_lt _ (by decide : 0 < 64)), hplace]

theorem Holds.append (h : s.Holds bits) (more : List Bool) :
    (s.append more).Holds (bits ++ more) := by
  induction more generalizing s bits with
  | nil =>
    rw [List.append_nil]
    exact h
  | cons bit more ih =>
    have hrest := ih (h.push bit)
    rw [List.append_assoc] at hrest
    exact hrest

theorem holds_ofList (bits : List Bool) : (ofList bits).Holds bits :=
  holds_empty.append bits

theorem Holds.lt_size (h : s.Holds bits) {i : Nat} (hi : i < bits.length) :
    i / 64 < s.words.size := by
  rw [h.size]
  omega

theorem Holds.get? (h : s.Holds bits) (i : Nat) : s.get? i = bits[i]? := by
  rw [BitString.get?, h.length]
  split
  · next hi =>
    have hword := h.lt_size hi
    have hbit : (s.words[i / 64].toNat.testBit (i % 64)) = bits[i] := by
      have hat := h.bitAt i
      simpa [BitString.bitAt, hword, hi] using hat
    simp only [Array.getElem?_eq_getElem hword, List.getElem?_eq_getElem hi, Option.map_some,
      and_one_shiftLeft_bne_zero _ (Nat.mod_lt i (by decide : 0 < 64)), hbit]
  · next hi => exact (List.getElem?_eq_none (Nat.le_of_not_lt hi)).symm

theorem Holds.toList (h : s.Holds bits) : s.toList = bits := by
  have hbits : ∀ i ∈ List.range bits.length, s.get? i = some (bits.getD i false) := by
    intro i hi
    have hlt : i < bits.length := List.mem_range.mp hi
    simp [h.get?, hlt]
  rw [BitString.toList, h.length, List.filterMap_congr hbits, List.filterMap_eq_map']
  apply List.ext_getElem
  · simp
  · intro i hi hi'
    simp [hi']

@[simp] theorem toList_ofList (bits : List Bool) : (ofList bits).toList = bits :=
  (holds_ofList bits).toList

theorem ofList_inj {more : List Bool} : ofList bits = ofList more ↔ bits = more := by
  constructor
  · intro h
    have hbits := congrArg toList h
    rwa [toList_ofList, toList_ofList] at hbits
  · intro h
    rw [h]

theorem Holds.testBit_of_length_le (h : s.Holds bits) {w : Nat} {word : UInt64}
    (hword : s.words[w]? = some word) (hk : k < 64) (hle : bits.length ≤ 64 * w + k) :
    word.toNat.testBit k = false := by
  have hindex : (64 * w + k) / 64 = w := by omega
  have hplace : (64 * w + k) % 64 = k := by omega
  have hbit := h.bitAt (64 * w + k)
  rw [BitString.bitAt, hindex, hplace, hword, Option.getD_some] at hbit
  rw [hbit, List.getD_eq_getElem?_getD, List.getElem?_eq_none hle, Option.getD_none]

/-- Bits that are pushed one after the other are read back as they are, each by its place and all of
them in order.  There are no more words than they need, every bit has its word, and what is left of
the last word is zero.  Equal words with equal lengths come from equal bits only. -/
theorem ofList_faithful (bits : List Bool) :
    (ofList bits).length = bits.length ∧
    (∀ i, (ofList bits).get? i = bits[i]?) ∧
    (ofList bits).digits = String.ofList (bits.map fun bit => if bit then '1' else '0') ∧
    (ofList bits).words.size = (bits.length + 63) / 64 ∧
    (∀ w word k, (ofList bits).words[w]? = some word → k < 64 → bits.length ≤ 64 * w + k →
      word.toNat.testBit k = false) ∧
    (∀ i, i < (ofList bits).length → i / 64 < (ofList bits).words.size) ∧
    ∀ more, ofList bits = ofList more ↔ bits = more := by
  have h := holds_ofList bits
  refine ⟨h.length, h.get?, ?_, h.size, ?_, ?_, fun more => ofList_inj⟩
  · rw [digits, toList_ofList]
  · intro w word k hword hk hle
    exact h.testBit_of_length_le hword hk hle
  · intro i hi
    rw [h.length] at hi
    exact h.lt_size hi

/-- One bit more than a word has room for stands alone in the second word. -/
theorem ofList_faithful_of_secondWord :
    let s := ofList (List.replicate 65 true)
    s.words.size = 2 ∧ 64 / 64 < s.words.size ∧ s.get? 64 = some true ∧ s.get? 65 = none ∧
      (∃ word, s.words[1]? = some word ∧ ∀ k, 1 ≤ k → k < 64 → word.toNat.testBit k = false) ∧
      s ≠ ofList (List.replicate 65 true ++ [false]) := by
  intro s
  obtain ⟨hlength, hget, -, hsize, hzero, hword, hinj⟩ := ofList_faithful (List.replicate 65 true)
  have htwo : s.words.size = 2 := hsize
  have hone : 1 < s.words.size := htwo ▸ by decide
  refine ⟨htwo, hword 64 (hlength ▸ by decide), hget 64, hget 65, ?_, ?_⟩
  · refine ⟨s.words[1], Array.getElem?_eq_getElem hone, fun k hk hlt => ?_⟩
    exact hzero 1 _ k (Array.getElem?_eq_getElem hone) hlt (by rw [List.length_replicate]; omega)
  · intro heq
    exact absurd ((hinj _).mp heq) (by decide)

end UntypedLambda.BitString
