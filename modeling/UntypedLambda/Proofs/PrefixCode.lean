import UntypedLambda.Proofs.Displaying
import UntypedLambda.Proofs.PackedBits

/-! The bits determine the tokens of the canonical form, and the tokens determine the term up to its
binders; in both layers what was read tells where it ends. -/
namespace UntypedLambda

namespace CanonicalToken

def code (tokens : List CanonicalToken) : List Bool :=
  tokens.flatMap fun token => token.bits?.getD []

variable {token token' : CanonicalToken} {ts us : List CanonicalToken}
  {bits bits' rest rest' : List Bool}

theorem code_cons (h : token.bits? = some bits) : code (token :: ts) = bits ++ code ts := by
  rw [code, List.flatMap_cons, h]
  rfl

theorem exists_bits?_iff : (∃ bits, token.bits? = some bits) ↔ ∀ b, token ≠ .free b := by
  cases token <;> simp [bits?]

theorem bits?_ne_nil (h : token.bits? = some bits) : bits ≠ [] := by
  cases token <;> cases h <;> simp

def readOnes? : List Bool → Option (Nat × List Bool)
  | [] => none
  | false :: rest => some (0, rest)
  | true :: rest => (readOnes? rest).map fun (ones, rest) => (ones + 1, rest)

def read? : List Bool → Option (CanonicalToken × List Bool)
  | false :: false :: rest => some (.lam, rest)
  | false :: true :: rest => some (.app, rest)
  | true :: rest => (readOnes? rest).map fun (index, rest) => (.bound index, rest)
  | _ => none

theorem readOnes?_replicate (ones : Nat) (rest : List Bool) :
    readOnes? (List.replicate ones true ++ false :: rest) = some (ones, rest) := by
  induction ones with
  | zero => rfl
  | succ ones ih =>
    rw [List.replicate_succ, List.cons_append, readOnes?, ih]
    rfl

theorem read?_append (h : token.bits? = some bits) (rest : List Bool) :
    read? (bits ++ rest) = some (token, rest) := by
  cases token with
  | app =>
    cases h
    rfl
  | lam =>
    cases h
    rfl
  | bound index =>
    cases h
    rw [List.append_assoc, List.replicate_succ, List.cons_append, read?, List.singleton_append,
      readOnes?_replicate]
    rfl
  | free b => cases h

/-- Bits begin with the code of one token at most. -/
theorem bits?_append_inj (hbits : token.bits? = some bits) (hbits' : token'.bits? = some bits')
    (h : bits ++ rest = bits' ++ rest') : token = token' ∧ rest = rest' := by
  have hread := read?_append hbits rest
  rw [h, read?_append hbits' rest'] at hread
  cases hread
  exact ⟨rfl, rfl⟩

/-- Tokens whose bits come first among those of others come first among the others. -/
theorem prefix_of_code_prefix (hts : ∀ b, .free b ∉ ts) (hus : ∀ b, .free b ∉ us)
    (h : code ts <+: code us) : ts <+: us := by
  induction ts generalizing us with
  | nil => exact List.nil_prefix
  | cons token ts ih =>
    obtain ⟨bits, hbits⟩ := exists_bits?_iff.mpr fun b hb => hts b (hb ▸ List.mem_cons_self)
    obtain ⟨rest, hrest⟩ := h
    rw [code_cons hbits, List.append_assoc] at hrest
    cases us with
    | nil => exact absurd (List.append_eq_nil_iff.mp hrest).1 (bits?_ne_nil hbits)
    | cons token' us =>
      obtain ⟨bits', hbits'⟩ := exists_bits?_iff.mpr fun b hb => hus b (hb ▸ List.mem_cons_self)
      rw [code_cons hbits'] at hrest
      obtain ⟨rfl, htail⟩ := bits?_append_inj hbits hbits' hrest
      have htail' := ih (fun b hb => hts b (List.mem_cons_of_mem token hb))
        (fun b hb => hus b (List.mem_cons_of_mem token hb)) ⟨rest, htail⟩
      exact List.cons_prefix_cons.mpr ⟨rfl, htail'⟩

end CanonicalToken

namespace BitString

variable {tokens : List CanonicalToken}

theorem append_append (s : BitString) (bits more : List Bool) :
    s.append (bits ++ more) = (s.append bits).append more :=
  List.foldl_append

theorem appendTokens?_eq_some (h : ∀ b, .free b ∉ tokens) (s : BitString) :
    s.appendTokens? tokens = some (s.append (CanonicalToken.code tokens)) := by
  induction tokens generalizing s with
  | nil => rfl
  | cons token tokens ih =>
    obtain ⟨bits, hbits⟩ :=
      CanonicalToken.exists_bits?_iff.mpr fun b hb => h b (hb ▸ List.mem_cons_self)
    rw [appendTokens?, hbits, CanonicalToken.code_cons hbits, append_append]
    exact ih (fun b hb => h b (List.mem_cons_of_mem token hb)) _

theorem appendTokens?_eq_none {b : Binder} (h : .free b ∈ tokens) (s : BitString) :
    s.appendTokens? tokens = none := by
  induction tokens generalizing s with
  | nil => cases h
  | cons token tokens ih =>
    rw [appendTokens?]
    rcases List.mem_cons.mp h with rfl | hmem
    · rfl
    · split
      · exact ih hmem _
      · rfl

end BitString

/-- The tokens of a nameless term tell where it ends. -/
theorem Nameless.eq_of_tokens_prefix {t u : Nameless} (h : t.tokens <+: u.tokens) : t = u := by
  obtain ⟨rest, hrest⟩ := h
  rw [← List.append_nil u.tokens] at hrest
  exact (tokens_append_inj hrest).1

namespace BoundTerm

variable {t u : BoundTerm}

theorem bits?_eq_some (ht : ∀ b, ¬ t.IsFree b) :
    t.bits? = some (.ofList (CanonicalToken.code t.canonical)) :=
  BitString.appendTokens?_eq_some (fun b hb => ht b (free_mem_canonical.mp hb)) .empty

theorem bits?_eq_none_iff : t.bits? = none ↔ ∃ b, t.IsFree b := by
  constructor
  · intro h
    by_contra hclosed
    rw [bits?_eq_some (not_exists.mp hclosed)] at h
    cases h
  · rintro ⟨b, hb⟩
    exact BitString.appendTokens?_eq_none (free_mem_canonical.mpr hb) .empty

theorem alphaEquiv_of_code_prefix (ht : ∀ b, ¬ t.IsFree b) (hu : ∀ b, ¬ u.IsFree b)
    (h : CanonicalToken.code t.canonical <+: CanonicalToken.code u.canonical) :
    t.alphaEquiv u = true := by
  have htokens := CanonicalToken.prefix_of_code_prefix
    (fun b hb => ht b (free_mem_canonical.mp hb)) (fun b hb => hu b (free_mem_canonical.mp hb)) h
  rw [canonical_eq, canonical_eq] at htokens
  exact alphaEquiv_iff.mpr (Nameless.eq_of_tokens_prefix htokens)

/-- Exactly the closed terms have a code.  Codes are the same exactly for alpha-equivalent terms,
and none is a proper prefix of another one. -/
theorem binaryCode_prefixFree :
    (∀ t : BoundTerm, t.bits? = none ↔ ∃ b, t.IsFree b) ∧
    (∀ t u : BoundTerm, (∀ b, ¬ t.IsFree b) → (∀ b, ¬ u.IsFree b) →
      ∃ x y, t.bits? = some x ∧ u.bits? = some y ∧
        (x.toList <+: y.toList → t.alphaEquiv u = true) ∧
        (x = y ↔ t.alphaEquiv u = true) ∧
        (x.toList <+: y.toList → x = y)) := by
  refine ⟨fun t => bits?_eq_none_iff, ?_⟩
  intro t u ht hu
  have hequiv : CanonicalToken.code t.canonical <+: CanonicalToken.code u.canonical →
      t.alphaEquiv u = true := alphaEquiv_of_code_prefix ht hu
  have hsame (h : t.alphaEquiv u = true) : t.canonical = u.canonical := by
    simpa [alphaEquiv] using h
  refine ⟨_, _, bits?_eq_some ht, bits?_eq_some hu, ?_⟩
  rw [BitString.toList_ofList, BitString.toList_ofList]
  refine ⟨hequiv, ⟨?_, ?_⟩, ?_⟩
  · intro h
    have hbits := congrArg BitString.toList h
    rw [BitString.toList_ofList, BitString.toList_ofList] at hbits
    exact hequiv (hbits ▸ List.prefix_rfl)
  · intro h
    rw [hsame h]
  · intro h
    rw [hsame (hequiv h)]

def innerOfTwo : BoundTerm :=
  .lam ⟨1, ⟨"x"⟩⟩ (.lam ⟨1, ⟨"x"⟩⟩ (.var ⟨1, ⟨"x"⟩⟩))

def innerOfTwoApart : BoundTerm :=
  .lam ⟨2, ⟨"x"⟩⟩ (.lam ⟨3, ⟨"y"⟩⟩ (.var ⟨3, ⟨"y"⟩⟩))

/-- Both have the code `000010`, so they are alpha-equivalent. -/
theorem binaryCode_prefixFree_of_innerOfTwo :
    (∀ b, ¬ innerOfTwo.IsFree b) ∧ (∀ b, ¬ innerOfTwoApart.IsFree b) ∧
    ∃ x y, innerOfTwo.bits? = some x ∧ innerOfTwoApart.bits? = some y ∧
      x.toList = [false, false, false, false, true, false] ∧ x.toList <+: y.toList ∧
      innerOfTwo.alphaEquiv innerOfTwoApart = true ∧ x = y := by
  have hclosed : ∀ b, ¬ innerOfTwo.IsFree b := by
    rintro b ⟨hb, -, h⟩
    exact hb h
  have hclosed' : ∀ b, ¬ innerOfTwoApart.IsFree b := by
    rintro b ⟨-, hb, h⟩
    exact hb h
  obtain ⟨x, y, hx, hy, hequiv, -, hsame⟩ := binaryCode_prefixFree.2 _ _ hclosed hclosed'
  have hbits {t : BoundTerm} {z : BitString} (ht : ∀ b, ¬ t.IsFree b) (hz : t.bits? = some z) :
      z.toList = CanonicalToken.code (t.nameless []).tokens := by
    rw [bits?_eq_some ht] at hz
    cases hz
    rw [BitString.toList_ofList, canonical_eq]
  have hxy : x.toList <+: y.toList := by
    rw [hbits hclosed hx, hbits hclosed' hy]
    exact List.prefix_rfl
  exact ⟨hclosed, hclosed', x, y, hx, hy, hbits hclosed hx, hxy, hequiv hxy, hsame hxy⟩

end BoundTerm

end UntypedLambda
