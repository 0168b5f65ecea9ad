import Mathlib.Data.List.DropRight
import UntypedLambda.Proofs.Printing
import UntypedLambda.Shell.Session

namespace UntypedLambda

theorem toNat_of_isIdentifierChar {c : Char} (h : isIdentifierChar c = true) :
    (48 ≤ c.toNat ∧ c.toNat ≤ 57) ∨ (65 ≤ c.toNat ∧ c.toNat ≤ 90) ∨ c.toNat = 95 ∨
      (97 ≤ c.toNat ∧ c.toNat ≤ 122) := by
  change (((decide (65 ≤ c.val ∧ c.val ≤ 90) || (decide (97 ≤ c.val) && decide (c.val ≤ 122))) ||
    (decide (48 ≤ c.val) && decide (c.val ≤ 57))) || c == '_') = true at h
  simp only [Bool.or_eq_true, Bool.and_eq_true, decide_eq_true_eq, beq_iff_eq] at h
  change (((65 ≤ c.toNat ∧ c.toNat ≤ 90) ∨ (97 ≤ c.toNat ∧ c.toNat ≤ 122)) ∨
    (48 ≤ c.toNat ∧ c.toNat ≤ 57)) ∨ c = '_' at h
  rcases h with h | rfl
  · omega
  · decide

theorem isIdentifier_iff {s : String} : isIdentifier s = true ↔
    s.toList ≠ [] ∧ ∀ c ∈ s.toList, isIdentifierChar c = true := by
  simp [isIdentifier]

theorem isIdentifierChar_eq_false_of_isBlank {c : Char} (hc : Text.isBlank c = true) :
    isIdentifierChar c = false := by
  rw [← Bool.not_eq_true]
  intro h
  have hcode := toNat_of_isIdentifierChar h
  simp only [Text.isBlank, Bool.or_eq_true, Bool.and_eq_true, decide_eq_true_eq, beq_iff_eq] at hc
  omega

theorem ofChar?_eq_none_of_isBlank {c : Char} (hc : Text.isBlank c = true) :
    Token.ofChar? c = none := by
  rw [Token.ofChar?.eq_def]
  split <;> first | rfl | cases hc

namespace Lexer

variable {before : List Token} {l l' l₁ : Lexer} {c : Char} {cs : List Char}

theorem feed_blank (hc : Text.isBlank c = true) (l : Lexer) :
    l.feed c = .ok { done := l.tokens, offset := l.offset + c.utf8Size } := by
  rw [feed, if_neg (by simp [isIdentifierChar_eq_false_of_isBlank hc]),
    ofChar?_eq_none_of_isBlank hc, if_pos hc]

structure Behind (before : List Token) (l l' : Lexer) : Prop where
  word : l'.word = l.word
  done : l'.done = l.done ++ before

theorem Behind.tokens (h : Behind before l l') : l'.tokens = l.tokens ++ before := by
  rw [Lexer.tokens, Lexer.tokens, h.word, h.done]
  split <;> rfl

theorem Behind.feed (h : Behind before l l') (hfeed : l.feed c = .ok l₁) :
    ∃ l₁', l'.feed c = .ok l₁' ∧ Behind before l₁ l₁' := by
  rw [Lexer.feed] at hfeed ⊢
  split at hfeed
  · next hc =>
    cases hfeed
    rw [if_pos hc]
    exact ⟨_, rfl, by rw [h.word], h.done⟩
  · next hc =>
    rw [if_neg hc]
    split at hfeed
    · next token htoken =>
      cases hfeed
      exact ⟨_, rfl, rfl, congrArg (token :: ·) h.tokens⟩
    · next htoken =>
      split at hfeed
      · next hblank =>
        cases hfeed
        rw [if_pos hblank]
        exact ⟨_, rfl, rfl, h.tokens⟩
      · cases hfeed

theorem Behind.foldlM_feed (h : Behind before l l') (hrun : cs.foldlM Lexer.feed l = .ok l₁) :
    ∃ l₁', cs.foldlM Lexer.feed l' = .ok l₁' ∧ Behind before l₁ l₁' := by
  induction cs generalizing l l' with
  | nil =>
    cases hrun
    exact ⟨l', rfl, h⟩
  | cons c cs ih =>
    rw [List.foldlM_cons, bind_eq_ok_iff] at hrun
    obtain ⟨l₂, hfeed, hrest⟩ := hrun
    obtain ⟨l₂', hfeed', hbehind⟩ := h.feed hfeed
    rw [List.foldlM_cons, hfeed']
    exact ih hbehind hrest

end Lexer

def Reads (cs : List Char) (ts : List Token) : Prop :=
  ∃ l, cs.foldlM Lexer.feed {} = .ok l ∧ l.tokens = ts.reverse

variable {c : Char} {cs ds : List Char} {ts mid us : List Token}

theorem scan_eq_ok_iff {source : String} : Token.scan source = .ok ts ↔ Reads source.toList ts := by
  simp only [Token.scan, map_eq_ok_iff, Reads, List.reverse_eq_iff]

theorem Lexer.feed_separator (hc : isIdentifierChar c = false) (hmid : Reads [c] mid)
    (l : Lexer) : ∃ l', l.feed c = .ok l' ∧ Behind (mid.reverse ++ l.tokens) {} l' := by
  obtain ⟨l₁, hrun, htokens⟩ := hmid
  rw [List.foldlM_cons, feed, if_neg (by simp [hc])] at hrun
  rw [feed, if_neg (by simp [hc]), ← htokens]
  split at hrun
  · cases hrun
    exact ⟨_, rfl, rfl, rfl⟩
  · split at hrun
    · next hblank =>
      cases hrun
      rw [if_pos hblank]
      exact ⟨_, rfl, rfl, rfl⟩
    · cases hrun

theorem Reads.nil : Reads [] [] := ⟨_, rfl, rfl⟩

theorem reads_space : Reads [' '] [] := ⟨_, rfl, rfl⟩

theorem Reads.separator (hcs : Reads cs ts) (hc : isIdentifierChar c = false)
    (hmid : Reads [c] mid) (hds : Reads ds us) : Reads (cs ++ c :: ds) (ts ++ mid ++ us) := by
  obtain ⟨l, hl, htokens⟩ := hcs
  obtain ⟨l₁, hfeed, hbehind⟩ := Lexer.feed_separator hc hmid l
  obtain ⟨l₂, hl₂, htokens₂⟩ := hds
  obtain ⟨l₃, hl₃, hbehind₃⟩ := hbehind.foldlM_feed hl₂
  refine ⟨l₃, ?_, ?_⟩
  · rw [List.foldlM_append, hl]
    change (c :: ds).foldlM Lexer.feed l = .ok l₃
    rw [List.foldlM_cons, hfeed]
    exact hl₃
  · calc l₃.tokens
      _ = l₂.tokens ++ (mid.reverse ++ l.tokens) := hbehind₃.tokens
      _ = us.reverse ++ (mid.reverse ++ ts.reverse) := by rw [htokens₂, htokens]
      _ = (ts ++ mid ++ us).reverse := by simp

theorem Reads.space (hcs : Reads cs ts) (hds : Reads ds us) :
    Reads (cs ++ ' ' :: ds) (ts ++ us) := by
  have hreads := hcs.separator rfl reads_space hds
  rw [List.append_nil] at hreads
  exact hreads

theorem Reads.mark {token : Token} (hcs : Reads cs ts) (c : Char)
    (htoken : Token.ofChar? c = some token) (hds : Reads ds us) :
    Reads (cs ++ c :: ds) (ts ++ token :: us) := by
  have hc : isIdentifierChar c = false := by
    rw [Token.ofChar?.eq_def] at htoken
    split at htoken <;> first | rfl | cases htoken
  have hmid : Reads [c] [token] := by
    refine ⟨⟨"", [token], 0 + c.utf8Size⟩, ?_, rfl⟩
    rw [List.foldlM_cons, Lexer.feed, if_neg (by simp [hc]), htoken]
    rfl
  have hreads := hcs.separator hc hmid hds
  rw [List.append_assoc] at hreads
  exact hreads

theorem Reads.dropWhile (h : Reads cs ts) : Reads (cs.dropWhile Text.isBlank) ts := by
  induction cs with
  | nil => exact h
  | cons c cs ih =>
    rw [List.dropWhile_cons]
    split
    · next hc =>
      apply ih
      obtain ⟨l, hl, htokens⟩ := h
      rw [List.foldlM_cons, Lexer.feed_blank hc] at hl
      have hstart : Lexer.Behind [] ⟨"", [], 0 + c.utf8Size⟩ {} := ⟨rfl, rfl⟩
      obtain ⟨l', hl', hbehind⟩ := hstart.foldlM_feed hl
      refine ⟨l', hl', ?_⟩
      rw [hbehind.tokens, List.append_nil, htokens]
    · exact h

theorem Reads.rdropWhile (h : Reads cs ts) : Reads (cs.rdropWhile Text.isBlank) ts := by
  induction cs using List.reverseRecOn with
  | nil => exact h
  | append_singleton cs c ih =>
    rw [List.rdropWhile_concat]
    split
    · next hc =>
      apply ih
      obtain ⟨l, hl, htokens⟩ := h
      rw [List.foldlM_append, bind_eq_ok_iff] at hl
      obtain ⟨l₁, hcs, hblank⟩ := hl
      rw [List.foldlM_cons, Lexer.feed_blank hc] at hblank
      cases hblank
      exact ⟨l₁, hcs, htokens⟩
    · exact h

theorem Reads.trim (h : Reads cs ts) : Reads (Text.trim cs) ts :=
  h.dropWhile.rdropWhile

theorem Reads.rdropWhile_ne_nil (h : Reads cs ts) (hne : ts ≠ []) :
    cs.rdropWhile Text.isBlank ≠ [] := by
  intro hnil
  obtain ⟨l, hl, htokens⟩ := h.rdropWhile
  rw [hnil] at hl
  cases hl
  exact hne (List.reverse_eq_nil_iff.mp htokens.symm)

theorem Reads.hash_not_mem (h : Reads cs ts) : '#' ∉ cs := by
  obtain ⟨l, hl, -⟩ := h
  intro hmem
  obtain ⟨front, back, rfl⟩ := List.append_of_mem hmem
  rw [List.foldlM_append, bind_eq_ok_iff] at hl
  obtain ⟨l₁, -, hback⟩ := hl
  have hfeed : l₁.feed '#' = .error (.invalidCharacter '#' l₁.offset) := rfl
  rw [List.foldlM_cons, hfeed] at hback
  cases hback

theorem Expression.parse_eq_of_scan {source source' : String} {ts : List Token}
    (h : Token.scan source = .ok ts) (h' : Token.scan source' = .ok ts) :
    Expression.parse source = Expression.parse source' := by
  rw [Expression.parse, Expression.parse, Token.parse, Token.parse, h, h']

theorem Expression.tokens_of_parse {source : String} {e : Expression}
    (h : Expression.parse source = .ok e) :
    ∃ ts, Token.scan source = .ok ts ∧ Expression.ofTokens ts = .ok e ∧ ts ≠ [] := by
  obtain ⟨ts, hscan, htokens⟩ := parse_eq_ok_iff.mp h
  refine ⟨ts, hscan, htokens, ?_⟩
  rintro rfl
  cases htokens

theorem rdropWhile_append_of_ne_nil {p : Char → Bool} (cs : List Char)
    (h : ds.rdropWhile p ≠ []) :
    (cs ++ ds).rdropWhile p = cs ++ ds.rdropWhile p := by
  have hne : ds.reverse.dropWhile p ≠ [] := by simpa [List.rdropWhile] using h
  rw [List.rdropWhile, List.reverse_append, List.dropWhile_append, if_neg (by simpa using hne),
    List.reverse_append, List.reverse_reverse, ← List.rdropWhile]

namespace Shell.Command

variable {keyword body : String}

theorem cutAt_line (hkeyword : isIdentifier keyword = true) (hbody : Reads body.toList ts) :
    (Text.cutAt '#' (keyword ++ " " ++ body).toList).1 = keyword.toList ++ ' ' :: body.toList := by
  have hline : (keyword ++ " " ++ body).toList = keyword.toList ++ ' ' :: body.toList := by simp
  have hhash : ∀ c ∈ keyword.toList ++ ' ' :: body.toList, (c != '#') = true := by
    intro c hc
    rw [bne_iff_ne]
    rintro rfl
    rcases List.mem_append.mp hc with hmem | hmem
    · have hchar := (isIdentifier_iff.mp hkeyword).2 '#' hmem
      cases hchar
    · rcases List.mem_cons.mp hmem with heq | hmem
      · cases heq
      · exact hbody.hash_not_mem hmem
  rw [hline, Text.cutAt, ← List.append_nil (keyword.toList ++ ' ' :: body.toList),
    List.takeWhile_append_of_pos hhash, List.takeWhile_nil]

theorem dropWhile_keyword (hkeyword : isIdentifier keyword = true) (cs : List Char) :
    (keyword.toList ++ cs).dropWhile Text.isBlank = keyword.toList ++ cs := by
  obtain ⟨hne, hall⟩ := isIdentifier_iff.mp hkeyword
  obtain ⟨c, rest, hkey⟩ := List.exists_cons_of_ne_nil hne
  have hc : ¬ Text.isBlank c = true := by
    intro hblank
    have hchar := hall c (hkey ▸ List.mem_cons_self)
    rw [isIdentifierChar_eq_false_of_isBlank hblank] at hchar
    cases hchar
  rw [hkey, List.cons_append, List.dropWhile_cons_of_neg hc]

theorem trim_line (hkeyword : isIdentifier keyword = true) (hbody : Reads body.toList ts)
    (hne : ts ≠ []) :
    Text.trim (Text.cutAt '#' (keyword ++ " " ++ body).toList).1 =
      keyword.toList ++ ' ' :: body.toList.rdropWhile Text.isBlank := by
  calc Text.trim (Text.cutAt '#' (keyword ++ " " ++ body).toList).1
    _ = (keyword.toList ++ ' ' :: body.toList).rdropWhile Text.isBlank := by
      rw [cutAt_line hkeyword hbody, Text.trim, dropWhile_keyword hkeyword, List.rdropWhile]
    _ = keyword.toList ++ ' ' :: body.toList.rdropWhile Text.isBlank := by
      rw [List.append_cons, rdropWhile_append_of_ne_nil _ (hbody.rdropWhile_ne_nil hne),
        ← List.append_cons]

/-- A line is taken apart into its keyword and an argument with the tokens of the text behind it. -/
theorem exists_argument (keyword : String) (hkeyword : isIdentifier keyword = true)
    (hbody : Token.scan body = .ok ts) (hne : ts ≠ []) :
    ∃ rest, (Text.trim (Text.cutAt '#' (keyword ++ " " ++ body).toList).1).isEmpty = false ∧
      Text.spanWhile isIdentifierChar
        (Text.trim (Text.cutAt '#' (keyword ++ " " ++ body).toList).1) = (keyword.toList, rest) ∧
      Token.scan (String.ofList (Text.trim rest)) = .ok ts := by
  have hreads : Reads body.toList ts := scan_eq_ok_iff.mp hbody
  have hall := (isIdentifier_iff.mp hkeyword).2
  have hspace : ¬ isIdentifierChar ' ' = true := by decide
  refine ⟨' ' :: body.toList.rdropWhile Text.isBlank, ?_⟩
  rw [trim_line hkeyword hreads hne]
  refine ⟨?_, ?_, ?_⟩
  · simp
  · rw [Text.spanWhile, List.takeWhile_append_of_pos hall, List.dropWhile_append_of_pos hall,
      List.takeWhile_cons_of_neg hspace, List.dropWhile_cons_of_neg hspace, List.append_nil]
  · rw [scan_eq_ok_iff, String.toList_ofList]
    exact (Reads.nil.space hreads.rdropWhile).trim

theorem ofLine?_let (hbody : Token.scan body = .ok ts) (hne : ts ≠ []) :
    ∃ argument, ofLine? ("let " ++ body) = some (.define argument) ∧
      Token.scan argument = .ok ts := by
  obtain ⟨rest, hempty, hspan, hscan⟩ := exists_argument "let" rfl hbody hne
  refine ⟨String.ofList (Text.trim rest), ?_, hscan⟩
  rw [ofLine?]
  simp only [show "let " = "let" ++ " " from rfl, hempty, hspan]
  rfl

theorem ofLine?_eval (hbody : Token.scan body = .ok ts) (hne : ts ≠ []) :
    ∃ argument, ofLine? ("eval " ++ body) = some (.evaluate argument) ∧
      Token.scan argument = .ok ts := by
  obtain ⟨rest, hempty, hspan, hscan⟩ := exists_argument "eval" rfl hbody hne
  refine ⟨String.ofList (Text.trim rest), ?_, hscan⟩
  rw [ofLine?]
  simp only [show "eval " = "eval" ++ " " from rfl, hempty, hspan]
  rfl

theorem ofLine?_show (hbody : Token.scan body = .ok ts) (hne : ts ≠ []) :
    ∃ argument, ofLine? ("show " ++ body) = some (.inspect argument) ∧
      Token.scan argument = .ok ts := by
  obtain ⟨rest, hempty, hspan, hscan⟩ := exists_argument "show" rfl hbody hne
  refine ⟨String.ofList (Text.trim rest), ?_, hscan⟩
  rw [ofLine?]
  simp only [show "show " = "show" ++ " " from rfl, hempty, hspan]
  rfl

end Shell.Command

end UntypedLambda
