import UntypedLambda.Token

namespace UntypedLambda

section Except

variable {ε α β : Type} {x : Except ε α} {b : β}

theorem bind_eq_ok_iff {f : α → Except ε β} :
    (x >>= f) = .ok b ↔ ∃ a, x = .ok a ∧ f a = .ok b := by
  cases x with
  | error e => simp [bind, Except.bind]
  | ok a => simp [bind, Except.bind]

theorem bind_eq_error_iff {f : α → Except ε β} {err : ε} :
    (x >>= f) = .error err ↔ x = .error err ∨ ∃ a, x = .ok a ∧ f a = .error err := by
  cases x with
  | error e => simp [bind, Except.bind]
  | ok a => simp [bind, Except.bind]

theorem map_eq_ok_iff {f : α → β} : x.map f = .ok b ↔ ∃ a, x = .ok a ∧ f a = b := by
  cases x with
  | error e => simp [Except.map]
  | ok a => simp [Except.map]

theorem map_eq_error_iff {f : α → β} {err : ε} : x.map f = .error err ↔ x = .error err := by
  cases x with
  | error e => simp [Except.map]
  | ok a => simp [Except.map]

theorem mapError_eq_ok_iff {ε' : Type} {f : ε → ε'} {a : α} : x.mapError f = .ok a ↔ x = .ok a := by
  constructor
  · intro h
    cases x with
    | error e => cases h
    | ok a' =>
      cases h
      rfl
  · rintro rfl
    rfl

theorem mapError_eq_error_iff {ε' : Type} {f : ε → ε'} {err : ε'} :
    x.mapError f = .error err ↔ ∃ e, x = .error e ∧ err = f e := by
  constructor
  · intro h
    cases x with
    | error e =>
      cases h
      exact ⟨e, rfl, rfl⟩
    | ok a => cases h
  · rintro ⟨e, rfl, rfl⟩
    rfl

end Except

def Token.IsWritable : Token → Prop
  | .ident name => name.isIdentifier = true
  | .leftParen => True
  | .rightParen => True
  | .backslash => True
  | .dot => True
  | .equal => True

namespace Lexer

theorem feed_identifierChar {l : Lexer} {c : Char} (hc : isIdentifierChar c = true) :
    l.feed c = .ok { l with word := l.word.push c, offset := l.offset + c.utf8Size } := by
  rw [feed, if_pos hc]

/-- The characters of an identifier only make the word longer. -/
theorem foldlM_feed_word (cs : List Char) (hcs : ∀ c ∈ cs, isIdentifierChar c = true) (l : Lexer) :
    ∃ l', cs.foldlM feed l = .ok l' ∧ l'.word.toList = l.word.toList ++ cs ∧
      l'.done = l.done := by
  induction cs generalizing l with
  | nil => exact ⟨l, rfl, by simp, rfl⟩
  | cons c cs ih =>
    obtain ⟨l', hrun, hword, hdone⟩ := ih (fun d hd => hcs d (List.mem_cons_of_mem c hd))
      { l with word := l.word.push c, offset := l.offset + c.utf8Size }
    refine ⟨l', ?_, ?_, hdone⟩
    · rw [List.foldlM_cons, feed_identifierChar (hcs c List.mem_cons_self)]
      exact hrun
    · rw [hword]
      simp

/-- A character that stands for a token ends the word in front of it. -/
theorem feed_ofChar? {l : Lexer} {c : Char} {token : Token} (hc : isIdentifierChar c = false)
    (htoken : Token.ofChar? c = some token) :
    ∃ l', l.feed c = .ok l' ∧ l'.tokens = token :: l.tokens ∧ l'.word.isEmpty = true := by
  refine ⟨{ done := token :: l.tokens, offset := l.offset + c.utf8Size }, ?_, rfl, rfl⟩
  rw [feed, if_neg (by simp [hc]), htoken]

theorem feed_space (l : Lexer) :
    ∃ l', l.feed ' ' = .ok l' ∧ l'.tokens = l.tokens ∧ l'.word.isEmpty = true :=
  ⟨{ done := l.tokens, offset := l.offset + ' '.utf8Size }, rfl, rfl, rfl⟩

/-- An identifier that does not run into another one is read as it was written. -/
theorem foldlM_feed_identifier {l : Lexer} (hl : l.word.isEmpty = true) {name : Name}
    (hname : name.isIdentifier = true) :
    ∃ l', name.text.toList.foldlM feed l = .ok l' ∧ l'.tokens = .ident name :: l.tokens ∧
      l'.word.isEmpty = false := by
  have hname' : name.text.isEmpty = false ∧ ∀ c ∈ name.text.toList, isIdentifierChar c = true := by
    simpa [Name.isIdentifier, UntypedLambda.isIdentifier] using hname
  obtain ⟨l', hrun, hword, hdone⟩ := foldlM_feed_word name.text.toList hname'.2 l
  have hempty : l.word = "" := String.isEmpty_iff.mp hl
  have hword' : l'.word = name.text := by
    rw [hempty] at hword
    exact String.toList_inj.mp (by simpa using hword)
  have htokens : l.tokens = l.done := by rw [tokens, if_pos hl]
  refine ⟨l', hrun, ?_, ?_⟩
  · rw [tokens, hword', if_neg (by simp [hname'.1]), hdone, htokens]
  · rw [hword', hname'.1]

theorem foldlM_feed_token {l : Lexer} {spaced : Bool} (hl : l.word.isEmpty = !spaced)
    {token : Token} (htoken : token.IsWritable) :
    ∃ l', ((if token.isIdent && spaced then " " else "") ++ token.text).toList.foldlM feed l =
        .ok l' ∧ l'.tokens = token :: l.tokens ∧ l'.word.isEmpty = !token.isIdent := by
  cases token with
  | ident name =>
    cases spaced with
    | false =>
      obtain ⟨l', hrun, hread⟩ := foldlM_feed_identifier hl htoken
      exact ⟨l', by simpa [Token.isIdent, Token.text] using hrun, hread⟩
    | true =>
      obtain ⟨l₁, hspace, htokens, hword⟩ := feed_space l
      obtain ⟨l', hrun, hread⟩ := foldlM_feed_identifier hword htoken
      refine ⟨l', ?_, by rw [← htokens]; exact hread⟩
      have hchars : (" " ++ name.text).toList = ' ' :: name.text.toList := by simp
      rw [Token.isIdent, Token.text, Bool.and_true, if_pos rfl, hchars, List.foldlM_cons, hspace]
      exact hrun
  | leftParen =>
    obtain ⟨l', hrun, hread⟩ := feed_ofChar? (l := l) (c := '(') rfl rfl
    exact ⟨l', by simp [Token.isIdent, Token.text, hrun], hread⟩
  | rightParen =>
    obtain ⟨l', hrun, hread⟩ := feed_ofChar? (l := l) (c := ')') rfl rfl
    exact ⟨l', by simp [Token.isIdent, Token.text, hrun], hread⟩
  | backslash =>
    obtain ⟨l', hrun, hread⟩ := feed_ofChar? (l := l) (c := '\\') rfl rfl
    exact ⟨l', by simp [Token.isIdent, Token.text, hrun], hread⟩
  | dot =>
    obtain ⟨l', hrun, hread⟩ := feed_ofChar? (l := l) (c := '.') rfl rfl
    exact ⟨l', by simp [Token.isIdent, Token.text, hrun], hread⟩
  | equal =>
    obtain ⟨l', hrun, hread⟩ := feed_ofChar? (l := l) (c := '=') rfl rfl
    exact ⟨l', by simp [Token.isIdent, Token.text, hrun], hread⟩

/-- Reading goes on behind a text as it was written on. -/
theorem foldlM_feed_spellOnto (ts : List Token) (hts : ∀ token ∈ ts, token.IsWritable)
    {text : String} {l : Lexer} {spaced : Bool} (htext : text.toList.foldlM feed {} = .ok l)
    (hl : l.word.isEmpty = !spaced) :
    ∃ l', (Token.spellOnto ts text spaced).toList.foldlM feed {} = .ok l' ∧
      l'.tokens = ts.reverse ++ l.tokens := by
  induction ts generalizing text l spaced with
  | nil => exact ⟨l, htext, rfl⟩
  | cons token ts ih =>
    obtain ⟨l₁, hrun, htokens, hword⟩ := foldlM_feed_token hl (hts token List.mem_cons_self)
    have hpiece : (if token.isIdent && spaced then text ++ " " else text) ++ token.text =
        text ++ ((if token.isIdent && spaced then " " else "") ++ token.text) := by
      split <;> simp [String.append_assoc]
    have hread : (text ++ ((if token.isIdent && spaced then " " else "") ++
        token.text)).toList.foldlM feed {} = .ok l₁ := by
      rw [String.toList_append, List.foldlM_append, htext]
      exact hrun
    have hrest : ∀ u ∈ ts, u.IsWritable := fun u hu => hts u (List.mem_cons_of_mem token hu)
    obtain ⟨l', hrun', htokens'⟩ := ih hrest hread hword
    refine ⟨l', ?_, ?_⟩
    · rw [Token.spellOnto, hpiece]
      exact hrun'
    · rw [htokens', htokens]
      simp

end Lexer

namespace Token

theorem scan_spell {ts : List Token} (hts : ∀ token ∈ ts, token.IsWritable) :
    scan (spell ts) = .ok ts := by
  have hstart : "".toList.foldlM Lexer.feed {} = .ok {} := rfl
  have hword : (Lexer.word {}).isEmpty = !false := rfl
  obtain ⟨l, hrun, htokens⟩ := Lexer.foldlM_feed_spellOnto ts hts hstart hword
  have hdone : l.tokens = ts.reverse := by
    rw [htokens]
    exact List.append_nil _
  rw [scan, spell, hrun]
  simp [Except.map, hdone]

end Token

namespace Lexer

structure Valid (l : Lexer) : Prop where
  word : ∀ c ∈ l.word.toList, isIdentifierChar c = true
  done : ∀ token ∈ l.done, token.IsWritable

theorem Valid.tokens {l : Lexer} (h : l.Valid) : ∀ token ∈ l.tokens, token.IsWritable := by
  intro token htoken
  rw [Lexer.tokens] at htoken
  split at htoken
  · exact h.done token htoken
  · next hne =>
    rcases List.mem_cons.mp htoken with rfl | hdone
    · have hword : ∀ c ∈ l.word.toList, isIdentifierChar c = true := h.word
      simpa [Token.IsWritable, Name.isIdentifier, UntypedLambda.isIdentifier, hne] using hword
    · exact h.done token hdone

theorem isWritable_of_ofChar? {c : Char} {token : Token} (h : Token.ofChar? c = some token) :
    token.IsWritable := by
  rw [Token.ofChar?.eq_def] at h
  split at h <;> cases h <;> trivial

theorem Valid.feed {l l' : Lexer} {c : Char} (h : l.Valid) (hfeed : l.feed c = .ok l') :
    l'.Valid := by
  rw [Lexer.feed] at hfeed
  split at hfeed
  · next hc =>
    cases hfeed
    refine ⟨?_, h.done⟩
    intro d hd
    have hd' : d ∈ l.word.toList ∨ d = c := by simpa using hd
    rcases hd' with hd' | rfl
    · exact h.word d hd'
    · exact hc
  · split at hfeed
    · next token htoken =>
      cases hfeed
      exact ⟨by simp, List.forall_mem_cons.mpr ⟨isWritable_of_ofChar? htoken, h.tokens⟩⟩
    · split at hfeed
      · cases hfeed
        exact ⟨by simp, h.tokens⟩
      · cases hfeed

theorem Valid.foldlM_feed {cs : List Char} {l l' : Lexer} (h : l.Valid)
    (hrun : cs.foldlM Lexer.feed l = .ok l') : l'.Valid := by
  induction cs generalizing l with
  | nil =>
    cases hrun
    exact h
  | cons c cs ih =>
    rw [List.foldlM_cons, bind_eq_ok_iff] at hrun
    obtain ⟨l₁, hfeed, hrest⟩ := hrun
    exact ih (h.feed hfeed) hrest

end Lexer

theorem Token.isWritable_of_scan {source : String} {ts : List Token} (h : scan source = .ok ts) :
    ∀ token ∈ ts, token.IsWritable := by
  rw [scan, map_eq_ok_iff] at h
  obtain ⟨l, hrun, rfl⟩ := h
  have hvalid : Lexer.Valid {} := ⟨by simp, by simp⟩
  have htokens := (hvalid.foldlM_feed hrun).tokens
  intro token htoken
  exact htokens token (List.mem_reverse.mp htoken)

namespace Token

theorem forall_isWritable_iff {ts : List Token} :
    (∀ token ∈ ts, token.IsWritable) ↔ ∀ name, ident name ∈ ts → name.isIdentifier = true := by
  constructor
  · intro h name hname
    exact h (ident name) hname
  · intro h token htoken
    cases token with
    | ident name => exact h name htoken
    | _ => trivial

/-- Tokens are the same after they were written and cut again if and only if the name of every
identifier among them is one.  The tokens of a text are of this kind. -/
theorem scan_spell_iff :
    (∀ ts : List Token,
      scan (spell ts) = .ok ts ↔ ∀ name, ident name ∈ ts → name.isIdentifier = true) ∧
    (∀ (source : String) (ts : List Token), scan source = .ok ts → scan (spell ts) = .ok ts) := by
  constructor
  · intro ts
    rw [← forall_isWritable_iff]
    exact ⟨isWritable_of_scan, scan_spell⟩
  · intro source ts h
    exact scan_spell (isWritable_of_scan h)

def applicationTokens : List Token :=
  [.backslash, .ident ⟨"x"⟩, .ident ⟨"y"⟩, .dot, .ident ⟨"x"⟩, .leftParen, .ident ⟨"x0"⟩,
    .ident ⟨"y"⟩, .rightParen]

theorem scan_spell_iff_of_looseBlanks :
    scan " \\x\u2003y .x( x0\ty) " = .ok applicationTokens ∧
    spell applicationTokens = "\\x y.x(x0 y)" ∧
    scan (spell applicationTokens) = .ok applicationTokens ∧
    scan (spell [.ident ⟨"x("⟩, .rightParen]) ≠ .ok [.ident ⟨"x("⟩, .rightParen] := by
  have hscan : scan " \\x\u2003y .x( x0\ty) " = .ok applicationTokens := rfl
  refine ⟨hscan, rfl, scan_spell_iff.2 _ _ hscan, ?_⟩
  rw [Ne, scan_spell_iff.1]
  intro h
  exact absurd (h ⟨"x("⟩ List.mem_cons_self) (by decide)

end Token

end UntypedLambda
