import UntypedLambda.Proofs.DefinitionText

namespace UntypedLambda

namespace Lexer

def Accepts (c : Char) : Prop :=
  isIdentifierChar c = true ∨ (Token.ofChar? c).isSome ∨ Text.isBlank c = true

variable {l l' : Lexer} {c : Char} {cs : List Char} {token : Token}

theorem exists_feed_iff : (∃ l', l.feed c = .ok l') ↔ Accepts c := by
  rw [feed, Accepts]
  split
  · next hc => simp [hc]
  · next hc =>
    cases htoken : Token.ofChar? c with
    | some token => simp
    | none =>
      by_cases hblank : Text.isBlank c = true
      · simp [hblank]
      · simp [hblank, hc]

theorem exists_foldlM_feed_iff :
    (∃ l', cs.foldlM feed l = .ok l') ↔ ∀ c ∈ cs, Accepts c := by
  induction cs generalizing l with
  | nil => exact iff_of_true ⟨l, rfl⟩ (List.forall_mem_nil _)
  | cons c cs ih =>
    rw [List.forall_mem_cons, List.foldlM_cons]
    simp only [bind_eq_ok_iff]
    constructor
    · rintro ⟨l', l₁, hfeed, hrun⟩
      exact ⟨exists_feed_iff.mp ⟨l₁, hfeed⟩, ih.mp ⟨l', hrun⟩⟩
    · rintro ⟨hc, hcs⟩
      obtain ⟨l₁, hfeed⟩ := exists_feed_iff.mpr hc
      obtain ⟨l', hrun⟩ := ih.mpr hcs
      exact ⟨l', l₁, hfeed, hrun⟩

theorem mem_tokens_iff (hident : token.isIdent = false) :
    token ∈ l.tokens ↔ token ∈ l.done := by
  rw [tokens]
  split
  · rfl
  · rw [List.mem_cons, or_iff_right]
    rintro rfl
    cases hident

theorem mem_tokens_of_feed (hident : token.isIdent = false) (hfeed : l.feed c = .ok l')
    (htoken : token ∈ l'.tokens) : token ∈ l.tokens ∨ Token.ofChar? c = some token := by
  rw [mem_tokens_iff hident] at htoken
  rw [feed] at hfeed
  split at hfeed
  · cases hfeed
    exact .inl ((mem_tokens_iff hident).mpr htoken)
  · split at hfeed
    · next mark hmark =>
      cases hfeed
      rcases List.mem_cons.mp htoken with rfl | htoken
      · exact .inr hmark
      · exact .inl htoken
    · split at hfeed
      · cases hfeed
        exact .inl htoken
      · cases hfeed

theorem mem_tokens_of_foldlM_feed (hident : token.isIdent = false)
    (hrun : cs.foldlM feed l = .ok l') (htoken : token ∈ l'.tokens) :
    token ∈ l.tokens ∨ ∃ c ∈ cs, Token.ofChar? c = some token := by
  induction cs generalizing l with
  | nil =>
    cases hrun
    exact .inl htoken
  | cons c cs ih =>
    rw [List.foldlM_cons, bind_eq_ok_iff] at hrun
    obtain ⟨l₁, hfeed, hrest⟩ := hrun
    obtain htoken₁ | ⟨d, hd, hmark⟩ := ih hrest
    · rcases mem_tokens_of_feed hident hfeed htoken₁ with htoken₀ | hmark
      · exact .inl htoken₀
      · exact .inr ⟨c, List.mem_cons_self, hmark⟩
    · exact .inr ⟨d, List.mem_cons_of_mem c hd, hmark⟩

end Lexer

variable {c : Char} {cs ds : List Char} {ts us : List Token} {token : Token}

theorem isIdentifierChar_eq_false_of_ofChar? (h : Token.ofChar? c = some token) :
    isIdentifierChar c = false := by
  rw [Token.ofChar?.eq_def] at h
  split at h <;> first | rfl | cases h

theorem exists_reads_iff : (∃ ts, Reads cs ts) ↔ ∀ c ∈ cs, Lexer.Accepts c := by
  rw [← Lexer.exists_foldlM_feed_iff (l := {})]
  constructor
  · rintro ⟨ts, l, hrun, -⟩
    exact ⟨l, hrun⟩
  · rintro ⟨l, hrun⟩
    exact ⟨l.tokens.reverse, l, hrun, (List.reverse_reverse _).symm⟩

theorem Reads.unique (h : Reads cs ts) (h' : Reads cs us) : ts = us := by
  obtain ⟨l, hrun, htokens⟩ := h
  obtain ⟨l', hrun', htokens'⟩ := h'
  cases hrun.symm.trans hrun'
  exact List.reverse_injective (htokens.symm.trans htokens')

theorem reads_separator (hc : isIdentifierChar c = false) (haccepts : Lexer.Accepts c) :
    Reads [c] (Token.ofChar? c).toList := by
  cases htoken : Token.ofChar? c with
  | some token => exact Reads.nil.mark c htoken Reads.nil
  | none =>
    have hblank : Text.isBlank c = true := by simpa [Lexer.Accepts, hc, htoken] using haccepts
    refine ⟨⟨"", [], 0 + c.utf8Size⟩, ?_, rfl⟩
    rw [List.foldlM_cons, Lexer.feed_blank hblank]
    rfl

/-- At a separator the tokens can be told apart that stand on both sides of it. -/
theorem Reads.split (h : Reads (cs ++ c :: ds) ts) (hc : isIdentifierChar c = false) :
    ∃ front back, Reads cs front ∧ Reads ds back ∧
      ts = front ++ (Token.ofChar? c).toList ++ back := by
  have haccepts := exists_reads_iff.mp ⟨ts, h⟩
  rw [List.forall_mem_append, List.forall_mem_cons] at haccepts
  obtain ⟨hcs, hmid, hds⟩ := haccepts
  obtain ⟨front, hfront⟩ := exists_reads_iff.mpr hcs
  obtain ⟨back, hback⟩ := exists_reads_iff.mpr hds
  exact ⟨front, back, hfront, hback, h.unique (hfront.separator hc (reads_separator hc hmid) hback)⟩

theorem Reads.mem_iff (h : Reads cs ts) (hident : token.isIdent = false) :
    token ∈ ts ↔ ∃ c ∈ cs, Token.ofChar? c = some token := by
  constructor
  · intro htoken
    obtain ⟨l, hrun, htokens⟩ := h
    have hmem : token ∈ l.tokens := htokens ▸ List.mem_reverse.mpr htoken
    exact (Lexer.mem_tokens_of_foldlM_feed hident hrun hmem).resolve_left fun hnil => by
      cases hnil
  · rintro ⟨c, hc, hmark⟩
    obtain ⟨front, back, rfl⟩ := List.append_of_mem hc
    obtain ⟨ts', us', -, -, rfl⟩ := h.split (isIdentifierChar_eq_false_of_ofChar? hmark)
    simp [hmark]

theorem Reads.ne_nil (h : Reads cs ts) (hne : ts ≠ []) : cs ≠ [] := by
  rintro rfl
  exact hne (h.unique Reads.nil)

theorem eq_of_ofChar?_equal (h : Token.ofChar? c = some .equal) : c = '=' := by
  rw [Token.ofChar?.eq_def] at h
  split at h <;> first | rfl | cases h

theorem isIdent_eq_false_of_ofChar? (h : Token.ofChar? c = some token) :
    token.isIdent = false := by
  rw [Token.ofChar?.eq_def] at h
  split at h <;> cases h <;> rfl

/-- A text of identifiers has no other characters than theirs and blanks. -/
theorem Reads.isIdentifierChar_of_mem {ns : List Name} (h : Reads cs (ns.map Token.ident)) :
    ∀ c ∈ cs, Text.isBlank c = false → isIdentifierChar c = true := by
  intro c hc hblank
  rcases exists_reads_iff.mp ⟨_, h⟩ c hc with hchar | hmark | hblank'
  · exact hchar
  · obtain ⟨token, htoken⟩ := Option.isSome_iff_exists.mp hmark
    have hident := isIdent_eq_false_of_ofChar? htoken
    obtain ⟨n, -, rfl⟩ := List.mem_map.mp ((h.mem_iff hident).mpr ⟨c, hc, htoken⟩)
    cases hident
  · rw [hblank] at hblank'
    cases hblank'

theorem forall_mem_endWord {P : Char → Prop} {word : List Char} {done : List (List Char)}
    (hword : ∀ c ∈ word, P c) (hdone : ∀ piece ∈ done, piece ≠ [] ∧ ∀ c ∈ piece, P c) :
    ∀ piece ∈ if word.isEmpty then done else word.reverse :: done,
      piece ≠ [] ∧ ∀ c ∈ piece, P c := by
  split
  · exact hdone
  · next hne =>
    have hne' : word.reverse ≠ [] := by simpa using hne
    exact List.forall_mem_cons.mpr
      ⟨⟨hne', fun c hc => hword c (List.mem_reverse.mp hc)⟩, hdone⟩

theorem forall_mem_wordsOnto {P : Char → Prop} {word : List Char} {done : List (List Char)}
    (hcs : ∀ c ∈ cs, Text.isBlank c = false → P c) (hword : ∀ c ∈ word, P c)
    (hdone : ∀ piece ∈ done, piece ≠ [] ∧ ∀ c ∈ piece, P c) :
    ∀ piece ∈ Text.wordsOnto cs word done, piece ≠ [] ∧ ∀ c ∈ piece, P c := by
  induction cs generalizing word done with
  | nil =>
    rw [Text.wordsOnto]
    exact forall_mem_endWord hword hdone
  | cons c cs ih =>
    rw [List.forall_mem_cons] at hcs
    obtain ⟨hc, hcs⟩ := hcs
    rw [Text.wordsOnto]
    split
    · exact ih hcs (List.forall_mem_nil _) (forall_mem_endWord hword hdone)
    · next hblank =>
      have hPc : P c := hc (Bool.eq_false_of_not_eq_true hblank)
      exact ih hcs (List.forall_mem_cons.mpr ⟨hPc, hword⟩) hdone

/-- Every word has characters, and they are those of the text that are not blank. -/
theorem forall_mem_words {P : Char → Prop} (hcs : ∀ c ∈ cs, Text.isBlank c = false → P c) :
    ∀ piece ∈ Text.words cs, piece ≠ [] ∧ ∀ c ∈ piece, P c := by
  intro piece hpiece
  exact forall_mem_wordsOnto hcs (List.forall_mem_nil _) (List.forall_mem_nil _) piece
    (List.mem_reverse.mp hpiece)

theorem eq_of_append_cons_eq {front back : List Token} (hts : token ∉ ts) (hfront : token ∉ front)
    (h : ts ++ token :: us = front ++ token :: back) : ts = front ∧ us = back := by
  induction ts generalizing front with
  | nil =>
    cases front with
    | nil => simpa using h
    | cons u front =>
      cases h
      exact absurd List.mem_cons_self hfront
  | cons t ts ih =>
    cases front with
    | nil =>
      cases h
      exact absurd List.mem_cons_self hts
    | cons u front =>
      obtain ⟨rfl, hrest⟩ := List.cons_eq_cons.mp h
      obtain ⟨rfl, rfl⟩ := ih (fun hmem => hts (List.mem_cons_of_mem t hmem))
        (fun hmem => hfront (List.mem_cons_of_mem t hmem)) hrest
      exact ⟨rfl, rfl⟩

theorem exists_of_readParameters {seen names : List Name}
    (h : Definition.readParameters ts seen = .ok (names, us)) :
    ∃ ns, names = seen.reverse ++ ns ∧ ts = ns.map Token.ident ++ .equal :: us := by
  induction ts generalizing seen with
  | nil => cases h
  | cons token ts ih =>
    cases token with
    | ident n =>
      rw [Definition.readParameters] at h
      obtain ⟨ns, rfl, rfl⟩ := ih h
      exact ⟨n :: ns, by simp, rfl⟩
    | equal =>
      cases h
      exact ⟨[], by simp, rfl⟩
    | leftParen => cases h
    | rightParen => cases h
    | backslash => cases h
    | dot => cases h

/-- A definition is read from identifiers in front of an `=` and from an expression behind it. -/
theorem Definition.exists_of_ofTokens {d : Definition} (h : Definition.ofTokens ts = .ok d) :
    ∃ us, ts = (d.name :: d.parameters).map Token.ident ++ .equal :: us ∧
      Expression.ofTokens us = .ok d.body := by
  rw [Definition.ofTokens.eq_def] at h
  split at h
  · next name tokens =>
    obtain ⟨⟨parameters, us⟩, hparameters, hbody⟩ := bind_eq_ok_iff.mp h
    obtain ⟨body, hexpression, hd⟩ := bind_eq_ok_iff.mp hbody
    cases hd
    obtain ⟨ns, hns, rfl⟩ := exists_of_readParameters hparameters
    cases hns
    exact ⟨us, rfl, hexpression⟩
  · cases h

namespace Shell.Session

variable {argument : String}

/-- What the checks look at: both sides of the first `=`, and the words in front of it. -/
theorem checkDefinition_eq_ok_iff : checkDefinition argument = .ok () ↔
    Text.trim (Text.cutAt '=' argument.toList).1 ≠ [] ∧
    Text.trim (Text.cutAt '=' argument.toList).2 ≠ [] ∧
    ∀ piece ∈ Text.words (Text.trim (Text.cutAt '=' argument.toList).1),
      isIdentifier (String.ofList piece) = true := by
  rw [checkDefinition]
  generalize Text.cutAt '=' argument.toList = sides
  obtain ⟨left, right⟩ := sides
  dsimp only
  by_cases hempty : ((Text.trim left).isEmpty || (Text.trim right).isEmpty) = true
  · rw [if_pos hempty]
    refine iff_of_false (by rintro ⟨⟩) ?_
    rintro ⟨hleft, hright, -⟩
    rw [Bool.or_eq_true, List.isEmpty_iff, List.isEmpty_iff] at hempty
    exact hempty.elim hleft hright
  · rw [if_neg hempty]
    rw [Bool.or_eq_true, List.isEmpty_iff, List.isEmpty_iff, not_or] at hempty
    cases hfind : (Text.words (Text.trim left)).find?
        fun piece => !isIdentifier (String.ofList piece) with
    | none =>
      refine iff_of_true rfl ⟨hempty.1, hempty.2, ?_⟩
      simpa using hfind
    | some piece =>
      refine iff_of_false (by rintro ⟨⟩) ?_
      rintro ⟨-, -, hwords⟩
      have hpiece := List.find?_some hfind
      rw [hwords piece (List.mem_of_find?_eq_some hfind)] at hpiece
      cases hpiece

theorem checkDefinition_of_reads {ns : List Name} (hns : ns ≠ []) (hus : us ≠ [])
    (h : Reads argument.toList (ns.map Token.ident ++ .equal :: us)) :
    checkDefinition argument = .ok () := by
  have hequal : Token.equal ∈ ns.map Token.ident ++ .equal :: us := by simp
  obtain ⟨c, hc, hmark⟩ := (h.mem_iff rfl).mp hequal
  obtain rfl := eq_of_ofChar?_equal hmark
  obtain ⟨left, right, hcs, hleft⟩ := List.eq_append_cons_of_mem hc
  rw [hcs] at h
  obtain ⟨front, back, hfront, hback, heq⟩ := h.split rfl
  have hnot : Token.equal ∉ front := by
    intro hmem
    obtain ⟨c, hc, hmark⟩ := (hfront.mem_iff rfl).mp hmem
    exact hleft (eq_of_ofChar?_equal hmark ▸ hc)
  have hnames : Token.equal ∉ ns.map Token.ident := by simp
  obtain ⟨rfl, rfl⟩ := eq_of_append_cons_eq hnames hnot (by simpa [Token.ofChar?] using heq)
  have hleftSide : Text.trim left ≠ [] := hfront.trim.ne_nil (by simpa using hns)
  have hrightSide : Text.trim right ≠ [] := hback.trim.ne_nil hus
  rw [checkDefinition_eq_ok_iff, hcs, Text.cutAt_append hleft]
  refine ⟨hleftSide, hrightSide, ?_⟩
  intro piece hpiece
  rw [isIdentifier_iff, String.toList_ofList]
  exact forall_mem_words hfront.trim.isIdentifierChar_of_mem piece hpiece

/-- The checks refuse nothing that can be read as a definition. -/
theorem readDefinition_of_parse {d : Definition} (h : Definition.parse argument = .ok d) :
    readDefinition argument = .ok d := by
  obtain ⟨ts, hscan, htokens⟩ := bind_eq_ok_iff.mp h
  obtain ⟨us, rfl, hbody⟩ := Definition.exists_of_ofTokens htokens
  have hreads := scan_eq_ok_iff.mp (Token.parse_eq_ok_iff.mp hscan)
  have hus : us ≠ [] := by
    rintro rfl
    cases hbody
  rw [readDefinition, checkDefinition_of_reads (List.cons_ne_nil _ _) hus hreads, h]
  rfl

/-- A definition can be written on a line, with the text of an expression behind its `=`. -/
theorem exists_define_letLine {n : Name} {parameters : List Name} {value : String} {e : Expression}
    (hnames : ∀ m ∈ n :: parameters, m.isIdentifier = true)
    (hvalue : Expression.parse value = .ok e) :
    ∃ argument, Command.ofLine? (letLine n parameters value) = some (.define argument) ∧
      readDefinition argument = .ok ⟨n, parameters, e⟩ := by
  obtain ⟨ts, hscan, hparse, -⟩ := Expression.tokens_of_parse hvalue
  obtain ⟨argument, hline, hargument⟩ := Command.ofLine?_let (scan_letLine hnames hscan) (by simp)
  have hdefinition : Definition.parse argument = .ok ⟨n, parameters, e⟩ := by
    rw [Definition.parse, Token.parse, hargument]
    exact definition_ofTokens hparse
  exact ⟨argument, hline, readDefinition_of_parse hdefinition⟩

end Shell.Session

end UntypedLambda
