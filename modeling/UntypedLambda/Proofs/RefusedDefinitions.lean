import UntypedLambda.Proofs.Continuations
import UntypedLambda.Proofs.Lexing

namespace UntypedLambda

def ParseError.IsOfExpression : ParseError → Prop
  | lex _ => False
  | unexpectedToken _ => True
  | invalidToken _ => True
  | unexpectedEnd => True
  | invalidNameSequence => True
  | expectedIdentifier => False
  | expectedEqual => False
  | trailingTokens => False

namespace Parser

variable {p : Parser} {token : Token} {ts : List Token} {err : ParseError}

theorem isOfExpression_of_feed (h : p.feed token = .error err) : err.IsOfExpression := by
  obtain ⟨opened, current, header⟩ := p
  cases header with
  | some parameters =>
    have hheader : feedHeader ⟨opened, current, some parameters⟩ parameters token = .error err := h
    rw [feedHeader.eq_def] at hheader
    split at hheader
    · cases hheader
    · split at hheader
      · cases hheader
        trivial
      · cases hheader
    · cases hheader
      trivial
  | none =>
    cases token with
    | rightParen =>
      rw [closeGroup_eq_error h]
      trivial
    | dot =>
      cases h
      trivial
    | equal =>
      cases h
      trivial
    | ident name => cases h
    | leftParen => cases h
    | backslash => cases h

theorem isOfExpression_of_foldlM_feed (h : ts.foldlM feed p = .error err) :
    err.IsOfExpression := by
  induction ts generalizing p with
  | nil => cases h
  | cons token ts ih =>
    rw [List.foldlM_cons, bind_eq_error_iff] at h
    rcases h with hfeed | ⟨q, -, hrest⟩
    · exact isOfExpression_of_feed hfeed
    · exact ih hrest

end Parser

theorem Expression.isOfExpression_of_ofTokens {ts : List Token} {err : ParseError}
    (h : ofTokens ts = .error err) : err.IsOfExpression := by
  rcases ofTokens_eq_error_iff.mp h with hrun | ⟨p, -, hfinish⟩
  · exact Parser.isOfExpression_of_foldlM_feed hrun
  · cases hheader : p.header with
    | some parameters =>
      cases (Parser.finish_of_header hheader).symm.trans hfinish
      trivial
    | none =>
      rw [Parser.finish_eq_error hheader hfinish]
      trivial

namespace Text

variable {c : Char} {cs word : List Char} {done : List (List Char)}

theorem exists_of_trim_ne_nil (h : trim cs ≠ []) : ∃ c ∈ cs, isBlank c = false := by
  by_contra hnone
  have hblank : ∀ c ∈ cs, isBlank c = true := by simpa using hnone
  apply h
  rw [trim, List.dropWhile_eq_nil_iff.mpr hblank]
  rfl

theorem mem_dropWhile_isBlank (hblank : isBlank c = false) (hc : c ∈ cs) :
    c ∈ cs.dropWhile isBlank := by
  rw [← List.takeWhile_append_dropWhile (p := isBlank) (l := cs), List.mem_append] at hc
  apply hc.resolve_left
  intro htake
  rw [List.mem_takeWhile_imp htake] at hblank
  cases hblank

theorem mem_trim (hblank : isBlank c = false) (hc : c ∈ cs) : c ∈ trim cs := by
  have hfront := List.mem_reverse.mpr (mem_dropWhile_isBlank hblank hc)
  exact List.mem_reverse.mpr (mem_dropWhile_isBlank hblank hfront)

theorem exists_mem_endWord (h : c ∈ word ∨ ∃ piece ∈ done, c ∈ piece) :
    ∃ piece ∈ if word.isEmpty then done else word.reverse :: done, c ∈ piece := by
  cases word with
  | nil => exact h.resolve_left List.not_mem_nil
  | cons d word =>
    rw [List.isEmpty_cons, if_neg Bool.false_ne_true]
    rcases h with hword | ⟨piece, hpiece, hc⟩
    · exact ⟨_, List.mem_cons_self, List.mem_reverse.mpr hword⟩
    · exact ⟨piece, List.mem_cons_of_mem _ hpiece, hc⟩

theorem exists_mem_wordsOnto (hblank : isBlank c = false)
    (h : c ∈ cs ∨ c ∈ word ∨ ∃ piece ∈ done, c ∈ piece) :
    ∃ piece ∈ wordsOnto cs word done, c ∈ piece := by
  induction cs generalizing word done with
  | nil =>
    rw [wordsOnto]
    exact exists_mem_endWord (h.resolve_left List.not_mem_nil)
  | cons d cs ih =>
    rw [List.mem_cons] at h
    rw [wordsOnto]
    split
    · next hd =>
      have hne : c ≠ d := by
        rintro rfl
        rw [hd] at hblank
        cases hblank
      apply ih
      rcases h with (hcd | hcs) | hseen
      · exact absurd hcd hne
      · exact .inl hcs
      · exact .inr (.inr (exists_mem_endWord hseen))
    · apply ih
      rcases h with (rfl | hcs) | hword | hdone
      · exact .inr (.inl List.mem_cons_self)
      · exact .inl hcs
      · exact .inr (.inl (List.mem_cons_of_mem d hword))
      · exact .inr (.inr hdone)

theorem exists_mem_words (hblank : isBlank c = false) (hc : c ∈ cs) :
    ∃ piece ∈ words cs, c ∈ piece := by
  have hstart : c ∈ cs ∨ c ∈ ([] : List Char) ∨ ∃ piece ∈ ([] : List (List Char)), c ∈ piece :=
    .inl hc
  obtain ⟨piece, hpiece, hmem⟩ := exists_mem_wordsOnto hblank hstart
  exact ⟨piece, List.mem_reverse.mpr hpiece, hmem⟩

end Text

variable {c : Char} {cs : List Char} {ts us : List Token} {err : ParseError} {n : Name}
  {ns : List Name}

theorem CutInto.ne_nil (h : CutInto cs ts) (hc : c ∈ cs) (hblank : Text.isBlank c = false) :
    ts ≠ [] := by
  induction h with
  | nil => cases hc
  | blank hd _ ih =>
    rcases List.mem_cons.mp hc with rfl | hc
    · rw [hd] at hblank
      cases hblank
    · exact ih hc
  | mark => exact List.cons_ne_nil _ _
  | word => exact List.cons_ne_nil _ _

/-- A text of identifier characters and blanks has no tokens but identifiers. -/
theorem CutInto.exists_names (h : CutInto cs ts)
    (hcs : ∀ c ∈ cs, Text.isBlank c = false → isIdentifierChar c = true) :
    ∃ ns : List Name, ts = ns.map Token.ident := by
  induction h with
  | nil => exact ⟨[], rfl⟩
  | blank _ _ ih => exact ih fun c hc => hcs c (List.mem_cons_of_mem _ hc)
  | @mark c token cs ts hmark _ ih =>
    have hblank : Text.isBlank c = false := by
      rw [← Bool.not_eq_true]
      intro hblank
      cases (ofChar?_eq_none_of_isBlank hblank).symm.trans hmark
    have hchar := hcs c List.mem_cons_self hblank
    rw [isIdentifierChar_eq_false_of_ofChar? hmark] at hchar
    cases hchar
  | @word run cs ts _ _ _ _ ih =>
    obtain ⟨ns, rfl⟩ := ih fun c hc => hcs c (List.mem_append_right run hc)
    exact ⟨⟨String.ofList run⟩ :: ns, rfl⟩

theorem exists_reads_names (hcs : ∀ c ∈ cs, Text.isBlank c = false → isIdentifierChar c = true)
    (hc : c ∈ cs) (hblank : Text.isBlank c = false) :
    ∃ n ns, Reads cs ((n :: ns).map Token.ident) := by
  have haccepts : ∀ d ∈ cs, Lexer.Accepts d := by
    intro d hd
    cases hdblank : Text.isBlank d with
    | false => exact .inl (hcs d hd hdblank)
    | true => exact .inr (.inr hdblank)
  obtain ⟨ts, hts⟩ := exists_cutInto haccepts
  obtain ⟨ns, rfl⟩ := hts.exists_names hcs
  cases ns with
  | nil => exact absurd rfl (hts.ne_nil hc hblank)
  | cons n ns => exact ⟨n, ns, hts.reads⟩

/-- Behind names and an equals sign only the expression can be at fault. -/
theorem Definition.isOfExpression_of_ofTokens
    (h : ofTokens ((n :: ns).map Token.ident ++ .equal :: us) = .error err) :
    err.IsOfExpression := by
  rw [List.map_cons, List.cons_append, ofTokens, readParameters_map_ident] at h
  rcases bind_eq_error_iff.mp h with hnames | ⟨names, hnames, hbody⟩
  · cases hnames
  · cases hnames
    rcases bind_eq_error_iff.mp hbody with hexpression | ⟨body, -, hok⟩
    · exact Expression.isOfExpression_of_ofTokens hexpression
    · cases hok

theorem Definition.parse_eq_error {argument : String} {left right : List Char}
    (hargument : argument.toList = left ++ '=' :: right)
    (hnames : Reads left ((n :: ns).map Token.ident)) (h : parse argument = .error err) :
    err.IsOfExpression ∨ ∃ fault, Token.scan argument = .error fault ∧ err = .lex fault := by
  rcases bind_eq_error_iff.mp h with hlex | ⟨ts, hscan, htokens⟩
  · rw [Token.parse, mapError_eq_error_iff] at hlex
    exact .inr hlex
  · left
    have hreads := scan_eq_ok_iff.mp (Token.parse_eq_ok_iff.mp hscan)
    rw [hargument] at hreads
    obtain ⟨front, back, hfront, -, rfl⟩ := hreads.split rfl
    obtain rfl := hfront.unique hnames
    rw [List.append_assoc] at htokens
    exact isOfExpression_of_ofTokens htokens

/-- The first character that has not the property stands behind all those that have it. -/
theorem exists_eq_append_of_first {P : Char → Prop} {left right before after : List Char}
    {mark ch : Char} (h : left ++ mark :: right = before ++ ch :: after)
    (hleft : ∀ c ∈ left, P c) (hmark : P mark) (hch : ¬ P ch) :
    ∃ more, before = left ++ mark :: more := by
  rcases List.append_eq_append_iff.mp h with ⟨as, hbefore, hrest⟩ | ⟨bs, hfront, hrest⟩
  · cases as with
    | nil =>
      cases hrest
      exact absurd hmark hch
    | cons a as =>
      cases hrest
      exact ⟨as, hbefore⟩
  · cases bs with
    | nil =>
      cases hrest
      exact absurd hmark hch
    | cons b bs =>
      cases hrest
      rw [hfront] at hleft
      exact absurd (hleft _ (List.mem_append_right before List.mem_cons_self)) hch

theorem lt_offset_of_scan {argument : String} {left right : List Char} {mark ch : Char}
    {offset : Nat} (hargument : argument.toList = left ++ mark :: right)
    (hleft : ∀ c ∈ left, Lexer.Accepts c) (hmark : Lexer.Accepts mark)
    (h : Token.scan argument = .error (.invalidCharacter ch offset)) :
    (String.ofList left).utf8ByteSize < offset := by
  obtain ⟨before, ch, after, rfl, -, hch, herr⟩ := Token.scan_eq_error_iff.mp h
  cases herr
  have heq : left ++ mark :: right = before.toList ++ ch :: after.toList := by
    rw [← hargument]
    simp
  obtain ⟨more, hbefore⟩ := exists_eq_append_of_first heq hleft hmark hch
  calc (String.ofList left).utf8ByteSize
    _ < (String.ofList left).utf8ByteSize + mark.utf8Size :=
      Nat.lt_add_of_pos_right mark.utf8Size_pos
    _ ≤ (String.ofList left).utf8ByteSize + mark.utf8Size + (String.ofList more).utf8ByteSize :=
      Nat.le_add_right _ _
    _ = (String.ofList (left ++ mark :: more)).utf8ByteSize := by
      rw [String.ofList_append, String.utf8ByteSize_append, utf8ByteSize_ofList_cons, Nat.add_assoc]
    _ = before.utf8ByteSize := by rw [← hbefore, String.ofList_toList]

namespace Shell.Session

variable {argument : String}

/-- A text that passes the checks has names in front of its first `=`. -/
theorem exists_of_checkDefinition (h : checkDefinition argument = .ok ()) :
    ∃ left right n ns, argument.toList = left ++ '=' :: right ∧ '=' ∉ left ∧
      Reads left ((n :: ns).map Token.ident) := by
  obtain ⟨hleft, hright, hwords⟩ := checkDefinition_eq_ok_iff.mp h
  have hmark : '=' ∈ argument.toList := by
    by_contra hnot
    apply hright
    have hall : ∀ c ∈ argument.toList, (c != '=') = true := by
      intro c hc
      rw [bne_iff_ne]
      rintro rfl
      exact hnot hc
    rw [Text.cutAt, List.dropWhile_eq_nil_iff.mpr hall]
    rfl
  obtain ⟨left, right, hargument, hnot⟩ := List.eq_append_cons_of_mem hmark
  rw [hargument, Text.cutAt_append hnot] at hleft hwords
  obtain ⟨c, hc, hblank⟩ := Text.exists_of_trim_ne_nil hleft
  have hchars : ∀ d ∈ left, Text.isBlank d = false → isIdentifierChar d = true := by
    intro d hd hdblank
    obtain ⟨piece, hpiece, hmem⟩ := Text.exists_mem_words hdblank (Text.mem_trim hdblank hd)
    have hidentifier := isIdentifier_iff.mp (hwords piece hpiece)
    rw [String.toList_ofList] at hidentifier
    exact hidentifier.2 d hmem
  obtain ⟨n, ns, hnames⟩ := exists_reads_names hchars hc hblank
  exact ⟨left, right, n, ns, hargument, hnot, hnames⟩

/-- The checks and the reader of definitions agree.  What the checks refuse cannot be read; and what
passes them has names in front of its first `=`, so that it can only be an expression that is at
fault, or a character behind that `=`. -/
theorem checkDefinition_agrees :
    (∀ (argument : String) (error : CommandError), checkDefinition argument = .error error →
      ∃ err, Definition.parse argument = .error err) ∧
    (∀ argument : String, checkDefinition argument = .ok () →
      Definition.parse argument ≠ .error .expectedIdentifier ∧
      Definition.parse argument ≠ .error .expectedEqual ∧
      ∃ left right, argument = left ++ "=" ++ right ∧ '=' ∉ left.toList ∧
        ∀ ch offset, Definition.parse argument = .error (.lex (.invalidCharacter ch offset)) →
          left.utf8ByteSize < offset) := by
  constructor
  · intro argument error hcheck
    cases hparse : Definition.parse argument with
    | error err => exact ⟨err, rfl⟩
    | ok d =>
      have hread := readDefinition_of_parse hparse
      rw [readDefinition, hcheck] at hread
      cases hread
  · intro argument hcheck
    obtain ⟨left, right, n, ns, hargument, hnot, hnames⟩ := exists_of_checkDefinition hcheck
    have hfault {err : ParseError} (h : Definition.parse argument = .error err)
        (hnot : ¬ err.IsOfExpression) :
        ∃ fault, Token.scan argument = .error fault ∧ err = .lex fault :=
      (Definition.parse_eq_error hargument hnames h).resolve_left hnot
    refine ⟨?_, ?_, String.ofList left, String.ofList right, ?_, ?_, ?_⟩
    · intro h
      obtain ⟨fault, -, heq⟩ := hfault h id
      cases heq
    · intro h
      obtain ⟨fault, -, heq⟩ := hfault h id
      cases heq
    · rw [← String.toList_inj, hargument]
      simp
    · rw [String.toList_ofList]
      exact hnot
    · intro ch offset h
      obtain ⟨fault, hscan, heq⟩ := hfault h id
      cases heq
      have hleft := exists_reads_iff.mp ⟨_, hnames⟩
      exact lt_offset_of_scan hargument hleft (.inr (.inl rfl)) hscan

/-- The second `=` is the fault of an expression, and the letter behind it is found before that. -/
theorem checkDefinition_agrees_of_secondEqual :
    checkDefinition "f( = x" = .error (.badName "f(") ∧
    (∃ err, Definition.parse "f( = x" = .error err) ∧
    checkDefinition "f\u2003x=x = λ" = .ok () ∧
    Definition.parse "f\u2003x=x = λ" = .error (.lex (.invalidCharacter 'λ' 10)) ∧
    ∃ left right, "f\u2003x=x = λ" = left ++ "=" ++ right ∧ '=' ∉ left.toList ∧
      left.utf8ByteSize < 10 := by
  have hrefused : checkDefinition "f( = x" = .error (.badName "f(") := rfl
  have hpasses : checkDefinition "f\u2003x=x = λ" = .ok () := rfl
  have hparse : Definition.parse "f\u2003x=x = λ" = .error (.lex (.invalidCharacter 'λ' 10)) := rfl
  obtain ⟨-, -, left, right, heq, hnot, hoffset⟩ := checkDefinition_agrees.2 _ hpasses
  exact ⟨hrefused, checkDefinition_agrees.1 _ _ hrefused, hpasses, hparse, left, right, heq, hnot,
    hoffset _ _ hparse⟩

end Shell.Session

end UntypedLambda
