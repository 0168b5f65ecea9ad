import UntypedLambda.Proofs.DefinitionChecks

namespace UntypedLambda

inductive CutInto : List Char → List Token → Prop where
  | nil : CutInto [] []
  | blank {c : Char} {cs : List Char} {ts : List Token} :
    Text.isBlank c = true → CutInto cs ts → CutInto (c :: cs) ts
  | mark {c : Char} {token : Token} {cs : List Char} {ts : List Token} :
    Token.ofChar? c = some token → CutInto cs ts → CutInto (c :: cs) (token :: ts)
  /-- A run of identifier characters is one identifier, and it goes on for as long as it can. -/
  | word {run cs : List Char} {ts : List Token} :
    run ≠ [] → (∀ c ∈ run, isIdentifierChar c = true) →
      (∀ c ∈ cs.head?, isIdentifierChar c = false) → CutInto cs ts →
      CutInto (run ++ cs) (.ident ⟨String.ofList run⟩ :: ts)

def LexError.behind (bytes : Nat) : LexError → LexError
  | invalidCharacter ch offset => invalidCharacter ch (bytes + offset)

variable {c : Char} {cs ds run : List Char} {ts us : List Token} {err : LexError}

theorem Reads.separatorCons (hc : isIdentifierChar c = false) (haccepts : Lexer.Accepts c)
    (h : Reads cs ts) : Reads (c :: cs) ((Token.ofChar? c).toList ++ ts) :=
  Reads.nil.separator hc (reads_separator hc haccepts) h

theorem reads_word (hne : run ≠ []) (hrun : ∀ c ∈ run, isIdentifierChar c = true) :
    Reads run [.ident ⟨String.ofList run⟩] := by
  have hname : Name.isIdentifier ⟨String.ofList run⟩ = true := by
    rw [Name.isIdentifier, isIdentifier_iff, String.toList_ofList]
    exact ⟨hne, hrun⟩
  obtain ⟨l, hfeed, htokens, -⟩ := Lexer.foldlM_feed_identifier (l := {}) rfl hname
  rw [String.toList_ofList] at hfeed
  exact ⟨l, hfeed, htokens⟩

/-- A word ends in front of a separator, and at the end of the text. -/
theorem Reads.word (hne : run ≠ []) (hrun : ∀ c ∈ run, isIdentifierChar c = true)
    (hend : ∀ c ∈ cs.head?, isIdentifierChar c = false) (h : Reads cs ts) :
    Reads (run ++ cs) (.ident ⟨String.ofList run⟩ :: ts) := by
  have hword := reads_word hne hrun
  cases cs with
  | nil =>
    obtain rfl := h.unique Reads.nil
    rw [List.append_nil]
    exact hword
  | cons d ds =>
    have hd : isIdentifierChar d = false := hend d rfl
    have hsplit : Reads ([] ++ d :: ds) ts := h
    obtain ⟨front, back, hfront, hback, rfl⟩ := hsplit.split hd
    obtain rfl := hfront.unique Reads.nil
    have haccepts := exists_reads_iff.mp ⟨_, h⟩ d List.mem_cons_self
    exact hword.separator hd (reads_separator hd haccepts) hback

theorem CutInto.reads (h : CutInto cs ts) : Reads cs ts := by
  induction h with
  | nil => exact Reads.nil
  | blank hc _ ih =>
    have hreads := ih.separatorCons (isIdentifierChar_eq_false_of_isBlank hc) (.inr (.inr hc))
    rw [ofChar?_eq_none_of_isBlank hc] at hreads
    exact hreads
  | mark hc _ ih =>
    have haccepts := Option.isSome_of_eq_some hc
    have hreads := ih.separatorCons (isIdentifierChar_eq_false_of_ofChar? hc) (.inr (.inl haccepts))
    rw [hc] at hreads
    exact hreads
  | word hne hrun hend _ ih => exact ih.word hne hrun hend

theorem exists_cutInto (h : ∀ c ∈ cs, Lexer.Accepts c) : ∃ ts, CutInto cs ts := by
  induction hlength : cs.length using Nat.strongRecOn generalizing cs with
  | ind length ih =>
    cases cs with
    | nil => exact ⟨[], .nil⟩
    | cons c cs =>
      obtain ⟨hc, hcs⟩ := List.forall_mem_cons.mp h
      have hlt : cs.length < length := hlength ▸ Nat.lt_succ_self cs.length
      rcases hc with hchar | hmark | hblank
      · have hrest : ∀ d ∈ cs.dropWhile isIdentifierChar, Lexer.Accepts d := fun d hd =>
          hcs d ((List.dropWhile_sublist _).mem hd)
        have hle := List.length_dropWhile_le isIdentifierChar cs
        obtain ⟨ts, hts⟩ := ih _ (Nat.lt_of_le_of_lt hle hlt) hrest rfl
        have hend : ∀ d ∈ (cs.dropWhile isIdentifierChar).head?, isIdentifierChar d = false := by
          intro d hd
          have hnot := List.head?_dropWhile_not isIdentifierChar cs
          rw [Option.mem_def.mp hd] at hnot
          exact hnot
        have hword : ∀ d ∈ c :: cs.takeWhile isIdentifierChar, isIdentifierChar d = true :=
          List.forall_mem_cons.mpr ⟨hchar, fun d hd => List.mem_takeWhile_imp hd⟩
        have hcut := CutInto.word (List.cons_ne_nil _ _) hword hend hts
        rw [List.cons_append, List.takeWhile_append_dropWhile] at hcut
        exact ⟨_, hcut⟩
      · obtain ⟨token, htoken⟩ := Option.isSome_iff_exists.mp hmark
        obtain ⟨ts, hts⟩ := ih _ hlt hcs rfl
        exact ⟨token :: ts, .mark htoken hts⟩
      · obtain ⟨ts, hts⟩ := ih _ hlt hcs rfl
        exact ⟨ts, .blank hblank hts⟩

theorem reads_iff_cutInto : Reads cs ts ↔ CutInto cs ts := by
  constructor
  · intro h
    obtain ⟨us, hus⟩ := exists_cutInto (exists_reads_iff.mp ⟨ts, h⟩)
    rw [h.unique hus.reads]
    exact hus
  · exact CutInto.reads

/-- Texts are cut each by itself where no identifier goes on from one to the other. -/
theorem CutInto.append (h : CutInto cs ts) (hend : ∀ c ∈ ds.head?, isIdentifierChar c = false)
    (h' : CutInto ds us) : CutInto (cs ++ ds) (ts ++ us) := by
  induction h with
  | nil => exact h'
  | blank hc _ ih => exact .blank hc ih
  | mark hc _ ih => exact .mark hc ih
  | @word run cs ts hne hrun hcs _ ih =>
    rw [List.append_assoc]
    refine .word hne hrun ?_ ih
    cases cs with
    | nil => exact hend
    | cons c cs => exact hcs

theorem CutInto.blanks (hcs : ∀ c ∈ cs, Text.isBlank c = true) (h : CutInto ds us) :
    CutInto (cs ++ ds) us := by
  induction cs with
  | nil => exact h
  | cons c cs ih =>
    obtain ⟨hc, hcs⟩ := List.forall_mem_cons.mp hcs
    exact .blank hc (ih hcs)

theorem utf8ByteSize_ofList_cons (c : Char) (cs : List Char) :
    (String.ofList (c :: cs)).utf8ByteSize = c.utf8Size + (String.ofList cs).utf8ByteSize := by
  rw [String.ofList_cons, String.utf8ByteSize_append, String.utf8ByteSize_singleton]

namespace Lexer

variable {l l' : Lexer}

theorem accepts_iff : Accepts c ↔ isIdentifierChar c = true ∨ Text.isBlank c = true ∨
    c ∈ ['(', ')', '\\', '.', '='] := by
  have hmark : (Token.ofChar? c).isSome ↔ c ∈ ['(', ')', '\\', '.', '='] := by
    rw [Token.ofChar?.eq_def]
    split <;> simp_all
  rw [Accepts, hmark, or_comm (a := c ∈ _)]

theorem feed_eq_error_iff : l.feed c = .error err ↔
    ¬ Accepts c ∧ err = .invalidCharacter c l.offset := by
  rw [feed, Accepts]
  split
  · next hc => simp [hc]
  · next hc =>
    cases htoken : Token.ofChar? c with
    | some token => simp
    | none =>
      by_cases hblank : Text.isBlank c = true
      · simp [hblank]
      · simp [hblank, hc, eq_comm]

theorem offset_of_feed (h : l.feed c = .ok l') : l'.offset = l.offset + c.utf8Size := by
  rw [feed] at h
  split at h
  · cases h
    rfl
  · split at h
    · cases h
      rfl
    · split at h
      · cases h
        rfl
      · cases h

/-- Reading stops at the first character that is not accepted. -/
theorem foldlM_feed_eq_error_iff : cs.foldlM feed l = .error err ↔
    ∃ before ch after, cs = before ++ ch :: after ∧ (∀ d ∈ before, Accepts d) ∧ ¬ Accepts ch ∧
      err = .invalidCharacter ch (l.offset + (String.ofList before).utf8ByteSize) := by
  induction cs generalizing l with
  | nil => simp [pure, Except.pure]
  | cons c cs ih =>
    rw [List.foldlM_cons, bind_eq_error_iff]
    constructor
    · rintro (hfeed | ⟨l₁, hfeed, hrun⟩)
      · obtain ⟨hc, rfl⟩ := feed_eq_error_iff.mp hfeed
        exact ⟨[], c, cs, rfl, List.forall_mem_nil _, hc, rfl⟩
      · obtain ⟨before, ch, after, rfl, hbefore, hch, rfl⟩ := ih.mp hrun
        have hc : Accepts c := exists_feed_iff.mp ⟨l₁, hfeed⟩
        refine ⟨c :: before, ch, after, rfl, List.forall_mem_cons.mpr ⟨hc, hbefore⟩, hch, ?_⟩
        rw [offset_of_feed hfeed, utf8ByteSize_ofList_cons, Nat.add_assoc]
    · rintro ⟨before, ch, after, heq, hbefore, hch, rfl⟩
      cases before with
      | nil =>
        cases heq
        exact .inl (feed_eq_error_iff.mpr ⟨hch, rfl⟩)
      | cons d before =>
        cases heq
        obtain ⟨hc, hbefore⟩ := List.forall_mem_cons.mp hbefore
        obtain ⟨l₁, hfeed⟩ := exists_feed_iff.mpr hc
        refine .inr ⟨l₁, hfeed, ih.mpr ⟨before, ch, after, rfl, hbefore, hch, ?_⟩⟩
        rw [offset_of_feed hfeed, utf8ByteSize_ofList_cons, Nat.add_assoc]

end Lexer

namespace Token

variable {source : String}

theorem scan_eq_ok_iff_cutInto : scan source = .ok ts ↔ CutInto source.toList ts :=
  scan_eq_ok_iff.trans reads_iff_cutInto

theorem exists_scan_iff : (∃ ts, scan source = .ok ts) ↔ ∀ c ∈ source.toList, Lexer.Accepts c := by
  simp only [scan_eq_ok_iff]
  exact exists_reads_iff

theorem scan_eq_error_iff : scan source = .error err ↔
    ∃ before ch after, source = before ++ String.singleton ch ++ after ∧
      (∀ d ∈ before.toList, Lexer.Accepts d) ∧ ¬ Lexer.Accepts ch ∧
      err = .invalidCharacter ch before.utf8ByteSize := by
  rw [scan, map_eq_error_iff, Lexer.foldlM_feed_eq_error_iff]
  constructor
  · rintro ⟨before, ch, after, heq, hbefore, hch, rfl⟩
    refine ⟨String.ofList before, ch, String.ofList after, ?_, ?_, hch, ?_⟩
    · rw [← String.toList_inj, heq]
      simp
    · rw [String.toList_ofList]
      exact hbefore
    · rw [Nat.zero_add]
  · rintro ⟨before, ch, after, rfl, hbefore, hch, rfl⟩
    refine ⟨before.toList, ch, after.toList, by simp, hbefore, hch, ?_⟩
    rw [String.ofList_toList, Nat.zero_add]

/-- Behind blanks a text is cut as it is by itself. -/
theorem scan_append {left blanks right : String} (hne : blanks ≠ "")
    (hblanks : ∀ c ∈ blanks.toList, Text.isBlank c = true) (hleft : scan left = .ok ts) :
    scan (left ++ blanks ++ right) =
      ((scan right).map (ts ++ ·)).mapError (LexError.behind (left ++ blanks).utf8ByteSize) := by
  cases hright : scan right with
  | ok us =>
    have hend : ∀ c ∈ (blanks.toList ++ right.toList).head?, isIdentifierChar c = false := by
      obtain ⟨c, cs, hcs⟩ := List.exists_cons_of_ne_nil (mt String.toList_eq_nil_iff.mp hne)
      rw [hcs]
      rintro d ⟨⟩
      exact isIdentifierChar_eq_false_of_isBlank (hblanks c (hcs ▸ List.mem_cons_self))
    have hcut := (scan_eq_ok_iff_cutInto.mp hleft).append hend
      ((scan_eq_ok_iff_cutInto.mp hright).blanks hblanks)
    refine scan_eq_ok_iff_cutInto.mpr ?_
    rw [String.toList_append, String.toList_append, List.append_assoc]
    exact hcut
  | error err =>
    obtain ⟨before, ch, after, rfl, hbefore, hch, rfl⟩ := scan_eq_error_iff.mp hright
    refine scan_eq_error_iff.mpr ⟨left ++ blanks ++ before, ch, after, ?_, ?_, hch, ?_⟩
    · simp only [String.append_assoc]
    · rw [String.toList_append, String.toList_append, List.forall_mem_append,
        List.forall_mem_append]
      exact ⟨⟨exists_scan_iff.mp ⟨ts, hleft⟩, fun c hc => .inr (.inr (hblanks c hc))⟩, hbefore⟩
    · exact congrArg (LexError.invalidCharacter ch) String.utf8ByteSize_append.symm

/-- Cutting is exact.  A text can be cut if all of its characters are accepted, and then its tokens
are its marks and its longest runs of identifier characters; otherwise the first character that is
not accepted is reported, behind the bytes of the text in front of it.  Behind blanks a text has its
own tokens, or its own fault behind so many more bytes. -/
theorem scan_exact :
    (∀ c, Lexer.Accepts c ↔ isIdentifierChar c = true ∨ Text.isBlank c = true ∨
      c ∈ ['(', ')', '\\', '.', '=']) ∧
    (∀ source : String, (∃ ts, scan source = .ok ts) ↔ ∀ c ∈ source.toList, Lexer.Accepts c) ∧
    (∀ (source : String) (ts : List Token), scan source = .ok ts ↔ CutInto source.toList ts) ∧
    (∀ (source : String) (err : LexError), scan source = .error err ↔
      ∃ before ch after, source = before ++ String.singleton ch ++ after ∧
        (∀ c ∈ before.toList, Lexer.Accepts c) ∧ ¬ Lexer.Accepts ch ∧
        err = .invalidCharacter ch before.utf8ByteSize) ∧
    (∀ (left blanks right : String) (ts : List Token), blanks ≠ "" →
      (∀ c ∈ blanks.toList, Text.isBlank c = true) → scan left = .ok ts →
      scan (left ++ blanks ++ right) = ((scan right).map (ts ++ ·)).mapError
        (LexError.behind (left ++ blanks).utf8ByteSize)) := by
  refine ⟨fun c => Lexer.accepts_iff, fun source => exists_scan_iff,
    fun source ts => scan_eq_ok_iff_cutInto, fun source err => scan_eq_error_iff, ?_⟩
  intro left blanks right ts hne hblanks hleft
  exact scan_append hne hblanks hleft

/-- The en quad, which is blank, starts with the same two bytes as the en dash, which is not. -/
theorem scan_exact_of_enQuad :
    "\u2000" ≠ "" ∧ (∀ c ∈ "\u2000".toList, Text.isBlank c = true) ∧
    scan "f" = .ok [.ident ⟨"f"⟩] ∧
    scan ("f" ++ "\u2000" ++ "x.y") = .ok [.ident ⟨"f"⟩, .ident ⟨"x"⟩, .dot, .ident ⟨"y"⟩] ∧
    scan ("f" ++ "\u2000" ++ "x\u2013") = .error (.invalidCharacter '\u2013' 5) := by
  have hne : "\u2000" ≠ "" := by decide
  have hblanks : ∀ c ∈ "\u2000".toList, Text.isBlank c = true :=
    List.forall_mem_singleton.mpr rfl
  have hleft : scan "f" = .ok [.ident ⟨"f"⟩] := rfl
  refine ⟨hne, hblanks, hleft, ?_, ?_⟩
  · exact scan_exact.2.2.2.2 "f" "\u2000" "x.y" _ hne hblanks hleft
  · exact scan_exact.2.2.2.2 "f" "\u2000" "x\u2013" _ hne hblanks hleft

end Token

end UntypedLambda
