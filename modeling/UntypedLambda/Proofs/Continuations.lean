import UntypedLambda.Proofs.Parsing

/-! Whatever the parser has read without a fault can be completed: by an expression, if none stands
at the end, and by a right parenthesis for each open group. -/
namespace UntypedLambda

namespace Parser

def readOn (p : Parser) (ts : List Token) : Except ParseError Expression := do
  let q ← ts.foldlM feed p
  q.finish

variable {p q : Parser} {token : Token} {ts us : List Token} {err : ParseError} {e : Expression}

theorem readOn_cons (h : p.feed token = .ok q) : p.readOn (token :: ts) = q.readOn ts := by
  rw [readOn, foldlM_feed_cons h]
  rfl

theorem readOn_append (h : ts.foldlM feed p = .ok q) : p.readOn (ts ++ us) = q.readOn us := by
  rw [readOn, foldlM_feed_append h]
  rfl

theorem foldlM_feed_append_eq_ok_iff :
    (ts ++ us).foldlM feed p = .ok q ↔
      ∃ p₁, ts.foldlM feed p = .ok p₁ ∧ us.foldlM feed p₁ = .ok q := by
  rw [List.foldlM_append, bind_eq_ok_iff]

theorem readOn_append_of_error (h : ts.foldlM feed p = .error err) :
    p.readOn (ts ++ us) = .error err := by
  rw [readOn, List.foldlM_append, h]
  rfl

theorem closeGroup_eq_error {opened : List OpenFrame} {current : Option Expression}
    (h : closeGroup opened current = .error err) : err = .unexpectedToken .rightParen := by
  induction opened generalizing current with
  | nil =>
    cases h
    rfl
  | cons frame opened ih =>
    obtain ⟨construct, outer⟩ := frame
    cases current with
    | none =>
      cases h
      rfl
    | some body =>
      cases construct with
      | group => cases h
      | lambda parameters => exact ih h

theorem feed_ne_unexpectedEnd (p : Parser) (token : Token) :
    p.feed token ≠ .error .unexpectedEnd := by
  intro h
  obtain ⟨opened, current, header⟩ := p
  cases header with
  | some parameters =>
    cases token with
    | dot =>
      have hdot : feedHeader ⟨opened, current, some parameters⟩ parameters .dot =
          .error .unexpectedEnd := h
      rw [feedHeader] at hdot
      split at hdot <;> cases hdot
    | _ => cases h
  | none =>
    cases token with
    | rightParen => cases closeGroup_eq_error h
    | _ => cases h

/-- Only at its end a text can be incomplete. -/
theorem foldlM_feed_ne_unexpectedEnd (ts : List Token) (p : Parser) :
    ts.foldlM feed p ≠ .error .unexpectedEnd := by
  induction ts generalizing p with
  | nil =>
    intro h
    cases h
  | cons token ts ih =>
    intro h
    rw [List.foldlM_cons, bind_eq_error_iff] at h
    rcases h with h | ⟨q, -, h⟩
    · exact p.feed_ne_unexpectedEnd token h
    · exact ih q h

theorem closeAll_eq_error {opened : List OpenFrame} {current : Option Expression}
    (h : closeAll opened current = .error err) : err = .unexpectedEnd := by
  induction opened generalizing current with
  | nil =>
    cases current with
    | none =>
      cases h
      rfl
    | some body => cases h
  | cons frame opened ih =>
    obtain ⟨construct, outer⟩ := frame
    cases construct with
    | group =>
      cases h
      rfl
    | lambda parameters =>
      cases current with
      | none =>
        cases h
        rfl
      | some body => exact ih h

theorem finish_eq_error (hheader : p.header = none) (h : p.finish = .error err) :
    err = .unexpectedEnd := by
  rw [finish, hheader] at h
  exact closeAll_eq_error h

theorem finish_of_header {parameters : List Name} (hheader : p.header = some parameters) :
    p.finish = .error .invalidNameSequence := by
  rw [finish, hheader]

theorem header_eq_none_of_finish (h : p.finish ≠ .error .invalidNameSequence) :
    p.header = none :=
  Option.eq_none_iff_forall_ne_some.mpr fun _ hheader => h (finish_of_header hheader)

/-- Parsers that end alike read any number of right parentheses alike. -/
theorem EndsAs.readOn_rightParens (h : p.EndsAs q) (n : Nat) :
    p.readOn (List.replicate n .rightParen) = q.readOn (List.replicate n .rightParen) := by
  cases n with
  | zero => exact h.finish
  | succ n =>
    simp only [readOn, List.replicate_succ, List.foldlM_cons, h.feed_rightParen]

/-- Behind an expression every open construct can be closed. -/
theorem exists_readOn_rightParens (opened : List OpenFrame) (body : Expression) :
    ∃ n e, readOn ⟨opened, some body, none⟩ (List.replicate n .rightParen) = .ok e := by
  induction opened generalizing body with
  | nil => exact ⟨0, body, rfl⟩
  | cons frame opened ih =>
    obtain ⟨construct, outer⟩ := frame
    cases construct with
    | group =>
      obtain ⟨n, e, h⟩ : ∃ n e, readOn ⟨opened, extend outer body, none⟩
          (List.replicate n .rightParen) = .ok e := by
        cases outer <;> exact ih _
      exact ⟨n + 1, e, (readOn_cons rfl).trans h⟩
    | lambda parameters =>
      obtain ⟨n, e, h⟩ : ∃ n e, readOn ⟨opened, extend outer (.lamsInward parameters body), none⟩
          (List.replicate n .rightParen) = .ok e := by
        cases outer <;> exact ih _
      have hends : EndsAs ⟨⟨.lambda parameters, outer⟩ :: opened, some body, none⟩
          ⟨opened, extend outer (.lamsInward parameters body), none⟩ := ⟨rfl, rfl⟩
      exact ⟨n, e, (hends.readOn_rightParens n).trans h⟩

theorem exists_readOn_of_header_none (hheader : p.header = none) : ∃ ts e, p.readOn ts = .ok e := by
  obtain ⟨opened, current, header⟩ := p
  cases hheader
  let x : Name := ⟨"x"⟩
  obtain ⟨n, e, h⟩ : ∃ n e, readOn ⟨opened, extend current (.var x), none⟩
      (List.replicate n .rightParen) = .ok e := by
    cases current <;> exact exists_readOn_rightParens _ _
  exact ⟨.ident x :: List.replicate n .rightParen, e, (readOn_cons rfl).trans h⟩

/-- Every parser can go on to an expression. -/
theorem exists_readOn (p : Parser) : ∃ ts e, p.readOn ts = .ok e := by
  cases hheader : p.header with
  | none => exact exists_readOn_of_header_none hheader
  | some parameters =>
    let x : Name := ⟨"x"⟩
    let q : Parser := { opened := ⟨.lambda (x :: parameters), p.current⟩ :: p.opened }
    have hident : p.feed (.ident x) = .ok { p with header := some (x :: parameters) } := by
      rw [feed, hheader]
      rfl
    have hdot : feed { p with header := some (x :: parameters) } .dot = .ok q := rfl
    obtain ⟨ts, e, h⟩ := exists_readOn_of_header_none (p := q) rfl
    exact ⟨.ident x :: .dot :: ts, e, ((readOn_cons hident).trans (readOn_cons hdot)).trans h⟩

end Parser

namespace Expression

variable {ts us : List Token} {p : Parser} {e : Expression} {err : ParseError}

theorem ofTokens_eq_finish (h : ts.foldlM Parser.feed {} = .ok p) : ofTokens ts = p.finish := by
  rw [ofTokens, h]
  rfl

theorem ofTokens_eq_ok_iff_finish :
    ofTokens ts = .ok e ↔ ∃ p, ts.foldlM Parser.feed {} = .ok p ∧ p.finish = .ok e :=
  bind_eq_ok_iff

/-- Tokens are no expression because of one of them, or because of their end. -/
theorem ofTokens_eq_error_iff :
    ofTokens ts = .error err ↔ ts.foldlM Parser.feed {} = .error err ∨
      ∃ p, ts.foldlM Parser.feed {} = .ok p ∧ p.finish = .error err :=
  bind_eq_error_iff

/-- Tokens can be continued to an expression exactly if none of them is at fault. -/
theorem exists_ofTokens_append_iff :
    (∃ us e, ofTokens (ts ++ us) = .ok e) ↔ ∃ p, ts.foldlM Parser.feed {} = .ok p := by
  constructor
  · rintro ⟨us, e, h⟩
    obtain ⟨q, hrun, -⟩ := ofTokens_eq_ok_iff_finish.mp h
    obtain ⟨p, hp, -⟩ := Parser.foldlM_feed_append_eq_ok_iff.mp hrun
    exact ⟨p, hp⟩
  · rintro ⟨p, hp⟩
    obtain ⟨us, e, hon⟩ := p.exists_readOn
    exact ⟨us, e, (Parser.readOn_append hp).trans hon⟩

end Expression

namespace Token

def EndInHeader (ts : List Token) : Prop :=
  ∃ (before : List Token) (names : List Name), ts = before ++ .backslash :: names.map .ident

/-- The tokens break off inside a header: what stands in front of its backslash is an expression, or
it could become one. -/
def BreakOffInHeader (ts : List Token) : Prop :=
  ∃ (before : List Token) (names : List Name), ts = before ++ .backslash :: names.map .ident ∧
    ((∃ e, Expression.ofTokens before = .ok e) ∨
      Expression.ofTokens before = .error .unexpectedEnd)

end Token

namespace Parser

variable {p q : Parser} {ts before : List Token} {names parameters : List Name}

/-- A header cannot start inside of another one. -/
theorem header_eq_none_of_backslash (h : (.backslash :: ts).foldlM feed p = .ok q) :
    p.header = none := by
  cases hheader : p.header with
  | none => rfl
  | some parameters =>
    rw [List.foldlM_cons, feed, hheader] at h
    cases h

theorem foldlM_feed_backslash (hheader : p.header = none) (names : List Name) :
    (.backslash :: names.map Token.ident).foldlM feed p =
      .ok { p with header := some names.reverse } := by
  have hbackslash : p.feed .backslash = .ok { p with header := some [] } := by
    rw [feed, hheader]
  have hnames := foldlM_feed_header names
    (show Parser.header { p with header := some [] } = some [] from rfl)
  rw [List.append_nil] at hnames
  rw [foldlM_feed_cons hbackslash, hnames]

/-- A header that ends the tokens is still being read, unless one of them is at fault. -/
theorem exists_header_iff (h : ts.foldlM feed {} = .ok p) :
    (∃ parameters, p.header = some parameters) ↔ Token.EndInHeader ts := by
  constructor
  · rintro ⟨parameters, hheader⟩
    have hread : p.HasRead ([] ++ ts) := (HasRead.intro (p := {}) .start rfl).foldlM_feed h
    rw [List.nil_append] at hread
    obtain @⟨ts, us, -, -⟩ := hread
    rw [hheader]
    exact ⟨ts ++ us, parameters.reverse, rfl⟩
  · rintro ⟨before, names, rfl⟩
    obtain ⟨q, -, hrest⟩ := foldlM_feed_append_eq_ok_iff.mp h
    rw [foldlM_feed_backslash (header_eq_none_of_backslash hrest)] at hrest
    cases hrest
    exact ⟨names.reverse, rfl⟩

theorem breakOffInHeader_iff :
    Token.BreakOffInHeader ts ↔
      ∃ p parameters, ts.foldlM feed {} = .ok p ∧ p.header = some parameters := by
  constructor
  · rintro ⟨before, names, rfl, hbefore⟩
    obtain ⟨q, hrun, hheader⟩ : ∃ q, before.foldlM feed {} = .ok q ∧ q.header = none := by
      rcases hbefore with ⟨e, he⟩ | hend
      · obtain ⟨q, hrun, hfinish⟩ := Expression.ofTokens_eq_ok_iff_finish.mp he
        exact ⟨q, hrun, header_eq_none_of_finish (by simp [hfinish])⟩
      · rcases Expression.ofTokens_eq_error_iff.mp hend with hrun | ⟨q, hrun, hfinish⟩
        · exact absurd hrun (foldlM_feed_ne_unexpectedEnd before {})
        · exact ⟨q, hrun, header_eq_none_of_finish (by simp [hfinish])⟩
    exact ⟨_, _, (foldlM_feed_append hrun).trans (foldlM_feed_backslash hheader names), rfl⟩
  · rintro ⟨p, parameters, hrun, hheader⟩
    obtain ⟨before, names, rfl⟩ := (exists_header_iff hrun).mp ⟨parameters, hheader⟩
    obtain ⟨q, hbefore, hrest⟩ := foldlM_feed_append_eq_ok_iff.mp hrun
    refine ⟨before, names, rfl, ?_⟩
    rw [Expression.ofTokens_eq_finish hbefore]
    cases hfinish : q.finish with
    | ok e => exact .inl ⟨e, rfl⟩
    | error err =>
      rw [finish_eq_error (header_eq_none_of_backslash hrest) hfinish]
      exact .inr rfl

end Parser

namespace Expression

variable {ts : List Token}

/-- A text that is incomplete outside of a header can be continued, and no other text that is not an
expression can be, unless it ends with a header. -/
theorem ofTokens_eq_unexpectedEnd_iff :
    ofTokens ts = .error .unexpectedEnd ↔
      (∀ e, ofTokens ts ≠ .ok e) ∧ ¬ Token.EndInHeader ts ∧ ∃ us e, ofTokens (ts ++ us) = .ok e := by
  constructor
  · intro h
    rcases ofTokens_eq_error_iff.mp h with hrun | ⟨p, hrun, hfinish⟩
    · exact absurd hrun (Parser.foldlM_feed_ne_unexpectedEnd ts {})
    · refine ⟨?_, ?_, exists_ofTokens_append_iff.mpr ⟨p, hrun⟩⟩
      · intro e he
        rw [h] at he
        cases he
      · intro hend
        obtain ⟨parameters, hheader⟩ := (Parser.exists_header_iff hrun).mpr hend
        rw [Parser.finish_of_header hheader] at hfinish
        cases hfinish
  · rintro ⟨hne, hend, hcontinued⟩
    obtain ⟨p, hrun⟩ := exists_ofTokens_append_iff.mp hcontinued
    have hheader : p.header = none := Option.eq_none_iff_forall_ne_some.mpr fun parameters hp =>
      hend ((Parser.exists_header_iff hrun).mp ⟨parameters, hp⟩)
    cases hfinish : p.finish with
    | ok e => exact absurd ((ofTokens_eq_finish hrun).trans hfinish) (hne e)
    | error err =>
      rw [ofTokens_eq_finish hrun, hfinish, Parser.finish_eq_error hheader hfinish]

/-- A fault that is not one of the end stays. -/
theorem ofTokens_append_of_error {err : ParseError} (h : ofTokens ts = .error err)
    (hend : err ≠ .unexpectedEnd)
    (hheader : err = .invalidNameSequence → ¬ Token.BreakOffInHeader ts) (us : List Token) :
    ofTokens (ts ++ us) = .error err := by
  rcases ofTokens_eq_error_iff.mp h with hrun | ⟨p, hrun, hfinish⟩
  · exact Parser.readOn_append_of_error hrun
  · cases hp : p.header with
    | none => exact absurd (Parser.finish_eq_error hp hfinish) hend
    | some parameters =>
      rw [Parser.finish_of_header hp] at hfinish
      cases hfinish
      exact absurd (Parser.breakOffInHeader_iff.mpr ⟨p, parameters, hrun, hp⟩) (hheader rfl)

/-- Errors tell texts that break off from wrong ones.  A text is incomplete if and only if it is no
expression, can be continued to one and does not end with a header.  Any other error stays whatever
follows, unless the text breaks off inside a header; and then it can be continued, too. -/
theorem ofTokens_incomplete_or_wrong (ts : List Token) :
    (ofTokens ts = .error .unexpectedEnd ↔
      (∀ e, ofTokens ts ≠ .ok e) ∧ ¬ Token.EndInHeader ts ∧
        ∃ us e, ofTokens (ts ++ us) = .ok e) ∧
    (∀ err, ofTokens ts = .error err → err ≠ .unexpectedEnd →
      (err = .invalidNameSequence → ¬ Token.BreakOffInHeader ts) →
      ∀ us, ofTokens (ts ++ us) = .error err) ∧
    (Token.BreakOffInHeader ts →
      ofTokens ts = .error .invalidNameSequence ∧ ∃ us e, ofTokens (ts ++ us) = .ok e) := by
  refine ⟨ofTokens_eq_unexpectedEnd_iff, ?_, ?_⟩
  · intro err h hend hheader us
    exact ofTokens_append_of_error h hend hheader us
  · intro hbreak
    obtain ⟨p, parameters, hrun, hheader⟩ := Parser.breakOffInHeader_iff.mp hbreak
    refine ⟨?_, exists_ofTokens_append_iff.mpr ⟨p, hrun⟩⟩
    rw [ofTokens_eq_finish hrun, Parser.finish_of_header hheader]

def brokenHeader : List Token :=
  [.backslash, .leftParen, .backslash, .ident ⟨"x"⟩]

def openGroups : List Token :=
  [.ident ⟨"f"⟩, .leftParen, .backslash, .ident ⟨"x"⟩, .dot, .leftParen]

def openHeader : List Token :=
  [.ident ⟨"f"⟩, .leftParen, .backslash, .ident ⟨"x"⟩]

theorem ofTokens_incomplete_or_wrong_of_brokenHeader :
    (Token.EndInHeader brokenHeader ∧ ofTokens brokenHeader = .error .invalidNameSequence ∧
      ∀ us, ofTokens (brokenHeader ++ us) = .error .invalidNameSequence) ∧
    (ofTokens openGroups = .error .unexpectedEnd ∧ ∃ us e, ofTokens (openGroups ++ us) = .ok e) ∧
    (Token.BreakOffInHeader openHeader ∧ ∃ us e, ofTokens (openHeader ++ us) = .ok e) := by
  refine ⟨⟨⟨[.backslash, .leftParen], [⟨"x"⟩], rfl⟩, rfl, ?_⟩, ⟨rfl, ?_⟩, ?_⟩
  · refine (ofTokens_incomplete_or_wrong brokenHeader).2.1 _ rfl (fun h => by cases h) ?_
    rintro - hbreak
    obtain ⟨p, parameters, hrun, -⟩ := Parser.breakOffInHeader_iff.mp hbreak
    cases hrun
  · exact ((ofTokens_incomplete_or_wrong openGroups).1.mp rfl).2.2
  · have hbreak : Token.BreakOffInHeader openHeader :=
      ⟨[.ident ⟨"f"⟩, .leftParen], [⟨"x"⟩], rfl, .inr rfl⟩
    exact ⟨hbreak, ((ofTokens_incomplete_or_wrong openHeader).2.2 hbreak).2⟩

end Expression

end UntypedLambda
