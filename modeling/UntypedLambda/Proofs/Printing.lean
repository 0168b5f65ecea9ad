import UntypedLambda.Expression.Parser
import UntypedLambda.Expression.Printer
import UntypedLambda.Proofs.Replacement
import UntypedLambda.Proofs.Scanning

namespace UntypedLambda

namespace Term

variable {ν : Type}

theorem mentions_lamsInward {parameters : List ν} {body : Term ν} {x : ν} :
    (lamsInward parameters body).Mentions x ↔ x ∈ parameters ∨ body.Mentions x := by
  induction parameters generalizing body with
  | nil => simp [lamsInward]
  | cons y parameters ih =>
    have hstep : lamsInward (y :: parameters) body = lamsInward parameters (lam y body) := rfl
    rw [hstep, ih, Mentions, List.mem_cons, or_assoc, or_left_comm]

theorem mentions_lams {parameters : List ν} {body : Term ν} {x : ν} :
    (lams parameters body).Mentions x ↔ x ∈ parameters ∨ body.Mentions x := by
  rw [← lamsInward_reverse, mentions_lamsInward, List.mem_reverse]

theorem lamsInward_stripLams (t : Term ν) (seen : List ν) :
    lamsInward (t.stripLams seen).1 (t.stripLams seen).2 = lamsInward seen t := by
  induction t generalizing seen with
  | var x => rfl
  | app t s _ _ => rfl
  | lam x b ih => exact ih (x :: seen)

theorem suffix_stripLams (t : Term ν) (seen : List ν) : seen <:+ (t.stripLams seen).1 := by
  induction t generalizing seen with
  | var x => exact List.suffix_refl seen
  | app t s _ _ => exact List.suffix_refl seen
  | lam x b ih => exact (List.suffix_cons x seen).trans (ih (x :: seen))

end Term

namespace Expression

section Steps

variable {slot : Slot} {t s b : Expression} {x : Name} {rest : List PrintStep} {done : List Token}

theorem tokensOnto_app (happ : slot.app = true) :
    tokensOnto (.part slot (.app t s) :: rest) done =
      tokensOnto (.part .function t :: .part slot.argument s :: rest) done := by
  rw [tokensOnto, dif_pos happ]

theorem tokensOnto_app_inside (happ : ¬ slot.app = true) :
    tokensOnto (.part slot (.app t s) :: rest) done =
      tokensOnto (.part .whole (.app t s) :: .token .rightParen :: rest) (.leftParen :: done) := by
  rw [tokensOnto, dif_neg happ]

theorem tokensOnto_lam (hlam : slot.lam = true) :
    tokensOnto (.part slot (.lam x b) :: rest) done =
      tokensOnto (.part .whole (b.stripLams [x]).2 :: rest)
        (.dot :: ((b.stripLams [x]).1.map Token.ident ++ .backslash :: done)) := by
  rw [tokensOnto, dif_pos hlam]

theorem tokensOnto_lam_inside (hlam : ¬ slot.lam = true) :
    tokensOnto (.part slot (.lam x b) :: rest) done =
      tokensOnto (.part .whole (.lam x b) :: .token .rightParen :: rest) (.leftParen :: done) := by
  rw [tokensOnto, dif_neg hlam]

end Steps

/-- What is written by steps comes between what was written before and what the steps behind them
write. -/
theorem tokensOnto_append (steps rest : List PrintStep) (done before : List Token) :
    tokensOnto (steps ++ rest) (done ++ before) =
      tokensOnto rest (tokensOnto steps done ++ before) := by
  induction steps, done using tokensOnto.induct with
  | case1 done => simp [tokensOnto]
  | case2 token steps done ih => simpa [tokensOnto] using ih
  | case3 slot x steps done ih => simpa [tokensOnto] using ih
  | case4 slot t s steps done happ ih =>
    rw [List.cons_append, tokensOnto_app happ, tokensOnto_app happ]
    exact ih
  | case5 slot t s steps done happ ih =>
    rw [List.cons_append, tokensOnto_app_inside happ, tokensOnto_app_inside happ]
    exact ih
  | case6 slot x b steps done hlam inner ih =>
    rw [List.cons_append, tokensOnto_lam hlam, tokensOnto_lam hlam, ← ih]
    simp [inner]
  | case7 slot x b steps done hlam ih =>
    rw [List.cons_append, tokensOnto_lam_inside hlam, tokensOnto_lam_inside hlam]
    exact ih

def tokensAt (slot : Slot) (e : Expression) : List Token :=
  (tokensOnto [.part slot e] []).reverse

theorem tokensOnto_part (slot : Slot) (e : Expression) (rest : List PrintStep)
    (done : List Token) :
    tokensOnto (.part slot e :: rest) done =
      tokensOnto rest ((tokensAt slot e).reverse ++ done) := by
  have hpart := tokensOnto_append [.part slot e] rest [] done
  rw [tokensAt, List.reverse_reverse]
  exact hpart

@[simp] theorem tokensAt_var (slot : Slot) (x : Name) : tokensAt slot (.var x) = [.ident x] := by
  simp [tokensAt, tokensOnto]

theorem tokensAt_app {slot : Slot} (happ : slot.app = true) (t s : Expression) :
    tokensAt slot (.app t s) = tokensAt .function t ++ tokensAt slot.argument s := by
  rw [tokensAt, tokensOnto_app happ, tokensOnto_part, tokensOnto_part]
  simp [tokensOnto]

theorem tokensAt_app_inside {slot : Slot} (happ : ¬ slot.app = true) (t s : Expression) :
    tokensAt slot (.app t s) = .leftParen :: (tokensAt .whole (.app t s) ++ [.rightParen]) := by
  rw [tokensAt, tokensOnto_app_inside happ, tokensOnto_part]
  simp [tokensOnto]

theorem tokensAt_lam {slot : Slot} (hlam : slot.lam = true) (x : Name) (b : Expression) :
    tokensAt slot (.lam x b) = .backslash :: ((b.stripLams [x]).1.reverse.map Token.ident ++
      .dot :: tokensAt .whole (b.stripLams [x]).2) := by
  rw [tokensAt, tokensOnto_lam hlam, tokensOnto_part]
  simp [tokensOnto]

theorem tokensAt_lam_inside {slot : Slot} (hlam : ¬ slot.lam = true) (x : Name)
    (b : Expression) :
    tokensAt slot (.lam x b) = .leftParen :: (tokensAt .whole (.lam x b) ++ [.rightParen]) := by
  rw [tokensAt, tokensOnto_lam_inside hlam, tokensOnto_part]
  simp [tokensOnto]

/-- A property of what is written at places holds if each construct passes it on. -/
theorem tokensAt_induction {motive : Slot → Expression → Prop}
    (hvar : ∀ slot x, motive slot (.var x))
    (happ : ∀ slot t s, slot.app = true → motive .function t → motive slot.argument s →
      motive slot (.app t s))
    (hlam : ∀ slot x b, slot.lam = true → motive .whole (b.stripLams [x]).2 →
      motive slot (.lam x b))
    (hinside : ∀ slot e, tokensAt slot e = .leftParen :: (tokensAt .whole e ++ [.rightParen]) →
      motive .whole e → motive slot e)
    (slot : Slot) (e : Expression) : motive slot e := by
  induction hn : e.nodes using Nat.strongRecOn generalizing slot e with
  | ind n ih =>
    -- Only a smaller expression has to be taken at every place.
    cases e with
    | var x => exact hvar slot x
    | app t s =>
      have hnodes : (Term.app t s).nodes = 1 + t.nodes + s.nodes := rfl
      have hopen (slot : Slot) (h : slot.app = true) : motive slot (.app t s) :=
        happ slot t s h (ih t.nodes (by omega) _ t rfl) (ih s.nodes (by omega) _ s rfl)
      by_cases h : slot.app = true
      · exact hopen slot h
      · exact hinside slot _ (tokensAt_app_inside h t s) (hopen .whole rfl)
    | lam x b =>
      have hnodes : (Term.lam x b).nodes = 1 + b.nodes := rfl
      have hbody := b.nodes_stripLams [x]
      have hopen (slot : Slot) (h : slot.lam = true) : motive slot (.lam x b) :=
        hlam slot x b h (ih _ (by omega) _ _ rfl)
      by_cases h : slot.lam = true
      · exact hopen slot h
      · exact hinside slot _ (tokensAt_lam_inside h x b) (hopen .whole rfl)

theorem mentions_of_mem_tokensAt (slot : Slot) (e : Expression) (n : Name) :
    .ident n ∈ tokensAt slot e → e.Mentions n := by
  induction slot, e using tokensAt_induction with
  | hvar slot x => simp [Term.Mentions]
  | happ slot t s happ iht ihs =>
    rw [tokensAt_app happ, List.mem_append]
    exact Or.imp iht ihs
  | hlam slot x b hlam ih =>
    intro h
    have hmem : n ∈ (b.stripLams [x]).1 ∨ .ident n ∈ tokensAt .whole (b.stripLams [x]).2 := by
      simpa [tokensAt_lam hlam] using h
    have hlams : (Term.lamsInward [x] b).Mentions n := by
      rw [← Term.lamsInward_stripLams, Term.mentions_lamsInward]
      exact hmem.imp_right ih
    exact hlams
  | hinside slot e hinside ih =>
    intro h
    apply ih
    simpa [hinside] using h

end Expression

namespace Parser

def push (p : Parser) (e : Expression) : Parser :=
  { p with current := extend p.current e }

structure EndsAs (p q : Parser) : Prop where
  feed_rightParen : p.feed .rightParen = q.feed .rightParen
  finish : p.finish = q.finish

/-- The parser takes the tokens as the expression.  Where an application may stand nothing stands in
front of it, and behind a lambda the construct around it has to end. -/
def Takes (slot : Slot) (e : Expression) (ts : List Token) : Prop :=
  ∀ p : Parser, p.header = none → (slot.app = true → p.current = none) →
    ∃ q, ts.foldlM feed p = .ok q ∧ q.EndsAs (p.push e) ∧ (slot.lam = false → q = p.push e)

variable {p q : Parser} {token : Token} {ts us : List Token} {slot : Slot} {e t s b : Expression}

theorem foldlM_feed_cons (h : p.feed token = .ok q) :
    (token :: ts).foldlM feed p = ts.foldlM feed q := by
  rw [List.foldlM_cons, h]
  rfl

theorem foldlM_feed_append (h : ts.foldlM feed p = .ok q) :
    (ts ++ us).foldlM feed p = us.foldlM feed q := by
  rw [List.foldlM_append, h]
  rfl

/-- The names of a header are its parameters, the last one first. -/
theorem foldlM_feed_header (names : List Name) {seen : List Name} (hp : p.header = some seen) :
    (names.map Token.ident).foldlM feed p =
      .ok { p with header := some (names.reverse ++ seen) } := by
  induction names generalizing p seen with
  | nil =>
    rw [List.reverse_nil, List.nil_append, ← hp]
    rfl
  | cons name names ih =>
    have hname : p.feed (.ident name) = .ok { p with header := some (name :: seen) } := by
      rw [feed, hp]
      rfl
    rw [List.map_cons, foldlM_feed_cons hname, ih rfl, List.reverse_cons, List.append_assoc]
    rfl

theorem Takes.var (slot : Slot) (x : Name) : Takes slot (.var x) [.ident x] := by
  intro p hheader _
  have hfeed : p.feed (.ident x) = .ok (p.push (.var x)) := by
    simp only [feed, hheader, push]
  exact ⟨p.push (.var x), foldlM_feed_cons hfeed, ⟨rfl, rfl⟩, fun _ => rfl⟩

/-- The function is read exactly, since its place takes no lambda. -/
theorem Takes.app (happ : slot.app = true) (ht : Takes .function t ts)
    (hs : Takes slot.argument s us) : Takes slot (.app t s) (ts ++ us) := by
  intro p hheader hcurrent
  have hnone := hcurrent happ
  obtain ⟨q₁, hrun₁, -, hq₁⟩ := ht p hheader fun _ => hnone
  have hfunction : q₁ = p.push t := hq₁ rfl
  subst hfunction
  have hpush : (p.push t).push s = p.push (.app t s) := by
    simp only [push, hnone, extend]
  obtain ⟨q, hrun, hend, hq⟩ := hs (p.push t) hheader fun h => Bool.noConfusion h
  rw [hpush] at hend hq
  exact ⟨q, (foldlM_feed_append hrun₁).trans hrun, hend, hq⟩

theorem Takes.lam (hlam : slot.lam = true) {parameters : List Name} (hne : parameters ≠ [])
    (hb : Takes .whole b ts) :
    Takes slot (.lamsInward parameters b)
      (.backslash :: (parameters.reverse.map Token.ident ++ .dot :: ts)) := by
  intro p hheader _
  let opened : Parser := { opened := ⟨.lambda parameters, p.current⟩ :: p.opened }
  have hbackslash : p.feed .backslash = .ok { p with header := some [] } := by
    rw [feed, hheader]
  have hnames := foldlM_feed_header parameters.reverse
    (show Parser.header { p with header := some [] } = some [] from rfl)
  rw [List.reverse_reverse, List.append_nil] at hnames
  have hdot : feed { p with header := some parameters } .dot = .ok opened := by
    simp [feed, feedHeader, hne, opened]
  obtain ⟨q, hrun, hend, -⟩ := hb opened rfl fun _ => rfl
  have hparen : (opened.push b).feed .rightParen =
      (p.push (.lamsInward parameters b)).feed .rightParen := by
    simp only [opened, push, feed, hheader, extend, closeGroup]
  have hfinish : (opened.push b).finish = (p.push (.lamsInward parameters b)).finish := by
    simp only [opened, push, finish, hheader, extend, closeAll]
  refine ⟨q, ?_, ⟨hend.feed_rightParen.trans hparen, hend.finish.trans hfinish⟩, ?_⟩
  · rw [foldlM_feed_cons hbackslash, foldlM_feed_append hnames, foldlM_feed_cons hdot]
    exact hrun
  · intro h
    rw [hlam] at h
    cases h

/-- Between parentheses every expression is read exactly. -/
theorem Takes.inside (slot : Slot) (he : Takes .whole e ts) :
    Takes slot e (.leftParen :: (ts ++ [.rightParen])) := by
  intro p hheader _
  let opened : Parser := { opened := ⟨.group, p.current⟩ :: p.opened }
  have hleft : p.feed .leftParen = .ok opened := by
    rw [feed, hheader]
  obtain ⟨q, hrun, hend, -⟩ := he opened rfl fun _ => rfl
  have hright : q.feed .rightParen = .ok (p.push e) := by
    rw [hend.feed_rightParen]
    simp only [opened, push, feed, extend, closeGroup, hheader]
  refine ⟨p.push e, ?_, ⟨rfl, rfl⟩, fun _ => rfl⟩
  rw [foldlM_feed_cons hleft, foldlM_feed_append hrun]
  exact foldlM_feed_cons hright

end Parser

namespace Expression

/-- The parser takes what is written at a place as the expression that was written there. -/
theorem takes_tokensAt (slot : Slot) (e : Expression) : Parser.Takes slot e (tokensAt slot e) := by
  induction slot, e using tokensAt_induction with
  | hvar slot x =>
    rw [tokensAt_var]
    exact Parser.Takes.var slot x
  | happ slot t s happ iht ihs =>
    rw [tokensAt_app happ]
    exact Parser.Takes.app happ iht ihs
  | hlam slot x b hlam ih =>
    have hne : (b.stripLams [x]).1 ≠ [] :=
      List.ne_nil_of_mem ((b.suffix_stripLams [x]).subset List.mem_cons_self)
    have htakes := Parser.Takes.lam hlam hne ih
    rw [Term.lamsInward_stripLams] at htakes
    rw [tokensAt_lam hlam]
    exact htakes
  | hinside slot e hinside ih =>
    rw [hinside]
    exact Parser.Takes.inside slot ih

/-- Reading the tokens of an expression gives the expression back. -/
theorem ofTokens_tokens (e : Expression) : ofTokens e.tokens = .ok e := by
  obtain ⟨q, hrun, hend, -⟩ := takes_tokensAt .whole e {} rfl fun _ => rfl
  have hfinish : q.finish = .ok e := hend.finish
  rw [ofTokens, show e.tokens = tokensAt .whole e from rfl, hrun]
  exact hfinish

/-- An expression whose names can be written is read back from its text. -/
theorem parse_source {e : Expression} (he : ∀ n, e.Mentions n → n.isIdentifier = true) :
    parse e.source = .ok e := by
  have hwritable : ∀ token ∈ e.tokens, token.IsWritable := by
    intro token htoken
    cases token with
    | ident n => exact he n (mentions_of_mem_tokensAt .whole e n htoken)
    | _ => trivial
  have hscan : Token.scan e.source = .ok e.tokens := Token.scan_spell hwritable
  rw [parse, Token.parse, hscan]
  exact ofTokens_tokens e

end Expression

def Parser.NamesSatisfy (P : Name → Prop) : Option Expression → Prop
  | some e => ∀ n, e.Mentions n → P n
  | none => True

structure OpenFrame.NamesSatisfy (P : Name → Prop) (frame : OpenFrame) : Prop where
  parameters : ∀ ns, frame.frame = .lambda ns → ∀ n ∈ ns, P n
  outer : Parser.NamesSatisfy P frame.outer

structure Parser.AllNames (P : Name → Prop) (p : Parser) : Prop where
  opened : ∀ frame ∈ p.opened, frame.NamesSatisfy P
  current : NamesSatisfy P p.current
  header : ∀ ns, p.header = some ns → ∀ n ∈ ns, P n

namespace Parser

variable {P : Name → Prop} {p q : Parser} {token : Token} {ts : List Token} {e : Expression}
  {opened : List OpenFrame} {current : Option Expression}

theorem NamesSatisfy.extend (hcurrent : NamesSatisfy P current)
    (he : ∀ n, e.Mentions n → P n) : NamesSatisfy P (extend current e) := by
  cases current with
  | none => exact he
  | some function =>
    intro n hn
    rcases hn with hn | hn
    · exact hcurrent n hn
    · exact he n hn

theorem NamesSatisfy.lamsInward {parameters : List Name} {outer : Option Expression}
    (hframe : OpenFrame.NamesSatisfy P ⟨.lambda parameters, outer⟩)
    (he : ∀ n, e.Mentions n → P n) :
    NamesSatisfy P (Parser.extend outer (.lamsInward parameters e)) := by
  apply hframe.outer.extend
  intro n hn
  rcases Term.mentions_lamsInward.mp hn with hn | hn
  · exact hframe.parameters parameters rfl n hn
  · exact he n hn

theorem allNames_of_closeGroup (hopened : ∀ frame ∈ opened, frame.NamesSatisfy P)
    (hcurrent : NamesSatisfy P current) (h : closeGroup opened current = .ok q) :
    q.AllNames P := by
  induction opened generalizing current with
  | nil => cases current <;> cases h
  | cons frame opened ih =>
    have hframe := hopened frame List.mem_cons_self
    have hrest : ∀ frame ∈ opened, frame.NamesSatisfy P := fun f hf =>
      hopened f (List.mem_cons_of_mem frame hf)
    obtain ⟨construct, outer⟩ := frame
    cases current with
    | none => cases h
    | some body =>
      cases construct with
      | group =>
        cases h
        exact ⟨hrest, hframe.outer.extend hcurrent, fun ns hns => by cases hns⟩
      | lambda parameters => exact ih hrest (NamesSatisfy.lamsInward hframe hcurrent) h

theorem mentions_of_closeAll (hopened : ∀ frame ∈ opened, frame.NamesSatisfy P)
    (hcurrent : NamesSatisfy P current) (h : closeAll opened current = .ok e) :
    ∀ n, e.Mentions n → P n := by
  induction opened generalizing current with
  | nil =>
    cases current with
    | none => cases h
    | some body =>
      cases h
      exact hcurrent
  | cons frame opened ih =>
    have hframe := hopened frame List.mem_cons_self
    have hrest : ∀ frame ∈ opened, frame.NamesSatisfy P := fun f hf =>
      hopened f (List.mem_cons_of_mem frame hf)
    obtain ⟨construct, outer⟩ := frame
    cases construct with
    | group => cases h
    | lambda parameters =>
      cases current with
      | none => cases h
      | some body => exact ih hrest (NamesSatisfy.lamsInward hframe hcurrent) h

/-- A token of a header adds a parameter to it, or moves its parameters to a new open lambda. -/
theorem AllNames.feedHeader {parameters : List Name} (hp : p.AllNames P)
    (hparameters : ∀ n ∈ parameters, P n) (htoken : ∀ n, token = .ident n → P n)
    (h : p.feedHeader parameters token = .ok q) : q.AllNames P := by
  cases token with
  | ident name =>
    cases h
    refine ⟨hp.opened, hp.current, ?_⟩
    intro ns hns
    cases hns
    exact List.forall_mem_cons.mpr ⟨htoken name rfl, hparameters⟩
  | dot =>
    rw [Parser.feedHeader] at h
    split at h
    · cases h
    · cases h
      have hframe : OpenFrame.NamesSatisfy P ⟨.lambda parameters, p.current⟩ := by
        refine ⟨?_, hp.current⟩
        intro ns hns
        cases hns
        exact hparameters
      exact ⟨List.forall_mem_cons.mpr ⟨hframe, hp.opened⟩, trivial, fun ns hns => by cases hns⟩
  | _ => cases h

theorem AllNames.feed (hp : p.AllNames P) (htoken : ∀ n, token = .ident n → P n)
    (h : p.feed token = .ok q) : q.AllNames P := by
  obtain ⟨opened, current, header⟩ := p
  cases header with
  | some parameters => exact hp.feedHeader (hp.header parameters rfl) htoken h
  | none =>
    cases token with
    | ident name =>
      cases h
      refine ⟨hp.opened, hp.current.extend ?_, hp.header⟩
      intro n hn
      cases hn
      exact htoken name rfl
    | leftParen =>
      cases h
      have hframe : OpenFrame.NamesSatisfy P ⟨.group, current⟩ :=
        ⟨fun ns hns => (by cases hns), hp.current⟩
      exact ⟨List.forall_mem_cons.mpr ⟨hframe, hp.opened⟩, trivial, fun ns hns => by cases hns⟩
    | rightParen => exact allNames_of_closeGroup hp.opened hp.current h
    | backslash =>
      cases h
      refine ⟨hp.opened, hp.current, ?_⟩
      intro ns hns
      cases hns
      exact fun n hn => by cases hn
    | dot => cases h
    | equal => cases h

theorem AllNames.foldlM_feed (hp : p.AllNames P) (hts : ∀ n, .ident n ∈ ts → P n)
    (h : ts.foldlM Parser.feed p = .ok q) : q.AllNames P := by
  induction ts generalizing p with
  | nil =>
    cases h
    exact hp
  | cons token ts ih =>
    rw [List.foldlM_cons, bind_eq_ok_iff] at h
    obtain ⟨p₁, hfeed, hrest⟩ := h
    have htoken : ∀ n, token = .ident n → P n := fun n hn => hts n (by simp [hn])
    exact ih (hp.feed htoken hfeed) (fun n hn => hts n (List.mem_cons_of_mem token hn)) hrest

end Parser

theorem Expression.mem_of_ofTokens {ts : List Token} {e : Expression} (h : ofTokens ts = .ok e)
    {n : Name} (hn : e.Mentions n) : .ident n ∈ ts := by
  rw [ofTokens, bind_eq_ok_iff] at h
  obtain ⟨p, hrun, hfinish⟩ := h
  have hstart : Parser.AllNames (fun n => .ident n ∈ ts) {} :=
    ⟨fun frame hframe => (by cases hframe), trivial, fun ns hns => by cases hns⟩
  have hp := hstart.foldlM_feed (fun n hn => hn) hrun
  rw [Parser.finish] at hfinish
  split at hfinish
  · cases hfinish
  · exact Parser.mentions_of_closeAll hp.opened hp.current hfinish n hn

theorem Token.parse_eq_ok_iff {source : String} {ts : List Token} :
    Token.parse source = .ok ts ↔ Token.scan source = .ok ts := by
  rw [Token.parse, mapError_eq_ok_iff]

theorem Expression.parse_eq_ok_iff {source : String} {e : Expression} :
    parse source = .ok e ↔ ∃ ts, Token.scan source = .ok ts ∧ ofTokens ts = .ok e := by
  simp only [parse, bind_eq_ok_iff, Token.parse_eq_ok_iff]

theorem Expression.isIdentifier_of_parse {source : String} {e : Expression}
    (h : parse source = .ok e) {n : Name} (hn : e.Mentions n) : n.isIdentifier = true := by
  obtain ⟨ts, hscan, htokens⟩ := parse_eq_ok_iff.mp h
  exact Token.isWritable_of_scan hscan _ (mem_of_ofTokens htokens hn)

/-- Reading undoes writing.  The tokens of an expression are always read as that expression, and its
text is if and only if every name in it, variable or parameter, can be written. -/
theorem Expression.parse_source_iff :
    (∀ e : Expression, ofTokens e.tokens = .ok e) ∧
    (∀ e : Expression, parse e.source = .ok e ↔ ∀ n, e.Mentions n → n.isIdentifier = true) := by
  constructor
  · exact ofTokens_tokens
  · intro e
    constructor
    · intro h n hn
      exact isIdentifier_of_parse h hn
    · exact parse_source

end UntypedLambda
