import UntypedLambda.Proofs.Grammar
import UntypedLambda.Proofs.Printing

/-! What the parser has taken in is a derivation with a construct left open for each frame of its
stack. -/
namespace UntypedLambda

namespace Parser

variable {slot slot' : Slot} {e : Expression} {ts : List Token}

/-- What is taken at a place is taken where more may stand without parentheses. -/
theorem Takes.mono (h : Takes slot e ts) (happ : slot.app = true → slot'.app = true)
    (hlam : slot.lam = true → slot'.lam = true) : Takes slot' e ts := by
  intro p hheader hcurrent
  obtain ⟨q, hrun, hend, hexact⟩ := h p hheader fun hslot => hcurrent (happ hslot)
  refine ⟨q, hrun, hend, ?_⟩
  intro hslot'
  apply hexact
  rw [← Bool.not_eq_true]
  intro hslot
  rw [hlam hslot] at hslot'
  cases hslot'

end Parser

namespace Grammar

def Symbol.slot : Symbol → Slot
  | expr => .whole
  | spine => .function
  | lambda => Slot.whole.argument
  | atom => Slot.function.argument

theorem Derivation.takes {symbol : Symbol} (d : Derivation symbol) :
    Parser.Takes symbol.slot d.denotation d.tokens := by
  induction d with
  | spine s ih => exact ih.mono (fun _ => rfl) (fun _ => rfl)
  | spineLambda s l ihs ihl => exact Parser.Takes.app rfl ihs ihl
  | lambda l ih => exact ih.mono (fun _ => rfl) (fun _ => rfl)
  | atom a ih => exact ih.mono (fun _ => rfl) id
  | apply s a ihs iha => exact Parser.Takes.app rfl ihs iha
  | abstraction first others body ih =>
    have hne : (first :: others).reverse ≠ [] := by simp
    have hlam : Symbol.lambda.slot.lam = true := rfl
    have htakes := Parser.Takes.lam hlam hne ih
    rw [Term.lamsInward_reverse, List.reverse_reverse] at htakes
    exact htakes
  | ident x => exact Parser.Takes.var _ x
  | group e ih => exact Parser.Takes.inside _ ih

theorem Derivation.ofTokens (d : Derivation .expr) :
    Expression.ofTokens d.tokens = .ok d.denotation := by
  obtain ⟨q, hrun, hend, -⟩ := d.takes {} rfl fun _ => rfl
  have hfinish : q.finish = .ok d.denotation := hend.finish
  rw [Expression.ofTokens, hrun]
  exact hfinish

end Grammar

namespace Parser

open Grammar

def Application (ts : List Token) : Option Expression → Prop
  | none => ts = []
  | some e => ∃ s : Derivation .spine, s.tokens = ts ∧ s.denotation = e

def headerTokens : Option (List Name) → List Token
  | none => []
  | some parameters => .backslash :: parameters.reverse.map Token.ident

inductive Opens : List OpenFrame → List Token → Prop
  | start : Opens [] []
  | group {opened : List OpenFrame} {outer : Option Expression} {ts us : List Token} :
    Opens opened ts → Application us outer →
      Opens (⟨.group, outer⟩ :: opened) (ts ++ us ++ [.leftParen])
  | lambda {opened : List OpenFrame} {outer : Option Expression} {parameters : List Name}
    {ts us : List Token} :
    Opens opened ts → Application us outer → parameters ≠ [] →
      Opens (⟨.lambda parameters, outer⟩ :: opened)
        (ts ++ us ++ (headerTokens (some parameters) ++ [.dot]))

inductive HasRead (p : Parser) : List Token → Prop
  | intro {ts us : List Token} :
    Opens p.opened ts → Application us p.current → HasRead p (ts ++ us ++ headerTokens p.header)

variable {p q : Parser} {ts us : List Token} {opened : List OpenFrame}
  {current outer : Option Expression} {e : Expression}

theorem Application.extend (h : Application us current) (a : Derivation .atom) :
    Application (us ++ a.tokens) (Parser.extend current a.denotation) := by
  cases current with
  | none =>
    have hnil : us = [] := h
    subst hnil
    exact ⟨.atom a, rfl, rfl⟩
  | some f =>
    obtain ⟨s, rfl, rfl⟩ := h
    exact ⟨.apply s a, rfl, rfl⟩

/-- A lambda whose body has ended is an expression together with the application before it. -/
theorem Application.closeLambda {parameters : List Name} (h : Application us outer)
    (hne : parameters ≠ []) (body : Derivation .expr) :
    ∃ d : Derivation .expr,
      d.tokens = us ++ (headerTokens (some parameters) ++ .dot :: body.tokens) ∧
      some d.denotation = Parser.extend outer (.lamsInward parameters body.denotation) := by
  obtain ⟨first, others, hparameters⟩ := List.exists_cons_of_ne_nil
    (show parameters.reverse ≠ [] by simpa using hne)
  have hbody : Term.lamsInward parameters body.denotation =
      Term.lams (first :: others) body.denotation := by
    rw [← hparameters, ← Term.lamsInward_reverse, List.reverse_reverse]
  rw [headerTokens, hparameters, hbody]
  let l : Derivation .lambda := .abstraction first others body
  cases outer with
  | none =>
    have hnil : us = [] := h
    subst hnil
    exact ⟨.lambda l, rfl, rfl⟩
  | some f =>
    obtain ⟨s, rfl, rfl⟩ := h
    exact ⟨.spineLambda s l, rfl, rfl⟩

theorem Opens.closeGroup (h : Opens opened ts) (body : Derivation .expr)
    (hclose : Parser.closeGroup opened (some body.denotation) = .ok q) :
    q.HasRead (ts ++ body.tokens ++ [.rightParen]) := by
  induction h generalizing body with
  | start => cases hclose
  | @group opened outer ts us hopened houter _ =>
    cases hclose
    have hread := HasRead.intro (p := ⟨opened, Parser.extend outer body.denotation, none⟩) hopened
      (houter.extend (.group body))
    simpa [headerTokens, Derivation.tokens] using hread
  | @lambda opened outer parameters ts us _ houter hne ih =>
    obtain ⟨d, htokens, hdenotation⟩ := houter.closeLambda hne body
    rw [Parser.closeGroup, ← hdenotation] at hclose
    have hread := ih d hclose
    rw [htokens] at hread
    simpa using hread

theorem Opens.closeAll (h : Opens opened ts) (body : Derivation .expr)
    (hclose : Parser.closeAll opened (some body.denotation) = .ok e) :
    ∃ d : Derivation .expr, d.tokens = ts ++ body.tokens ∧ d.denotation = e := by
  induction h generalizing body with
  | start =>
    cases hclose
    exact ⟨body, rfl, rfl⟩
  | group _ _ _ => cases hclose
  | @lambda opened outer parameters ts us _ houter hne ih =>
    obtain ⟨d, htokens, hdenotation⟩ := houter.closeLambda hne body
    rw [Parser.closeAll, ← hdenotation] at hclose
    obtain ⟨d', htokens', hd'⟩ := ih d hclose
    refine ⟨d', ?_, hd'⟩
    rw [htokens', htokens]
    simp

theorem HasRead.feedHeader {parameters : List Name} {token : Token} (hopened : Opens p.opened ts)
    (hcurrent : Application us p.current) (hfeed : p.feedHeader parameters token = .ok q) :
    q.HasRead (ts ++ us ++ headerTokens (some parameters) ++ [token]) := by
  cases token with
  | ident name =>
    cases hfeed
    have hread := HasRead.intro (p := { p with header := some (name :: parameters) }) hopened
      hcurrent
    simpa [headerTokens] using hread
  | dot =>
    rw [Parser.feedHeader] at hfeed
    split at hfeed
    · cases hfeed
    · next hne =>
      cases hfeed
      have hlambda := Opens.lambda hopened hcurrent (by simpa using hne)
      have hread := HasRead.intro (p := ⟨⟨.lambda parameters, p.current⟩ :: p.opened, none, none⟩)
        hlambda rfl
      simpa [headerTokens] using hread
  | _ => cases hfeed

theorem HasRead.feed {token : Token} (h : p.HasRead ts) (hfeed : p.feed token = .ok q) :
    q.HasRead (ts ++ [token]) := by
  obtain @⟨ts, us, hopened, hcurrent⟩ := h
  obtain ⟨opened, current, header⟩ := p
  cases header with
  | some parameters => exact HasRead.feedHeader hopened hcurrent hfeed
  | none =>
    rw [headerTokens, List.append_nil]
    cases token with
    | ident name =>
      cases hfeed
      have hread := HasRead.intro (p := ⟨opened, Parser.extend current (.var name), none⟩) hopened
        (hcurrent.extend (.ident name))
      simpa [headerTokens, Derivation.tokens] using hread
    | leftParen =>
      cases hfeed
      have hread := HasRead.intro (p := ⟨⟨.group, current⟩ :: opened, none, none⟩)
        (Opens.group hopened hcurrent) rfl
      simpa [headerTokens] using hread
    | rightParen =>
      cases current with
      | none =>
        rw [Parser.feed] at hfeed
        cases opened <;> cases hfeed
      | some f =>
        obtain ⟨s, rfl, rfl⟩ := hcurrent
        exact hopened.closeGroup (.spine s) hfeed
    | backslash =>
      cases hfeed
      exact HasRead.intro (p := ⟨opened, current, some []⟩) hopened hcurrent
    | dot => cases hfeed
    | equal => cases hfeed

theorem HasRead.foldlM_feed (h : p.HasRead ts) (hrun : us.foldlM Parser.feed p = .ok q) :
    q.HasRead (ts ++ us) := by
  induction us generalizing p ts with
  | nil =>
    cases hrun
    rw [List.append_nil]
    exact h
  | cons token us ih =>
    rw [List.foldlM_cons, bind_eq_ok_iff] at hrun
    obtain ⟨p₁, hfeed, hrest⟩ := hrun
    have hread := ih (h.feed hfeed) hrest
    rw [List.append_assoc] at hread
    exact hread

theorem HasRead.finish (h : p.HasRead ts) (hfinish : p.finish = .ok e) :
    ∃ d : Derivation .expr, d.tokens = ts ∧ d.denotation = e := by
  obtain @⟨ts, us, hopened, hcurrent⟩ := h
  obtain ⟨opened, current, header⟩ := p
  cases header with
  | some parameters => cases hfinish
  | none =>
    rw [headerTokens, List.append_nil]
    cases current with
    | none =>
      rw [Parser.finish] at hfinish
      rcases opened with _ | ⟨⟨_ | _, _⟩, _⟩ <;> cases hfinish
    | some f =>
      obtain ⟨s, rfl, rfl⟩ := hcurrent
      exact hopened.closeAll (.spine s) hfinish

end Parser

namespace Grammar

theorem exists_derivation {ts : List Token} {e : Expression} (h : Expression.ofTokens ts = .ok e) :
    ∃ d : Derivation .expr, d.tokens = ts ∧ d.denotation = e := by
  rw [Expression.ofTokens, bind_eq_ok_iff] at h
  obtain ⟨p, hrun, hfinish⟩ := h
  have hread : p.HasRead ([] ++ ts) :=
    (Parser.HasRead.intro (p := {}) .start rfl).foldlM_feed hrun
  exact hread.finish hfinish

/-- The parser accepts exactly the tokens that the grammar derives from an expression, and gives
what they stand for.  No tokens have two derivations, and the body of a lambda among them is an
expression that reaches up to a right parenthesis or the end. -/
theorem ofTokens_eq_ok_iff :
    (∀ (ts : List Token) (e : Expression), Expression.ofTokens ts = .ok e ↔
      ∃ d : Derivation .expr, d.tokens = ts ∧ d.denotation = e) ∧
    (∀ d d' : Derivation .expr, d.tokens = d'.tokens → d = d') ∧
    (∀ (d : Derivation .expr) (before after : List Token),
      d.tokens = before ++ .backslash :: after →
      ∃ (first : Name) (others : List Name) (body : Derivation .expr) (rest : List Token),
        after = (first :: others).map Token.ident ++ .dot :: (body.tokens ++ rest) ∧
        (rest = [] ∨ ∃ outside, rest = .rightParen :: outside)) := by
  refine ⟨?_, ?_, ?_⟩
  · intro ts e
    constructor
    · exact exists_derivation
    · rintro ⟨d, rfl, rfl⟩
      exact d.ofTokens
  · intro d d' h
    exact Derivation.tokens_injective h
  · intro d before after h
    obtain ⟨first, others, body, rest, hafter, hrest⟩ := d.lambdasEnd before after h
    exact ⟨first, others, body, rest, hafter, hrest.imp_left And.left⟩

def twoLambdas : Derivation .expr :=
  .spineLambda
    (.apply (.atom (.ident ⟨"x"⟩))
      (.group (.lambda (.abstraction ⟨"y"⟩ [⟨"z"⟩] (.spine (.atom (.ident ⟨"z"⟩)))))))
    (.abstraction ⟨"w"⟩ [] (.spine (.atom (.ident ⟨"w"⟩))))

/-- The first lambda ends at the parenthesis and the second one at the end. -/
theorem ofTokens_eq_ok_iff_of_twoLambdas :
    Expression.ofTokens twoLambdas.tokens =
      .ok (.app (.app (.var ⟨"x"⟩) (.lam ⟨"y"⟩ (.lam ⟨"z"⟩ (.var ⟨"z"⟩))))
        (.lam ⟨"w"⟩ (.var ⟨"w"⟩))) ∧
    (∀ d : Derivation .expr, twoLambdas.tokens = d.tokens → twoLambdas = d) ∧
    ∃ (first : Name) (others : List Name) (body : Derivation .expr) (rest : List Token),
      [.ident ⟨"y"⟩, .ident ⟨"z"⟩, .dot, .ident ⟨"z"⟩, .rightParen, .backslash, .ident ⟨"w"⟩, .dot,
        .ident ⟨"w"⟩] =
        (first :: others).map Token.ident ++ .dot :: (body.tokens ++ rest) ∧
      (rest = [] ∨ ∃ outside, rest = .rightParen :: outside) := by
  refine ⟨?_, ?_, ?_⟩
  · exact (ofTokens_eq_ok_iff.1 twoLambdas.tokens _).mpr ⟨twoLambdas, rfl, rfl⟩
  · intro d h
    exact ofTokens_eq_ok_iff.2.1 twoLambdas d h
  · have htokens : twoLambdas.tokens = [.ident ⟨"x"⟩, .leftParen] ++ .backslash ::
        [.ident ⟨"y"⟩, .ident ⟨"z"⟩, .dot, .ident ⟨"z"⟩, .rightParen, .backslash, .ident ⟨"w"⟩,
          .dot, .ident ⟨"w"⟩] := rfl
    exact ofTokens_eq_ok_iff.2.2 twoLambdas _ _ htokens

end Grammar

end UntypedLambda
