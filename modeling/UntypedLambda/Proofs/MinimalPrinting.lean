import Mathlib.Data.List.Perm.Subperm
import UntypedLambda.Proofs.Parsing

/-! Each token that the printer writes is among the tokens of any other way of writing, as often.
The order may differ: `(f\x.x)y` is written as `f(\x.x)y`. -/
namespace UntypedLambda

namespace Term

variable {ν : Type}

theorem stripLams_append (t : Term ν) (seen more : List ν) :
    t.stripLams (seen ++ more) = ((t.stripLams seen).1 ++ more, (t.stripLams seen).2) := by
  induction t generalizing seen with
  | var x => rfl
  | app t s _ _ => rfl
  | lam x b ih => exact ih (x :: seen)

theorem stripLams_lams (parameters : List ν) (body : Term ν) (seen : List ν) :
    (lams parameters body).stripLams seen = body.stripLams (parameters.reverse ++ seen) := by
  induction parameters generalizing seen with
  | nil => rfl
  | cons x parameters ih =>
    have hstep : (lams (x :: parameters) body).stripLams seen =
        (lams parameters body).stripLams (x :: seen) := rfl
    rw [hstep, ih, List.reverse_cons, List.append_assoc]
    rfl

end Term

namespace Token

def isParen : Token → Bool
  | leftParen => true
  | rightParen => true
  | ident _ => false
  | backslash => false
  | dot => false
  | equal => false

def inParens (ts : List Token) : List Token :=
  .leftParen :: (ts ++ [.rightParen])

variable {ts us : List Token}

theorem subperm_inParens (ts : List Token) : ts.Subperm (inParens ts) :=
  List.Subperm.cons_right leftParen (List.sublist_append_left ts [rightParen]).subperm

theorem inParens_subperm (h : ts.Subperm us) : (inParens ts).Subperm (inParens us) :=
  (List.subperm_cons _).mpr ((List.subperm_append_right _).mpr h)

/-- Parentheses around the last tokens could as well stand around all of them. -/
theorem append_inParens_perm (ts us : List Token) :
    (ts ++ inParens us).Perm (inParens (ts ++ us)) := by
  rw [inParens, inParens, List.append_assoc]
  exact List.perm_middle

end Token

namespace Expression

open Token

variable {slot slot' : Slot} {e : Expression}

/-- A lambda is written alike wherever it needs no parentheses. -/
theorem tokensAt_lam_eq_whole (hlam : slot.lam = true) (x : Name) (b : Expression) :
    tokensAt slot (.lam x b) = tokensAt .whole (.lam x b) := by
  rw [tokensAt_lam hlam, tokensAt_lam rfl]

theorem tokensAt_argument_subperm (slot : Slot) (s : Expression) :
    (tokensAt slot.argument s).Subperm (inParens (tokensAt Slot.whole.argument s)) := by
  cases s with
  | var x =>
    rw [tokensAt_var, tokensAt_var]
    exact subperm_inParens _
  | app u v =>
    have happ (slot : Slot) : ¬ slot.argument.app = true := Bool.false_ne_true
    rw [tokensAt_app_inside (happ slot), tokensAt_app_inside (happ .whole)]
    exact subperm_inParens _
  | lam x b =>
    have htrailing : Slot.whole.argument.lam = true := rfl
    rw [tokensAt_lam_eq_whole htrailing]
    by_cases hlam : slot.argument.lam = true
    · rw [tokensAt_lam_eq_whole hlam]
      exact subperm_inParens _
    · rw [tokensAt_lam_inside hlam]
      exact List.Subperm.refl _

/-- No place asks for more than one pair of parentheses. -/
theorem tokensAt_subperm_inParens (slot : Slot) (e : Expression) :
    (tokensAt slot e).Subperm (inParens (tokensAt .whole e)) := by
  cases e with
  | var x =>
    rw [tokensAt_var, tokensAt_var]
    exact subperm_inParens _
  | app t s =>
    by_cases happ : slot.app = true
    · have hargument := tokensAt_argument_subperm slot s
      have happend := (List.subperm_append_left (tokensAt .function t)).mpr hargument
      rw [tokensAt_app happ, tokensAt_app rfl]
      exact happend.trans (append_inParens_perm _ _).subperm
    · rw [tokensAt_app_inside happ]
      exact List.Subperm.refl _
  | lam x b =>
    by_cases hlam : slot.lam = true
    · rw [tokensAt_lam_eq_whole hlam]
      exact subperm_inParens _
    · rw [tokensAt_lam_inside hlam]
      exact List.Subperm.refl _

/-- A place where more may stand without parentheses costs no more. -/
theorem tokensAt_subperm (happ : slot.app = true → slot'.app = true)
    (hlam : slot.lam = true → slot'.lam = true) (e : Expression) :
    (tokensAt slot' e).Subperm (tokensAt slot e) := by
  induction slot, e using tokensAt_induction generalizing slot' with
  | hvar slot x =>
    rw [tokensAt_var, tokensAt_var]
  | happ slot t s hopen _ ihs =>
    rw [tokensAt_app hopen, tokensAt_app (happ hopen)]
    exact (List.subperm_append_left _).mpr (ihs id hlam)
  | hlam slot x b hopen _ =>
    rw [tokensAt_lam_eq_whole hopen, tokensAt_lam_eq_whole (hlam hopen)]
  | hinside slot e hinside _ =>
    rw [hinside]
    exact tokensAt_subperm_inParens slot' e

/-- The parameters of nested lambdas share one header with those at the beginning of the body. -/
theorem tokensAt_lams (hlam : slot.lam = true) (first : Name) (others : List Name)
    (b : Expression) :
    tokensAt slot (.lams (first :: others) b) =
      .backslash :: ((first :: others).map Token.ident ++
        ((b.stripLams []).1.reverse.map Token.ident ++
          .dot :: tokensAt .whole (b.stripLams []).2)) := by
  have hlams : (Term.lams (first :: others) b : Expression) = .lam first (.lams others b) := rfl
  have hstrip := b.stripLams_append [] (others.reverse ++ [first])
  rw [List.nil_append] at hstrip
  rw [hlams, tokensAt_lam hlam, Term.stripLams_lams, hstrip]
  simp

/-- A header of their own would only add a backslash and a dot. -/
theorem tokensAt_lams_sublist (hlam : slot.lam = true) (first : Name) (others : List Name)
    (b : Expression) :
    (tokensAt slot (.lams (first :: others) b)).Sublist
      (.backslash :: ((first :: others).map Token.ident ++ .dot :: tokensAt .whole b)) := by
  have hbody : ((b.stripLams []).1.reverse.map Token.ident ++
      .dot :: tokensAt .whole (b.stripLams []).2).Sublist (.dot :: tokensAt .whole b) := by
    cases b with
    | var x => exact List.Sublist.refl _
    | app t s => exact List.Sublist.refl _
    | lam x b =>
      have hwhole : Slot.whole.lam = true := rfl
      rw [tokensAt_lam hwhole]
      exact ((List.Sublist.refl _).cons _).cons _
  rw [tokensAt_lams hlam]
  exact (hbody.append_left _).cons_cons _

end Expression

namespace Grammar

open Expression

/-- A derivation has at least the tokens that are written at the place of its symbol. -/
theorem Derivation.tokensAt_subperm {symbol : Symbol} (d : Derivation symbol) :
    (tokensAt symbol.slot d.denotation).Subperm d.tokens := by
  induction d with
  | spine s ih => exact (Expression.tokensAt_subperm (fun _ => rfl) (fun _ => rfl) _).trans ih
  | spineLambda s l ihs ihl =>
    unfold denotation
    rw [tokensAt_app rfl]
    exact ihs.append ihl
  | lambda l ih => exact (Expression.tokensAt_subperm (fun _ => rfl) (fun _ => rfl) _).trans ih
  | atom a ih =>
    have hlam : Symbol.atom.slot.lam = true → Symbol.spine.slot.lam = true := id
    exact (Expression.tokensAt_subperm (fun _ => rfl) hlam _).trans ih
  | apply s a ihs iha =>
    unfold denotation
    rw [tokensAt_app rfl]
    exact ihs.append iha
  | abstraction first others body ih =>
    have hbody : (Token.dot :: tokensAt .whole body.denotation).Subperm
        (.dot :: body.tokens) := (List.subperm_cons _).mpr ih
    exact (tokensAt_lams_sublist rfl first others _).subperm.trans
      ((List.subperm_cons _).mpr ((List.subperm_append_left _).mpr hbody))
  | ident x =>
    unfold denotation
    rw [tokensAt_var]
    exact List.Subperm.refl _
  | group e ih => exact (tokensAt_subperm_inParens _ _).trans (Token.inParens_subperm ih)

end Grammar

namespace Expression

variable {e : Expression} {ts : List Token}

theorem tokens_subperm (h : ofTokens ts = .ok e) : e.tokens.Subperm ts := by
  obtain ⟨d, rfl, rfl⟩ := Grammar.exists_derivation h
  exact d.tokensAt_subperm

/-- The tokens of an expression stand for it, and no other tokens that do are fewer, or have fewer
parentheses. -/
theorem tokens_fewest (e : Expression) :
    ofTokens e.tokens = .ok e ∧
    ∀ ts, ofTokens ts = .ok e →
      e.tokens.length ≤ ts.length ∧ e.tokens.countP Token.isParen ≤ ts.countP Token.isParen := by
  refine ⟨ofTokens_tokens e, ?_⟩
  intro ts h
  have hsub := tokens_subperm h
  exact ⟨hsub.length_le, hsub.countP_le Token.isParen⟩

def lambdaInBetween : Expression :=
  .app (.app (.var ⟨"f"⟩) (.lam ⟨"x"⟩ (.lam ⟨"y"⟩ (.var ⟨"x"⟩)))) (.var ⟨"y"⟩)

/-- Written as `(f\x.\y.x)y`, the expression has as many parentheses and more tokens. -/
theorem tokens_fewest_of_lambdaInBetween :
    ofTokens [.leftParen, .ident ⟨"f"⟩, .backslash, .ident ⟨"x"⟩, .dot, .backslash, .ident ⟨"y"⟩,
      .dot, .ident ⟨"x"⟩, .rightParen, .ident ⟨"y"⟩] = .ok lambdaInBetween ∧
    lambdaInBetween.tokens.length ≤ 11 ∧ lambdaInBetween.tokens.countP Token.isParen ≤ 2 := by
  have h : ofTokens [.leftParen, .ident ⟨"f"⟩, .backslash, .ident ⟨"x"⟩, .dot, .backslash,
      .ident ⟨"y"⟩, .dot, .ident ⟨"x"⟩, .rightParen, .ident ⟨"y"⟩] = .ok lambdaInBetween := rfl
  exact ⟨h, (tokens_fewest lambdaInBetween).2 _ h⟩

end Expression

end UntypedLambda
