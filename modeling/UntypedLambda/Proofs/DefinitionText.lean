import Mathlib.Data.String.Basic
import UntypedLambda.Proofs.Lines
import UntypedLambda.Proofs.Parsing

namespace UntypedLambda

def letLine (n : Name) (parameters : List Name) (value : String) : String :=
  "let " ++ (" ".intercalate ((n :: parameters).map Name.text) ++ " = " ++ value)

def functionText : List Name → String → String
  | [], body => body
  | parameters, body => "\\" ++ " ".intercalate (parameters.map Name.text) ++ "." ++ body

def redexText (n : Name) (body argument : String) : String :=
  "(\\" ++ n.text ++ "." ++ body ++ ")(" ++ argument ++ ")"

def Expression.redex (n : Name) (b v : Expression) : Expression :=
  .app (.lam n b) v

theorem spellOnto_map_ident (n : Name) (ns : List Name) (text : String) (spaced : Bool) :
    Token.spellOnto ((n :: ns).map Token.ident) text spaced =
      (if spaced then text ++ " " else text) ++ " ".intercalate ((n :: ns).map Name.text) := by
  induction ns generalizing n text spaced with
  | nil => cases spaced <;> simp [Token.spellOnto, Token.isIdent, Token.text]
  | cons m ns ih =>
    have hrest := ih m ((if spaced then text ++ " " else text) ++ n.text) true
    rw [List.map_cons, Token.spellOnto, Token.isIdent, Bool.true_and, Token.text, hrest,
      if_pos rfl]
    simp only [List.map_cons, String.intercalate_cons_cons, String.append_assoc]

theorem scan_names {n : Name} {ns : List Name} (hns : ∀ m ∈ n :: ns, m.isIdentifier = true) :
    Token.scan (" ".intercalate ((n :: ns).map Name.text)) =
      .ok ((n :: ns).map Token.ident) := by
  have hwritable : ∀ token ∈ (n :: ns).map Token.ident, token.IsWritable :=
    List.forall_mem_map.mpr hns
  have hspell : Token.spell ((n :: ns).map Token.ident) =
      " ".intercalate ((n :: ns).map Name.text) := by
    rw [Token.spell, spellOnto_map_ident, if_neg Bool.false_ne_true, String.empty_append]
  rw [← hspell]
  exact Token.scan_spell hwritable

variable {n : Name} {parameters : List Name} {value body : String} {e b v : Expression}

theorem scan_letLine {ts : List Token} (hnames : ∀ m ∈ n :: parameters, m.isIdentifier = true)
    (hvalue : Token.scan value = .ok ts) :
    Token.scan (" ".intercalate ((n :: parameters).map Name.text) ++ " = " ++ value) =
      .ok ((n :: parameters).map Token.ident ++ .equal :: ts) := by
  have hequal := Reads.nil.mark '=' rfl (Reads.nil.space (scan_eq_ok_iff.mp hvalue))
  have hreads := (scan_eq_ok_iff.mp (scan_names hnames)).space hequal
  rw [scan_eq_ok_iff]
  simpa using hreads

theorem readParameters_map_ident (ns seen : List Name) (ts : List Token) :
    Definition.readParameters (ns.map Token.ident ++ .equal :: ts) seen =
      .ok (seen.reverse ++ ns, ts) := by
  induction ns generalizing seen with
  | nil => simp [Definition.readParameters]
  | cons n ns ih =>
    rw [List.map_cons, List.cons_append, Definition.readParameters, ih]
    simp

theorem definition_ofTokens {ts : List Token} (hvalue : Expression.ofTokens ts = .ok e) :
    Definition.ofTokens ((n :: parameters).map Token.ident ++ .equal :: ts) =
      .ok ⟨n, parameters, e⟩ := by
  rw [List.map_cons, List.cons_append, Definition.ofTokens, readParameters_map_ident]
  exact bind_eq_ok_iff.mpr ⟨_, rfl, bind_eq_ok_iff.mpr ⟨e, hvalue, rfl⟩⟩

theorem parse_of_derivation {source : String} (d : Grammar.Derivation .expr)
    (h : Token.scan source = .ok d.tokens) : Expression.parse source = .ok d.denotation := by
  rw [Expression.parse, Token.parse, h]
  exact d.ofTokens

theorem exists_derivation_of_parse {source : String} (h : Expression.parse source = .ok e) :
    ∃ d : Grammar.Derivation .expr, Token.scan source = .ok d.tokens ∧ d.denotation = e := by
  obtain ⟨ts, hscan, hparse, -⟩ := Expression.tokens_of_parse h
  obtain ⟨d, rfl, hd⟩ := Grammar.exists_derivation hparse
  exact ⟨d, hscan, hd⟩

theorem parse_functionText (hparameters : ∀ p ∈ parameters, p.isIdentifier = true)
    (hvalue : Expression.parse value = .ok e) :
    Expression.parse (functionText parameters value) = .ok (.lams parameters e) := by
  cases parameters with
  | nil => exact hvalue
  | cons p ps =>
    obtain ⟨d, hscan, rfl⟩ := exists_derivation_of_parse hvalue
    apply parse_of_derivation (.lambda (.abstraction p ps d))
    have hheader := (scan_eq_ok_iff.mp (scan_names hparameters)).mark '.' rfl
      (scan_eq_ok_iff.mp hscan)
    have hreads := Reads.nil.mark '\\' rfl hheader
    rw [scan_eq_ok_iff]
    simpa [functionText, Grammar.Derivation.tokens] using hreads

theorem parse_redexText {argument : String} (hn : n.isIdentifier = true)
    (hbody : Expression.parse body = .ok b) (hargument : Expression.parse argument = .ok v) :
    Expression.parse (redexText n body argument) = .ok (.redex n b v) := by
  obtain ⟨d, hd, rfl⟩ := exists_derivation_of_parse hbody
  obtain ⟨d', hd', rfl⟩ := exists_derivation_of_parse hargument
  apply parse_of_derivation
    (.spine (.apply (.atom (.group (.lambda (.abstraction n [] d)))) (.group d')))
  have hclose := (scan_eq_ok_iff.mp hd').mark ')' rfl Reads.nil
  have hgroup := (scan_eq_ok_iff.mp hd).mark ')' rfl (Reads.nil.mark '(' rfl hclose)
  have hname : ∀ m ∈ [n], m.isIdentifier = true := List.forall_mem_singleton.mpr hn
  have hheader := (scan_eq_ok_iff.mp (scan_names hname)).mark '.' rfl hgroup
  have hreads := Reads.nil.mark '(' rfl (Reads.nil.mark '\\' rfl hheader)
  rw [scan_eq_ok_iff]
  simpa [redexText, Grammar.Derivation.tokens] using hreads

end UntypedLambda
