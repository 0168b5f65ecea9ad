import UntypedLambda.Proofs.Continuations
import UntypedLambda.Proofs.DefinitionText

/-! The body of a definition is read by itself and then made a function of the parameters; the body
of a lambda is read with the lambda left open around it. -/
namespace UntypedLambda

def functionTokens : List Name → List Token → List Token
  | [], body => body
  | parameters, body => .backslash :: (parameters.map .ident ++ .dot :: body)

namespace Parser

def inside (parameters : List Name) (p : Parser) : Parser :=
  { p with opened := p.opened ++ [⟨.lambda parameters, none⟩] }

variable {parameters : List Name}

theorem closeGroup_inside (opened : List OpenFrame) (current : Option Expression) :
    closeGroup (opened ++ [⟨.lambda parameters, none⟩]) current =
      (closeGroup opened current).map (inside parameters) := by
  induction opened generalizing current with
  | nil =>
    cases current <;> rfl
  | cons frame opened ih =>
    obtain ⟨construct, outer⟩ := frame
    cases current with
    | none => rfl
    | some body =>
      cases construct with
      | group => rfl
      | lambda names => exact ih _

theorem closeAll_inside (opened : List OpenFrame) (current : Option Expression) :
    closeAll (opened ++ [⟨.lambda parameters, none⟩]) current =
      (closeAll opened current).map (Term.lamsInward parameters) := by
  induction opened generalizing current with
  | nil => cases current <;> rfl
  | cons frame opened ih =>
    obtain ⟨construct, outer⟩ := frame
    cases construct with
    | group => rfl
    | lambda names =>
      cases current with
      | none => rfl
      | some body => exact ih _

theorem feed_inside (p : Parser) (token : Token) :
    (p.inside parameters).feed token = (p.feed token).map (inside parameters) := by
  obtain ⟨opened, current, header⟩ := p
  cases header with
  | some names =>
    cases token with
    | dot => cases names <;> rfl
    | _ => rfl
  | none =>
    cases token with
    | rightParen => exact closeGroup_inside opened current
    | _ => rfl

theorem foldlM_feed_inside (ts : List Token) (p : Parser) :
    ts.foldlM feed (p.inside parameters) = (ts.foldlM feed p).map (inside parameters) := by
  induction ts generalizing p with
  | nil => rfl
  | cons token ts ih =>
    rw [List.foldlM_cons, List.foldlM_cons, feed_inside]
    cases p.feed token with
    | error err => rfl
    | ok q => exact ih q

theorem finish_inside (p : Parser) :
    (p.inside parameters).finish = p.finish.map (Term.lamsInward parameters) := by
  obtain ⟨opened, current, header⟩ := p
  cases header with
  | some names => rfl
  | none => exact closeAll_inside opened current

/-- An open lambda around everything only makes a function of what is read. -/
theorem readOn_inside (p : Parser) (ts : List Token) :
    (p.inside parameters).readOn ts = (p.readOn ts).map (Term.lamsInward parameters) := by
  rw [readOn, readOn, foldlM_feed_inside]
  cases ts.foldlM feed p with
  | error err => rfl
  | ok q => exact finish_inside q

theorem foldlM_feed_function {names : List Name} (hne : names ≠ []) :
    (.backslash :: (names.map Token.ident ++ [.dot])).foldlM feed {} =
      .ok (inside names.reverse {}) := by
  have hheader := foldlM_feed_backslash (p := {}) rfl names
  have hdot : feed { header := some names.reverse } .dot = .ok (inside names.reverse {}) := by
    simp [feed, feedHeader, hne, inside]
  rw [← List.cons_append, foldlM_feed_append hheader, foldlM_feed_cons hdot]
  rfl

end Parser

theorem Expression.ofTokens_functionTokens (parameters : List Name) (body : List Token) :
    ofTokens (functionTokens parameters body) = (ofTokens body).map (Term.lams parameters) := by
  cases parameters with
  | nil =>
    have hlams : Term.lams ([] : List Name) = id := rfl
    rw [functionTokens, hlams]
    cases ofTokens body <;> rfl
  | cons first others =>
    have hrun := Parser.foldlM_feed_function (List.cons_ne_nil first others)
    have htokens : functionTokens (first :: others) body =
        (.backslash :: ((first :: others).map Token.ident ++ [.dot])) ++ body := by
      simp [functionTokens]
    have hlams : Term.lamsInward (first :: others).reverse = Term.lams (first :: others) := by
      funext e
      exact Term.lamsInward_reverse _ e
    calc ofTokens (functionTokens (first :: others) body)
      _ = (Parser.inside (first :: others).reverse {}).readOn body := by
        rw [htokens]
        exact Parser.readOn_append hrun
      _ = (ofTokens body).map (Term.lamsInward (first :: others).reverse) :=
        Parser.readOn_inside {} body
      _ = (ofTokens body).map (Term.lams (first :: others)) := by rw [hlams]

namespace Definition

theorem map_value_ofTokens (name : Name) (parameters : List Name) (body : List Token) :
    (ofTokens (.ident name :: (parameters.map .ident ++ .equal :: body))).map value =
      (Expression.ofTokens body).map (Term.lams parameters) := by
  rw [ofTokens, readParameters_map_ident]
  cases h : Expression.ofTokens body with
  | error err => simp [bind, Except.bind, Except.map, h]
  | ok e => simp [bind, Except.bind, Except.map, h, value]

/-- A definition with parameters has the value of a lambda, and fails where it does; one without
parameters has the value of its body.  The same holds for every text with these tokens. -/
theorem value_eq_function :
    (∀ (name : Name) (parameters : List Name) (body : List Token),
      (ofTokens (.ident name :: (parameters.map .ident ++ .equal :: body))).map value =
        Expression.ofTokens (functionTokens parameters body)) ∧
    (∀ (source : String) (name : Name) (parameters : List Name) (body : List Token),
      Token.scan source = .ok (.ident name :: (parameters.map .ident ++ .equal :: body)) →
      (parse source).map value = Expression.ofTokens (functionTokens parameters body)) := by
  have htokens (name : Name) (parameters : List Name) (body : List Token) :
      (ofTokens (.ident name :: (parameters.map .ident ++ .equal :: body))).map value =
        Expression.ofTokens (functionTokens parameters body) := by
    rw [map_value_ofTokens, Expression.ofTokens_functionTokens]
  refine ⟨htokens, ?_⟩
  intro source name parameters body hscan
  rw [parse, Token.parse, hscan, ← htokens name parameters body]
  rfl

/-- Behind the parameters, a parenthesis that closes nothing is an error in both ways. -/
theorem value_eq_function_of_strayParen :
    Token.scan "k x y = x) y" = .ok (.ident ⟨"k"⟩ :: ([⟨"x"⟩, ⟨"y"⟩].map .ident ++
      .equal :: [.ident ⟨"x"⟩, .rightParen, .ident ⟨"y"⟩])) ∧
    (parse "k x y = x) y").map value = Expression.ofTokens [.backslash, .ident ⟨"x"⟩, .ident ⟨"y"⟩,
      .dot, .ident ⟨"x"⟩, .rightParen, .ident ⟨"y"⟩] ∧
    (parse "k x y = x) y").map value = .error (.unexpectedToken .rightParen) := by
  have hscan : Token.scan "k x y = x) y" = .ok (.ident ⟨"k"⟩ :: ([⟨"x"⟩, ⟨"y"⟩].map .ident ++
      .equal :: [.ident ⟨"x"⟩, .rightParen, .ident ⟨"y"⟩])) := rfl
  have hvalue := value_eq_function.2 _ _ _ _ hscan
  exact ⟨hscan, hvalue, hvalue⟩

end Definition

end UntypedLambda
