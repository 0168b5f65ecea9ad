import UntypedLambda.Binder
import UntypedLambda.Token

/-! `expr = spine | spine lambda | lambda`, `spine = atom | spine atom`,
`lambda = "\" ID+ "." expr`, `atom = ID | "(" expr ")"`. -/
namespace UntypedLambda.Grammar

inductive Symbol where
  | expr
  | spine
  | lambda
  | atom
  deriving DecidableEq, Repr

inductive Derivation : Symbol → Type where
  | spine (s : Derivation .spine) : Derivation .expr
  | spineLambda (s : Derivation .spine) (l : Derivation .lambda) : Derivation .expr
  | lambda (l : Derivation .lambda) : Derivation .expr
  | atom (a : Derivation .atom) : Derivation .spine
  | apply (s : Derivation .spine) (a : Derivation .atom) : Derivation .spine
  | abstraction (first : Name) (others : List Name) (body : Derivation .expr) : Derivation .lambda
  | ident (x : Name) : Derivation .atom
  | group (e : Derivation .expr) : Derivation .atom

namespace Derivation

variable {symbol : Symbol}

def tokens {symbol : Symbol} : Derivation symbol → List Token
  | spine s => s.tokens
  | spineLambda s l => s.tokens ++ l.tokens
  | lambda l => l.tokens
  | atom a => a.tokens
  | apply s a => s.tokens ++ a.tokens
  | abstraction first others body =>
    .backslash :: ((first :: others).map Token.ident ++ .dot :: body.tokens)
  | ident x => [.ident x]
  | group e => .leftParen :: (e.tokens ++ [.rightParen])

def denotation {symbol : Symbol} : Derivation symbol → Expression
  | spine s => s.denotation
  | spineLambda s l => .app s.denotation l.denotation
  | lambda l => l.denotation
  | atom a => a.denotation
  | apply s a => .app s.denotation a.denotation
  | abstraction first others body => .lams (first :: others) body.denotation
  | ident x => .var x
  | group e => e.denotation

def atoms : Derivation .spine → List (Derivation .atom)
  | atom a => [a]
  | apply s a => s.atoms ++ [a]

def parts : Derivation .expr → List (Derivation .atom) × Option (Derivation .lambda)
  | spine s => (s.atoms, none)
  | spineLambda s l => (s.atoms, some l)
  | lambda l => ([], some l)

theorem tokens_spine : (s : Derivation .spine) → s.tokens = s.atoms.flatMap tokens
  | atom a => by simp [tokens, atoms]
  | apply s a => by simp [tokens, atoms, tokens_spine s]

theorem tokens_expr (e : Derivation .expr) :
    e.tokens = e.parts.1.flatMap tokens ++ e.parts.2.elim [] tokens := by
  cases e <;> simp [tokens, parts, tokens_spine]

theorem atoms_ne_nil (s : Derivation .spine) : s.atoms ≠ [] := by
  cases s <;> simp [atoms]

theorem eq_of_atoms_eq : (s s' : Derivation .spine) → s.atoms = s'.atoms → s = s'
  | atom a, atom a', h => by
    simp only [atoms, List.cons.injEq, and_true] at h
    rw [h]
  | apply s a, apply s' a', h => by
    rw [atoms, atoms] at h
    obtain ⟨hs, ha⟩ := List.append_inj' h rfl
    simp only [List.cons.injEq, and_true] at ha
    rw [eq_of_atoms_eq s s' hs, ha]
  | atom a, apply s' a', h => by
    rw [atoms, atoms, ← List.nil_append [a]] at h
    exact absurd (List.append_inj' h rfl).1.symm s'.atoms_ne_nil
  | apply s a, atom a', h => by
    rw [atoms, atoms, ← List.nil_append [a']] at h
    exact absurd (List.append_inj' h rfl).1 s.atoms_ne_nil

theorem eq_of_parts_eq {e e' : Derivation .expr} (h : e.parts = e'.parts) : e = e' := by
  cases e with
  | spine s =>
    cases e' with
    | spine s' => rw [eq_of_atoms_eq s s' (congrArg Prod.fst h)]
    | spineLambda s' l' => cases congrArg Prod.snd h
    | lambda l' => cases congrArg Prod.snd h
  | spineLambda s l =>
    cases e' with
    | spine s' => cases congrArg Prod.snd h
    | spineLambda s' l' =>
      cases congrArg Prod.snd h
      rw [eq_of_atoms_eq s s' (congrArg Prod.fst h)]
    | lambda l' => exact absurd (congrArg Prod.fst h) s.atoms_ne_nil
  | lambda l =>
    cases e' with
    | spine s' => cases congrArg Prod.snd h
    | spineLambda s' l' => exact absurd (congrArg Prod.fst h).symm s'.atoms_ne_nil
    | lambda l' =>
      cases congrArg Prod.snd h
      rfl

def EndsSpine : List Token → Prop
  | .ident _ :: _ => False
  | .leftParen :: _ => False
  | _ => True

def EndsExpr (rest : List Token) : Prop :=
  rest = [] ∨ ∃ after, rest = .rightParen :: after

theorem EndsExpr.endsSpine {rest : List Token} (h : EndsExpr rest) : EndsSpine rest := by
  rcases h with rfl | ⟨after, rfl⟩ <;> trivial

theorem not_endsSpine_atom (a : Derivation .atom) (rest : List Token) :
    ¬ EndsSpine (a.tokens ++ rest) := by
  cases a <;> exact id

theorem tokens_lambda (l : Derivation .lambda) : ∃ ts, l.tokens = .backslash :: ts := by
  cases l
  exact ⟨_, rfl⟩

theorem endsSpine_lambda (l : Derivation .lambda) (rest : List Token) :
    EndsSpine (l.tokens ++ rest) := by
  obtain ⟨ts, hts⟩ := tokens_lambda l
  rw [hts]
  trivial

theorem not_endsExpr_lambda (l : Derivation .lambda) (rest : List Token) :
    ¬ EndsExpr (l.tokens ++ rest) := by
  obtain ⟨ts, hts⟩ := tokens_lambda l
  rw [hts]
  rintro (h | ⟨after, h⟩) <;> cases h

/-- In front of what may follow a symbol, only one derivation of it has these tokens.  Of a spine
this is said of each of its atoms. -/
def Determined : (symbol : Symbol) → Derivation symbol → Prop
  | .expr, e => ∀ (e' : Derivation .expr) (rest rest' : List Token), EndsExpr rest →
      EndsExpr rest' → e.tokens ++ rest = e'.tokens ++ rest' → e = e' ∧ rest = rest'
  | .lambda, l => ∀ (l' : Derivation .lambda) (rest rest' : List Token), EndsExpr rest →
      EndsExpr rest' → l.tokens ++ rest = l'.tokens ++ rest' → l = l' ∧ rest = rest'
  | .spine, s => ∀ a ∈ s.atoms, ∀ (a' : Derivation .atom) (rest rest' : List Token),
      a.tokens ++ rest = a'.tokens ++ rest' → a = a' ∧ rest = rest'
  | .atom, a => ∀ (a' : Derivation .atom) (rest rest' : List Token),
      a.tokens ++ rest = a'.tokens ++ rest' → a = a' ∧ rest = rest'

theorem flatMap_tokens_inj {as as' : List (Derivation .atom)} {rest rest' : List Token}
    (has : ∀ a ∈ as, Determined .atom a) (hrest : EndsSpine rest) (hrest' : EndsSpine rest')
    (h : as.flatMap tokens ++ rest = as'.flatMap tokens ++ rest') :
    as = as' ∧ rest = rest' := by
  -- The atoms are compared one by one; the list that ends first shows what follows it.
  induction as generalizing as' with
  | nil =>
    cases as' with
    | nil => exact ⟨rfl, h⟩
    | cons a' as' =>
      rw [List.flatMap_cons, List.append_assoc] at h
      have hatom : rest = a'.tokens ++ (as'.flatMap tokens ++ rest') := h
      rw [hatom] at hrest
      exact absurd hrest (not_endsSpine_atom a' _)
  | cons a as ih =>
    cases as' with
    | nil =>
      rw [List.flatMap_cons, List.append_assoc] at h
      have hatom : rest' = a.tokens ++ (as.flatMap tokens ++ rest) := h.symm
      rw [hatom] at hrest'
      exact absurd hrest' (not_endsSpine_atom a _)
    | cons a' as' =>
      rw [List.flatMap_cons, List.flatMap_cons, List.append_assoc, List.append_assoc] at h
      obtain ⟨rfl, htail⟩ := has a List.mem_cons_self a' _ _ h
      obtain ⟨rfl, hend⟩ := ih (fun b hb => has b (List.mem_cons_of_mem a hb)) htail
      exact ⟨rfl, hend⟩

theorem map_ident_inj {ns ns' : List Name} {ts ts' : List Token}
    (h : ns.map Token.ident ++ .dot :: ts = ns'.map Token.ident ++ .dot :: ts') :
    ns = ns' ∧ ts = ts' := by
  induction ns generalizing ns' with
  | nil =>
    cases ns' with
    | nil => exact ⟨rfl, List.tail_eq_of_cons_eq h⟩
    | cons n' ns' => cases List.head_eq_of_cons_eq h
  | cons n ns ih =>
    cases ns' with
    | nil => cases List.head_eq_of_cons_eq h
    | cons n' ns' =>
      obtain ⟨rfl, hts⟩ := ih (List.tail_eq_of_cons_eq h)
      cases List.head_eq_of_cons_eq h
      exact ⟨rfl, hts⟩

theorem endsSpine_elim (l? : Option (Derivation .lambda)) {rest : List Token}
    (hrest : EndsExpr rest) : EndsSpine (l?.elim [] tokens ++ rest) := by
  cases l? with
  | none => exact hrest.endsSpine
  | some l => exact endsSpine_lambda l rest

theorem elim_tokens_inj {l? l'? : Option (Derivation .lambda)} {rest rest' : List Token}
    (hl : ∀ l ∈ l?, Determined .lambda l) (hrest : EndsExpr rest) (hrest' : EndsExpr rest')
    (h : l?.elim [] tokens ++ rest = l'?.elim [] tokens ++ rest') : l? = l'? ∧ rest = rest' := by
  cases l? with
  | none =>
    cases l'? with
    | none => exact ⟨rfl, h⟩
    | some l' =>
      have hlambda : rest = l'.tokens ++ rest' := h
      rw [hlambda] at hrest
      exact absurd hrest (not_endsExpr_lambda l' rest')
  | some l =>
    cases l'? with
    | none =>
      have hlambda : rest' = l.tokens ++ rest := h.symm
      rw [hlambda] at hrest'
      exact absurd hrest' (not_endsExpr_lambda l rest)
    | some l' =>
      obtain ⟨rfl, hend⟩ := hl l rfl l' rest rest' hrest hrest' h
      exact ⟨rfl, hend⟩

theorem determined_expr {e : Derivation .expr}
    (has : ∀ a ∈ e.parts.1, Determined .atom a) (hl : ∀ l ∈ e.parts.2, Determined .lambda l) :
    Determined .expr e := by
  intro e' rest rest' hrest hrest' h
  rw [tokens_expr, tokens_expr, List.append_assoc, List.append_assoc] at h
  obtain ⟨hatoms, htail⟩ :=
    flatMap_tokens_inj has (endsSpine_elim _ hrest) (endsSpine_elim _ hrest') h
  obtain ⟨hlambda, hend⟩ := elim_tokens_inj hl hrest hrest' htail
  exact ⟨eq_of_parts_eq (Prod.ext hatoms hlambda), hend⟩

theorem determined (d : Derivation symbol) : Determined symbol d := by
  induction d with
  | spine s ih => exact determined_expr (e := .spine s) ih (fun l hl => by cases hl)
  | spineLambda s l ihs ihl =>
    apply determined_expr (e := .spineLambda s l) ihs
    intro l' hl'
    cases hl'
    exact ihl
  | lambda l ih =>
    apply determined_expr (e := .lambda l) (fun a ha => by cases ha)
    intro l' hl'
    cases hl'
    exact ih
  | atom a ih =>
    rw [Determined, atoms]
    exact List.forall_mem_singleton.mpr ih
  | apply s a ihs iha =>
    rw [Determined, atoms]
    exact List.forall_mem_append.mpr ⟨ihs, List.forall_mem_singleton.mpr iha⟩
  | abstraction first others body ih =>
    intro l' rest rest' hrest hrest' h
    cases l' with
    | abstraction first' others' body' =>
      simp only [tokens, List.cons_append, List.append_assoc, List.cons.injEq, true_and] at h
      obtain ⟨hnames, hbody⟩ := map_ident_inj h
      cases hnames
      obtain ⟨rfl, hend⟩ := ih body' rest rest' hrest hrest' hbody
      exact ⟨rfl, hend⟩
  | ident x =>
    intro a' rest rest' h
    cases a' with
    | ident x' =>
      cases List.head_eq_of_cons_eq h
      exact ⟨rfl, List.tail_eq_of_cons_eq h⟩
    | group e' => cases List.head_eq_of_cons_eq h
  | group e ih =>
    intro a' rest rest' h
    cases a' with
    | ident x' => cases List.head_eq_of_cons_eq h
    | group e' =>
      simp only [tokens, List.cons_append, List.append_assoc, List.cons.injEq, true_and] at h
      have hinside : e.tokens ++ .rightParen :: rest = e'.tokens ++ .rightParen :: rest' := h
      obtain ⟨rfl, hend⟩ := ih e' _ _ (.inr ⟨rest, rfl⟩) (.inr ⟨rest', rfl⟩) hinside
      exact ⟨rfl, List.tail_eq_of_cons_eq hend⟩

theorem tokens_injective : Function.Injective (tokens : Derivation .expr → List Token) := by
  intro e e' h
  have hnil : e.tokens ++ [] = e'.tokens ++ [] := by rw [h]
  exact (determined e e' [] [] (.inl rfl) (.inl rfl) hnil).1

/-- The body of every lambda among the tokens reaches up to a right parenthesis, or up to the end of
the tokens if it may end there. -/
def LambdasEnd (atEnd : Prop) (ts : List Token) : Prop :=
  ∀ before after, ts = before ++ .backslash :: after →
    ∃ (first : Name) (others : List Name) (body : Derivation .expr) (rest : List Token),
      after = (first :: others).map Token.ident ++ .dot :: (body.tokens ++ rest) ∧
      ((rest = [] ∧ atEnd) ∨ ∃ outside, rest = .rightParen :: outside)

variable {atEnd : Prop} {ts us : List Token}

theorem lambdasEnd_of_not_mem (h : .backslash ∉ ts) : LambdasEnd atEnd ts := by
  rintro before after rfl
  simp at h

/-- More tokens may follow if they start with a right parenthesis or no lambda ends behind them. -/
theorem LambdasEnd.append {inside : Prop} (hts : LambdasEnd inside ts) (hus : LambdasEnd atEnd us)
    (hend : inside → ∃ outside, us = .rightParen :: outside) : LambdasEnd atEnd (ts ++ us) := by
  intro before after h
  rcases List.append_eq_append_iff.mp h with ⟨gap, rfl, hgap⟩ | ⟨gap, rfl, hgap⟩
  · exact hus gap after hgap
  · cases gap with
    | nil => exact hus [] after hgap.symm
    | cons token gap =>
      obtain ⟨rfl, rfl⟩ := List.cons.inj hgap
      obtain ⟨first, others, body, rest, rfl, hrest⟩ := hts before gap rfl
      refine ⟨first, others, body, rest ++ us, by simp, ?_⟩
      rcases hrest with ⟨rfl, hinside⟩ | ⟨outside, rfl⟩
      · exact .inr (hend hinside)
      · exact .inr ⟨outside ++ us, rfl⟩

theorem LambdasEnd.mono {inside : Prop} (h : LambdasEnd inside ts) (himp : inside → atEnd) :
    LambdasEnd atEnd ts := by
  intro before after heq
  obtain ⟨first, others, body, rest, hafter, hrest⟩ := h before after heq
  exact ⟨first, others, body, rest, hafter, hrest.imp_left (And.imp_right himp)⟩

/-- Only a lambda at the end of an expression may end with it. -/
theorem lambdasEnd (d : Derivation symbol) :
    LambdasEnd (symbol = .expr ∨ symbol = .lambda) d.tokens := by
  induction d with
  | spine s ih => exact ih.mono (by simp)
  | spineLambda s l ihs ihl => exact ihs.append (ihl.mono (by simp)) (by simp)
  | lambda l ih => exact ih.mono (by simp)
  | atom a ih => exact ih.mono (by simp)
  | apply s a ihs iha => exact ihs.append (iha.mono (by simp)) (by simp)
  | abstraction first others body ih =>
    intro before after h
    cases before with
    | nil =>
      refine ⟨first, others, body, [], ?_, .inl ⟨rfl, .inr rfl⟩⟩
      rw [List.append_nil]
      exact (List.tail_eq_of_cons_eq h).symm
    | cons token before =>
      have hheader : LambdasEnd False ((first :: others).map Token.ident ++ [.dot]) :=
        lambdasEnd_of_not_mem (by simp)
      have hlambda := hheader.append ih (by simp)
      apply hlambda.mono (by simp) before after
      rw [List.append_assoc]
      exact List.tail_eq_of_cons_eq h
  | ident x => exact lambdasEnd_of_not_mem (by simp [tokens])
  | group e ih =>
    have hclosed : LambdasEnd False (e.tokens ++ [.rightParen]) :=
      ih.append (lambdasEnd_of_not_mem (by simp)) (fun _ => ⟨[], rfl⟩)
    have hparen : LambdasEnd False [.leftParen] := lambdasEnd_of_not_mem (by simp)
    have hgroup := hparen.append hclosed (by simp)
    exact hgroup.mono (by simp)

end Derivation

end UntypedLambda.Grammar
