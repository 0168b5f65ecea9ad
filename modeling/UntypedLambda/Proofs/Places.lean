import UntypedLambda.Proofs.Replacement

namespace UntypedLambda

variable {ν μ : Type}

/-- A variable or a parameter where it stands, below the parameters `scope`, innermost first. -/
inductive Place (ν : Type) where
  | var (scope : List ν) (x : ν)
  | lam (scope : List ν) (x : ν)

namespace Place

def map (f : ν → μ) : Place ν → Place μ
  | var scope x => var (scope.map f) (f x)
  | lam scope x => lam (scope.map f) (f x)

def isLam : Place ν → Bool
  | var _ _ => false
  | lam _ _ => true

end Place

namespace Term

def places (scope : List ν) : Term ν → List (Place ν)
  | var x => [.var scope x]
  | app t s => t.places scope ++ s.places scope
  | lam x t => .lam scope x :: t.places (x :: scope)

theorem places_map (f : ν → μ) (t : Term ν) (scope : List ν) :
    (t.map f).places (scope.map f) = (t.places scope).map (Place.map f) := by
  induction t generalizing scope with
  | var x => rfl
  | app t s iht ihs => rw [map, places, places, iht, ihs, List.map_append]
  | lam x t ih => rw [map, places, places, List.map_cons, ← ih (x :: scope)]; rfl

theorem parameters_map (f : ν → μ) (t : Term ν) :
    (t.map f).parameters = t.parameters.map f := by
  induction t with
  | var x => rfl
  | app t s iht ihs => rw [map, parameters, parameters, iht, ihs, List.map_append]
  | lam x t ih => rw [map, parameters, parameters, ih, List.map_cons]

theorem countP_isLam_places (t : Term ν) (scope : List ν) :
    (t.places scope).countP Place.isLam = t.parameters.length := by
  induction t generalizing scope with
  | var x => rfl
  | app t s iht ihs => rw [places, List.countP_append, iht, ihs, parameters, List.length_append]
  | lam x t ih =>
    rw [places, List.countP_cons_of_pos (show Place.isLam (.lam scope x) = true from rfl), ih]
    rfl

/-- A variable is free, and no parameter around the term either, if it stands somewhere below
parameters that are all different from it. -/
theorem exists_place_iff {t : Term ν} {scope : List ν} {x : ν} :
    (∃ inner, .var inner x ∈ t.places scope ∧ x ∉ inner) ↔ t.IsFree x ∧ x ∉ scope := by
  induction t generalizing scope with
  | var y =>
    simp only [places, List.mem_singleton, Place.var.injEq, IsFree]
    constructor
    · rintro ⟨inner, ⟨rfl, rfl⟩, hx⟩
      exact ⟨rfl, hx⟩
    · rintro ⟨rfl, hx⟩
      exact ⟨scope, ⟨rfl, rfl⟩, hx⟩
  | app t s iht ihs =>
    simp only [places, List.mem_append, or_and_right, exists_or, IsFree, iht, ihs]
  | lam y t ih =>
    simp only [places, List.mem_cons, reduceCtorEq, false_or, ih, IsFree, not_or]
    constructor
    · rintro ⟨hx, hne, hscope⟩
      exact ⟨⟨hne, hx⟩, hscope⟩
    · rintro ⟨⟨hne, hx⟩, hscope⟩
      exact ⟨hx, hne, hscope⟩

theorem isFree_iff_exists_place {t : Term ν} {x : ν} :
    t.IsFree x ↔ ∃ scope, .var scope x ∈ t.places [] ∧ x ∉ scope := by
  rw [exists_place_iff]
  simp

end Term

end UntypedLambda
