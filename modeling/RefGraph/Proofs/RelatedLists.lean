import Mathlib.Data.List.Forall2

/-!
# Lists in relation

Two lists whose elements are in relation, one by one, and what can be computed from them.

* `rel_head?`, `rel_find?`: the first elements, and those that are found first, are in relation.
* `forall₂_flatMap`: so are the lists that are put together from parts in relation.
* `countP_eq_of_forall₂`, `any_eq_of_forall₂`: as many elements have a property, and either both
  lists have one or none has.
* `map_eq_of_forall₂`, `filterMap_eq_of_forall₂`, `flatMap_eq_of_forall₂`: what is computed from
  elements in relation is the same.
-/

namespace RefGraph

variable {α β γ δ : Type} {R : α → β → Prop} {P : γ → δ → Prop} {xs : List α} {ys : List β}

/-- Lists that are made from each item are related if they are for related items. -/
theorem forall₂_flatMap (h : List.Forall₂ R xs ys) {f : α → List γ} {g : β → List δ}
    (hfg : ∀ x ∈ xs, ∀ y ∈ ys, R x y → List.Forall₂ P (f x) (g y)) :
    List.Forall₂ P (xs.flatMap f) (ys.flatMap g) := by
  induction h with
  | nil => exact .nil
  | @cons x y xs ys hxy _ ih =>
    rw [List.flatMap_cons, List.flatMap_cons]
    refine List.rel_append (hfg x List.mem_cons_self y List.mem_cons_self hxy) (ih ?_)
    exact fun x hx y hy =>
      hfg x (List.mem_cons_of_mem _ hx) y (List.mem_cons_of_mem _ hy)

/-- The first items of related lists are related. -/
theorem rel_head? (h : List.Forall₂ R xs ys) : Option.Rel R xs.head? ys.head? := by
  cases h with
  | nil => exact .none
  | cons hxy _ => exact .some hxy

/-- The first items with a property that related items share are related. -/
theorem rel_find? (h : List.Forall₂ R xs ys) {p : α → Bool} {q : β → Bool}
    (hpq : ∀ x y, R x y → p x = q y) : Option.Rel R (xs.find? p) (ys.find? q) := by
  induction h with
  | nil => exact .none
  | @cons x y xs ys hxy _ ih =>
    rw [List.find?_cons, List.find?_cons, ← hpq x y hxy]
    cases p x with
    | true => exact .some hxy
    | false => exact ih

/-- Related items are taken to related ones. -/
theorem rel_optionMap {x : Option α} {y : Option β} (h : Option.Rel R x y) {f : α → γ} {g : β → δ}
    (hfg : ∀ a b, R a b → P (f a) (g b)) : Option.Rel P (x.map f) (y.map g) := by
  cases h with
  | none => exact .none
  | some hab => exact .some (hfg _ _ hab)

/-- Related lists have as many items with a property that related items share. -/
theorem countP_eq_of_forall₂ (h : List.Forall₂ R xs ys) {p : α → Bool} {q : β → Bool}
    (hpq : ∀ x y, R x y → p x = q y) : xs.countP p = ys.countP q := by
  induction h with
  | nil => rfl
  | @cons x y xs ys hxy _ ih => rw [List.countP_cons, List.countP_cons, ih, hpq x y hxy]

/-- Related lists are taken to the same list by functions that agree on related items. -/
theorem map_eq_of_forall₂ (h : List.Forall₂ R xs ys) {f : α → γ} {g : β → γ}
    (hfg : ∀ x ∈ xs, ∀ y ∈ ys, R x y → f x = g y) : xs.map f = ys.map g := by
  induction h with
  | nil => rfl
  | @cons x y xs ys hxy _ ih =>
    rw [List.map_cons, List.map_cons, hfg x List.mem_cons_self y List.mem_cons_self hxy, ih]
    exact fun x hx y hy =>
      hfg x (List.mem_cons_of_mem _ hx) y (List.mem_cons_of_mem _ hy)

/-- Of related lists both have an item with a property that related items share, or neither has. -/
theorem any_eq_of_forall₂ (h : List.Forall₂ R xs ys) {p : α → Bool} {q : β → Bool}
    (hpq : ∀ x y, R x y → p x = q y) : xs.any p = ys.any q := by
  induction h with
  | nil => rfl
  | @cons x y xs ys hxy _ ih => rw [List.any_cons, List.any_cons, ih, hpq x y hxy]

/-- Related lists leave the same items where functions agree on related items. -/
theorem filterMap_eq_of_forall₂ (h : List.Forall₂ R xs ys) {f : α → Option γ} {g : β → Option γ}
    (hfg : ∀ x y, R x y → f x = g y) : xs.filterMap f = ys.filterMap g := by
  induction h with
  | nil => rfl
  | @cons x y xs ys hxy _ ih =>
    rw [List.filterMap_cons, List.filterMap_cons, ih, hfg x y hxy]

/-- Related lists give the same items where functions agree on related items. -/
theorem flatMap_eq_of_forall₂ (h : List.Forall₂ R xs ys) {f : α → List γ} {g : β → List γ}
    (hfg : ∀ x ∈ xs, ∀ y ∈ ys, R x y → f x = g y) : xs.flatMap f = ys.flatMap g := by
  rw [List.flatMap_def, List.flatMap_def, map_eq_of_forall₂ h hfg]

end RefGraph
