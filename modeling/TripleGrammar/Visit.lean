/-!
# Visits that may stop early

A visitor is shown items one after the other. It hands on a state, and after each item it says
whether it wants to see the next.
-/

namespace TripleGrammar

universe u v w

variable {α : Type u} {β : Type v} {σ : Type w}

/-- Shows the items to `visit` from left to right until it answers `done`. The outcome is `done`
exactly if the visitor stopped. -/
def visitEach (visit : α → σ → ForInStep σ) : List α → σ → ForInStep σ
  | [], s => .yield s
  | a :: l, s =>
    match visit a s with
    | .done s => .done s
    | .yield s => visitEach visit l s

/-- The part of the list that the visitor gets to see: everything up to the item at which it stops,
that item included. -/
def visited (visit : α → σ → ForInStep σ) : List α → σ → List α
  | [], _ => []
  | a :: l, s =>
    match visit a s with
    | .done _ => [a]
    | .yield s => a :: visited visit l s

@[simp] theorem visitEach_nil (visit : α → σ → ForInStep σ) (s : σ) :
    visitEach visit [] s = .yield s := rfl

theorem visitEach_append (visit : α → σ → ForInStep σ) (l₁ l₂ : List α) (s : σ) :
    visitEach visit (l₁ ++ l₂) s =
      match visitEach visit l₁ s with
      | .done s => .done s
      | .yield s => visitEach visit l₂ s := by
  induction l₁ generalizing s with
  | nil => rfl
  | cons a l ih =>
    simp only [List.cons_append, visitEach]
    split <;> simp [*]

theorem visitEach_map (visit : β → σ → ForInStep σ) (f : α → β) (l : List α) (s : σ) :
    visitEach visit (l.map f) s = visitEach (fun a => visit (f a)) l s := by
  induction l generalizing s with
  | nil => rfl
  | cons a l ih =>
    simp only [List.map_cons, visitEach]
    split <;> simp [*]

/-- Visiting a list of lists piece by piece is visiting them joined. -/
theorem visitEach_flatMap (visit : β → σ → ForInStep σ) (f : α → List β) (l : List α) (s : σ) :
    visitEach visit (l.flatMap f) s = visitEach (fun a => visitEach visit (f a)) l s := by
  induction l generalizing s with
  | nil => rfl
  | cons a l ih =>
    simp only [List.flatMap_cons, visitEach_append, visitEach]
    split <;> simp [*]

/-- Items that the visitor would pass over can as well be left out beforehand. -/
theorem visitEach_filter (visit : α → σ → ForInStep σ) (p : α → Bool) (l : List α) (s : σ) :
    visitEach visit (l.filter p) s =
      visitEach (fun a s => if p a then visit a s else .yield s) l s := by
  induction l generalizing s with
  | nil => rfl
  | cons a l ih =>
    by_cases h : p a <;> simp only [List.filter_cons, h, visitEach, if_true, ite_false,
      Bool.false_eq_true] <;> simp only [ih]

end TripleGrammar
