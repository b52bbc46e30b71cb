import Mathlib.Data.List.Forall2

/-!
# Lists side by side

Much of what is read is a list that is read item by item, and much of what is compared is compared
so. `List.Forall₂` says that two lists have the same length and related members; here is what it has
to do with look-ups that all succeed, with members one by one, and with members all alike.
-/

namespace StackLexer.Lists

variable {α β : Type} {R : α → β → Prop}

/-- Related to something each, the members of a list are related to some list. -/
theorem exists_forall₂_iff {l : List α} :
    (∃ u, List.Forall₂ R l u) ↔ ∀ a ∈ l, ∃ b, R a b := by
  induction l with
  | nil => simp
  | cons a l ih =>
    rw [List.forall_mem_cons, ← ih]
    simp only [List.forall₂_cons_left_iff]
    constructor
    · rintro ⟨_, b, u, hb, hu, -⟩
      exact ⟨⟨b, hb⟩, u, hu⟩
    · rintro ⟨⟨b, hb⟩, u, hu⟩
      exact ⟨b :: u, b, u, hb, hu, rfl⟩

/-- What every relative has is had by all of them. -/
theorem forall_of_forall₂ {P : β → Prop} {l : List α} {u : List β}
    (h : List.Forall₂ R l u) (hR : ∀ a b, R a b → P b) : ∀ b ∈ u, P b := by
  induction h with
  | nil => exact fun b hb => absurd hb List.not_mem_nil
  | cons hfirst _ ih => exact List.forall_mem_cons.2 ⟨hR _ _ hfirst, ih⟩

/-- A member and its relative, over and over. -/
theorem forall₂_replicate {a : α} {b : β} (h : R a b) (n : Nat) :
    List.Forall₂ R (List.replicate n a) (List.replicate n b) := by
  induction n with
  | zero => exact .nil
  | succ n ih => exact .cons h ih

/-- Look-ups made one after the other all succeed exactly when each of them does. -/
theorem mapM_eq_some_iff {f : α → Option β} {l : List α} {out : List β} :
    l.mapM f = some out ↔ List.Forall₂ (fun a b => f a = some b) l out := by
  induction l generalizing out with
  | nil => simp [eq_comm]
  | cons a l ih =>
    rw [List.mapM_cons, List.forall₂_cons_left_iff]
    simp only [Option.bind_eq_bind, Option.bind_eq_some_iff, Option.pure_def, Option.some.injEq, ih]
    grind

end StackLexer.Lists
