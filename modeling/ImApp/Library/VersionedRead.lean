import Mathlib.Data.Nat.Basic
import Mathlib.Order.Basic

/-!
Optimistic updates. Every change of what a reader relies on raises a version, so
a reader that finds the version unchanged may still rely on what it read.
-/

namespace VersionedRead

variable {δ β : Type*} {version : δ → ℕ} {view : δ → β}

variable (version view) in
/-- `after` was reached from `before`: at the same version nothing in view has
changed. -/
def Follows (before after : δ) : Prop :=
  version before < version after ∨ version before = version after ∧ view before = view after

theorem Follows.refl (a : δ) : Follows version view a a := .inr ⟨rfl, rfl⟩

theorem Follows.raise {a b : δ} (h : version a < version b) : Follows version view a b :=
  .inl h

theorem Follows.trans {a b c : δ} (first : Follows version view a b)
    (second : Follows version view b c) : Follows version view a c := by
  rcases first with hab | ⟨hab, hview⟩
  · rcases second with hbc | ⟨hbc, _⟩
    · exact .inl (hab.trans hbc)
    exact .inl (hbc ▸ hab)
  rcases second with hbc | ⟨hbc, hview'⟩
  · exact .inl (hab ▸ hbc)
  exact .inr ⟨hab.trans hbc, hview.trans hview'⟩

theorem Follows.view_eq {a b : δ} (h : Follows version view a b)
    (hver : version a = version b) : view a = view b := by
  rcases h with hlt | ⟨_, hview⟩
  · exact absurd hver hlt.ne
  exact hview

end VersionedRead
