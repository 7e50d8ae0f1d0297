import Mathlib.Tactic.TypeStar

/-!
An item whose content is replaced once, by a copy that took time to make. The copy
is installed under the condition that the content is still the one it was made of,
so of several copies one is installed, and the others find the item archived.
-/

namespace ArchivedItem

variable {β γ : Type*}

structure Item (β γ : Type*) where
  base : β
  content : γ
  archived : Bool

def Item.sealed (item : Item β γ) (content : γ) : Item β γ :=
  { item with content, archived := true }

/-- The conditional update: no result where it matches nothing. -/
def Item.archive [DecidableEq γ] (item : Item β γ) (previous content : γ) : Option (Item β γ) :=
  if item.content = previous ∧ item.archived = false then some (item.sealed content) else none

/-- What may become of a stored item. -/
def Item.Advances (a b : Item β γ) : Prop :=
  b = a ∨ (a.archived = false ∧ ∃ content, b = a.sealed content)

variable {a b c : Item β γ}

@[simp] theorem Item.sealed_base (content : γ) : (a.sealed content).base = a.base := rfl

@[simp] theorem Item.sealed_archived (content : γ) : (a.sealed content).archived = true := rfl

theorem Item.Advances.refl (a : Item β γ) : a.Advances a := .inl rfl

theorem Item.Advances.trans (hab : a.Advances b) (hbc : b.Advances c) : a.Advances c := by
  rcases hab with rfl | ⟨hopen, content, rfl⟩
  · exact hbc
  rcases hbc with rfl | ⟨hsealed, _⟩
  · exact .inr ⟨hopen, content, rfl⟩
  cases hsealed

theorem Item.Advances.base (h : a.Advances b) : b.base = a.base := by
  rcases h with rfl | ⟨_, content, rfl⟩ <;> rfl

theorem Item.archive_eq_some [DecidableEq γ] {previous content : γ}
    (h : a.archive previous content = some b) :
    a.content = previous ∧ a.archived = false ∧ b = a.sealed content := by
  unfold Item.archive at h
  split at h
  · rename_i hmatch
    exact ⟨hmatch.1, hmatch.2, (Option.some.inj h).symm⟩
  cases h

theorem Item.archive_advances [DecidableEq γ] {previous content : γ}
    (h : a.archive previous content = some b) : a.Advances b := by
  obtain ⟨_, hopen, hsealed⟩ := Item.archive_eq_some h
  exact .inr ⟨hopen, content, hsealed⟩

/-- What may become of a row that may be absent: it appears, or it advances. -/
def RowAdvances (before after : Option (Item β γ)) : Prop :=
  ∀ item, before = some item → ∃ later, after = some later ∧ item.Advances later

theorem RowAdvances.refl (row : Option (Item β γ)) : RowAdvances row row := fun item h =>
  ⟨item, h, Item.Advances.refl item⟩

theorem RowAdvances.trans {a b c : Option (Item β γ)} (hab : RowAdvances a b)
    (hbc : RowAdvances b c) : RowAdvances a c := by
  intro item hitem
  obtain ⟨middle, hmiddle, hfirst⟩ := hab item hitem
  obtain ⟨later, hlater, hsecond⟩ := hbc middle hmiddle
  exact ⟨later, hlater, hfirst.trans hsecond⟩

theorem RowAdvances.of_none (after : Option (Item β γ)) : RowAdvances none after := fun _ h => by
  cases h

end ArchivedItem
