import Mathlib.Data.List.Forall2

/-!
Two lists related item by item, and the partial maps that give such a pair.
-/

namespace PairedLists

open List List Option

variable {α β γ : Type*} {R : α → β → Prop} {S : β → γ → Prop} {T : α → γ → Prop}

variable {xs : List α} {ys : List β}

theorem left (h : Forall₂ R xs ys) {a : α} (ha : a ∈ xs) : ∃ b ∈ ys, R a b := by
  induction h with
  | nil => cases ha
  | cons hab _ ih =>
    rcases mem_cons.mp ha with rfl | ha
    · exact ⟨_, mem_cons_self, hab⟩
    obtain ⟨b, hb, hr⟩ := ih ha
    exact ⟨b, mem_cons_of_mem _ hb, hr⟩

theorem right (h : Forall₂ R xs ys) {b : β} (hb : b ∈ ys) : ∃ a ∈ xs, R a b := by
  obtain ⟨a, ha, hr⟩ := left h.flip hb
  exact ⟨a, ha, hr⟩

theorem comp (hcomp : ∀ a b c, R a b → S b c → T a c) {zs : List γ}
    (hxy : Forall₂ R xs ys) (hyz : Forall₂ S ys zs) : Forall₂ T xs zs := by
  induction hxy generalizing zs with
  | nil =>
    cases hyz
    exact .nil
  | cons hab _ ih =>
    cases hyz with
    | cons hbc hrest => exact .cons (hcomp _ _ _ hab hbc) (ih hrest)

theorem pairwise {P : α → α → Prop} {Q : β → β → Prop} (h : Forall₂ R xs ys)
    (hkeeps : ∀ a b a' b', R a b → R a' b' → (P a a' ↔ Q b b')) : xs.Pairwise P ↔ ys.Pairwise Q := by
  induction h with
  | nil => simp
  | cons hab hrest ih =>
    rw [pairwise_cons, pairwise_cons, ih]
    apply and_congr_left
    intro _
    constructor
    · intro hall b' hb'
      obtain ⟨a', ha', hr⟩ := right hrest hb'
      exact (hkeeps _ _ _ _ hab hr).mp (hall a' ha')
    intro hall a' ha'
    obtain ⟨b', hb', hr⟩ := left hrest ha'
    exact (hkeeps _ _ _ _ hab hr).mpr (hall b' hb')

section Map

variable {α β : Type} {f : α → Option β}

theorem of_mapM {xs : List α} {ys : List β} (h : xs.mapM f = some ys) :
    Forall₂ (fun a b => f a = some b) xs ys := by
  induction xs generalizing ys with
  | nil =>
    cases h
    exact .nil
  | cons a rest ih =>
    rw [mapM_cons] at h
    obtain ⟨b, hb, h⟩ := bind_eq_some_iff.mp h
    obtain ⟨bs, hbs, h⟩ := bind_eq_some_iff.mp h
    cases h
    exact .cons hb (ih hbs)

theorem mapM_defined {xs : List α} : (∃ ys, xs.mapM f = some ys) ↔ ∀ a ∈ xs, ∃ b, f a = some b := by
  constructor
  · rintro ⟨ys, h⟩ a ha
    obtain ⟨b, -, hb⟩ := left (of_mapM h) ha
    exact ⟨b, hb⟩
  intro h
  induction xs with
  | nil => exact ⟨[], rfl⟩
  | cons a rest ih =>
    obtain ⟨b, hb⟩ := h a mem_cons_self
    obtain ⟨bs, hbs⟩ := ih fun other hother => h other (mem_cons_of_mem _ hother)
    refine ⟨b :: bs, ?_⟩
    rw [mapM_cons, hb, hbs]
    rfl

theorem mapM_agree {g : α → Option β} {xs : List α} (h : ∀ a ∈ xs, f a = g a) : xs.mapM f = xs.mapM g := by
  induction xs with
  | nil => rfl
  | cons a rest ih =>
    have hrest := ih fun other hother => h other (mem_cons_of_mem _ hother)
    rw [mapM_cons, mapM_cons, h a mem_cons_self, hrest]

end Map

end PairedLists
