import Mathlib.Data.List.Nodup
import Mathlib.Logic.Relation

/-!
Forests that are stored as nodes with the id of their parent. The nodes below a
root are found by a search that visits every node once, whether or not the parents
form a forest. A node may be added below any node, moved below any node that is
not in its own subtree, and removed with everything below it.
-/

namespace ParentForest

open Relation List

structure Node (α : Type*) where
  id : α
  parent : Option α

variable {α : Type*}

def ids (nodes : List (Node α)) : List α := nodes.map Node.id

/-- `a` is a child of `b`. -/
def Child (nodes : List (Node α)) (a b : α) : Prop := ∃ n ∈ nodes, n.id = a ∧ n.parent = some b

structure IsForest (nodes : List (Node α)) : Prop where
  unique : (ids nodes).Nodup
  rooted : ∀ n ∈ nodes, ∀ p, n.parent = some p → p ∈ ids nodes
  acyclic : ∀ a, ¬ TransGen (Child nodes) a a

section Subtree

variable [DecidableEq α] (nodes : List (Node α))

def childrenOf (p : α) : List α := (nodes.filter fun n => n.parent = some p).map Node.id

/-- Visits the nodes that wait and then the children of each new one. -/
def visit : ℕ → List α → List α → List α
  | 0, visited, _ => visited
  | _ + 1, visited, [] => visited
  | fuel + 1, visited, p :: rest => if p ∈ visited then visit fuel visited rest
    else visit fuel (visited ++ [p]) (childrenOf nodes p ++ rest)

def subtree (root : α) : List α := visit nodes (nodes.length + 1) [] [root]

/-- The nodes whose parent has not been visited. -/
def unseen (visited : List α) : ℕ :=
  nodes.countP fun n => n.parent.any fun p => p ∉ visited

variable {nodes}

theorem mem_childrenOf {a p : α} : a ∈ childrenOf nodes p ↔ Child nodes a p := by
  simp only [childrenOf, mem_map, mem_filter, decide_eq_true_eq, Child]
  constructor
  · rintro ⟨n, ⟨hn, hpar⟩, hid⟩
    exact ⟨n, hn, hid, hpar⟩
  rintro ⟨n, hn, hid, hpar⟩
  exact ⟨n, ⟨hn, hpar⟩, hid⟩

theorem unseen_append (nodes : List (Node α)) {visited : List α} {p : α} (hp : p ∉ visited) :
    (childrenOf nodes p).length + unseen nodes (visited ++ [p]) = unseen nodes visited := by
  unfold childrenOf unseen
  rw [length_map]
  induction nodes with
  | nil => rfl
  | cons n rest ih =>
    simp only [countP_cons, filter_cons]
    cases hpar : n.parent with
    | none => simpa using ih
    | some q =>
      by_cases hq : q = p
      · subst hq
        simp [hp] at ih ⊢
        omega
      by_cases hvisited : q ∈ visited <;>
      · simp [hq, hvisited] at ih ⊢
        omega

theorem visit_closed (nodes : List (Node α)) (fuel : ℕ) (visited waiting : List α)
    (hfuel : waiting.length + unseen nodes visited ≤ fuel)
    (hclosed : ∀ a b, Child nodes a b → b ∈ visited → a ∈ visited ∨ a ∈ waiting) :
    (∀ a ∈ visited, a ∈ visit nodes fuel visited waiting) ∧
      (∀ a ∈ waiting, a ∈ visit nodes fuel visited waiting) ∧
      ∀ a b, Child nodes a b → b ∈ visit nodes fuel visited waiting →
        a ∈ visit nodes fuel visited waiting := by
  induction fuel generalizing visited waiting with
  | zero =>
    obtain rfl : waiting = [] := length_eq_zero_iff.mp (by omega)
    refine ⟨fun a ha => ha, by simp, ?_⟩
    intro a b hchild hb
    exact (hclosed a b hchild hb).resolve_right (by simp)
  | succ fuel ih =>
    cases waiting with
    | nil =>
      refine ⟨fun a ha => ha, by simp, ?_⟩
      intro a b hchild hb
      exact (hclosed a b hchild hb).resolve_right (by simp)
    | cons p rest =>
      rw [length_cons] at hfuel
      rw [visit]
      split
      case isTrue hvisited =>
        obtain ⟨hkept, hwait, hdown⟩ := ih visited rest (by omega) (by
            intro a b hchild hb
            rcases hclosed a b hchild hb with h | h
            · exact .inl h
            rcases mem_cons.mp h with rfl | h
            · exact .inl hvisited
            exact .inr h)
        refine ⟨hkept, ?_, hdown⟩
        intro a ha
        rcases mem_cons.mp ha with rfl | ha
        · exact hkept a hvisited
        exact hwait a ha
      case isFalse hnew =>
        have hmeasure := unseen_append nodes hnew
        obtain ⟨hkept, hwait, hdown⟩ := ih (visited ++ [p]) (childrenOf nodes p ++ rest)
          (by rw [length_append]; omega) (by
            intro a b hchild hb
            rcases mem_append.mp hb with hb | hb
            · rcases hclosed a b hchild hb with h | h
              · exact .inl (mem_append_left _ h)
              rcases mem_cons.mp h with rfl | h
              · exact .inl (mem_append_right _ (mem_singleton_self a))
              exact .inr (mem_append_right _ h)
            rw [mem_singleton.mp hb] at hchild
            exact .inr (mem_append_left _ (mem_childrenOf.mpr hchild)))
        refine ⟨fun a ha => hkept a (mem_append_left _ ha), ?_, hdown⟩
        intro a ha
        rcases mem_cons.mp ha with rfl | ha
        · exact hkept a (mem_append_right _ (mem_singleton_self a))
        exact hwait a (mem_append_right _ ha)

theorem visit_sound {p : α → Prop} (hdown : ∀ a b, Child nodes a b → p b → p a) {fuel : ℕ}
    {visited waiting : List α} (hvisited : ∀ a ∈ visited, p a) (hwait : ∀ a ∈ waiting, p a) :
    ∀ a ∈ visit nodes fuel visited waiting, p a := by
  induction fuel generalizing visited waiting with
  | zero => exact hvisited
  | succ fuel ih =>
    cases waiting with
    | nil => exact hvisited
    | cons q rest =>
      have hq := hwait q mem_cons_self
      have hrest : ∀ a ∈ rest, p a := fun a ha => hwait a (mem_cons_of_mem _ ha)
      rw [visit]
      split
      · exact ih hvisited hrest
      apply ih
      · intro a ha
        rcases mem_append.mp ha with ha | ha
        · exact hvisited a ha
        exact mem_singleton.mp ha ▸ hq
      intro a ha
      rcases mem_append.mp ha with ha | ha
      · exact hdown a q (mem_childrenOf.mp ha) hq
      exact hrest a ha

theorem mem_subtree_iff {a root : α} :
    a ∈ subtree nodes root ↔ ReflTransGen (Child nodes) a root := by
  have hunseen : unseen nodes [] ≤ nodes.length := countP_le_length
  obtain ⟨-, hroot, hdown⟩ := visit_closed nodes (nodes.length + 1) [] [root]
    (by simp only [length_singleton]; omega) (by simp)
  constructor
  · intro ha
    refine visit_sound (p := fun a => ReflTransGen (Child nodes) a root) ?_ (by simp) ?_ a ha
    · intro b c hchild hc
      exact ReflTransGen.head hchild hc
    intro b hb
    rw [mem_singleton.mp hb]
  intro hpath
  induction hpath using ReflTransGen.head_induction_on with
  | refl => exact hroot root (mem_singleton_self root)
  | head hchild _ ih => exact hdown _ _ hchild ih

end Subtree

section Changes

variable {nodes : List (Node α)}

variable {a b x : α}

theorem IsForest.parent_mem (h : IsForest nodes) (hchild : Child nodes a b) : b ∈ ids nodes := by
  obtain ⟨n, hn, -, hpar⟩ := hchild
  exact h.rooted n hn b hpar

theorem isForest_nil : IsForest ([] : List (Node α)) where
  unique := nodup_nil
  rooted := by simp
  acyclic := by
    intro a hcycle
    obtain ⟨b, ⟨n, hn, -⟩, -⟩ := TransGen.head'_iff.mp hcycle
    cases hn

theorem IsForest.insert (h : IsForest nodes) {n : Node α} (hnew : n.id ∉ ids nodes)
    (hpar : ∀ p, n.parent = some p → p ∈ ids nodes) : IsForest (nodes ++ [n]) := by
  have hids : ids (nodes ++ [n]) = ids nodes ++ [n.id] := by simp [ids]
  have htgt : ∀ a b, Child (nodes ++ [n]) a b → b ∈ ids nodes := by
    rintro a b ⟨m, hm, -, hb⟩
    rcases mem_append.mp hm with hm | hm
    · exact h.rooted m hm b hb
    exact hpar b (mem_singleton.mp hm ▸ hb)
  have hold : ∀ a b, a ∈ ids nodes → Child (nodes ++ [n]) a b → Child nodes a b := by
    rintro a b ha ⟨m, hm, hid, hb⟩
    rcases mem_append.mp hm with hm | hm
    · exact ⟨m, hm, hid, hb⟩
    rw [mem_singleton.mp hm] at hid
    exact absurd (hid ▸ ha) hnew
  have hpath : ∀ a b, a ∈ ids nodes → TransGen (Child (nodes ++ [n])) a b →
      TransGen (Child nodes) a b := by
    intro a b ha hpath
    induction hpath with
    | single hchild => exact .single (hold _ _ ha hchild)
    | tail hpre hchild ih =>
      obtain ⟨c, -, hlast⟩ := TransGen.tail'_iff.mp hpre
      exact ih.tail (hold _ _ (htgt _ _ hlast) hchild)
  constructor
  · rw [hids, nodup_append]
    refine ⟨h.unique, nodup_singleton _, ?_⟩
    rintro a ha b hb rfl
    exact hnew (mem_singleton.mp hb ▸ ha)
  · intro m hm p hp
    rw [hids]
    exact mem_append_left _ (htgt m.id p ⟨m, hm, rfl, hp⟩)
  intro a hcycle
  obtain ⟨c, -, hlast⟩ := TransGen.tail'_iff.mp hcycle
  exact h.acyclic a (hpath a a (htgt _ _ hlast) hcycle)

/-- What is left without a set of nodes that has the children of its members. -/
theorem IsForest.prune (h : IsForest nodes) {keep : Node α → Bool}
    (hdown : ∀ n ∈ nodes, keep n = true → ∀ p, n.parent = some p →
      p ∈ ids (nodes.filter keep)) : IsForest (nodes.filter keep) where
  unique := h.unique.sublist (filter_sublist.map _)
  rooted := by
    intro n hn
    obtain ⟨hmem, hkeep⟩ := mem_filter.mp hn
    exact hdown n hmem hkeep
  acyclic := by
    intro a hcycle
    have hold : ∀ b c, Child (nodes.filter keep) b c → Child nodes b c := by
      rintro b c ⟨n, hn, hid, hpar⟩
      exact ⟨n, (mem_filter.mp hn).1, hid, hpar⟩
    exact h.acyclic a (TransGen.lift id hold _ _ hcycle)

variable [DecidableEq α]

def setParent (nodes : List (Node α)) (x : α) (parent : Option α) : List (Node α) :=
  nodes.map fun n => if n.id = x then { n with parent := parent } else n

theorem ids_setParent (x : α) (parent : Option α) : ids (setParent nodes x parent) = ids nodes := by
  unfold ids setParent
  rw [List.map_map]
  apply map_congr_left
  intro n _
  simp only [Function.comp_apply]
  split <;> rfl

theorem setParent_of_notMem (parent : Option α) (hx : x ∉ ids nodes) :
    setParent nodes x parent = nodes := by
  have hsame : ∀ n ∈ nodes, (if n.id = x then { n with parent := parent } else n) = id n := by
    intro n hn
    rw [if_neg]
    · rfl
    rintro rfl
    exact hx (mem_map_of_mem hn)
  rw [setParent, map_congr_left hsame, map_id]

variable {parent : Option α}

theorem child_setParent : Child (setParent nodes x parent) a b ↔
      a ≠ x ∧ Child nodes a b ∨ a = x ∧ x ∈ ids nodes ∧ parent = some b := by
  unfold Child setParent ids
  simp only [mem_map]
  constructor
  · rintro ⟨_, ⟨n, hn, rfl⟩, hid, hb⟩
    by_cases hx : n.id = x
    · simp only [hx, if_true] at hid hb
      exact .inr ⟨hid.symm, ⟨n, hn, hx⟩, hb⟩
    simp only [hx, if_false] at hid hb
    exact .inl ⟨hid ▸ hx, n, hn, hid, hb⟩
  rintro (⟨hne, n, hn, hid, hb⟩ | ⟨rfl, ⟨n, hn, hid⟩, hb⟩)
  · refine ⟨_, ⟨n, hn, rfl⟩, ?_⟩
    rw [if_neg (fun h => hne (hid.symm.trans h))]
    exact ⟨hid, hb⟩
  refine ⟨_, ⟨n, hn, rfl⟩, ?_⟩
  rw [if_pos hid]
  exact ⟨hid, hb⟩

/-- Paths after a move below `target`: old ones, and those through the new edge. -/
theorem path_setParent {target : α} (hapart : ¬ ReflTransGen (Child nodes) target x)
    (hpath : TransGen (Child (setParent nodes x (some target))) a b) : TransGen (Child nodes) a b ∨
      ReflTransGen (Child nodes) a x ∧ ReflTransGen (Child nodes) target b := by
  induction hpath with
  | single hchild =>
    rcases child_setParent.mp hchild with ⟨-, hold⟩ | ⟨rfl, -, htgt⟩
    · exact .inl (.single hold)
    rw [Option.some.inj htgt]
    exact .inr ⟨.refl, .refl⟩
  | tail _ hchild ih =>
    rcases child_setParent.mp hchild with ⟨-, hold⟩ | ⟨rfl, -, htgt⟩
    · rcases ih with hpre | ⟨hup, hdown⟩
      · exact .inl (hpre.tail hold)
      exact .inr ⟨hup, hdown.tail hold⟩
    rcases ih with hpre | ⟨-, hdown⟩
    · rw [Option.some.inj htgt]
      exact .inr ⟨hpre.to_reflTransGen, .refl⟩
    exact absurd hdown hapart

theorem IsForest.move (h : IsForest nodes)
    (hpar : ∀ p, parent = some p → p ∈ ids nodes ∧ p ∉ subtree nodes x) :
    IsForest (setParent nodes x parent) := by
  constructor
  · rw [ids_setParent]
    exact h.unique
  · intro n hn p hp
    rw [ids_setParent]
    rcases child_setParent.mp ⟨n, hn, rfl, hp⟩ with ⟨-, hold⟩ | ⟨-, -, hnew⟩
    · exact h.parent_mem hold
    exact (hpar p hnew).1
  intro a hcycle
  cases parent with
  | none =>
    have hold : ∀ b c, Child (setParent nodes x none) b c → Child nodes b c := by
      intro b c hchild
      rcases child_setParent.mp hchild with ⟨-, hold⟩ | ⟨-, -, hnew⟩
      · exact hold
      cases hnew
    exact h.acyclic a (TransGen.lift id hold _ _ hcycle)
  | some target =>
    have hapart : ¬ ReflTransGen (Child nodes) target x := by
      rw [← mem_subtree_iff]
      exact (hpar target rfl).2
    rcases path_setParent hapart hcycle with hold | ⟨hup, hdown⟩
    · exact h.acyclic a hold
    exact hapart (hdown.trans hup)

theorem path_below (hpath : ReflTransGen (Child nodes) a x) :
    ReflTransGen (Child (setParent nodes x parent)) a x := by
  induction hpath using ReflTransGen.head_induction_on with
  | refl => exact .refl
  | @head b c hchild _ ih =>
    by_cases hb : b = x
    · rw [hb]
    exact ReflTransGen.head (child_setParent.mpr (.inl ⟨hb, hchild⟩)) ih

theorem not_acyclic_move {target : α} (hx : x ∈ ids nodes) (htgt : target ∈ subtree nodes x) :
    TransGen (Child (setParent nodes x (some target))) x x := by
  have hedge : Child (setParent nodes x (some target)) x target :=
    child_setParent.mpr (.inr ⟨rfl, hx, rfl⟩)
  exact TransGen.head' hedge (path_below (mem_subtree_iff.mp htgt))

end Changes

end ParentForest
