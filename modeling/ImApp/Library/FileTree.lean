import Mathlib.Data.List.Nodup
import Mathlib.Data.List.DropRight

/-!
Trees of named nodes as tables from paths to nodes, with the node kinds left open: some
are directories. In a well-formed tree everything but the root lies in a directory, so
there is nothing below a node that is none.
-/

namespace FileTree

open List Option Function

variable {Name Node : Type*} [DecidableEq Name]

abbrev Path (Name : Type*) := List Name

abbrev Tree (Name Node : Type*) := List (Path Name × Node)

def lookup (tree : Tree Name Node) (path : Path Name) : Option Node :=
  (tree.find? fun entry => entry.1 = path).map Prod.snd

def put (tree : Tree Name Node) (path : Path Name) (node : Node) : Tree Name Node :=
  if (lookup tree path).isSome then
    tree.map fun entry => if entry.1 = path then (path, node) else entry
  else tree ++ [(path, node)]

def remove (tree : Tree Name Node) (path : Path Name) : Tree Name Node :=
  tree.filter fun entry => entry.1 ≠ path

/-- The name under which `path` lies directly in `directory`. -/
def childName (directory path : Path Name) : Option Name :=
  if path.dropLast = directory then path.getLast? else none

def names (tree : Tree Name Node) (directory : Path Name) : List Name :=
  tree.filterMap fun entry => childName directory entry.1

variable {tree : Tree Name Node} {path other directory : Path Name} {node : Node} {name : Name}

@[simp] theorem lookup_put_self : lookup (put tree path node) path = some node := by
  unfold put
  split
  case isTrue h =>
    induction tree with
    | nil => simp [lookup] at h
    | cons entry tree ih =>
      by_cases hentry : entry.1 = path
      · simp [lookup, hentry]
      simp only [lookup, find?_cons, hentry, decide_false] at h
      have hrest := ih h
      simpa [lookup, hentry] using hrest
  case isFalse h =>
    have hnone : tree.find? (fun entry => entry.1 = path) = none := by
      rw [lookup, isSome_map, not_isSome_iff_eq_none] at h
      exact h
    simp [lookup, find?_append, hnone]

theorem lookup_put_of_ne (h : other ≠ path) :
    lookup (put tree path node) other = lookup tree other := by
  unfold put
  split
  · have hfind : ∀ tree : Tree Name Node,
        (tree.map fun entry => if entry.1 = path then (path, node) else entry).find?
            (fun entry => entry.1 = other) = tree.find? (fun entry => entry.1 = other) := by
      intro tree
      induction tree with
      | nil => rfl
      | cons entry tree ih =>
        by_cases hentry : entry.1 = path
        · simp [hentry, h.symm, ih]
        by_cases hother : entry.1 = other
        · simp [hother, h]
        simp [hentry, hother, ih]
    rw [lookup, hfind]
    rfl
  simp [lookup, find?_append, h.symm]

theorem lookup_remove_self : lookup (remove tree path) path = none := by
  simp [lookup, remove]

theorem lookup_remove_of_ne (h : other ≠ path) :
    lookup (remove tree path) other = lookup tree other := by
  unfold lookup remove
  rw [find?_filter]
  congr 2
  funext entry
  by_cases hentry : entry.1 = other
  · simp [hentry, h]
  simp [hentry]

theorem childName_eq_some : childName directory path = some name ↔ path = directory ++ [name] := by
  unfold childName
  constructor
  · intro h
    split at h
    case isTrue hdrop =>
      obtain ⟨front, rfl⟩ := getLast?_eq_some_iff.mp h
      rw [dropLast_concat] at hdrop
      rw [hdrop]
    case isFalse => cases h
  rintro rfl
  simp

theorem mem_names : name ∈ names tree directory ↔ (lookup tree (directory ++ [name])).isSome := by
  simp only [names, mem_filterMap, childName_eq_some, lookup, isSome_map,
    find?_isSome, decide_eq_true_eq]

theorem names_put_of_ne (h : ∀ name, path ≠ directory ++ [name]) :
    names (put tree path node) directory = names tree directory := by
  have hnone : childName directory path = none := by
    rw [eq_none_iff_forall_ne_some]
    exact fun name hname => h name (childName_eq_some.mp hname)
  unfold put names
  split
  · rw [filterMap_map]
    refine filterMap_congr fun entry _ => ?_
    rw [comp_apply]
    split
    case isTrue hentry => rw [hentry]
    case isFalse => rfl
  simp [hnone]

theorem names_remove_of_ne (h : ∀ name, path ≠ directory ++ [name]) :
    names (remove tree path) directory = names tree directory := by
  unfold names remove
  rw [filterMap_filter]
  refine filterMap_congr fun entry _ => ?_
  by_cases hentry : entry.1 = path
  · have hnone : childName directory path = none := by
      rw [eq_none_iff_forall_ne_some]
      exact fun name hname => h name (childName_eq_some.mp hname)
    simp [hentry, hnone]
  simp [hentry]

structure WellFormed (isDirectory : Node → Bool) (tree : Tree Name Node) : Prop where
  unique : (tree.map Prod.fst).Nodup
  parents : ∀ directory name, (lookup tree (directory ++ [name])).isSome →
    ∃ node, lookup tree directory = some node ∧ isDirectory node = true

variable {isDirectory : Node → Bool}

theorem WellFormed.names_nodup (h : WellFormed isDirectory tree) (directory : Path Name) :
    (names tree directory).Nodup := by
  have hnames : names tree directory = (tree.map Prod.fst).filterMap (childName directory) := by
    rw [names, filterMap_map]
    rfl
  rw [hnames]
  refine h.unique.filterMap fun a b name ha hb => ?_
  rw [childName_eq_some.mp ha, childName_eq_some.mp hb]

theorem WellFormed.nothing_below (h : WellFormed isDirectory tree)
    (hnode : ∀ node, lookup tree path = some node → isDirectory node = false) :
    ∀ rest, rest ≠ [] → lookup tree (path ++ rest) = none := by
  intro rest
  induction rest using List.reverseRecOn with
  | nil => exact fun hne => absurd rfl hne
  | append_singleton rest name ih =>
    intro _
    rw [← not_isSome_iff_eq_none, ← append_assoc]
    intro hsome
    obtain ⟨node, hlook, hdir⟩ := h.parents _ _ hsome
    by_cases hrest : rest = []
    · rw [hrest, append_nil] at hlook
      rw [hnode node hlook] at hdir
      cases hdir
    rw [ih hrest] at hlook
    cases hlook

theorem unique_put (h : (tree.map Prod.fst).Nodup) : ((put tree path node).map Prod.fst).Nodup := by
  unfold put
  split
  · have hkeys : (tree.map fun entry => if entry.1 = path then (path, node) else entry).map Prod.fst =
        tree.map Prod.fst := by
      rw [List.map_map]
      refine map_congr_left fun entry _ => ?_
      rw [comp_apply]
      split
      case isTrue hentry => exact hentry.symm
      case isFalse => rfl
    rw [hkeys]
    exact h
  case isFalse hnone =>
    rw [map_append]
    refine nodup_append.mpr ⟨h, nodup_singleton _, ?_⟩
    rintro a ha b hb rfl
    obtain ⟨entry, hentry, rfl⟩ := List.mem_map.mp ha
    rw [map_singleton, mem_singleton] at hb
    refine hnone ?_
    rw [lookup, isSome_map, find?_isSome]
    exact ⟨entry, hentry, decide_eq_true hb⟩

theorem WellFormed.put (h : WellFormed isDirectory tree)
    (hpar : ∀ directory name, path = directory ++ [name] →
      ∃ node, lookup tree directory = some node ∧ isDirectory node = true)
    (hnode : isDirectory node = true ∨ names tree path = []) :
    WellFormed isDirectory (put tree path node) where
  unique := unique_put h.unique
  parents := by
    intro directory name hsome
    have hdir : ∃ other, lookup tree directory = some other ∧ isDirectory other = true := by
      by_cases hpath : directory ++ [name] = path
      · exact hpar directory name hpath.symm
      rw [lookup_put_of_ne hpath] at hsome
      exact h.parents directory name hsome
    by_cases hself : directory = path
    · subst hself
      refine ⟨node, lookup_put_self, ?_⟩
      rcases hnode with hnode | hnone
      · exact hnode
      have hne : directory ++ [name] ≠ directory := by simp
      rw [lookup_put_of_ne hne, ← mem_names, hnone] at hsome
      cases hsome
    rw [lookup_put_of_ne hself]
    exact hdir

theorem WellFormed.remove (h : WellFormed isDirectory tree) (hnone : names tree path = []) :
    WellFormed isDirectory (remove tree path) where
  unique := h.unique.sublist (filter_sublist.map _)
  parents := by
    intro directory name hsome
    have hne : directory ++ [name] ≠ path := by
      rintro rfl
      rw [lookup_remove_self] at hsome
      cases hsome
    rw [lookup_remove_of_ne hne] at hsome
    have hself : directory ≠ path := by
      rintro rfl
      rw [← mem_names, hnone] at hsome
      cases hsome
    rw [lookup_remove_of_ne hself]
    exact h.parents directory name hsome

end FileTree
