import ImApp.Media.Content

/-!
What content means for media: a tree whose leaves are URLs and everything else.
`view` reads the tree from a value, `Tree.write` writes a tree as a value. The
walk of a replacement reads the tree, replaces its URLs and writes it, and a
tree whose URLs are remote is read back as it was written.
-/

namespace ImApp.Media

open List

open JsonText (Text Json decode encode Normal maxNestingDepth)
open UnicodeText (trimSpace utf8Length)

inductive Tree where
  /-- A value without media. -/
  | leaf (value : Json)
  | url (text : Text)
  /-- JSON inside a string. -/
  | embedded (tree : Tree)
  | array (items : List Tree)
  | object (fields : List (Text × Tree))
  /-- A member that is not looked into. -/
  | skipped (value : Json)

namespace Tree

@[induction_eliminator]
theorem induct {motive : Tree → Prop} (leaf : ∀ value, motive (.leaf value))
    (url : ∀ text, motive (.url text)) (embedded : ∀ tree, motive tree → motive (.embedded tree))
    (array : ∀ items, (∀ item ∈ items, motive item) → motive (.array items))
    (object : ∀ fields, (∀ field ∈ fields, motive field.2) → motive (.object fields))
    (skipped : ∀ value, motive (.skipped value)) (tree : Tree) : motive tree :=
  @Tree.rec motive (fun items => ∀ item ∈ items, motive item)
    (fun fields => ∀ field ∈ fields, motive field.2) (fun field => motive field.2)
    leaf url embedded array object skipped
    (by simp) (by
      intro head tail hhead htail item hitem
      rcases List.mem_cons.mp hitem with rfl | hitem
      · exact hhead
      exact htail item hitem)
    (by simp) (by
      intro head tail hhead htail field hfield
      rcases List.mem_cons.mp hfield with rfl | hfield
      · exact hhead
      exact htail field hfield)
    (by
      intro key value hvalue
      exact hvalue) tree

theorem sizeOf_item {items : List Tree} {item : Tree} (h : item ∈ items) :
    sizeOf item < 1 + sizeOf items := by
  have hmem := sizeOf_lt_of_mem h
  omega

theorem sizeOf_field {fields : List (Text × Tree)} {field : Text × Tree} (h : field ∈ fields) :
    sizeOf field.2 < 1 + sizeOf fields := by
  have hmem := sizeOf_lt_of_mem h
  obtain ⟨key, tree⟩ := field
  simp only [Prod.mk.sizeOf_spec] at hmem ⊢
  omega

def map (f : Text → Text) : Tree → Tree
  | .leaf value => .leaf value
  | .url text => .url (f text)
  | .embedded tree => .embedded (map f tree)
  | .array items => .array (items.map (map f))
  | .object fields => .object (fields.map (fun field => (field.1, map f field.2)))
  | .skipped value => .skipped value
decreasing_by
  all_goals simp_wf
  · exact sizeOf_item ‹_›
  exact sizeOf_field ‹_›

/-- The URLs, in the order of the walk. -/
def urls : Tree → List Text
  | .leaf _ => []
  | .url text => [text]
  | .embedded tree => urls tree
  | .array items => items.flatMap urls
  | .object fields => fields.flatMap (fun field => urls field.2)
  | .skipped _ => []
decreasing_by
  all_goals simp_wf
  · exact sizeOf_item ‹_›
  exact sizeOf_field ‹_›

def write : Tree → Json
  | .leaf value => value
  | .url text => .string text
  | .embedded tree => .string (encode (write tree))
  | .array items => .array (items.map write)
  | .object fields => .object (fields.map (fun field => (field.1, write field.2)))
  | .skipped value => value
decreasing_by
  all_goals simp_wf
  · exact sizeOf_item ‹_›
  exact sizeOf_field ‹_›

/-- How many values stand one inside the other, JSON in strings included. -/
def depth : Tree → Nat
  | .leaf _ => 1
  | .url _ => 1
  | .embedded tree => depth tree + 1
  | .array items => (items.map depth).foldr max 0 + 1
  | .object fields => (fields.map (fun field => depth field.2)).foldr max 0 + 1
  | .skipped _ => 0
decreasing_by
  all_goals simp_wf
  · exact sizeOf_item ‹_›
  exact sizeOf_field ‹_›

end Tree

/-- The results of all items, when each has one. -/
def readAll {α β : Type} (read : α → Option β) : List α → Option (List β)
  | [] => some []
  | item :: items => (read item).bind fun out => (readAll read items).map (fun outs => out :: outs)

/-- The tree of a value that nests no deeper than `levels`. -/
def view (mode : Mode) : Nat → Bool → Bool → Json → Option Tree
  | 0, _, _, _ => none
  | levels + 1, isURL, parseJSON, value => match value with
    | .string text => if isURL && remoteURL (trimSpace text) then some (.url (trimSpace text))
      else if parseJSON && opensJSON (trimSpace text) then match decode (trimSpace text) with
        | some nested => (view mode levels isURL parseJSON nested).map .embedded
        | none => if mode.rawContentURL then none else some (.leaf (.string text))
      else some (.leaf (.string text))
    | .object fields => (readAll (fun (field : Text × Json) =>
        if mode.skips fields field.1 then some (field.1, .skipped field.2)
        else (view mode levels (mode.isURL field.1) (mode.isJSON field.1) field.2).map
          (fun tree => (field.1, tree))) fields).map .object
    | .array items => (readAll (view mode levels isURL parseJSON) items).map .array
    | other => some (.leaf other)

def within (visited : List Text) {α : Type} (outcome : α) : Option (α × List Text) :=
  if visited.length ≤ maxCount then some (outcome, visited) else none

/-- One step visits what was read of its item. -/
def Follows {α β γ : Type} (step : α → List Text → Option (β × List Text))
    (read : α → Option γ) (found : γ → List Text) (result : γ → β) (item : α) : Prop :=
  ∀ visited, visited.length ≤ maxCount →
    step item visited = (read item).bind
      (fun out => within (visited ++ found out) (result out))

theorem walkAll_follows {α β γ : Type} {step : α → List Text → Option (β × List Text)}
    {read : α → Option γ} {found : γ → List Text} {result : γ → β} {items : List α}
    (h : ∀ item ∈ items, Follows step read found result item) :
    ∀ visited, visited.length ≤ maxCount → walkAll step items visited = (readAll read items).bind
        (fun outs => within (visited ++ outs.flatMap found) (outs.map result)) := by
  induction items with
  | nil =>
    intro visited hvisited
    simp [walkAll, readAll, within, hvisited]
  | cons item items ih =>
    intro visited hvisited
    have hitems := ih (fun i hi => h i (mem_cons_of_mem _ hi))
    rw [walkAll, readAll, h item mem_cons_self visited hvisited]
    cases hread : read item with
    | none => rfl
    | some out =>
      rw [Option.bind_some, Option.bind_some]
      rcases Nat.lt_or_ge maxCount (visited ++ found out).length with hout | hout
      · have hmore : ∀ outs : List γ,
            within (visited ++ (out :: outs).flatMap found) ((out :: outs).map result) =
              none := by
          intro outs
          rw [within, if_neg]
          simp only [length_append, flatMap_cons] at hout ⊢
          omega
        rw [within, if_neg (by omega), Option.bind_none]
        cases readAll read items with
        | none => rfl
        | some outs => exact (hmore outs).symm
      simp only [within, if_pos hout, Option.bind_some, hitems _ hout]
      cases readAll read items with
      | none => rfl
      | some outs =>
        simp only [Option.bind_some, Option.map_some, flatMap_cons,
          map_cons, append_assoc]
        split <;> rfl

theorem bind_within {α β γ δ : Type} (wrap : β → α) (tree : γ → δ) {read : Option γ}
    {visited : List Text} {found : γ → List Text} {result : γ → β} {found' : δ → List Text}
    {result' : δ → α} (hfound : ∀ out, found' (tree out) = found out)
    (hres : ∀ out, result' (tree out) = wrap (result out)) :
    (read.bind (fun out => within (visited ++ found out) (result out))).map
        (fun (out, visited) => (wrap out, visited)) =
      (read.map tree).bind (fun out => within (visited ++ found' out) (result' out)) := by
  cases read with
  | none => rfl
  | some out =>
    simp only [Option.bind_some, Option.map_some, hfound, hres, within]
    split <;> rfl

theorem walk_follows (mode : Mode) (f : Text → Text) (levels : Nat) :
    ∀ isURL parseJSON, ∀ value, Follows
      (walk mode (fun text => some (f text)) levels isURL parseJSON)
      (view mode levels isURL parseJSON) Tree.urls (fun tree => (tree.map f).write) value := by
  induction levels with
  | zero =>
    intro isURL parseJSON value visited hvisited
    rfl
  | succ levels ih =>
    intro isURL parseJSON value visited hvisited
    have hleaf : ∀ value : Json, some (value, visited) =
        (some (Tree.leaf value)).bind
          (fun tree => within (visited ++ tree.urls) (tree.map f).write) := by
      intro value
      simp [Tree.urls, Tree.map, Tree.write, within, hvisited]
    have hcount : ¬ visited.length > maxCount := Nat.not_lt.mpr hvisited
    cases value with
    | null =>
      simp only [walk, view, if_neg hcount]
      exact hleaf .null
    | bool value =>
      simp only [walk, view, if_neg hcount]
      exact hleaf (.bool value)
    | number literal =>
      simp only [walk, view, if_neg hcount]
      exact hleaf (.number literal)
    | string text =>
      simp only [walk, view, if_neg hcount]
      split
      · simp only [Option.map_some, Option.bind_some, within, Tree.urls, Tree.map, Tree.write,
          length_append, length_singleton]
        split <;> split <;> first | rfl | omega
      split
      · cases decode (trimSpace text) with
        | none =>
          cases hraw : mode.rawContentURL with
          | true => rfl
          | false => exact hleaf (.string text)
        | some nested =>
          simp only [ih isURL parseJSON nested visited hvisited]
          apply bind_within (fun out => Json.string (encode out)) Tree.embedded <;> intro tree
          · rw [Tree.urls]
          rw [Tree.map, Tree.write]
      exact hleaf (.string text)
    | array items =>
      simp only [walk, view, if_neg hcount]
      rw [walkAll_follows (fun item _ => ih isURL parseJSON item) visited hvisited]
      apply bind_within Json.array Tree.array <;> intro trees
      · rw [Tree.urls]
      rw [Tree.map, Tree.write, map_map]
      rfl
    | object fields =>
      simp only [walk, view, if_neg hcount]
      rw [@walkAll_follows _ _ _ _
        (fun field =>
          if mode.skips fields field.1 then some (field.1, Tree.skipped field.2)
          else (view mode levels (mode.isURL field.1) (mode.isJSON field.1) field.2).map
            (fun tree => (field.1, tree)))
        (fun field => field.2.urls) (fun field => (field.1, (field.2.map f).write)) fields
        ?field visited hvisited]
      case field =>
        intro field _ visited hvisited
        simp only
        split
        · simp [Tree.urls, Tree.map, Tree.write, within, hvisited]
        rw [ih _ _ field.2 visited hvisited]
        apply bind_within (Prod.mk field.1) (Prod.mk field.1) <;> intro tree <;> rfl
      apply bind_within Json.object Tree.object <;> intro trees
      · rw [Tree.urls]
      rw [Tree.map, Tree.write, map_map]
      rfl

theorem readAll_eq_some {α β : Type} {read : α → Option β} {items : List α} {outs : List β} :
    readAll read items = some outs ↔
      List.Forall₂ (fun item out => read item = some out) items outs := by
  induction items generalizing outs with
  | nil =>
    constructor
    · intro h
      cases h
      exact .nil
    intro h
    cases h
    rfl
  | cons item items ih =>
    constructor
    · intro h
      obtain ⟨out, hout, h⟩ := Option.bind_eq_some_iff.mp h
      obtain ⟨outs, houts, rfl⟩ := Option.map_eq_some_iff.mp h
      exact .cons hout (ih.mp houts)
    intro h
    cases h with
    | cons hout houts => simp [readAll, hout, ih.mpr houts]

theorem mem_right {α β : Type} {R : α → β → Prop} {items : List α} {outs : List β}
    (h : List.Forall₂ R items outs) {out : β} (hout : out ∈ outs) : ∃ item ∈ items, R item out := by
  induction h with
  | nil => cases hout
  | cons hhead _ ih =>
    rcases mem_cons.mp hout with rfl | htail
    · exact ⟨_, mem_cons_self, hhead⟩
    obtain ⟨item, hitem, hR⟩ := ih htail
    exact ⟨item, mem_cons_of_mem _ hitem, hR⟩

theorem forall₂_imp {α β : Type} {R S : α → β → Prop} {items : List α} {outs : List β}
    (h : List.Forall₂ R items outs) (himp : ∀ item ∈ items, ∀ out ∈ outs, R item out → S item out) :
    List.Forall₂ S items outs := by
  induction h with
  | nil => exact .nil
  | cons hhead _ ih =>
    refine .cons (himp _ mem_cons_self _ mem_cons_self hhead) (ih ?_)
    intro item hitem out hout
    exact himp item (mem_cons_of_mem _ hitem) out (mem_cons_of_mem _ hout)

variable {n levels : Nat}

theorem foldr_max_le {depths : List Nat} :
    depths.foldr max 0 ≤ n ↔ ∀ depth ∈ depths, depth ≤ n := by
  induction depths with
  | nil => simp
  | cons depth depths ih => simp [ih]

theorem Tree.depth_array {items : List Tree} :
    (Tree.array items).depth ≤ n + 1 ↔ ∀ item ∈ items, item.depth ≤ n := by
  rw [Tree.depth, Nat.add_le_add_iff_right, foldr_max_le, forall_mem_map]

theorem Tree.depth_object {fields : List (Text × Tree)} :
    (Tree.object fields).depth ≤ n + 1 ↔ ∀ field ∈ fields, field.2.depth ≤ n := by
  rw [Tree.depth, Nat.add_le_add_iff_right, foldr_max_le, forall_mem_map]

/-- What `view` says of one value, by the kind of the value. -/
inductive ViewCase (mode : Mode) (levels : Nat) (isURL parseJSON : Bool) : Json → Tree → Prop where
  | scalar {value : Json} (h : ∀ text, value ≠ .string text) (h' : ∀ items, value ≠ .array items)
      (h'' : ∀ fields, value ≠ .object fields) :
      ViewCase mode levels isURL parseJSON value (.leaf value)
  | url {text : Text} (h : isURL = true) (hremote : remoteURL (trimSpace text) = true) :
      ViewCase mode levels isURL parseJSON (.string text) (.url (trimSpace text))
  | embedded {text : Text} {nested : Json} {tree : Tree}
      (h : ¬ (isURL && remoteURL (trimSpace text)) = true) (hparse : parseJSON = true)
      (hopens : opensJSON (trimSpace text) = true) (hdecode : decode (trimSpace text) = some nested)
      (hview : view mode levels isURL parseJSON nested = some tree) :
      ViewCase mode levels isURL parseJSON (.string text) (.embedded tree)
  | text {text : Text} (h : ¬ (isURL && remoteURL (trimSpace text)) = true)
      (hopens : parseJSON = true → opensJSON (trimSpace text) = true →
        decode (trimSpace text) = none ∧ mode.rawContentURL = false) :
      ViewCase mode levels isURL parseJSON (.string text) (.leaf (.string text))
  | array {items : List Json} {trees : List Tree}
      (h : List.Forall₂ (fun item tree => view mode levels isURL parseJSON item = some tree)
        items trees) :
      ViewCase mode levels isURL parseJSON (.array items) (.array trees)
  | object {fields : List (Text × Json)} {trees : List (Text × Tree)}
      (h : List.Forall₂ (fun field tree => field.1 = tree.1 ∧
        if mode.skips fields field.1 then tree.2 = .skipped field.2
        else view mode levels (mode.isURL field.1) (mode.isJSON field.1) field.2 = some tree.2)
        fields trees) :
      ViewCase mode levels isURL parseJSON (.object fields) (.object trees)

variable {mode : Mode}

theorem readFields_eq_some {all fields : List (Text × Json)} {trees : List (Text × Tree)} :
    readAll (fun (field : Text × Json) =>
        if mode.skips all field.1 then some (field.1, Tree.skipped field.2)
        else (view mode levels (mode.isURL field.1) (mode.isJSON field.1) field.2).map
          (fun tree => (field.1, tree))) fields = some trees ↔
      List.Forall₂ (fun field tree => field.1 = tree.1 ∧
        if mode.skips all field.1 then tree.2 = .skipped field.2
        else view mode levels (mode.isURL field.1) (mode.isJSON field.1) field.2 = some tree.2)
        fields trees := by
  rw [readAll_eq_some]
  apply iff_of_eq
  congr
  funext field tree
  obtain ⟨key, tree⟩ := tree
  split
  · simp [Prod.ext_iff, eq_comm]
  simp only [Option.map_eq_some_iff, Prod.mk.injEq, eq_iff_iff]
  constructor
  · rintro ⟨tree, hview, hkey, rfl⟩
    exact ⟨hkey, hview⟩
  rintro ⟨hkey, hview⟩
  exact ⟨tree, hview, hkey, rfl⟩

variable {isURL parseJSON : Bool} {value : Json} {tree : Tree}

theorem view_cases : view mode (levels + 1) isURL parseJSON value = some tree ↔
      ViewCase mode levels isURL parseJSON value tree := by
  constructor
  · intro h
    cases value with
    | null | bool value | number literal =>
      cases h
      exact .scalar (by simp) (by simp) (by simp)
    | string text =>
      rw [view] at h
      split at h
      case isTrue hurl =>
        cases h
        obtain ⟨hisURL, hremote⟩ := Bool.and_eq_true_iff.mp hurl
        exact .url hisURL hremote
      case isFalse hurl =>
        split at h
        case isTrue hparse =>
          obtain ⟨hparse, hopens⟩ := Bool.and_eq_true_iff.mp hparse
          split at h
          case h_1 nested hdecode =>
            obtain ⟨tree, hview, rfl⟩ := Option.map_eq_some_iff.mp h
            exact .embedded hurl hparse hopens hdecode hview
          case h_2 hdecode =>
            split at h
            · cases h
            case isFalse hraw =>
              cases h
              exact .text hurl (fun _ _ => ⟨hdecode, Bool.eq_false_iff.mpr hraw⟩)
        case isFalse hparse =>
          cases h
          exact .text hurl (fun hp ho => absurd (Bool.and_eq_true_iff.mpr ⟨hp, ho⟩) hparse)
    | array items =>
      obtain ⟨trees, htrees, rfl⟩ := Option.map_eq_some_iff.mp h
      exact .array (readAll_eq_some.mp htrees)
    | object fields =>
      obtain ⟨trees, htrees, rfl⟩ := Option.map_eq_some_iff.mp h
      exact .object (readFields_eq_some.mp htrees)
  intro h
  cases h with
  | scalar h h' h'' =>
    cases value with
    | null | bool value | number literal => rfl
    | string text => exact absurd rfl (h text)
    | array items => exact absurd rfl (h' items)
    | object fields => exact absurd rfl (h'' fields)
  | url h hremote => simp [view, h, hremote]
  | embedded h hparse hopens hdecode hview =>
    subst hparse
    rw [view, if_neg h]
    simp [hopens, hdecode, hview]
  | text h hopens =>
    rw [view, if_neg h]
    split
    case isTrue hparse =>
      obtain ⟨hparse, hopens'⟩ := Bool.and_eq_true_iff.mp hparse
      obtain ⟨hdecode, hraw⟩ := hopens hparse hopens'
      simp [hdecode, hraw]
    · rfl
  | array h => rw [view, readAll_eq_some.mpr h, Option.map_some]
  | object h => rw [view, readFields_eq_some.mpr h, Option.map_some]

theorem depth_le_of_view (h : view mode levels isURL parseJSON value = some tree) :
    tree.depth ≤ levels := by
  induction levels generalizing isURL parseJSON value tree with
  | zero => cases h
  | succ levels ih =>
    cases view_cases.mp h with
    | scalar | url | text => simp [Tree.depth]
    | embedded _ _ _ _ hview =>
      rw [Tree.depth, Nat.add_le_add_iff_right]
      exact ih hview
    | array hall =>
      rw [Tree.depth_array]
      intro tree htree
      obtain ⟨item, -, hitem⟩ := mem_right hall htree
      exact ih hitem
    | object hall =>
      rw [Tree.depth_object]
      intro tree htree
      obtain ⟨field, -, -, hfield⟩ := mem_right hall htree
      split at hfield
      · rw [hfield, Tree.depth]
        exact Nat.zero_le _
      exact ih hfield

/-- A tree that was read with some number of levels is read with as many levels
as it is deep. -/
theorem view_of_depth {levels' : Nat} (h : view mode levels isURL parseJSON value = some tree)
    (hdepth : tree.depth ≤ levels') (hpos : 0 < levels') :
    view mode levels' isURL parseJSON value = some tree := by
  induction levels generalizing isURL parseJSON value tree levels' with
  | zero => cases h
  | succ levels ih =>
    obtain ⟨levels', rfl⟩ := Nat.exists_eq_succ_of_ne_zero hpos.ne'
    rw [view_cases] at h ⊢
    have hchild : ∀ {isURL parseJSON value tree},
        view mode levels isURL parseJSON value = some tree → tree.depth ≤ levels' →
        view mode levels' isURL parseJSON value = some tree := by
      intro isURL parseJSON value tree hview hle
      apply ih hview hle
      have hone : 0 < tree.depth := by
        cases levels with
        | zero => cases hview
        | succ levels => cases view_cases.mp hview <;> simp [Tree.depth]
      omega
    cases h with
    | scalar h h' h'' => exact .scalar h h' h''
    | url h hremote => exact .url h hremote
    | text h hopens => exact .text h hopens
    | embedded h hparse hopens hdecode hview =>
      rw [Tree.depth, Nat.add_le_add_iff_right] at hdepth
      exact .embedded h hparse hopens hdecode (hchild hview hdepth)
    | array hall =>
      rw [Tree.depth_array] at hdepth
      exact .array (forall₂_imp hall (fun item _ tree htree hview =>
        hchild hview (hdepth tree htree)))
    | object hall =>
      rw [Tree.depth_object] at hdepth
      refine .object (forall₂_imp hall ?_)
      rintro field - tree htree ⟨hkey, hfield⟩
      refine ⟨hkey, ?_⟩
      split
      case isTrue hskip => rwa [if_pos hskip] at hfield
      case isFalse hskip =>
        rw [if_neg hskip] at hfield
        exact hchild hfield (hdepth tree htree)

/-- A URL as the walk finds it. -/
def Remote (text : Text) : Prop := remoteURL text = true ∧ trimSpace text = text

variable {text : Text}

theorem remote_trim (h : remoteURL (trimSpace text) = true) :
    Remote (trimSpace text) := ⟨h, UnicodeText.trimSpace_trimSpace text⟩

theorem lowerChar_h {c : Char} (h : UnicodeText.lowerChar c = 'h') : c = 'h' ∨ c = 'H' := by
  rw [UnicodeText.lowerChar] at h
  split at h
  case isTrue hupper =>
    have hle : c.toNat < 91 := Nat.lt_succ_of_le hupper.2
    have hcode : c.toNat = 72 :=
      (by decide : ∀ n < 91, Char.ofNat (n + 32) = 'h' → n = 72) c.toNat hle h
    right
    rw [← Char.ofNat_toNat c, hcode]
  split at h
  · exact absurd h (by decide)
  split at h
  · exact absurd h (by decide)
  exact .inl h

theorem remoteURL_head (h : remoteURL text = true) :
    ∃ c tail, text = c :: tail ∧ (c = 'h' ∨ c = 'H') := by
  rw [remoteURL] at h
  split at h
  · cases h
  case h_2 url hparse =>
    have hscheme : url.scheme = "https".toList ∨ url.scheme = "http".toList := by
      simp only [Bool.and_eq_true, Bool.or_eq_true, decide_eq_true_eq] at h
      exact h.1.1.1
    have hne : url.scheme ≠ [] := by
      rcases hscheme with hs | hs <;> rw [hs] <;> decide
    obtain ⟨c, tail, more, htext, hlower, -⟩ := UrlText.parse_head hparse hne
    refine ⟨c, tail, htext, lowerChar_h ?_⟩
    rw [hlower] at hscheme
    rcases hscheme with hs | hs <;> exact (List.cons.inj hs).1

/-- The value is spelled in quotes, brackets or braces. -/
inductive Enclosed : Json → Prop where
  | string (text : Text) : Enclosed (.string text)
  | array (items : List Json) : Enclosed (.array items)
  | object (fields : List (Text × Json)) : Enclosed (.object fields)

theorem opensJSON_head (h : opensJSON text = true) :
    ∃ c tail, text = c :: tail ∧ (c = '{' ∨ c = '[' ∨ c = '"') := by
  cases text with
  | nil => cases h
  | cons c tail =>
    refine ⟨c, tail, rfl, ?_⟩
    simpa [opensJSON, or_assoc] using h

theorem not_remote_of_opensJSON (h : opensJSON text = true) : remoteURL text = false := by
  rw [Bool.eq_false_iff]
  intro hremote
  obtain ⟨c, tail, rfl, hopen⟩ := opensJSON_head h
  obtain ⟨d, rest, htext, hd⟩ := remoteURL_head hremote
  rw [← (List.cons.inj htext).1] at hd
  rcases hopen with rfl | rfl | rfl <;> exact absurd hd (by decide)

theorem Enclosed.of_decode (hopens : opensJSON text = true)
    (h : decode text = some value) : Enclosed value := by
  obtain ⟨c, tail, rfl, hopen⟩ := opensJSON_head hopens
  obtain ⟨hstring, harray, hobject⟩ := JsonText.decode_kind h
  rcases hopen with hc | hc | hc
  · obtain ⟨fields, rfl⟩ := hobject hc
    exact .object fields
  · obtain ⟨items, rfl⟩ := harray hc
    exact .array items
  obtain ⟨text, rfl⟩ := hstring hc
  exact .string text

theorem Enclosed.encode (h : Enclosed value) :
    opensJSON (encode value) = true ∧ trimSpace (encode value) = encode value := by
  cases h with
  | string text =>
    exact ⟨rfl, UnicodeText.trimSpace_delimited (by decide) (by decide) _⟩
  | array items | object fields =>
    refine ⟨rfl, ?_⟩
    rw [JsonText.encode, cons_append]
    exact UnicodeText.trimSpace_delimited (by decide) (by decide) _

theorem Enclosed.write (henclosed : Enclosed value)
    (h : view mode levels isURL parseJSON value = some tree) (f : Text → Text) :
    Enclosed (tree.map f).write := by
  cases levels with
  | zero => cases h
  | succ levels =>
    cases view_cases.mp h with
    | scalar => rwa [Tree.map, Tree.write]
    | url | embedded | text => rw [Tree.map, Tree.write]; exact .string _
    | array => rw [Tree.map, Tree.write]; exact .array _
    | object => rw [Tree.map, Tree.write]; exact .object _

theorem forall₂_keys {fields : List (Text × Json)} {trees : List (Text × Tree)}
    {R : Text × Json → Text × Tree → Prop}
    (h : List.Forall₂ (fun field tree => field.1 = tree.1 ∧ R field tree) fields trees) :
    trees.map Prod.fst = fields.map Prod.fst := by
  induction h with
  | nil => rfl
  | cons hhead _ ih => rw [map_cons, map_cons, hhead.1, ih]

theorem normal_write {depth bound : Nat} (hnormal : Normal depth value) (hdepth : depth ≤ bound)
    (hlevels : levels ≤ bound) (h : view mode levels isURL parseJSON value = some tree)
    (f : Text → Text) : Normal bound (tree.map f).write := by
  induction levels generalizing depth bound isURL parseJSON value tree with
  | zero => cases h
  | succ levels ih =>
    obtain ⟨bound, rfl⟩ : ∃ n, bound = n + 1 := ⟨bound - 1, by omega⟩
    cases view_cases.mp h with
    | scalar =>
      rw [Tree.map, Tree.write]
      exact hnormal.mono hdepth
    | url | embedded | text =>
      rw [Tree.map, Tree.write]
      exact .string _ _
    | array hall =>
      rw [Tree.map, Tree.write]
      cases hnormal with
      | array hitems =>
        apply Normal.array
        simp only [mem_map, forall_exists_index, and_imp, forall_apply_eq_imp_iff₂]
        intro tree htree
        obtain ⟨item, hitem, hview⟩ := mem_right hall htree
        exact ih (hitems item hitem) (by omega) (by omega) hview
    | object hall =>
      rw [Tree.map, Tree.write]
      cases hnormal with
      | object hsorted hfields =>
        apply Normal.object
        · have hkeys := forall₂_keys hall
          rw [JsonText.Sorted, ← pairwise_map] at hsorted
          rw [JsonText.Sorted, ← pairwise_map, map_map, map_map]
          rwa [← hkeys] at hsorted
        simp only [mem_map, forall_exists_index, and_imp, forall_apply_eq_imp_iff₂]
        intro tree htree
        obtain ⟨field, hfield, -, hview⟩ := mem_right hall htree
        split at hview
        · rw [hview, Tree.map, Tree.write]
          exact (hfields field hfield).mono (by omega)
        exact ih (hfields field hfield) (by omega) (by omega) hview

/-- The tree with its URLs replaced is read back from what was written of it. -/
theorem view_write {depth : Nat} (hlevels : levels ≤ maxNestingDepth) (hnormal : Normal depth value)
    (h : view rewriteMode levels isURL parseJSON value = some tree) {f : Text → Text}
    (hf : ∀ text, Remote text → Remote (f text)) :
    view rewriteMode levels isURL parseJSON (tree.map f).write = some (tree.map f) := by
  induction levels generalizing depth isURL parseJSON value tree with
  | zero => cases h
  | succ levels ih =>
    have hlevels' : levels ≤ maxNestingDepth := Nat.le_of_succ_le hlevels
    cases view_cases.mp h with
    | scalar hs ha ho =>
      rw [Tree.map, Tree.write, view_cases]
      exact .scalar hs ha ho
    | url hisURL hremote =>
      rename_i text
      obtain ⟨hremote', htrim⟩ := hf _ (remote_trim hremote)
      rw [Tree.map, Tree.write, view_cases]
      have hcase : ViewCase rewriteMode levels isURL parseJSON (.string (f (trimSpace text)))
          (.url (trimSpace (f (trimSpace text)))) := by
        apply ViewCase.url hisURL
        rw [htrim]
        exact hremote'
      rwa [htrim] at hcase
    | text hurl hopens =>
      rw [Tree.map, Tree.write, view_cases]
      exact .text hurl hopens
    | embedded hurl hparse hopens hdecode hview =>
      rename_i text nested tree
      have hnested := JsonText.normal_of_decode hdecode
      have hwritten : Normal maxNestingDepth (tree.map f).write :=
        normal_write hnested (Nat.le_refl _) hlevels' hview f
      obtain ⟨hopens', htrim⟩ :=
        ((Enclosed.of_decode hopens hdecode).write hview f).encode
      have hdecode' : decode (trimSpace (encode (tree.map f).write)) =
          some (tree.map f).write := by
        rw [htrim]
        exact JsonText.decode_encode hwritten
      rw [Tree.map, Tree.write, view_cases]
      refine .embedded ?_ hparse ?_ hdecode' (ih hlevels' hnested hview)
      · rw [htrim, not_remote_of_opensJSON hopens', Bool.and_false]
        exact Bool.false_ne_true
      rw [htrim]
      exact hopens'
    | array hall =>
      cases hnormal with
      | array hitems =>
        rw [Tree.map, Tree.write, view_cases]
        apply ViewCase.array
        rw [map_map, List.forall₂_map_left_iff, List.forall₂_map_right_iff, List.forall₂_same]
        intro tree htree
        obtain ⟨item, hitem, hview⟩ := mem_right hall htree
        exact ih hlevels' (hitems item hitem) hview
    | object hall =>
      cases hnormal with
      | object hsorted hfields =>
        rw [Tree.map, Tree.write, view_cases]
        apply ViewCase.object
        rw [map_map, List.forall₂_map_left_iff, List.forall₂_map_right_iff, List.forall₂_same]
        intro tree htree
        obtain ⟨field, hfield, hkey, hview⟩ := mem_right hall htree
        refine ⟨rfl, ?_⟩
        rw [hkey] at hview
        exact ih hlevels' (hfields field hfield) hview

end ImApp.Media
