import ImApp.Media.ContentTree

/-!
The law of a rewrite. Content reads as a tree whose leaves are URLs and
everything else; a rewrite by `f` gives content that reads as the same tree with
`f` at its URLs. White space around a URL and around JSON inside a string, and
the spelling of that JSON, are not part of the tree.
-/

namespace ImApp.Media

open List Option
open JsonText (Text Json decode encode Normal maxNestingDepth)
open UnicodeText (trimSpace utf8Length)

/-- What the content means, at any depth. -/
def Reads (mode : Mode) (content : Text) (tree : Tree) : Prop :=
  ∃ levels, view mode levels mode.rawContentURL true (.string content) = some tree

namespace Tree

theorem map_id (tree : Tree) : tree.map id = tree := by
  induction tree with
  | leaf value | skipped value => rw [map]
  | url text => rw [map, id]
  | embedded tree ih => rw [map, ih]
  | array items ih =>
    rw [map, map_congr_left ih, List.map_id']
  | object fields ih =>
    have hfields : ∀ field ∈ fields, (field.1, field.2.map id) = field := by
      intro field hfield
      rw [ih field hfield]
    rw [map, map_congr_left hfields, List.map_id']

theorem urls_map (f : Text → Text) (tree : Tree) : (tree.map f).urls = tree.urls.map f := by
  induction tree with
  | leaf value | url text | skipped value => simp [map, urls]
  | embedded tree ih => rw [map, urls, urls, ih]
  | array items ih | object fields ih =>
    rw [map, urls, urls, flatMap_map, map_flatMap]
    exact flatMap_congr ih

theorem depth_map (f : Text → Text) (tree : Tree) : (tree.map f).depth = tree.depth := by
  induction tree with
  | leaf value | skipped value => rw [map]
  | url text => rw [map, depth, depth]
  | embedded tree ih => rw [map, depth, depth, ih]
  | array items ih | object fields ih =>
    rw [map, depth, depth, List.map_map]
    exact congrArg (fun depths => depths.foldr max 0 + 1) (map_congr_left ih)

end Tree

theorem Reads.view {mode : Mode} {content : Text} {tree : Tree} (h : Reads mode content tree)
    {levels : Nat} (hpos : 0 < levels) (hdepth : tree.depth ≤ levels) :
    view mode levels mode.rawContentURL true (.string content) = some tree := by
  obtain ⟨n, hview⟩ := h
  exact view_of_depth hview hdepth hpos

theorem Reads.unique {mode : Mode} {content : Text} {tree tree' : Tree}
    (h : Reads mode content tree) (h' : Reads mode content tree') : tree = tree' := by
  have hview := h.view (Nat.succ_pos (max tree.depth tree'.depth)) (by omega)
  have hview' := h'.view (Nat.succ_pos (max tree.depth tree'.depth)) (by omega)
  exact some.inj (hview.symm.trans hview')

/-- The content and what is written of it keep the documented bounds. -/
structure InBounds (content : Text) (tree : Tree) (out : Text) : Prop where
  content : utf8Length content ≤ maxContentBytes
  depth : tree.depth ≤ maxLevels
  count : tree.urls.length ≤ maxCount
  out : utf8Length out ≤ maxContentBytes

theorem textOf_eq_some {value : Json} {text : Text} (h : textOf value = some text) :
    value = .string text := by
  cases value <;> cases h
  rfl

/-- A rewrite succeeds exactly within the bounds, and writes the tree with its
URLs replaced. -/
theorem rewriteVisited_iff {mode : Mode} {f : Text → Text} {content out : Text}
    {visited : List Text} :
    rewriteVisited mode (fun text => some (f text)) content = some (out, visited) ↔
      ∃ tree, Reads mode content tree ∧ InBounds content tree out ∧
        (tree.map f).write = .string out ∧ visited = tree.urls := by
  have hwalk := walk_follows mode f maxLevels mode.rawContentURL true (.string content) []
    (Nat.zero_le _)
  simp only [nil_append] at hwalk
  simp only [rewriteVisited, hwalk, bind_eq_bind]
  constructor
  · intro h
    split at h
    · cases h
    case isFalse hcontent =>
      obtain ⟨⟨value, visited'⟩, hwithin, h⟩ := bind_eq_some_iff.mp h
      obtain ⟨tree, hview, hwithin⟩ := bind_eq_some_iff.mp hwithin
      obtain ⟨out', hout, h⟩ := bind_eq_some_iff.mp h
      simp only [within] at hwithin
      split at hwithin
      case isTrue hcount =>
        obtain ⟨hvalue, rfl⟩ := Prod.mk.inj (some.inj hwithin)
        split at h
        · cases h
        case isFalse hsize =>
          cases h
          refine ⟨tree, ⟨maxLevels, hview⟩, ?_, ?_, rfl⟩
          · exact ⟨Nat.not_lt.mp hcontent, depth_le_of_view hview, hcount, Nat.not_lt.mp hsize⟩
          exact hvalue.trans (textOf_eq_some hout)
      · cases hwithin
  rintro ⟨tree, hreads, hbounds, hwrite, rfl⟩
  have hview := hreads.view (by decide) hbounds.depth
  rw [if_neg (Nat.not_lt.mpr hbounds.content), hview, bind_some, within,
    if_pos hbounds.count, bind_some, hwrite, textOf]
  simp [Nat.not_lt.mpr hbounds.out]

theorem rewrite_iff {f : Text → Text} {content out : Text} {count : Nat} :
    rewrite content (fun text => some (f text)) = some (out, count) ↔
      ∃ tree, Reads rewriteMode content tree ∧ InBounds content tree out ∧
        (tree.map f).write = .string out ∧ count = tree.urls.length := by
  simp only [rewrite, map_eq_some_iff, Prod.exists, rewriteVisited_iff, Prod.mk.injEq]
  constructor
  · rintro ⟨out, visited, ⟨tree, hreads, hbounds, hwrite, rfl⟩, rfl, rfl⟩
    exact ⟨tree, hreads, hbounds, hwrite, rfl⟩
  rintro ⟨tree, hreads, hbounds, hwrite, rfl⟩
  exact ⟨out, tree.urls, ⟨tree, hreads, hbounds, hwrite, rfl⟩, rfl, rfl⟩

theorem URLs_iff {content : Text} {urls : List Text} : URLs content = some urls ↔
      ∃ tree out, Reads rewriteMode content tree ∧ InBounds content tree out ∧
        tree.write = .string out ∧ urls = tree.urls.eraseDups := by
  have hid : rewriteVisited rewriteMode some content =
      rewriteVisited rewriteMode (fun text => some (id text)) content := rfl
  rw [URLs, hid]
  simp only [map_eq_some_iff, Prod.exists, rewriteVisited_iff, Tree.map_id]
  constructor
  · rintro ⟨out, visited, ⟨tree, hreads, hbounds, hwrite, rfl⟩, rfl⟩
    exact ⟨tree, out, hreads, hbounds, hwrite, rfl⟩
  rintro ⟨tree, out, hreads, hbounds, hwrite, rfl⟩
  exact ⟨out, tree.urls, ⟨tree, hreads, hbounds, hwrite, rfl⟩, rfl⟩

/-- What was written within the bounds reads as the tree with its URLs replaced. -/
theorem reads_write {content out : Text} {tree : Tree} {f : Text → Text}
    (hf : ∀ text, Remote text → Remote (f text)) (hreads : Reads rewriteMode content tree)
    (hdepth : tree.depth ≤ maxLevels) (hwrite : (tree.map f).write = .string out) :
    Reads rewriteMode out (tree.map f) := by
  have hview := hreads.view (by decide : 0 < maxLevels) hdepth
  refine ⟨maxLevels, ?_⟩
  rw [← hwrite]
  exact view_write (by decide) (Normal.string 0 content) hview hf

theorem filter_eraseDups (p : Text → Bool) (items : List Text) :
    items.eraseDups.filter p = (items.filter p).eraseDups := by
  induction hn : items.length using Nat.strong_induction_on generalizing items with
  | _ n ih =>
  cases items with
  | nil => rfl
  | cons item items =>
    have hlen := length_filter_le (fun b => !b == item) items
    have hrest := ih _ (by rw [← hn, length_cons]; omega) (items.filter (fun b => !b == item)) rfl
    rw [eraseDups_cons, filter_cons, filter_cons, hrest, List.filter_filter]
    split
    · rw [eraseDups_cons, List.filter_filter]
      simp only [Bool.and_comm]
    case isFalse hp =>
      congr 1
      apply filter_congr
      intro b hb
      cases hpb : p b with
      | false => rfl
      | true =>
        have hne : b ≠ item := by
          rintro rfl
          exact hp hpb
        simp [hne]

theorem eraseDups_map_eraseDups (f : Text → Text) (items : List Text) :
    (items.eraseDups.map f).eraseDups = (items.map f).eraseDups := by
  induction hn : items.length using Nat.strong_induction_on generalizing items with
  | _ n ih =>
  cases items with
  | nil => rfl
  | cons item items =>
    have hlen := length_filter_le (fun b => f b != f item) items
    have hrest := ih _ (by rw [← hn, length_cons]; omega)
      (items.filter (fun b => f b != f item)) rfl
    have hother : (items.filter (fun b => !b == item)).filter (fun b => f b != f item) =
        items.filter (fun b => f b != f item) := by
      rw [List.filter_filter]
      apply filter_congr
      intro b hb
      cases hfb : f b != f item with
      | false => rfl
      | true =>
        have hne : b ≠ item := by
          rintro rfl
          simp at hfb
        simp [hne]
    rw [eraseDups_cons, map_cons, map_cons, eraseDups_cons,
      eraseDups_cons, List.filter_map, List.filter_map]
    congr 1
    have hleft := filter_eraseDups (fun b => f b != f item) (items.filter (fun b => !b == item))
    rw [hother] at hleft
    simp only [bne] at hleft hrest
    simp only [Function.comp_def]
    rw [hleft, hrest]

theorem URLs_write {content out : Text} {tree : Tree} {f : Text → Text}
    (hf : ∀ text, Remote text → Remote (f text)) (hreads : Reads rewriteMode content tree)
    (hbounds : InBounds content tree out) (hwrite : (tree.map f).write = .string out) :
    URLs out = some (tree.urls.map f).eraseDups := by
  apply URLs_iff.mpr
  refine ⟨tree.map f, out, reads_write hf hreads hbounds.depth hwrite, ?_, hwrite, ?_⟩
  · exact ⟨hbounds.out, by rw [Tree.depth_map]; exact hbounds.depth,
      by rw [Tree.urls_map, length_map]; exact hbounds.count, hbounds.out⟩
  rw [Tree.urls_map]

/-- A rewrite by `f` gives content that reads as the same tree with `f` at its
URLs, lists the images of the URLs and counts them; by the identity it gives
content that reads as the same tree. It gives nothing when the content has no
tree or a bound is passed. -/
theorem rewrite_law (f : Text → Text) (hf : ∀ text, Remote text → Remote (f text))
    (content : Text) :
    (∀ out count, rewrite content (fun text => some (f text)) = some (out, count) →
      ∃ tree, Reads rewriteMode content tree ∧ Reads rewriteMode out (tree.map f) ∧
        count = tree.urls.length ∧ URLs out = some (tree.urls.map f).eraseDups ∧
        ∀ urls, URLs content = some urls → URLs out = some (urls.map f).eraseDups) ∧
    (∀ out count, rewrite content some = some (out, count) →
      ∃ tree, Reads rewriteMode content tree ∧ Reads rewriteMode out tree ∧
        count = tree.urls.length ∧ URLs out = URLs content) ∧
    ((∀ tree, Reads rewriteMode content tree → ∀ out, (tree.map f).write = .string out →
        maxContentBytes < utf8Length content ∨ maxLevels < tree.depth ∨
          maxCount < tree.urls.length ∨ maxContentBytes < utf8Length out) →
      rewrite content (fun text => some (f text)) = none) := by
  refine ⟨?_, ?_, ?_⟩
  · intro out count h
    obtain ⟨tree, hreads, hbounds, hwrite, rfl⟩ := rewrite_iff.mp h
    refine ⟨tree, hreads, reads_write hf hreads hbounds.depth hwrite, rfl,
      URLs_write hf hreads hbounds hwrite, ?_⟩
    intro urls hurls
    obtain ⟨tree', out', hreads', -, -, rfl⟩ := URLs_iff.mp hurls
    obtain rfl := hreads.unique hreads'
    rw [URLs_write hf hreads hbounds hwrite, eraseDups_map_eraseDups]
  · intro out count h
    have hid : ∀ text, Remote text → Remote (id text) := fun text htext => htext
    obtain ⟨tree, hreads, hbounds, hwrite, rfl⟩ :=
      (@rewrite_iff id content out count).mp h
    have hreads' := reads_write hid hreads hbounds.depth hwrite
    have hURLs := URLs_write hid hreads hbounds hwrite
    rw [Tree.map_id] at hwrite hreads'
    refine ⟨tree, hreads, hreads', rfl, ?_⟩
    rw [hURLs, List.map_id]
    exact (URLs_iff.mpr ⟨tree, out, hreads, hbounds, hwrite, rfl⟩).symm
  intro hbad
  cases hrewrite : rewrite content (fun text => some (f text)) with
  | none => rfl
  | some result =>
    obtain ⟨tree, hreads, hbounds, hwrite, -⟩ := rewrite_iff.mp hrewrite
    rcases hbad tree hreads _ hwrite with hcontent | hdepth | hcount | hout
    · exact absurd hbounds.content (Nat.not_le.mpr hcontent)
    · exact absurd hbounds.depth (Nat.not_le.mpr hdepth)
    · exact absurd hbounds.count (Nat.not_le.mpr hcount)
    exact absurd hbounds.out (Nat.not_le.mpr hout)

theorem rewrite_law_archived :
    rewrite "\x7b\"url\":\"https://a\"\x7d".toList (fun _ => some "https://b".toList) =
        some ("\x7b\"url\":\"https://b\"\x7d".toList, 1) ∧
      ∃ tree : Tree, Reads rewriteMode "\x7b\"url\":\"https://b\"\x7d".toList
        (tree.map (fun _ => "https://b".toList)) := by
  have hrewrite : rewrite "\x7b\"url\":\"https://a\"\x7d".toList
      (fun _ => some "https://b".toList) =
        some ("\x7b\"url\":\"https://b\"\x7d".toList, 1) := by decide +kernel
  have hf : ∀ text, Remote text → Remote "https://b".toList := fun _ _ => ⟨by decide, by decide⟩
  obtain ⟨tree, -, hreads, -⟩ := (rewrite_law (fun _ => "https://b".toList) hf _).1 _ _ hrewrite
  exact ⟨hrewrite, tree, hreads⟩

/-- The identity trims a URL, and the value of the member is another string. -/
theorem rewrite_trims :
    ∃ out count, rewrite "\x7b\"url\":\" https://a\"\x7d".toList some = some (out, count) ∧
      decode out ≠ decode "\x7b\"url\":\" https://a\"\x7d".toList := by
  refine ⟨"\x7b\"url\":\"https://a\"\x7d".toList, 1, by decide +kernel, ?_⟩
  intro h
  have htext := congrArg (Option.map encode) h
  exact absurd htext (by decide +kernel)

end ImApp.Media
