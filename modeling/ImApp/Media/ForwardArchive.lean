import ImApp.Media.ForwardSimulation
import ImApp.Media.RewriteLaw
import ImApp.Library.JsonSpacing

/-!
Archiving of forwarded content. The validation and the rewrite go through one
message in two ways of their own. What the rewrite writes is valid again, and it
relies on archived URLs as far as the rewrite reaches the URLs that the
validation of the message relied on.
-/

namespace ImApp.Media

open List Option
open JsonText (Text Json decode encode Normal maxNestingDepth)
open UnicodeText (trimSpace equalFold utf8Length)

/-- The message is text when the last `contentType`, in the order in which the
members of an object come, prints as that kind. -/
def printsText : Json → Bool
  | .number literal => literal = "101".toList
  | .string text => text = "101".toList
  | _ => false

def textMessage (order : List (Text × Json) → List (Text × Json)) (fields : List (Text × Json)) :
    Bool :=
  (((order fields).filter (fun field => equalFold field.1 "contentType".toList)).getLast?).any
    (fun field => printsText field.2)

/-- What the rewrite makes of a value on its way. -/
structure Place where
  /-- The rewrite comes here. -/
  reached : Bool
  isURL : Bool
  parseJSON : Bool

/-- The rewrite opens a string where it parses JSON, and passes over the members
it skips. -/
def rewriteTracker (mode : Mode) : Tracker Place where
  decoded place raw :=
    { place with reached := place.reached && (place.parseJSON && opensJSON (trimSpace raw)) }
  member place fields key :=
    { reached := place.reached && !mode.skips fields key
      isURL := mode.isURL key
      parseJSON := mode.isJSON key }

/-- The rewrite replaces a URL found here. -/
def Place.replaces (place : Place) : Bool := place.reached && place.isURL

/-- What the rewrite by `f` makes of a value. -/
inductive Rewritten (mode : Mode) (f : Text → Text) : Place → Json → Unit → Json → Prop where
  | kept {place : Place} (h : place.reached = false) (value : Json) :
      Rewritten mode f place value () value
  | walked {place : Place} {value : Json} {levels : Nat} {tree : Tree}
      (h : place.reached = true) (hlevels : levels ≤ maxNestingDepth)
      (hnormal : Normal maxNestingDepth value)
      (hview : view mode levels place.isURL place.parseJSON value = some tree) :
      Rewritten mode f place value () (tree.map f).write

def Replaced (f : Text → Text) (source : Place × Text) (stored : Unit × Text) : Prop :=
  stored.2 = if source.1.replaces then f (trimSpace source.2) else source.2

theorem decode_h {c : Char} (tail : Text) (hc : c = 'h' ∨ c = 'H') : decode (c :: tail) = none := by
  rcases hc with rfl | rfl <;>
    simp [decode, JsonText.parseValue, JsonText.skipSpace, JsonText.isSpace, JsonText.parseScalar,
      JsonText.keyword, JsonText.scanNumber, JsonText.scanMinus, JsonText.scanInteger]

theorem not_decode_of_remote {text : Text} (h : remoteURL text = true) : decode text = none := by
  obtain ⟨c, tail, rfl, hc⟩ := remoteURL_head h
  exact decode_h tail hc

theorem not_remote_of_decode {raw : Text} {value : Json} (h : decode raw = some value) :
    remoteURL (trimSpace raw) = false := by
  rw [Bool.eq_false_iff]
  intro hremote
  have hnone := not_decode_of_remote hremote
  rw [JsonText.decode_trimSpace h] at hnone
  cases hnone

section

variable {mode : Mode} {f : Text → Text}

variable {place : Place} {u : Unit} {w value : Json}

theorem Rewritten.decoded {raw : Text}
    (h : Rewritten mode f place (.string raw) u w) (hdecode : decode raw = some value) :
    ∃ raw' value', w = .string raw' ∧ decode raw' = some value' ∧
      Rewritten mode f ((rewriteTracker mode).decoded place raw) value () value' := by
  cases h with
  | kept h => exact ⟨raw, value, rfl, hdecode, .kept (by simp [rewriteTracker, h]) value⟩
  | walked h hlevels hnormal hview =>
    rename_i levels tree
    cases levels with
    | zero => cases hview
    | succ levels =>
      have htrim := JsonText.decode_trimSpace hdecode
      cases view_cases.mp hview with
      | scalar hs => exact absurd rfl (hs raw)
      | url _ hremote => simp [not_remote_of_decode hdecode] at hremote
      | @embedded _ nested tree hurl hparse hopens hdecode' hview' =>
        cases htrim.symm.trans hdecode'
        have hnormal' := JsonText.normal_of_decode hdecode
        refine ⟨encode (tree.map f).write, (tree.map f).write, ?_, ?_, ?_⟩
        · rw [Tree.map, Tree.write]
        · exact JsonText.decode_encode
            (normal_write hnormal' (Nat.le_refl _) (Nat.le_of_succ_le hlevels) hview' f)
        refine .walked ?_ (Nat.le_of_succ_le hlevels) hnormal' hview'
        simp [rewriteTracker, h, hparse, hopens]
      | text _ hopens =>
        refine ⟨raw, value, ?_, hdecode, .kept ?_ value⟩
        · rw [Tree.map, Tree.write]
        cases hparse : place.parseJSON with
        | false => simp [rewriteTracker, hparse]
        | true =>
          cases hopens' : opensJSON (trimSpace raw) with
          | false => simp [rewriteTracker, hopens']
          | true =>
            have hnone := (hopens hparse hopens').1
            rw [htrim] at hnone
            cases hnone

theorem Rewritten.object {fields : List (Text × Json)}
    (h : Rewritten mode f place (.object fields) u w) : ∃ fields', w = .object fields' ∧
      List.Forall₂ (fun field field' => field.1 = field'.1 ∧
        Rewritten mode f ((rewriteTracker mode).member place fields field.1) field.2
          () field'.2) fields fields' := by
  cases h with
  | kept h =>
    refine ⟨fields, rfl, forall₂_same.mpr ?_⟩
    intro field _
    exact ⟨rfl, .kept (by simp [rewriteTracker, h]) field.2⟩
  | walked h hlevels hnormal hview =>
    rename_i levels tree
    cases levels with
    | zero => cases hview
    | succ levels =>
      cases view_cases.mp hview with
      | scalar _ _ ho => exact absurd rfl (ho fields)
      | object hall =>
        rename_i trees
        have hnormals : ∀ field ∈ fields, Normal maxNestingDepth field.2 := by
          generalize maxNestingDepth = bound at hnormal
          cases hnormal with
          | object _ hfields =>
            exact fun field hfield => (hfields field hfield).mono (Nat.le_succ _)
        refine ⟨_, by rw [Tree.map, Tree.write], ?_⟩
        rw [List.map_map, forall₂_map_right_iff]
        apply forall₂_imp hall
        rintro field hfield tree - ⟨hkey, hcase⟩
        refine ⟨hkey, ?_⟩
        split at hcase
        case isTrue hskip =>
          change Rewritten mode f _ field.2 () (tree.2.map f).write
          rw [hcase, Tree.map, Tree.write]
          exact .kept (by simp [rewriteTracker, hskip]) field.2
        case isFalse hskip =>
          refine .walked ?_ (Nat.le_of_succ_le hlevels) (hnormals field hfield) hcase
          simp [rewriteTracker, h, hskip]

theorem Rewritten.array {items : List Json}
    (h : Rewritten mode f place (.array items) u w) : ∃ items', w = .array items' ∧
      List.Forall₂ (fun item item' => Rewritten mode f place item u item') items items' := by
  cases h with
  | kept h =>
    exact ⟨items, rfl, forall₂_same.mpr (fun item _ => .kept h item)⟩
  | walked h hlevels hnormal hview =>
    rename_i levels tree
    cases levels with
    | zero => cases hview
    | succ levels =>
      cases view_cases.mp hview with
      | scalar _ ha => exact absurd rfl (ha items)
      | array hall =>
        rename_i trees
        have hnormals : ∀ item ∈ items, Normal maxNestingDepth item := by
          generalize maxNestingDepth = bound at hnormal
          cases hnormal with
          | array hitems =>
            exact fun item hitem => (hitems item hitem).mono (Nat.le_succ _)
        refine ⟨_, by rw [Tree.map, Tree.write], ?_⟩
        rw [List.map_map, forall₂_map_right_iff]
        apply forall₂_imp hall
        intro item hitem tree _ hview
        exact .walked h (Nat.le_of_succ_le hlevels) (hnormals item hitem) hview

theorem Rewritten.scalar (h : Rewritten mode f place value u w) (hs : ∀ text, value ≠ .string text)
    (ha : ∀ items, value ≠ .array items) (ho : ∀ fields, value ≠ .object fields) : w = value := by
  cases h with
  | kept => rfl
  | walked h hlevels hnormal hview =>
    rename_i levels tree
    cases levels with
    | zero => cases hview
    | succ levels =>
      cases view_cases.mp hview with
      | scalar => rw [Tree.map, Tree.write]
      | url | embedded | text => exact absurd rfl (hs _)
      | array => exact absurd rfl (ha _)
      | object => exact absurd rfl (ho _)

theorem Rewritten.kind {kind : Nat}
    (h : Rewritten mode f place value u w) (hkind : kindOf value = some kind) :
    kindOf w = some kind := by
  cases value with
  | number literal => rwa [h.scalar (by simp) (by simp) (by simp)]
  | null | bool value | string text | array items | object fields => cases hkind

/-- What becomes of a string: a URL is replaced where the rewrite replaces URLs,
and nothing else is a URL afterwards. -/
theorem Rewritten.string {raw : Text}
    (h : Rewritten mode f place (.string raw) u w) (hf : ∀ text, Remote text → Remote (f text)) :
    ∃ raw', w = .string raw' ∧ remoteURL (trimSpace raw') = remoteURL (trimSpace raw) ∧
      (remoteURL (trimSpace raw) = true →
        raw' = if place.replaces then f (trimSpace raw) else raw) := by
  cases h with
  | kept h => exact ⟨raw, rfl, rfl, fun _ => by simp [Place.replaces, h]⟩
  | walked h hlevels hnormal hview =>
    rename_i levels tree
    cases levels with
    | zero => cases hview
    | succ levels =>
      cases view_cases.mp hview with
      | scalar hs => exact absurd rfl (hs raw)
      | url hisURL hremote =>
        obtain ⟨hremote', htrim⟩ := hf _ (remote_trim hremote)
        refine ⟨f (trimSpace raw), by rw [Tree.map, Tree.write], ?_, ?_⟩
        · rw [htrim, hremote', hremote]
        intro _
        simp [Place.replaces, h, hisURL]
      | @embedded _ nested tree hurl hparse hopens hdecode hview' =>
        obtain ⟨hopens', htrim⟩ := ((Enclosed.of_decode hopens hdecode).write hview' f).encode
        refine ⟨encode (tree.map f).write, by rw [Tree.map, Tree.write], ?_, ?_⟩
        · rw [htrim, not_remote_of_opensJSON hopens', not_remote_of_opensJSON hopens]
        intro hremote
        rw [not_remote_of_opensJSON hopens] at hremote
        cases hremote
      | text hurl =>
        refine ⟨raw, by rw [Tree.map, Tree.write], rfl, ?_⟩
        intro hremote
        have hisURL : place.isURL = false := by
          rw [hremote, Bool.and_true] at hurl
          exact Bool.eq_false_iff.mpr hurl
        simp [Place.replaces, hisURL]

theorem Rewritten.remote
    (h : Rewritten mode f place value u w) (hf : ∀ text, Remote text → Remote (f text)) :
    Option.Rel (Replaced f) (remoteItem (place, value)) (remoteItem (u, w)) := by
  cases value with
  | string raw =>
    obtain ⟨raw', rfl, hremote, hrepld⟩ := h.string hf
    rw [remoteItem, remoteItem, hremote]
    split
    case isTrue hurl => exact .some (hrepld hurl)
    · exact .none
  | array items =>
    obtain ⟨items', rfl, -⟩ := h.array
    exact .none
  | object fields =>
    obtain ⟨fields', rfl, -⟩ := h.object
    exact .none
  | null | bool value | number literal =>
    rw [h.scalar (by simp) (by simp) (by simp)]
    exact .none

theorem Rewritten.null
    (h : Rewritten mode f place value u w) (hf : ∀ text, Remote text → Remote (f text)) :
    isNull w = isNull value := by
  cases value with
  | string raw =>
    obtain ⟨raw', rfl, -⟩ := h.string hf
    rfl
  | array items =>
    obtain ⟨items', rfl, -⟩ := h.array
    rfl
  | object fields =>
    obtain ⟨fields', rfl, -⟩ := h.object
    rfl
  | null | bool value | number literal => rw [h.scalar (by simp) (by simp) (by simp)]

theorem rewritten_simulation (hf : ∀ text, Remote text → Remote (f text)) :
    Simulation (rewriteTracker mode) plain (Rewritten mode f) (Replaced f) :=
  ⟨fun h hdecode => h.decoded hdecode, fun h => h.object, fun h => h.array,
    fun h hkind => h.kind hkind, fun h => h.null hf, fun h => h.remote hf⟩

end

theorem tracked_simulation {σ : Type} (t : Tracker σ) :
    Simulation plain t (fun _ value _ w => w = value)
      (fun source tracked => tracked.2 = source.2) where
  decoded := by
    rintro p p' raw w value rfl hdecode
    exact ⟨raw, value, rfl, hdecode, rfl⟩
  object := by
    rintro p p' fields w rfl
    exact ⟨fields, rfl, forall₂_same.mpr (fun field _ => ⟨rfl, rfl⟩)⟩
  array := by
    rintro p p' items w rfl
    exact ⟨items, rfl, forall₂_same.mpr (fun item _ => rfl)⟩
  kind := by
    rintro p p' value w kind rfl hkind
    exact hkind
  null := by
    rintro p p' value w rfl
    rfl
  remote := by
    rintro p p' value w rfl
    cases w with
    | string raw =>
      rw [remoteItem, remoteItem]
      split
      · exact .some rfl
      exact .none
    | null | bool value | number literal | array items | object fields => exact .none

def startPlace : Place := { reached := true, isURL := false, parseJSON := true }

/-- The URLs the validation relied on, with what the rewrite makes of them. -/
def primarySources (order : List (Text × Json) → List (Text × Json)) (kind : Nat)
    (content : Text) : List (Place × Text) :=
  (forwardSources (rewriteTracker (forwardMode (textMessage order))) startPlace kind content).getD []

theorem forwardSources_tracked {σ : Type} (t : Tracker σ) (start : σ) {kind : Nat} {content : Text}
    (h : validateForwardContent kind content = true) :
    ∃ found, forwardSources t start kind content = some found := by
  obtain ⟨sources, hsources⟩ := isSome_iff_exists.mp h
  rw [forwardSources] at hsources
  split at hsources
  · cases hsources
  case isFalse hsize =>
    obtain ⟨found, hfound, -⟩ := (tracked_simulation t).validateForwardValue maxLevels kind ()
      (.string content) start (.string content) rfl sources hsources
    exact ⟨found, by rw [forwardSources, if_neg hsize, hfound]⟩

/-- What the rewrite wrote is valid, and it relies on the URLs of the message as
the rewrite stored them. -/
theorem forwardSources_rewritten {mode : Mode} (hraw : mode.rawContentURL = false)
    {f : Text → Text} (hf : ∀ text, Remote text → Remote (f text)) {kind : Nat}
    {content out : Text} {visited : List Text} {found : List (Place × Text)}
    (hfound : forwardSources (rewriteTracker mode) startPlace kind content = some found)
    (hout : rewriteVisited mode (fun text => some (f text)) content = some (out, visited)) :
    ∃ stored, forwardSources plain () kind out = some stored ∧
      List.Forall₂ (Replaced f) found stored := by
  obtain ⟨tree, hreads, hbounds, hwrite, -⟩ := rewriteVisited_iff.mp hout
  have hview := hreads.view (by decide : 0 < maxLevels) hbounds.depth
  rw [hraw] at hview
  have hroot : Rewritten mode f startPlace (.string content) () (.string out) := by
    rw [← hwrite]
    exact .walked rfl (by decide) (.string _ content) hview
  rw [forwardSources] at hfound
  split at hfound
  · cases hfound
  rw [forwardSources, if_neg (Nat.not_lt.mpr hbounds.out)]
  exact (rewritten_simulation hf).validateForwardValue maxLevels kind startPlace _ () _ hroot
    found hfound

/-- The stored message relies on archived URLs only, exactly when the rewrite
replaces every URL that validation relied on, but for those archived before. -/
theorem archived_iff (order : List (Text × Json) → List (Text × Json)) (f : Text → Text)
    (hf : ∀ text, Remote text → Remote (f text)) (archived : Text → Prop)
    (harchived : ∀ text, archived (f text)) (kind : Nat) (content out : Text) (count : Nat)
    (haccepted : validateForwardContent kind content = true)
    (hout : rewriteForward (textMessage order) content (fun text => some (f text)) =
      some (out, count)) : validateForwardContent kind out = true ∧
      ((∀ url ∈ primaryURLs kind out, archived url) ↔ ∀ source ∈ primarySources order kind content,
          source.1.replaces = true ∨ archived source.2) := by
  obtain ⟨⟨written, visited⟩, hvisited, hpair⟩ := map_eq_some_iff.mp hout
  cases hpair
  obtain ⟨found, hfound⟩ := forwardSources_tracked
    (rewriteTracker (forwardMode (textMessage order))) startPlace haccepted
  obtain ⟨stored, hstored, hrepld⟩ := forwardSources_rewritten rfl hf hfound hvisited
  refine ⟨by rw [validateForwardContent, hstored]; rfl, ?_⟩
  rw [primaryURLs, primarySources, hstored, hfound, getD_some, getD_some]
  simp only [List.forall_mem_map]
  clear hstored hfound
  induction hrepld with
  | nil => simp
  | @cons source url sources urls hhead _ ih =>
    rw [forall_mem_cons, forall_mem_cons, ih]
    apply and_congr_left'
    cases hplace : source.1.replaces with
    | true =>
      rw [Replaced, hplace] at hhead
      simp [hhead, harchived]
    | false =>
      rw [Replaced, hplace] at hhead
      simp [hhead]

theorem archived_iff_picture :
    (∀ url ∈ primaryURLs 102 "\x7b\"url\":\"https://c\"\x7d".toList, url = "https://c".toList) ↔
      ∀ source ∈ primarySources id 102 "\x7b\"url\":\"https://a\"\x7d".toList,
        source.1.replaces = true ∨ source.2 = "https://c".toList :=
  (archived_iff id (fun _ => "https://c".toList) (fun _ _ => ⟨by decide, by decide⟩)
    (fun url => url = "https://c".toList) (fun _ => rfl) 102
    "\x7b\"url\":\"https://a\"\x7d".toList "\x7b\"url\":\"https://c\"\x7d".toList 1
    (by decide +kernel) (by decide +kernel)).2

/-- A source picture that is spelled as a JSON string is validated, and the
rewrite does not open it. -/
theorem stringified_picture_stays : ∃ out count, validateForwardContent 102
        "\x7b\"snapshotPicture\":\x7b\"url\":\"https://b\"\x7d,\"sourcePicture\":\"\x7b\\\"url\\\":\\\"https://a\\\"\x7d\"\x7d".toList
          = true ∧ rewriteForward (textMessage id)
        "\x7b\"snapshotPicture\":\x7b\"url\":\"https://b\"\x7d,\"sourcePicture\":\"\x7b\\\"url\\\":\\\"https://a\\\"\x7d\"\x7d".toList
        (fun _ => some "https://c".toList) = some (out, count) ∧
      ∃ url ∈ primaryURLs 102 out, url ≠ "https://c".toList := by
  refine ⟨"\x7b\"snapshotPicture\":\x7b\"url\":\"https://c\"\x7d,\"sourcePicture\":\"\x7b\\\"url\\\":\\\"https://a\\\"\x7d\"\x7d".toList,
    1, by decide +kernel, by decide +kernel, "https://a".toList, by decide +kernel, by decide⟩

end ImApp.Media
