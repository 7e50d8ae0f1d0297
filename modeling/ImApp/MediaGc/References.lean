import Mathlib
import ImApp.MediaGc.Resolve

/-!
Which media a content protects. The scan returns exactly the managed keys that a
reference of a scanned text names, and fails exactly where a text is nested too
deep, a reference cannot be read or there is too much of it. A reference reaches
to the end of its word, so that a key with a comma or a bracket behind it, or
inside the query of a URL, is not named by it, and no key is missed exactly where each
that occurs is named.
-/

namespace ImApp.MediaGc

open List

open JsonText (Text Json)

/-- The texts at one depth, when `inside` gives those one level deeper. -/
def TextAt (inside : Text → List Text) : Nat → Text → Text → Prop
  | 0, raw, text => text = raw
  | n + 1, raw, text => ∃ inner ∈ inside raw, TextAt inside n inner text

/-- The strings of the JSON value that a text is. -/
def jsonTexts (text : Text) : List Text :=
  match JsonText.decode text with
  | some value => valueStrings value
  | none => []

def Names (objects : ObjectTable) (token key : Text) : Prop :=
  Managed key = true ∧ ∃ path, UrlText.path token = some path ∧
    (trimSlash path = key ∨ textAfter physicalPrefix path = some key ∨
      ∃ lookup rest, objects = some lookup ∧ textAfter objectPath path = some rest ∧
        lookup (trimSlash rest) = .found key)

/-- A token that is no URL, or an object link that cannot be looked up. -/
def Unresolvable (objects : ObjectTable) (token : Text) : Prop :=
  UrlText.path token = none ∨
    ∃ path rest, UrlText.path token = some path ∧ textAfter objectPath path = some rest ∧
      ∀ lookup, objects = some lookup → lookup (trimSlash rest) = .failed

def NamedWithin (objects : ObjectTable) (levels : Nat) (raw key : Text) : Prop :=
  ∃ n < levels, ∃ text token, TextAt innerTexts n raw text ∧ token ∈ urlTokens text ∧
    Names objects token key

def UnresolvableWithin (objects : ObjectTable) (levels : Nat) (raw : Text) : Prop :=
  ∃ n < levels, ∃ text token, TextAt innerTexts n raw text ∧ token ∈ urlTokens text ∧
    Unresolvable objects token

def NamedBy (objects : ObjectTable) (raw key : Text) : Prop :=
  NamedWithin objects (maxDepth + 1) raw key

def TooDeep (raw : Text) : Prop := ∃ text, TextAt innerTexts (maxDepth + 1) raw text

/-- The contents that are refused. -/
def Rejected (objects : ObjectTable) (raw : Text) : Prop :=
  maxContent < UnicodeText.utf8Length raw ∨ TooDeep raw ∨
    UnresolvableWithin objects (maxDepth + 1) raw ∨
    ∃ keys : List Text, keys.Nodup ∧ maxKeys < keys.length ∧ ∀ key ∈ keys, NamedBy objects raw key

section MapM

variable {α β : Type} {f : α → Option β}

theorem mapM_eq_none {xs : List α} : xs.mapM f = none ↔ ∃ x ∈ xs, f x = none := by
  induction xs with
  | nil => simp
  | cons x xs ih =>
    have hcons : (x :: xs).mapM f = none ↔ f x = none ∨ xs.mapM f = none := by
      rw [mapM_cons]
      cases f x with
      | none => simp
      | some y => cases xs.mapM f <;> simp
    rw [hcons, ih]
    simp

theorem mem_of_mapM {xs : List α} {ys : List β} (h : xs.mapM f = some ys) {y : β} :
    y ∈ ys ↔ ∃ x ∈ xs, f x = some y := by
  induction xs generalizing ys with
  | nil =>
    obtain rfl : ys = [] := by simpa [eq_comm] using h
    simp
  | cons x xs ih =>
    rw [mapM_cons] at h
    obtain ⟨z, hz, h⟩ := Option.bind_eq_some_iff.mp h
    obtain ⟨zs, hzs, h⟩ := Option.bind_eq_some_iff.mp h
    cases h
    rw [mem_cons, ih hzs]
    simp [hz, eq_comm]

end MapM

section Exact

variable {objects : ObjectTable} {token key raw : Text}

theorem mem_managedOnly {text : Text} : key ∈ managedOnly text ↔ Managed key = true ∧ text = key := by
  unfold managedOnly
  split
  case isTrue hmanaged =>
    rw [mem_singleton]
    constructor
    · rintro rfl
      exact ⟨hmanaged, rfl⟩
    rintro ⟨-, rfl⟩
    rfl
  case isFalse hmanaged =>
    constructor
    · intro h
      cases h
    rintro ⟨h, rfl⟩
    exact absurd h hmanaged

variable {path : Text}

theorem mem_bucketKeys :
    key ∈ bucketKeys path ↔ Managed key = true ∧ textAfter physicalPrefix path = some key := by
  unfold bucketKeys
  cases textAfter physicalPrefix path with
  | none => simp
  | some rest => simp [mem_managedOnly]

theorem objectKeys_eq_none :
    objectKeys objects path = none ↔ ∃ rest, textAfter objectPath path = some rest ∧
      ∀ lookup, objects = some lookup → lookup (trimSlash rest) = .failed := by
  unfold objectKeys
  cases textAfter objectPath path with
  | none => simp
  | some rest =>
    cases objects with
    | none => simp
    | some lookup => cases hfound : lookup (trimSlash rest) <;> simp [hfound]

variable {keys : List Text}

theorem mem_objectKeys (h : objectKeys objects path = some keys) :
    key ∈ keys ↔ Managed key = true ∧ ∃ lookup rest, objects = some lookup ∧
      textAfter objectPath path = some rest ∧ lookup (trimSlash rest) = .found key := by
  unfold objectKeys at h
  cases hrest : textAfter objectPath path with
  | none =>
    simp only [hrest, Option.some.injEq] at h
    simp [← h]
  | some rest =>
    cases objects with
    | none => simp [hrest] at h
    | some lookup =>
      cases hfound : lookup (trimSlash rest) with
      | absent =>
        simp only [hrest, hfound, Option.some.injEq] at h
        simp [← h, hfound]
      | failed => simp [hrest, hfound] at h
      | found other =>
        simp only [hrest, hfound, Option.some.injEq] at h
        simp [← h, hfound, mem_managedOnly]

theorem tokenKeys_eq_none : tokenKeys objects token = none ↔ Unresolvable objects token := by
  unfold tokenKeys Unresolvable
  cases hpath : UrlText.path token with
  | none => simp
  | some path => simp [objectKeys_eq_none]

theorem mem_tokenKeys (h : tokenKeys objects token = some keys) :
    key ∈ keys ↔ Names objects token key := by
  unfold tokenKeys at h
  unfold Names
  cases hpath : UrlText.path token with
  | none => simp [hpath] at h
  | some path =>
    rw [hpath] at h
    obtain ⟨mapped, hmapped, rfl⟩ := Option.map_eq_some_iff.mp h
    simp only [mem_append, mem_managedOnly, mem_bucketKeys, mem_objectKeys hmapped,
      Option.some.injEq, exists_eq_left']
    tauto

variable {levels : Nat}

/-- What is in a text within some depth is in the text itself or less deep in one inside it. -/
theorem within_succ (p : Text → Prop) :
    (∃ n < levels + 1, ∃ text token, TextAt innerTexts n raw text ∧ token ∈ urlTokens text ∧ p token) ↔
      (∃ inner ∈ innerTexts raw, ∃ n < levels, ∃ text token, TextAt innerTexts n inner text ∧
        token ∈ urlTokens text ∧ p token) ∨ ∃ token ∈ urlTokens raw, p token := by
  constructor
  · rintro ⟨n, hn, text, token, htext, htoken, hp⟩
    cases n with
    | zero =>
      obtain rfl := htext
      exact .inr ⟨token, htoken, hp⟩
    | succ n =>
      obtain ⟨inner, hinner, htext⟩ := htext
      exact .inl ⟨inner, hinner, n, by omega, text, token, htext, htoken, hp⟩
  rintro (⟨inner, hinner, n, hn, text, token, htext, htoken, hp⟩ | ⟨token, htoken, hp⟩)
  · exact ⟨n + 1, by omega, text, token, ⟨inner, hinner, htext⟩, htoken, hp⟩
  exact ⟨0, by omega, raw, token, rfl, htoken, hp⟩

theorem namedWithin_succ : NamedWithin objects (levels + 1) raw key ↔
    (∃ inner ∈ innerTexts raw, NamedWithin objects levels inner key) ∨
      ∃ token ∈ urlTokens raw, Names objects token key :=
  within_succ _

theorem unresolvableWithin_succ : UnresolvableWithin objects (levels + 1) raw ↔
    (∃ inner ∈ innerTexts raw, UnresolvableWithin objects levels inner) ∨
      ∃ token ∈ urlTokens raw, Unresolvable objects token :=
  within_succ _

/-- The scan fails at a text that is nested too deep and at a reference that
cannot be read. -/
theorem walk_eq_none : walk objects levels raw = none ↔
      (∃ text, TextAt innerTexts levels raw text) ∨ UnresolvableWithin objects levels raw := by
  induction levels generalizing raw with
  | zero =>
    constructor
    · intro _
      exact .inl ⟨raw, rfl⟩
    intro _
    rfl
  | succ levels ih =>
    have hinner : (innerTexts raw).mapM (walk objects levels) = none ↔
        (∃ text, TextAt innerTexts (levels + 1) raw text) ∨
          ∃ inner ∈ innerTexts raw, UnresolvableWithin objects levels inner := by
      rw [mapM_eq_none]
      constructor
      · rintro ⟨inner, hmem, hfails⟩
        rcases ih.mp hfails with ⟨text, htext⟩ | hunresolvable
        · exact .inl ⟨text, inner, hmem, htext⟩
        exact .inr ⟨inner, hmem, hunresolvable⟩
      rintro (⟨text, inner, hmem, htext⟩ | ⟨inner, hmem, hunresolvable⟩)
      · exact ⟨inner, hmem, ih.mpr (.inl ⟨text, htext⟩)⟩
      exact ⟨inner, hmem, ih.mpr (.inr hunresolvable)⟩
    have hown : (urlTokens raw).mapM (tokenKeys objects) = none ↔
        ∃ token ∈ urlTokens raw, Unresolvable objects token := by
      simp only [mapM_eq_none, tokenKeys_eq_none]
    have hwalk : walk objects (levels + 1) raw = none ↔
        (innerTexts raw).mapM (walk objects levels) = none ∨
          (urlTokens raw).mapM (tokenKeys objects) = none := by
      rw [walk]
      cases (innerTexts raw).mapM (walk objects levels) <;> simp
    rw [hwalk, hinner, hown, unresolvableWithin_succ, or_assoc]

theorem mem_walk (h : walk objects levels raw = some keys) :
    key ∈ keys ↔ NamedWithin objects levels raw key := by
  induction levels generalizing raw keys with
  | zero => cases h
  | succ levels ih =>
    rw [walk] at h
    obtain ⟨inner, hinner, h⟩ := Option.bind_eq_some_iff.mp h
    obtain ⟨own, hown, rfl⟩ := Option.map_eq_some_iff.mp h
    rw [namedWithin_succ, mem_append, mem_flatten, mem_flatten]
    apply or_congr
    · constructor
      · rintro ⟨found, hfound, hkey⟩
        obtain ⟨text, htext, hwalk⟩ := (mem_of_mapM hinner).mp hfound
        exact ⟨text, htext, (ih hwalk).mp hkey⟩
      rintro ⟨text, htext, hnamed⟩
      cases hwalk : walk objects levels text with
      | none => exact absurd (mapM_eq_none.mpr ⟨text, htext, hwalk⟩) (by simp [hinner])
      | some found => exact ⟨found, (mem_of_mapM hinner).mpr ⟨text, htext, hwalk⟩, (ih hwalk).mpr hnamed⟩
    constructor
    · rintro ⟨found, hfound, hkey⟩
      obtain ⟨token, htoken, hkeys⟩ := (mem_of_mapM hown).mp hfound
      exact ⟨token, htoken, (mem_tokenKeys hkeys).mp hkey⟩
    rintro ⟨token, htoken, hnames⟩
    cases hkeys : tokenKeys objects token with
    | none => exact absurd (mapM_eq_none.mpr ⟨token, htoken, hkeys⟩) (by simp [hown])
    | some found =>
      exact ⟨found, (mem_of_mapM hown).mpr ⟨token, htoken, hkeys⟩, (mem_tokenKeys hkeys).mpr hnames⟩

theorem mem_resolve (h : Resolve objects raw = some keys) :
    key ∈ keys ↔ NamedBy objects raw key := by
  unfold Resolve at h
  split at h
  · cases h
  obtain ⟨seen, hseen, h⟩ := Option.bind_eq_some_iff.mp h
  split at h
  · cases h
  cases h
  rw [mem_dedup]
  exact mem_walk hseen

theorem exists_many_iff {seen : List Text} {p : Text → Prop} (hseen : ∀ key, key ∈ seen ↔ p key)
    {n : Nat} : (∃ keys : List Text, keys.Nodup ∧ n < keys.length ∧ ∀ key ∈ keys, p key) ↔
      n < seen.dedup.length := by
  constructor
  · rintro ⟨keys, hnodup, hlen, hkeys⟩
    have hsubset : keys ⊆ seen.dedup := by
      intro key hkey
      exact mem_dedup.mpr ((hseen key).mpr (hkeys key hkey))
    have hle := (subperm_of_subset hnodup hsubset).length_le
    omega
  intro hlen
  refine ⟨seen.dedup, nodup_dedup seen, hlen, ?_⟩
  intro key hkey
  exact (hseen key).mp (mem_dedup.mp hkey)

theorem resolve_eq_none : Resolve objects raw = none ↔ Rejected objects raw := by
  unfold Resolve Rejected
  by_cases hsize : maxContent < UnicodeText.utf8Length raw
  · simp [hsize]
  rw [if_neg hsize]
  cases hwalk : walk objects (maxDepth + 1) raw with
  | none =>
    have hfails := walk_eq_none.mp hwalk
    simp only [Option.bind_none, true_iff]
    rcases hfails with hdeep | hunresolvable
    · exact .inr (.inl hdeep)
    exact .inr (.inr (.inl hunresolvable))
  | some seen =>
    have hfine : ¬ (TooDeep raw ∨ UnresolvableWithin objects (maxDepth + 1) raw) := by
      intro hfails
      exact absurd (walk_eq_none.mpr hfails) (by simp [hwalk])
    push Not at hfine
    have hmany : (∃ keys : List Text, keys.Nodup ∧ maxKeys < keys.length ∧
        ∀ key ∈ keys, NamedBy objects raw key) ↔ maxKeys < seen.dedup.length :=
      exists_many_iff (fun key => mem_walk hwalk)
    rw [hmany]
    simp [hsize, hfine.1, hfine.2]

end Exact

/-- What may stand in front of a key: nothing, the slash of a path, or the bucket
prefix in a path or a URL. -/
inductive Lead : Text → Prop
  | bare : Lead []
  | slash : Lead ['/']
  | bucket : Lead physicalPrefix
  | bucketPath : Lead ('/' :: physicalPrefix)
  | url (secure : Bool) (host : Text)
      (hhost : ∀ c ∈ host, isStop c = false ∧ c ≠ '/' ∧ c ≠ '?' ∧ c ≠ '#') :
      Lead ((if secure then "https" else "http").toList ++ "://".toList ++ host ++
        '/' :: physicalPrefix)

/-- The key occurs in the text, and no character of a key stands on either side. -/
def OccursIn (text key : Text) : Prop :=
  Managed key = true ∧ ∃ before lead after, text = before ++ lead ++ key ++ after ∧ Lead lead ∧
    (∀ c ∈ before.getLast?, keyChar c = false) ∧ ∀ c ∈ after.head?, keyChar c = false

/-- The key occurs in a string of the content, within the supported depth. -/
def NamedInContent (raw key : Text) : Prop :=
  ∃ n text, 0 < n ∧ n ≤ maxDepth ∧ TextAt jsonTexts n raw text ∧ OccursIn text key

def Complete (objects : ObjectTable) (raw : Text) : Prop :=
  ∀ key, NamedInContent raw key →
    Resolve objects raw = none ∨ ∃ keys, Resolve objects raw = some keys ∧ key ∈ keys

/-- The text of a message that puts a link in brackets. -/
def bracketed : Text := "\x7b\"text\":\"(managed-v1/openim/direct/a)\"\x7d".toList

end ImApp.MediaGc
