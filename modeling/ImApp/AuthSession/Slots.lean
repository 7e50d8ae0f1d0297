import ImApp.Library.JsonText

/-!
Tokens of the client in storage. In a browser every tab has a slot of its own,
under the tab's id; the older single keys are taken over by the first tab that
finds no slots. Elsewhere the single keys are used.
-/

namespace ImApp.AuthSession

open List
open JsonText (Text)

inductive Platform where
  | web (tab : Text)
  | app

/-- Empty where there are no tabs. -/
def Platform.currentTabId : Platform → Text
  | .web tab => tab
  | .app => []

structure AuthSlot where
  access : Text
  refresh : Text
  writtenAt : Nat

def slotTTL : Nat := 30 * 24 * 60 * 60 * 1000

/-- A key that is not stored reads as the empty text. -/
structure Storage where
  slots : List (Text × AuthSlot)
  token : Text
  refreshToken : Text
  activeTab : Text

def expired (now : Nat) (slot : AuthSlot) : Bool :=
  slot.writtenAt ≠ 0 && slotTTL < now - slot.writtenAt

def writeSlots (now : Nat) (slots : List (Text × AuthSlot)) (storage : Storage) : Storage :=
  { storage with slots := slots.filter (fun entry => !expired now entry.2) }

def readLegacy (now : Nat) (storage : Storage) : Option AuthSlot :=
  if storage.token = [] ∧ storage.refreshToken = [] then none
  else some ⟨storage.token, storage.refreshToken, now⟩

def clearLegacy (storage : Storage) : Storage := { storage with token := [], refreshToken := [] }

def setSlot (tab : Text) (slot : AuthSlot) (slots : List (Text × AuthSlot)) :
    List (Text × AuthSlot) :=
  slots.filter (fun entry => entry.1 ≠ tab) ++ [(tab, slot)]

/-- The slot, and storage after the older keys were taken over. -/
def slotOfThisTab (tab : Text) (now : Nat) (storage : Storage) : Option AuthSlot × Storage :=
  if tab = [] then (none, storage)
  else match storage.slots.lookup tab with
    | some slot => (some slot, storage)
    | none => match readLegacy now storage with
      | none => (none, storage)
      | some legacy =>
        if storage.slots ≠ [] then (none, storage)
        else (some legacy, clearLegacy (writeSlots now (setSlot tab legacy storage.slots) storage))

structure Patch where
  access : Option Text
  refresh : Option Text

def updateSlot (tab : Text) (now : Nat) (patch : Patch) (storage : Storage) : Storage :=
  if tab = [] then
    { storage with
      token := patch.access.getD storage.token
      refreshToken := patch.refresh.getD storage.refreshToken }
  else
    let prev := (storage.slots.lookup tab).getD ⟨[], [], now⟩
    let slot : AuthSlot := ⟨patch.access.getD prev.access, patch.refresh.getD prev.refresh, now⟩
    { clearLegacy (writeSlots now (setSlot tab slot storage.slots) storage) with activeTab := tab }

def getToken (tab : Text) (now : Nat) (storage : Storage) : Text × Storage :=
  match slotOfThisTab tab now storage with
  | (some slot, storage) => (slot.access, storage)
  | (none, storage) => (if tab ≠ [] then [] else storage.token, storage)

def getRefreshToken (tab : Text) (now : Nat) (storage : Storage) : Text × Storage :=
  match slotOfThisTab tab now storage with
  | (some slot, storage) => (slot.refresh, storage)
  | (none, storage) => (if tab ≠ [] then [] else storage.refreshToken, storage)

def setToken (tab : Text) (now : Nat) (token : Text) (storage : Storage) : Storage :=
  updateSlot tab now ⟨some token, none⟩ storage

def setRefreshToken (tab : Text) (now : Nat) (token : Text) (storage : Storage) : Storage :=
  updateSlot tab now ⟨none, some token⟩ storage

def clearToken (tab : Text) (now : Nat) (storage : Storage) : Storage :=
  if tab = [] then clearLegacy storage
  else
    { clearLegacy (writeSlots now (storage.slots.filter (fun entry => entry.1 ≠ tab)) storage) with
      activeTab := if storage.activeTab = tab then [] else storage.activeTab }

/-- What follows once `persistTokenAsync` is through. -/
def confirmToken (tab : Text) (now : Nat) (token : Text) (storage : Storage) : Storage :=
  if (getToken tab now storage).1 ≠ token then setToken tab now token (getToken tab now storage).2
  else (getToken tab now storage).2

/-- What follows once `persistRefreshTokenAsync` is through. -/
def confirmRefreshToken (tab : Text) (now : Nat) (token : Text) (storage : Storage) : Storage :=
  if (getRefreshToken tab now storage).1 ≠ token then
    setRefreshToken tab now token (getRefreshToken tab now storage).2
  else (getRefreshToken tab now storage).2

/-- The access and the refresh token that are read. -/
def tokens (tab : Text) (storage : Storage) : Text × Text :=
  if tab = [] then (storage.token, storage.refreshToken)
  else match storage.slots.lookup tab with
    | some slot => (slot.access, slot.refresh)
    | none => if storage.slots ≠ [] then ([], []) else (storage.token, storage.refreshToken)

section

variable {tab : Text} {now : Nat} {storage : Storage}

theorem lookup_setSlot (tab : Text) (slot : AuthSlot) (slots : List (Text × AuthSlot)) :
    (setSlot tab slot slots).lookup tab = some slot := by
  rw [setSlot]
  induction slots with
  | nil => simp
  | cons entry slots ih =>
    rw [filter_cons]
    split
    case isTrue hother =>
      have hne : (tab == entry.1) = false :=
        beq_eq_false_iff_ne.mpr (Ne.symm (of_decide_eq_true hother))
      rw [cons_append, lookup_cons, hne]
      exact ih
    · exact ih

theorem lookup_live {slots : List (Text × AuthSlot)} {slot : AuthSlot}
    (hlive : expired now slot = false) (h : slots.lookup tab = some slot) :
    (slots.filter (fun entry => !expired now entry.2)).lookup tab = some slot := by
  induction slots with
  | nil => cases h
  | cons entry slots ih =>
    rw [lookup_cons] at h
    rw [filter_cons]
    split at h
    case h_1 htab =>
      cases h
      rw [if_pos (by simp [hlive]), lookup_cons, htab]
    case h_2 htab =>
      split
      · rw [lookup_cons, htab]
        exact ih h
      exact ih h

theorem lookup_dropped (tab : Text) (now : Nat) (slots : List (Text × AuthSlot)) :
    ((slots.filter (fun entry => entry.1 ≠ tab)).filter
      (fun entry => !expired now entry.2)).lookup tab = none := by
  rw [lookup_eq_none_iff]
  intro entry hentry
  have hne := of_mem_filter (mem_of_mem_filter hentry)
  exact bne_iff_ne.mpr (Ne.symm (of_decide_eq_true hne))

theorem fresh_not_expired (now : Nat) (access refresh : Text) : expired now ⟨access, refresh, now⟩ = false := by
  rw [expired, Nat.sub_self, decide_eq_false (Nat.not_lt_zero _), Bool.and_false]

theorem tokens_written (htab : tab ≠ []) (access refresh : Text) (slots : List (Text × AuthSlot)) :
    tokens tab (clearLegacy (writeSlots now (setSlot tab ⟨access, refresh, now⟩ slots) storage)) =
      (access, refresh) := by
  have hlook := lookup_live (fresh_not_expired now access refresh)
    (lookup_setSlot tab ⟨access, refresh, now⟩ slots)
  rw [tokens, if_neg htab]
  simp only [clearLegacy, writeSlots, hlook]

theorem slotOfThisTab_tokens (htab : tab ≠ []) :
    ((slotOfThisTab tab now storage).1.map (fun slot => (slot.access, slot.refresh))).getD
        ([], []) = tokens tab storage ∧
      tokens tab (slotOfThisTab tab now storage).2 = tokens tab storage := by
  rw [slotOfThisTab, if_neg htab]
  split
  case h_1 slot hslot => simp [tokens, htab, hslot]
  case h_2 hslot =>
    split
    case h_1 hlegacy =>
      have hempty : storage.token = [] ∧ storage.refreshToken = [] := by
        by_contra hne
        rw [readLegacy, if_neg hne] at hlegacy
        cases hlegacy
      simp [tokens, htab, hslot, hempty]
    case h_2 legacy hlegacy =>
      rw [readLegacy] at hlegacy
      split at hlegacy
      · cases hlegacy
      cases hlegacy
      split
      case isTrue hslots => simp [tokens, htab, hslot, hslots]
      case isFalse hslots =>
        rw [tokens_written htab]
        simp only [not_not] at hslots
        simp [tokens, htab, hslots]

theorem getToken_fst : (getToken tab now storage).1 = (tokens tab storage).1 := by
  rcases eq_or_ne tab [] with rfl | htab
  · rfl
  have htokens := (@slotOfThisTab_tokens tab now storage htab).1
  rw [getToken, ← htokens]
  rcases slotOfThisTab tab now storage with ⟨slot, after⟩
  cases slot with
  | none => simp [htab]
  | some slot => rfl

theorem getRefreshToken_fst : (getRefreshToken tab now storage).1 = (tokens tab storage).2 := by
  rcases eq_or_ne tab [] with rfl | htab
  · rfl
  have htokens := (@slotOfThisTab_tokens tab now storage htab).1
  rw [getRefreshToken, ← htokens]
  rcases slotOfThisTab tab now storage with ⟨slot, after⟩
  cases slot with
  | none => simp [htab]
  | some slot => rfl

theorem getToken_snd : (getToken tab now storage).2 = (slotOfThisTab tab now storage).2 := by
  rw [getToken]
  rcases slotOfThisTab tab now storage with ⟨slot, after⟩
  cases slot <;> rfl

theorem getRefreshToken_snd :
    (getRefreshToken tab now storage).2 = (slotOfThisTab tab now storage).2 := by
  rw [getRefreshToken]
  rcases slotOfThisTab tab now storage with ⟨slot, after⟩
  cases slot <;> rfl

theorem tokens_slotOfThisTab : tokens tab (slotOfThisTab tab now storage).2 = tokens tab storage := by
  rcases eq_or_ne tab [] with rfl | htab
  · rfl
  exact (slotOfThisTab_tokens htab).2

/-- What `updateSlot` keeps of. -/
def held (tab : Text) (storage : Storage) : Text × Text :=
  if tab = [] then (storage.token, storage.refreshToken)
  else ((storage.slots.lookup tab).map (fun slot => (slot.access, slot.refresh))).getD ([], [])

theorem updateSlot_tokens (patch : Patch) : tokens tab (updateSlot tab now patch storage) =
        (patch.access.getD (held tab storage).1, patch.refresh.getD (held tab storage).2) ∧
      held tab (updateSlot tab now patch storage) =
        tokens tab (updateSlot tab now patch storage) := by
  rw [updateSlot]
  split
  case isTrue htab => simp [tokens, held, htab]
  case isFalse htab =>
    have hlook := fun access refresh => lookup_live (fresh_not_expired now access refresh)
      (lookup_setSlot tab ⟨access, refresh, now⟩ storage.slots)
    simp only [tokens, held, htab, if_false, clearLegacy, writeSlots, hlook]
    cases storage.slots.lookup tab with
    | none | some slot => exact ⟨rfl, rfl⟩

theorem tokens_set (access refresh : Text) :
    tokens tab (setRefreshToken tab now refresh (setToken tab now access storage)) =
      (access, refresh) := by
  rw [setRefreshToken, (updateSlot_tokens _).1, setToken, (updateSlot_tokens _).2,
    (updateSlot_tokens _).1]
  rfl

theorem tokens_confirmToken {token : Text} (h : (tokens tab storage).1 = token) :
    tokens tab (confirmToken tab now token storage) = tokens tab storage := by
  rw [confirmToken, getToken_fst, if_neg (not_not.mpr h), getToken_snd, tokens_slotOfThisTab]

theorem tokens_confirmRefreshToken {token : Text} (h : (tokens tab storage).2 = token) :
    tokens tab (confirmRefreshToken tab now token storage) = tokens tab storage := by
  rw [confirmRefreshToken, getRefreshToken_fst, if_neg (not_not.mpr h), getRefreshToken_snd,
    tokens_slotOfThisTab]

theorem tokens_clearToken : tokens tab (clearToken tab now storage) = ([], []) := by
  rw [clearToken]
  split
  case isTrue htab => simp [tokens, htab, clearLegacy]
  case isFalse htab =>
    have hlook := lookup_dropped tab now storage.slots
    simp only [tokens, htab, if_false, clearLegacy, writeSlots, hlook]
    exact ite_self _

end

end ImApp.AuthSession
