import ImApp.BodyPurge.Calls

/-!
What the documents keep through all writes: fences only grow, slots below a fence are empty
and below the boundary of the conversation, and slots stay at their index.
-/

namespace ImApp.BodyPurge

open List Option Conversation

/-- The number of slots below the fence. -/
def fence (doc : Option MsgDoc) : ℕ := (doc.bind MsgDoc.im_app_purged_slots).getD 0

/-- The slot of a seq is below the fence of its document. -/
def Fenced (d : Conversation) (seq : ℕ) : Prop := indexOf seq < fence (d.docs (docOf seq))

def PurgedTo (d : Conversation) (next : ℕ) : Prop := ∀ seq, 1 ≤ seq → seq < next → Fenced d seq

structure DocKept (min_seq n : ℕ) (doc : MsgDoc) : Prop where
  layout : Layout n doc
  slots : fence (some doc) ≤ 100
  empty : ∀ index, index < fence (some doc) → doc.msgs[index]? = some .empty
  below : ∀ index, index < fence (some doc) → seqAt n index < min_seq

structure Kept (d : Conversation) : Prop where
  docs : ∀ n doc, d.docs n = some doc → DocKept d.min_seq n doc
  below : d.im_app_body_purged_before ≤ d.min_seq
  purged : PurgedTo d d.im_app_body_purged_before
  done : ∀ receipt ∈ d.receipts, receipt.body_done = true → PurgedTo d receipt.boundary
  stored : ∀ e ∈ d.stored, e.im_app_body_purged_before ≤ e.seq
  scrubbed : ∀ e ∈ d.scrubbed, e.seq < e.min_seq
  rejected : ∀ e ∈ d.rejected, e.seq < e.min_seq

/-- What a statement has to know for its write. -/
def Sound (d : Conversation) : Write → Prop
  | .scrub n slots => slots ≤ 100 ∧ (∃ doc, d.docs n = some doc) ∧
      ∀ index, index < slots → seqAt n index < d.min_seq
  | .progress next => next ≤ d.min_seq ∧ PurgedTo d next
  | .body_done _ boundary => PurgedTo d boundary
  | .store n index _ => index < 100 ∧ ∃ doc, d.docs n = some doc ∧ doc.admits index = true
  | .reject n index => ∃ doc, d.docs n = some doc ∧ doc.admits index = false
  | .create n _ => d.docs n = none
  | .remove n => ∃ doc, d.docs n = some doc ∧ doc.im_app_purged_slots = none
  | _ => True

/-- What no write takes back. -/
structure Grows (d d' : Conversation) : Prop where
  min_seq : d.min_seq ≤ d'.min_seq
  purged : d.im_app_body_purged_before ≤ d'.im_app_body_purged_before
  fences : ∀ n, fence (d.docs n) ≤ fence (d'.docs n)

variable {d d' : Conversation} {n index : ℕ} {doc : MsgDoc} {w : Write}

theorem Grows.refl (d : Conversation) : Grows d d :=
  ⟨Nat.le_refl _, Nat.le_refl _, fun _ => Nat.le_refl _⟩

theorem Grows.trans {d'' : Conversation} (h : Grows d d') (h' : Grows d' d'') : Grows d d'' :=
  ⟨h.min_seq.trans h'.min_seq, h.purged.trans h'.purged, fun n => (h.fences n).trans (h'.fences n)⟩

theorem PurgedTo.grows {next : ℕ} (h : PurgedTo d next) (hgrows : Grows d d') : PurgedTo d' next :=
  fun seq hfirst hseq => Nat.lt_of_lt_of_le (h seq hfirst hseq) (hgrows.fences (docOf seq))

theorem PurgedTo.mono {next next' : ℕ} (h : PurgedTo d next) (hle : next' ≤ next) : PurgedTo d next' :=
  fun seq hfirst hseq => h seq hfirst (Nat.lt_of_lt_of_le hseq hle)

theorem docOf_seqAt (h : index < 100) : docOf (seqAt n index) = n := by
  unfold docOf seqAt
  omega

theorem indexOf_seqAt (h : index < 100) : indexOf (seqAt n index) = index := by
  unfold indexOf seqAt
  omega

theorem fence_some (doc : MsgDoc) : fence (some doc) = doc.im_app_purged_slots.getD 0 := rfl

theorem admits_iff : doc.admits index = true ↔ fence (some doc) ≤ index := by
  rw [fence_some, MsgDoc.admits]
  cases doc.im_app_purged_slots with
  | none => exact ⟨fun _ => Nat.zero_le _, fun _ => rfl⟩
  | some slots => exact decide_eq_true_iff

theorem fence_setDoc (m : ℕ) (doc : Option MsgDoc) (hfence : fence (d.docs n) ≤ fence doc) :
    fence (d.docs m) ≤ fence ((d.setDoc n doc).docs m) := by
  by_cases hsame : m = n
  · subst hsame
    rwa [setDoc_self]
  rw [setDoc_of_ne hsame]

theorem setDoc_some {m : ℕ} {doc : Option MsgDoc} {found : MsgDoc}
    (h : (d.setDoc n doc).docs m = some found) :
    (m = n ∧ doc = some found) ∨ d.docs m = some found := by
  by_cases hsame : m = n
  · subst hsame
    rw [setDoc_self] at h
    exact .inl ⟨rfl, h⟩
  rw [setDoc_of_ne hsame] at h
  exact .inr h

theorem fence_scrub (slots : ℕ) : fence (some (doc.scrub slots)) = max (fence (some doc)) slots := rfl

theorem layout_empty (fenced : Option ℕ) : Layout n ⟨imAppEmptySlots, fenced⟩ := by
  refine ⟨length_replicate .., ?_⟩
  intro index slot m hslot hmsg
  have hempty : slot = .empty := eq_of_mem_replicate (mem_of_getElem? hslot)
  rw [hempty] at hmsg
  cases hmsg

theorem Sound.grows (h : Sound d w) : Grows d (d.write w) := by
  cases w with
  | skeleton n =>
    refine ⟨Nat.le_refl _, Nat.le_refl _, fun m => fence_setDoc m _ ?_⟩
    cases hdoc : d.docs n with
    | none => exact Nat.zero_le _
    | some doc => exact Nat.le_refl _
  | scrub n slots =>
    refine ⟨Nat.le_refl _, Nat.le_refl _, fun m => fence_setDoc m _ ?_⟩
    obtain ⟨-, ⟨doc, hdoc⟩, -⟩ := h
    rw [hdoc]
    exact Nat.le_max_left _ _
  | progress next => exact ⟨Nat.le_refl _, Nat.le_max_left _ _, fun _ => Nat.le_refl _⟩
  | store n index update | clear n =>
    refine ⟨Nat.le_refl _, Nat.le_refl _, fun m => fence_setDoc m _ ?_⟩
    cases d.docs n with
    | none | some doc => exact Nat.le_refl _
  | create n contents =>
    refine ⟨Nat.le_refl _, Nat.le_refl _, fun m => fence_setDoc m _ ?_⟩
    have hmissing : d.docs n = none := h
    rw [hmissing]
    exact Nat.le_refl _
  | remove n =>
    refine ⟨Nat.le_refl _, Nat.le_refl _, fun m => fence_setDoc m _ ?_⟩
    obtain ⟨doc, hdoc, hunfenced⟩ := h
    rw [hdoc, fence_some, hunfenced]
    exact Nat.le_refl _
  | min_seq boundary => exact ⟨Nat.le_max_left _ _, Nat.le_refl _, fun _ => Nat.le_refl _⟩
  | _ => exact ⟨Nat.le_refl _, Nat.le_refl _, fun _ => Nat.le_refl _⟩

theorem DocKept.later {min_seq min_seq' : ℕ} (h : DocKept min_seq n doc) (hle : min_seq ≤ min_seq') :
    DocKept min_seq' n doc :=
  ⟨h.layout, h.slots, h.empty, fun index hindex => Nat.lt_of_lt_of_le (h.below index hindex) hle⟩

theorem Layout.kept {min_seq : ℕ} (h : Layout n doc) (hunfenced : doc.im_app_purged_slots = none) :
    DocKept min_seq n doc := by
  have hzero : fence (some doc) = 0 := by
    rw [fence_some, hunfenced]
    rfl
  refine ⟨h, ?_, ?_, ?_⟩
  · omega
  · intro index hindex
    omega
  intro index hindex
  omega

theorem DocKept.clear {min_seq : ℕ} (h : DocKept min_seq n doc) : DocKept min_seq n doc.clear := by
  refine ⟨layout_empty _, h.slots, ?_, h.below⟩
  intro index hindex
  have hindex : index < 100 := Nat.lt_of_lt_of_le hindex h.slots
  exact getElem?_replicate_of_lt hindex

theorem DocKept.scrub {min_seq slots : ℕ} (h : DocKept min_seq n doc) (hslots : slots ≤ 100)
    (hbelow : ∀ index, index < slots → seqAt n index < min_seq) : DocKept min_seq n (doc.scrub slots) := by
  have hlen : doc.msgs.length = 100 := h.layout.length
  have hmsgs : ∀ index, (doc.scrub slots).msgs[index]? =
      if index < slots then some .empty else doc.msgs[index]? := by
    intro index
    change (List.replicate slots MsgInfo.empty ++ doc.msgs.drop slots)[index]? = _
    rw [getElem?_append, length_replicate]
    split
    · rename_i hlt
      exact getElem?_replicate_of_lt hlt
    rw [getElem?_drop]
    congr 1
    omega
  refine ⟨⟨?_, ?_⟩, ?_, ?_, ?_⟩
  · change (List.replicate slots MsgInfo.empty ++ doc.msgs.drop slots).length = 100
    rw [length_append, length_replicate, length_drop]
    omega
  · intro index slot m hslot hmsg
    rw [hmsgs] at hslot
    split at hslot
    · rw [← some.inj hslot] at hmsg
      cases hmsg
    exact h.layout.placed index slot m hslot hmsg
  · rw [fence_scrub]
    exact Nat.max_le.mpr ⟨h.slots, hslots⟩
  · intro index hindex
    rw [hmsgs]
    split
    · rfl
    rename_i hge
    rw [fence_scrub] at hindex
    apply h.empty
    omega
  intro index hindex
  rw [fence_scrub] at hindex
  rcases Nat.lt_or_ge index slots with hlt | hge
  · exact hbelow index hlt
  apply h.below
  omega

/-- A guarded write changes one slot above the fence, and puts there only what belongs there. -/
theorem DocKept.store {min_seq : ℕ} {group : String} {update : SlotUpdate} (h : DocKept min_seq n doc)
    (hadmits : doc.admits index = true) : DocKept min_seq n (doc.update group n index update) := by
  have hmsgs : ∀ other : ℕ, (doc.update group n index update).msgs[other]? =
      (doc.msgs.modify index fun slot => update.apply group (seqAt n index) slot)[other]? := fun _ => rfl
  have habove : fence (some doc) ≤ index := admits_iff.mp hadmits
  refine ⟨⟨?_, ?_⟩, h.slots, ?_, h.below⟩
  · rw [MsgDoc.update, length_modify]
    exact h.layout.length
  · intro other slot m hslot hmsg
    rw [hmsgs] at hslot
    by_cases hsame : index = other
    · subst hsame
      rw [getElem?_modify_eq] at hslot
      obtain ⟨before, hpre, rfl⟩ := map_eq_some_iff.mp hslot
      cases update with
      | msg content =>
        cases hmsg
        rfl
      | revoke operator | del_list users | is_read =>
        exact h.layout.placed index before m hpre hmsg
    rw [getElem?_modify_ne _ _ hsame] at hslot
    exact h.layout.placed other slot m hslot hmsg
  intro other hother
  have hne : index ≠ other := by
    change other < fence (some doc) at hother
    omega
  rw [hmsgs, getElem?_modify_ne _ _ hne]
  exact h.empty other hother

theorem layout_newDoc (group : String) (contents : List (ℕ × String)) :
    Layout n (newDoc group n contents) := by
  refine ⟨?_, ?_⟩
  · rw [newDoc, length_map, length_range]
  intro index slot m hslot hmsg
  rw [newDoc, getElem?_map] at hslot
  obtain ⟨place, hplace, rfl⟩ := map_eq_some_iff.mp hslot
  obtain ⟨hlt, hsame⟩ := List.getElem?_eq_some_iff.mp hplace
  rw [getElem_range] at hsame
  subst hsame
  split at hmsg
  · cases hmsg
    rfl
  cases hmsg

end ImApp.BodyPurge
