import ImApp.BodyPurge.Fences

/-!
The purge of message bodies: every statement knows enough for its write, whatever the others
have written since, so that no purged slot is filled again and no live one is scrubbed.
-/

namespace ImApp.BodyPurge

open InterleavedCalls StepSystem List Conversation

/-- The slot of this seq is empty. -/
def Scrubbed (d : Conversation) (seq : ℕ) : Prop :=
  ∃ doc, d.docs (docOf seq) = some doc ∧ doc.msgs[indexOf seq]? = some .empty

/-- What is promised for the bodies of a conversation. -/
structure BodiesPurged (d : Conversation) : Prop where
  scrubbed : ∀ seq, 1 ≤ seq → seq < d.im_app_body_purged_before → Scrubbed d seq
  stored : ∀ e ∈ d.stored, e.im_app_body_purged_before ≤ e.seq
  live : ∀ e ∈ d.scrubbed, e.seq < e.min_seq
  admitted : ∀ e ∈ d.rejected, e.seq < e.min_seq
  layout : ∀ n doc, d.docs n = some doc → Layout n doc
  below : d.im_app_body_purged_before ≤ d.min_seq
  done : ∀ receipt ∈ d.receipts, receipt.body_done = true →
    ∀ seq, 1 ≤ seq → seq < receipt.boundary → Scrubbed d seq

variable {d d' : Conversation} {w : Write} {call : Call} {answer : Answer}

variable {next n : ℕ}

theorem Kept.scrubbed_of (h : Kept d) (hpurged : PurgedTo d next) :
    ∀ seq, 1 ≤ seq → seq < next → Scrubbed d seq := by
  intro seq hfirst hseq
  have hfenced : indexOf seq < fence (d.docs (docOf seq)) := hpurged seq hfirst hseq
  cases hdoc : d.docs (docOf seq) with
  | none =>
    rw [hdoc] at hfenced
    exact absurd hfenced (Nat.not_lt_zero _)
  | some doc =>
    rw [hdoc] at hfenced
    exact ⟨doc, hdoc, (h.docs _ doc hdoc).empty _ hfenced⟩

theorem Kept.bodiesPurged (h : Kept d) : BodiesPurged d :=
  ⟨h.scrubbed_of h.purged, h.stored, h.scrubbed, h.rejected, fun n doc hdoc => (h.docs n doc hdoc).layout,
    h.below, fun receipt hreceipt hdone => h.scrubbed_of (h.done receipt hreceipt hdone)⟩

theorem Kept.not_purged {index : ℕ} (h : Kept d) (hindex : index < 100)
    (habove : fence (d.docs n) ≤ index) : d.im_app_body_purged_before ≤ seqAt n index := by
  apply Nat.le_of_not_lt
  intro hpurged
  have hfenced := h.purged (seqAt n index) (Nat.succ_pos _) hpurged
  rw [Fenced, docOf_seqAt hindex, indexOf_seqAt hindex] at hfenced
  omega

theorem Kept.setDoc {doc : Option MsgDoc} (h : Kept d) (hgrows : fence (d.docs n) ≤ fence doc)
    (hdoc : ∀ found, doc = some found → DocKept d.min_seq n found) : Kept (d.setDoc n doc) := by
  have hall : Grows d (d.setDoc n doc) :=
    ⟨Nat.le_refl _, Nat.le_refl _, fun m => fence_setDoc m doc hgrows⟩
  refine ⟨?_, h.below, h.purged.grows hall, ?_, h.stored, h.scrubbed, h.rejected⟩
  · intro m found hfound
    rcases setDoc_some hfound with ⟨rfl, hsame⟩ | hpre
    · exact hdoc found hsame
    exact h.docs m found hpre
  intro receipt hreceipt hdone
  exact (h.done receipt hreceipt hdone).grows hall

theorem Kept.setReceipts {p : Receipt → Bool} {f : Receipt → Receipt} (h : Kept d)
    (hbound : ∀ receipt, (f receipt).boundary = receipt.boundary)
    (hdone : ∀ receipt, p receipt = true → (f receipt).body_done = true →
      receipt.body_done = true ∨ PurgedTo d receipt.boundary) : Kept (d.setReceipts p f) := by
  refine ⟨h.docs, h.below, h.purged, ?_, h.stored, h.scrubbed, h.rejected⟩
  intro receipt hreceipt hmarked
  obtain ⟨before, hpre, rfl⟩ := mem_map.mp hreceipt
  by_cases hp : p before = true
  · rw [if_pos hp] at hmarked ⊢
    rw [hbound]
    rcases hdone before hp hmarked with hbefore' | hpurged
    · exact h.done before hpre hbefore'
    exact hpurged
  rw [if_neg hp] at hmarked ⊢
  exact h.done before hpre hmarked

theorem Kept.write (h : Kept d) (hsound : Sound d w) : Kept (d.write w) := by
  have hgrows : Grows d (d.write w) := hsound.grows
  cases w with
  | nothing => exact h
  | attempted id | applied id =>
    exact h.setReceipts (fun _ => rfl) fun receipt _ hdone => .inl hdone
  | skeleton n =>
    apply h.setDoc
    · have hfences := hgrows.fences n
      rwa [Conversation.write, setDoc_self] at hfences
    intro found hfound
    cases hdoc : d.docs n with
    | none =>
      rw [hdoc] at hfound
      cases hfound
      exact (layout_empty none).kept rfl
    | some doc =>
      rw [hdoc] at hfound
      cases hfound
      exact h.docs n doc hdoc
  | scrub n slots =>
    obtain ⟨hslots, ⟨doc, hdoc⟩, hbelow⟩ := hsound
    have hscrubbed : Kept (d.setDoc n ((d.docs n).map (MsgDoc.scrub slots))) := by
      rw [hdoc]
      apply h.setDoc
      · rw [hdoc]
        exact Nat.le_max_left _ _
      intro found hfound
      cases hfound
      exact (h.docs n doc hdoc).scrub hslots hbelow
    refine ⟨hscrubbed.docs, hscrubbed.below, hscrubbed.purged, hscrubbed.done, hscrubbed.stored, ?_,
      hscrubbed.rejected⟩
    intro e he
    rcases mem_append.mp he with hnew | hpre
    · obtain ⟨index, hindex, rfl⟩ := mem_map.mp hnew
      exact hbelow index (mem_range.mp hindex)
    exact h.scrubbed e hpre
  | progress next =>
    obtain ⟨hbelow, hpurged⟩ := hsound
    refine ⟨h.docs, Nat.max_le.mpr ⟨h.below, hbelow⟩, ?_, h.done, ?_, h.scrubbed, h.rejected⟩
    · intro seq hfirst hseq
      change seq < max d.im_app_body_purged_before next at hseq
      rcases Nat.lt_or_ge seq next with hlt | hge
      · exact hpurged seq hfirst hlt
      exact h.purged seq hfirst (by omega)
    exact h.stored
  | body_done id boundary =>
    apply Kept.setReceipts h
    · exact fun _ => rfl
    intro receipt hchosen _
    rw [Bool.and_eq_true, decide_eq_true_eq, decide_eq_true_eq] at hchosen
    exact .inr (hchosen.2 ▸ hsound)
  | store n index update =>
    obtain ⟨hindex, doc, hdoc, hadmits⟩ := hsound
    have hstored : Kept (d.setDoc n ((d.docs n).map (MsgDoc.update d.group n index update))) := by
      rw [hdoc]
      apply h.setDoc
      · rw [hdoc]
        exact Nat.le_refl _
      intro found hfound
      cases hfound
      exact (h.docs n doc hdoc).store hadmits
    refine ⟨hstored.docs, hstored.below, hstored.purged, hstored.done, ?_, hstored.scrubbed,
      hstored.rejected⟩
    intro e he
    rcases mem_cons.mp he with rfl | hpre
    · apply h.not_purged hindex
      rw [hdoc]
      exact admits_iff.mp hadmits
    exact h.stored e hpre
  | reject n index =>
    obtain ⟨doc, hdoc, hrejects⟩ := hsound
    refine ⟨h.docs, h.below, h.purged, h.done, h.stored, h.scrubbed, ?_⟩
    intro e he
    rcases mem_cons.mp he with rfl | hpre
    · apply (h.docs n doc hdoc).below
      apply Nat.lt_of_not_le
      intro habove
      rw [admits_iff.mpr habove] at hrejects
      cases hrejects
    exact h.rejected e hpre
  | create n contents =>
    have hmissing : d.docs n = none := hsound
    have hcreated : Kept (d.setDoc n (some (newDoc d.group n contents))) := by
      apply h.setDoc
      · rw [hmissing]
        exact Nat.le_refl _
      intro found hfound
      cases hfound
      exact (layout_newDoc d.group contents).kept rfl
    refine ⟨hcreated.docs, hcreated.below, hcreated.purged, hcreated.done, ?_, hcreated.scrubbed,
      hcreated.rejected⟩
    intro e he
    rcases mem_append.mp he with hnew | hpre
    · obtain ⟨index, hindex, rfl⟩ := mem_map.mp hnew
      apply h.not_purged (mem_range.mp (mem_of_mem_filter hindex))
      rw [hmissing]
      exact Nat.zero_le _
    exact h.stored e hpre
  | clear n =>
    apply h.setDoc
    · have hfences := hgrows.fences n
      rwa [Conversation.write, setDoc_self] at hfences
    intro found hfound
    obtain ⟨doc, hdoc, rfl⟩ := Option.map_eq_some_iff.mp hfound
    exact (h.docs n doc hdoc).clear
  | remove n =>
    apply h.setDoc
    · have hfences := hgrows.fences n
      rwa [Conversation.write, setDoc_self] at hfences
    intro found hfound
    cases hfound
  | min_seq boundary =>
    refine ⟨?_, h.below.trans (Nat.le_max_left _ _), h.purged, h.done, h.stored, h.scrubbed, h.rejected⟩
    intro n doc hdoc
    exact (h.docs n doc hdoc).later (Nat.le_max_left _ _)

/-- What a request relies on: the slots before `next` are fenced, under a boundary that is
persisted. -/
def Claim (d : Conversation) : Call → Prop
  | .inserting receipt next _ _ | .scrubbing receipt next _ _ =>
    receipt.boundary ≤ d.min_seq ∧ 1 ≤ next ∧ next < receipt.boundary ∧ PurgedTo d next
  | .progressing receipt next _ _ =>
    receipt.boundary ≤ d.min_seq ∧ 1 ≤ next ∧ next ≤ receipt.boundary ∧ PurgedTo d next
  | .finishing receipt _ => PurgedTo d receipt.boundary
  | _ => True

theorem Claim.grows (h : Claim d call) (hgrows : Grows d d') : Claim d' call := by
  cases call with
  | inserting receipt next n rest | scrubbing receipt next n rest
  | progressing receipt next n rest =>
    obtain ⟨hbelow, hfirst, hnext, hpurged⟩ := h
    exact ⟨hbelow.trans hgrows.min_seq, hfirst, hnext, hpurged.grows hgrows⟩
  | finishing receipt rest => exact PurgedTo.grows h hgrows
  | _ => trivial

/-- The write is sound, and what comes next may rely on what it does. -/
structure Good (d : Conversation) (outcome : Outcome) : Prop where
  sound : Sound d outcome.1
  goes_on : ∀ current, outcome.2 = some current → Claim (d.write outcome.1) current

theorem good_stop : Good d (.nothing, none) :=
  ⟨trivial, fun current h => by cases h⟩

variable {rest : List Receipt} {current : Call}

theorem claim_nextReceipt (h : nextReceipt rest = some current) : Claim d current := by
  cases rest with
  | nil => cases h
  | cons receipt rest =>
    cases h
    trivial

/-- However a statement ends, it is enough to look at its write and at the two ways on. -/
theorem good_reply {next onError : Option Call} (hsound : Sound d w)
    (hnext : ∀ current, next = some current → Claim (d.write w) current)
    (herror : ∀ d' current, onError = some current → Claim d' current) :
    Good d (reply answer w next onError) := by
  cases answer with
  | answered => exact ⟨hsound, hnext⟩
  | unanswered => exact ⟨hsound, herror _⟩
  | failed => exact ⟨trivial, herror _⟩
  | crashed => exact ⟨hsound, fun current h => by cases h⟩
  | lost => exact good_stop

theorem good_nextReceipt (hsound : Sound d w) :
    Good d (reply answer w (nextReceipt rest) (nextReceipt rest)) :=
  good_reply hsound (fun _ h => claim_nextReceipt h) fun _ _ h => claim_nextReceipt h

theorem good_last (hsound : Sound d w) : Good d (reply answer w none none) :=
  good_reply hsound (fun _ h => by cases h) fun _ _ h => by cases h

theorem good_before (hsound : Sound d w) (hclaim : ∀ d', Claim d' current) :
    Good d (reply answer w (some current) none) :=
  good_reply hsound (fun _ h => Option.some.inj h ▸ hclaim _) fun _ _ h => by cases h

variable {receipt : Receipt}

theorem claim_purgeLoop
    (hbelow : receipt.boundary ≤ d.min_seq) (hfirst : 1 ≤ next) (hpurged : PurgedTo d next)
    (h : purgeLoop receipt next n rest = some current) : Claim d current := by
  unfold purgeLoop at h
  split at h
  · rename_i hhead
    cases h
    exact ⟨hbelow, hfirst, hhead.2, hpurged⟩
  split at h
  · rename_i hdone
    cases h
    exact PurgedTo.mono hpurged hdone
  exact claim_nextReceipt h

theorem slotsOf_spec (hfirst : 1 ≤ next) (hnext : next < receipt.boundary) :
    slotsOf receipt next ≤ 100 ∧ docOf next * 100 + slotsOf receipt next = through receipt next ∧
      next ≤ through receipt next ∧ through receipt next < receipt.boundary := by
  unfold slotsOf through docOf
  omega

theorem purgedTo_scrub {doc : MsgDoc} (hfirst : 1 ≤ next)
    (hnext : next < receipt.boundary) (hpurged : PurgedTo d next) (hdoc : d.docs (docOf next) = some doc)
    (hsound : Sound d (.scrub (docOf next) (slotsOf receipt next))) :
    PurgedTo (d.write (.scrub (docOf next) (slotsOf receipt next))) (through receipt next + 1) := by
  obtain ⟨hslots, hend, hreached, -⟩ := slotsOf_spec hfirst hnext
  intro seq hseq hthrough
  rcases Nat.lt_or_ge seq next with hlt | hge
  · exact (hpurged.grows hsound.grows) seq hseq hlt
  have hsame : docOf seq = docOf next := by
    unfold docOf at hend ⊢
    omega
  have hindex : indexOf seq < slotsOf receipt next := by
    unfold indexOf
    unfold docOf at hend
    omega
  change indexOf seq < fence ((d.setDoc (docOf next) _).docs (docOf seq))
  rw [hsame, setDoc_self, hdoc]
  exact Nat.lt_of_lt_of_le hindex (Nat.le_max_right _ _)

theorem purgeBodyReceipt_good (h : Kept d) : Good d (purgeBodyReceipt d answer receipt rest) := by
  unfold purgeBodyReceipt
  split
  · exact good_nextReceipt trivial
  rename_i hchecks
  push Not at hchecks
  apply good_reply
  · trivial
  · intro current hcur
    apply claim_purgeLoop hchecks.2.2 (Nat.le_max_right _ _) _ hcur
    intro seq hseq hpre
    exact h.purged seq hseq (by omega)
  exact fun _ _ hcur => claim_nextReceipt hcur

theorem imAppRetentionPurgeDoc_good (hclaim : Claim d (.scrubbing receipt next n rest)) :
    Good d (imAppRetentionPurgeDoc d answer receipt next n rest) := by
  obtain ⟨hbelow, hfirst, hnext, hpurged⟩ := hclaim
  obtain ⟨hslots, hend, hreached, hlast⟩ := slotsOf_spec hfirst hnext
  unfold imAppRetentionPurgeDoc
  split
  · exact good_nextReceipt trivial
  rename_i doc hdoc
  split
  · have hsound : Sound d (.scrub (docOf next) (slotsOf receipt next)) := by
      refine ⟨hslots, ⟨doc, hdoc⟩, ?_⟩
      intro index hindex
      unfold seqAt
      omega
    apply good_reply hsound
    · rintro current hcur
      cases hcur
      exact ⟨hbelow.trans hsound.grows.min_seq, Nat.succ_pos _, hlast,
        purgedTo_scrub hfirst hnext hpurged hdoc hsound⟩
    exact fun _ _ hcur => claim_nextReceipt hcur
  exact good_nextReceipt trivial

theorem purgeProgress_good (hclaim : Claim d (.progressing receipt next n rest)) :
    Good d (purgeProgress d answer receipt next n rest) := by
  obtain ⟨hbelow, hfirst, hnext, hpurged⟩ := hclaim
  have hsound : Sound d (.progress next) := ⟨hnext.trans hbelow, hpurged⟩
  rw [purgeProgress, if_pos hbelow]
  apply good_reply hsound
  · intro current hcur
    exact claim_purgeLoop hbelow hfirst (hpurged.grows hsound.grows) hcur
  exact fun _ _ hcur => claim_nextReceipt hcur

theorem imAppRetentionGuardedWrite_good {index : ℕ} {update : SlotUpdate} :
    Good d (imAppRetentionGuardedWrite d answer n index update) := by
  unfold imAppRetentionGuardedWrite
  split
  · exact good_stop
  rename_i doc hdoc
  split
  · exact good_stop
  rename_i hindex
  split
  · rename_i hadmits
    exact good_last ⟨Nat.lt_of_not_le hindex, doc, hdoc, hadmits⟩
  rename_i hrejects
  exact good_last ⟨doc, hdoc, Bool.eq_false_iff.mpr hrejects⟩

theorem imAppRetentionDeleteDoc_good : Good d (imAppRetentionDeleteDoc d answer n) := by
  unfold imAppRetentionDeleteDoc
  split
  · exact good_before trivial fun _ => trivial
  split <;> exact good_before trivial fun _ => trivial

theorem deleteUnfenced_good : Good d (deleteUnfenced d answer n) := by
  unfold deleteUnfenced
  split
  · exact good_stop
  rename_i doc hdoc
  split
  · exact good_stop
  rename_i hunfenced
  exact good_last ⟨doc, hdoc, Option.not_isSome_iff_eq_none.mp hunfenced⟩

theorem applyReceipt_good {id boundary : ℕ} : Good d (applyReceipt d answer id boundary) := by
  unfold applyReceipt
  split
  · exact good_stop
  split
  · exact good_stop
  exact good_before trivial fun _ => trivial

theorem advanceCall_good (h : Kept d) (hclaim : Claim d call) : Good d (advanceCall d answer call) := by
  cases call with
  | bodyPurgeBatch | setMinSeq id boundary => exact good_before trivial fun _ => trivial
  | finding now =>
    apply good_reply
    · trivial
    · exact fun _ hcur => claim_nextReceipt hcur
    exact fun _ _ hcur => by cases hcur
  | attempting receipt rest =>
    apply good_reply
    · trivial
    · intro current hcur
      cases hcur
      trivial
    exact fun _ _ hcur => claim_nextReceipt hcur
  | purgeBodyReceipt => exact purgeBodyReceipt_good h
  | inserting receipt next n rest =>
    have hsound : Sound d (.skeleton (docOf next)) := trivial
    apply good_reply hsound
    · intro current hcur
      cases hcur
      have hnext : Claim d (.scrubbing receipt next n rest) := hclaim
      exact hnext.grows hsound.grows
    exact fun _ _ hcur => claim_nextReceipt hcur
  | scrubbing => exact imAppRetentionPurgeDoc_good hclaim
  | progressing => exact purgeProgress_good hclaim
  | finishing receipt rest => exact good_nextReceipt hclaim
  | guardedWrite => exact imAppRetentionGuardedWrite_good
  | create n contents =>
    change Good d (createDoc d answer n contents)
    unfold createDoc
    split
    · rename_i hmissing
      exact good_last hmissing
    exact good_stop
  | deleteDoc => exact imAppRetentionDeleteDoc_good
  | deleteUnfenced => exact deleteUnfenced_good
  | apply => exact applyReceipt_good
  | applying id boundary expires_at =>
    change Good d (applyChecked d answer id boundary expires_at)
    unfold applyChecked
    split
    · exact good_stop
    exact good_before trivial fun _ => trivial
  | markBodyPurgeReceipt id => exact good_last trivial

theorem Initial.kept (h : Initial d) : Kept d := by
  refine ⟨?_, ?_, ?_, ?_, ?_, ?_, ?_⟩
  · intro n doc hdoc
    obtain ⟨hlayout, hunfenced⟩ := h.docs n doc hdoc
    exact hlayout.kept hunfenced
  · rw [h.purged]
    exact Nat.zero_le _
  · rw [h.purged]
    intro seq _ hseq
    exact absurd hseq (Nat.not_lt_zero _)
  · intro receipt hreceipt hdone
    rw [h.receipts receipt hreceipt] at hdone
    cases hdone
  · rw [h.stored]
    intro e he
    cases he
  · rw [h.scrubbed]
    intro e he
    cases he
  rw [h.rejected]
  intro e he
  cases he

theorem world_keeps {event : Event} (h : Kept d) (hworld : world d event = some d') :
    Kept d' ∧ Grows d d' := by
  cases event with
  | tick seconds =>
    cases hworld
    exact ⟨⟨h.docs, h.below, h.purged, h.done, h.stored, h.scrubbed, h.rejected⟩,
      Nat.le_refl _, Nat.le_refl _, fun _ => Nat.le_refl _⟩
  | snapshot id boundary expires_at =>
    rw [world] at hworld
    split at hworld
    · cases hworld
    cases hworld
    refine ⟨⟨h.docs, h.below, h.purged, ?_, h.stored, h.scrubbed, h.rejected⟩,
      Nat.le_refl _, Nat.le_refl _, fun _ => Nat.le_refl _⟩
    intro receipt hreceipt hdone
    rcases mem_append.mp hreceipt with hpre | hnew
    · exact h.done receipt hpre hdone
    rw [mem_singleton.mp hnew] at hdone
    cases hdone
  | expire id =>
    cases hworld
    refine ⟨⟨h.docs, h.below, h.purged, ?_, h.stored, h.scrubbed, h.rejected⟩,
      Nat.le_refl _, Nat.le_refl _, fun _ => Nat.le_refl _⟩
    intro receipt hreceipt hdone
    exact h.done receipt (mem_of_mem_filter hreceipt) hdone

variable {s t : State Conversation Call}

theorem bodies_hold {allowed : State Conversation Call → Action Call Answer Event → Prop}
    (hs : retention.machine.ReachableBy allowed s) :
    Service.Holds Kept (fun d _ call => Claim d call) s := by
  apply Service.holds_of_reachable _ _ _ _ hs
  · exact fun d hinitial => hinitial.kept
  · intro s id call _ _ hopens
    cases call with
    | inserting | scrubbing | progressing | finishing => cases hopens
    | _ => trivial
  · intro s id call answer d next _ hholds hcall hadv
    cases hadv
    have hgood : Good s.data (advanceCall s.data answer call) :=
      advanceCall_good hholds.data (hholds.calls id call hcall)
    refine ⟨hholds.data.write hgood.sound, hgood.goes_on, ?_⟩
    intro other current _ hcur
    exact (hholds.calls other current hcur).grows hgood.sound.grows
  intro s event d _ hholds hworld
  obtain ⟨hkept, hgrows⟩ := world_keeps hholds.data hworld
  exact ⟨hkept, fun id call hcall => (hholds.calls id call hcall).grows hgrows⟩

theorem conversation_grows (hs : retention.machine.Reachable s)
    (path : retention.machine.Path Machine.unrestricted s t) : Grows s.data t.data := by
  apply Service.relates_of_path Grows Grows.refl (fun _ _ _ h h' => h.trans h')
    (fun s hs => bodies_hold hs) _ _ hs path
  · intro s id call answer d next _ hholds hcall hadv
    cases hadv
    exact (advanceCall_good hholds.data (hholds.calls id call hcall)).sound.grows
  intro s event d _ hholds hworld
  exact (world_keeps hholds.data hworld).2

/-- In every reachable state the bodies are purged as promised, and the progress of the
purge never goes back. -/
theorem bodies_purged (hs : retention.machine.Reachable s) : BodiesPurged s.data ∧
    ∀ t, retention.machine.Path Machine.unrestricted s t →
      s.data.im_app_body_purged_before ≤ t.data.im_app_body_purged_before :=
  ⟨(bodies_hold hs).data.bodiesPurged, fun _ path => (conversation_grows hs path).purged⟩

/-- Three messages, of which a snapshot has found two to be expired. -/
def expired : State Conversation Call :=
  ⟨⟨"g", fun n => if n = 0 then some (newDoc "g" 0 [(0, "a"), (1, "b"), (2, "c")]) else none, 0, 0,
    [⟨7, 3, 2592000, none, none, false⟩], 0, [], [], []⟩, fun _ => none⟩

theorem expired_initial : retention.machine.initial expired := by
  refine ⟨⟨?_, rfl, ?_, rfl, rfl, rfl⟩, fun _ => rfl⟩
  · intro n doc hdoc
    change (if n = 0 then some (newDoc "g" 0 [(0, "a"), (1, "b"), (2, "c")]) else none) = some doc at hdoc
    split at hdoc
    · rename_i hzero
      cases hdoc
      subst hzero
      exact ⟨layout_newDoc "g" _, rfl⟩
    cases hdoc
  intro receipt hreceipt
  obtain rfl := mem_singleton.mp hreceipt
  rfl

/-- The boundary is applied, the bodies are purged a day later, and the first message is
delivered once more. -/
def purgeActions : List (Action Call Answer Event) :=
  .start 1 (.apply 7 3) :: List.replicate 4 (.advance 1 .answered) ++ .world (.tick 86400) ::
    .start 2 .bodyPurgeBatch :: List.replicate 8 (.advance 2 .answered) ++
      [.start 3 (.guardedWrite 0 0 (.msg "a")), .advance 3 .answered]

theorem bodies_purged_late_write :
    ∃ s : State Conversation Call, s.data.im_app_body_purged_before = 3 ∧ s.data.rejected = [⟨1, 3, 3⟩] ∧
      BodiesPurged s.data := by
  have hrun : (retention.machine.execute expired purgeActions).map
      (fun s => (s.data.im_app_body_purged_before, s.data.rejected)) = some (3, [⟨1, 3, 3⟩]) := by decide
  obtain ⟨s, hs, hdata⟩ := Option.map_eq_some_iff.mp hrun
  obtain ⟨hpurged, hrej⟩ := Prod.mk.inj hdata
  exact ⟨s, hpurged, hrej, (bodies_purged (Machine.reachable_of_execute expired_initial hs)).1⟩

end ImApp.BodyPurge
