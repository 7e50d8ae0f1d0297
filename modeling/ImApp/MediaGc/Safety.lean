import ImApp.MediaGc.Invariant

/-!
What media garbage collection promises about a key. A permanent reference ends
deletion for good, a sealed record admits nothing until it is marked deleted, a
delete never meets a later upload, a seal is undisturbed, and a delete whose
outcome is unknown keeps the record sealed.
-/

namespace ImApp.MediaGc

open StepSystem VersionedRead Option

variable {s t : GcState} {a : Action}

/-- A writer's call that is refused on a sealed record. -/
def Action.registers : Action → Bool
  | .beginWrite _ | .touch _ _ | .protect _ | .protectOverflow => true
  | _ => false

def Action.protectsPermanently : Action → Bool
  | .protect claim => permanentClaim claim
  | .protectOverflow => true
  | _ => false

def Action.marksDeleted : Action → Bool
  | .markDeleted _ => true
  | _ => false

/-- The worker's delete ends without an answer that it can use. -/
def Action.abandons (worker : Nat) : Action → Prop
  | .fail w | .stop w => w = worker
  | _ => False

structure GcSafe (s : GcState) : Prop where
  /-- After a permanent reference no delete is issued or takes effect. -/
  protected_kept : ∀ a t u, a.protectsPermanently = true → step s a = some t →
    machine.Path Machine.unrestricted t u → u.issued = t.issued ∧ u.inFlight = []
  /-- A sealed record refuses every writer until it is marked deleted. -/
  sealed_refuses : ∀ version t, SealedAt version s →
    machine.Path (fun _ a => a.marksDeleted = false) s t →
      SealedAt version t ∧ ∀ a, a.registers = true → step t a = none
  /-- A worker issues a delete only at the version that is sealed. -/
  issued_current : ∀ worker t, step s (.issue worker) = some t →
    ∃ reading, Owns s worker reading ∧ SealedAt reading.version s ∧
      t.inFlight = ⟨worker, reading.version⟩ :: s.inFlight
  /-- No delete takes effect on an upload of a later version. -/
  landed_current : ∀ request t, step s (.land request) = some t → SealedAt request.version s ∧
      ∀ object, s.object = some object → object.version ≤ request.version
  /-- A seal follows a read with reclaimable claims, with nothing registered or
  uploaded since, and for the quarantine time. -/
  sealed_undisturbed : ∀ worker t version, step s (.sealForDelete worker) = some t →
    ¬ SealedAt version s → SealedAt version t →
      ∃ pass reading marked, s.workers worker = .judges pass reading .sealing ∧
        reading.version = version ∧
        (∃ evidence, reclaimable reading.record evidence pass.now = true) ∧
        reading.activity = s.activity ∧
        (∀ record, s.record = some record → record.claims = reading.record.claims) ∧
        reading.record.candidateAt = some marked ∧ s.activity.last ≤ marked ∧
        marked + quarantine ≤ s.now
  /-- A delete that is given up stays sealed. -/
  uncertain_sealed : ∀ worker reading a t u, Owns s worker reading → a.abandons worker →
    step s a = some t → machine.Path Machine.unrestricted t u → SealedAt reading.version u

def Retained (s : GcState) : Prop :=
  ∃ record, s.record = some record ∧ record.state = .opened ∧ record.permanent = true

variable {version : Nat}

theorem Retained.not_sealed (h : Retained s) : ¬ SealedAt version s := by
  obtain ⟨record, hrec, hopened, _⟩ := h
  rintro ⟨current, hcur, hstate, _⟩
  cases hrec.symm.trans hcur
  cases hopened.symm.trans hstate

theorem retained_of_protect (ha : a.protectsPermanently = true) (hstep : step s a = some t) :
    Retained t := by
  have hregister : ∀ update : Record → Option Record, (∀ before after, update before = some after →
        after.state = .opened ∧ after.permanent = true) →
      register s update = some t → Retained t := by
    intro update hupdate hreg
    obtain ⟨before, after, _, hafter, rfl⟩ := register_cases hreg
    exact ⟨after, rfl, hupdate before after hafter⟩
  cases a with
  | protect claim =>
    apply hregister _ _ hstep
    intro before after hafter
    obtain ⟨hreg, hperm⟩ := Record.registered_of_protect s.now hafter
    exact ⟨hreg.opened, hperm ha⟩
  | protectOverflow =>
    apply hregister _ _ hstep
    intro before after hafter
    obtain ⟨hreg, hperm⟩ :=
      Record.registered_of_protectPermanently s.now hafter
    exact ⟨hreg.opened, hperm⟩
  | _ => cases ha

theorem Retained.step (h : Retained s) (howner : OwnerSafe s) (heffect : Effect s a t) :
    Retained t ∧ t.issued = s.issued := by
  have hsame : t.record = s.record → Retained t := by
    intro hrec
    obtain ⟨record, hcur, hret⟩ := h
    exact ⟨record, hrec.trans hcur, hret⟩
  have hrecd : ∀ record, s.record = some record →
      record.state = .opened ∧ record.permanent = true := by
    intro record hrec
    obtain ⟨current, hcur, hret⟩ := h
    cases hcur.symm.trans hrec
    exact hret
  have hfree : ∀ worker reading, ¬ Owns s worker reading := by
    intro worker reading howns
    exact h.not_sealed (howner.owned worker reading howns).sealed
  cases heffect with
  | keep => exact ⟨h, rfl⟩
  | tick | upload | move | land => exact ⟨hsame rfl, rfl⟩
  | insert ready hrec =>
    obtain ⟨record, hcur, _⟩ := h
    cases hrec.symm.trans hcur
  | register before after granted hrec hreg =>
    obtain ⟨hopened, hperm⟩ := hrecd before hrec
    exact ⟨⟨after, rfl, hreg.opened, hreg.permanent hopened hperm⟩, rfl⟩
  | attempt worker pass reading record hphase hrec =>
    have hret := hrecd record hrec
    exact ⟨⟨_, rfl, hret⟩, rfl⟩
  | mark worker pass reading record hphase hrec hsealable
  | sealing worker pass reading record hphase hrec hsealable =>
    cases (hrecd record hrec).2.symm.trans (Record.sealable_iff.mp hsealable).2.2
  | start worker pass reading record hphase hrec hstate =>
    cases (hrecd record hrec).1.symm.trans hstate
  | issue worker pass reading size hphase | finish worker pass reading size record hphase =>
    exact absurd ⟨pass, _, hphase⟩ (hfree worker reading)

theorem OwnerSafe.inFlight_nil (h : OwnerSafe s) (hopen : ∀ version, ¬ SealedAt version s) :
    s.inFlight = [] := by
  apply List.eq_nil_iff_forall_not_mem.mpr
  intro request hreq
  exact hopen _ (h.requested request hreq).sealed

theorem SealedAt.kept (h : SealedAt version s) (heffect : Effect s a t)
    (ha : a.marksDeleted = false) : SealedAt version t := by
  have hsame : t.record = s.record → SealedAt version t := by
    intro hrec
    obtain ⟨record, hcur, hsealed⟩ := h
    exact ⟨record, hrec.trans hcur, hsealed⟩
  have hrecd : ∀ record, s.record = some record →
      record.state = .deleting ∧ record.version = version := by
    intro record hrec
    obtain ⟨current, hcur, hsealed⟩ := h
    cases hcur.symm.trans hrec
    exact hsealed
  cases heffect with
  | keep => exact h
  | tick | upload | move | issue | land => exact hsame rfl
  | insert ready hrec =>
    obtain ⟨record, hcur, _⟩ := h
    cases hrec.symm.trans hcur
  | register before after granted hrec hreg =>
    exact absurd (hrecd before hrec).1 hreg.unsealed
  | attempt worker pass reading record hphase hrec
  | start worker pass reading record hphase hrec =>
    have hsealed := hrecd record hrec
    exact ⟨_, rfl, hsealed⟩
  | mark worker pass reading record hphase hrec hsealable
  | sealing worker pass reading record hphase hrec hsealable =>
    cases (hrecd record hrec).1.symm.trans (Record.sealable_iff.mp hsealable).1
  | finish => cases ha

theorem SealedAt.refuses (h : SealedAt version s) (ha : a.registers = true) : step s a = none := by
  obtain ⟨record, hrec, hstate, _⟩ := h
  have hregister : ∀ update : Record → Option Record, update record = none →
      register s update = none := by
    intro update hrefused
    simp only [register, hrec, bind_some, hrefused, map_none]
  have hpermanently : record.protectPermanently = none := by
    simp [Record.protectPermanently, hstate]
  cases a with
  | beginWrite ready =>
    have hrefused := hregister (Record.beginWrite s.now ready) (by simp [Record.beginWrite, hstate])
    simp only [MediaGc.step, beginWrite, hrefused, map_none]
  | touch size permanent => exact hregister _ (by simp [Record.touch, hstate])
  | protect claim =>
    apply hregister
    cases claim with
    | none => exact hpermanently
    | some claim =>
      simp only [Record.protect, hpermanently, Record.protectUntil, hstate]
      simp
  | protectOverflow => exact hregister _ hpermanently
  | _ => cases ha

/-- A started delete that no worker is at. -/
def Abandoned (version : Nat) (s : GcState) : Prop :=
  StartedAt version s ∧ ∀ worker reading, ¬ Owns s worker reading

theorem Abandoned.step (h : Abandoned version s) (heffect : Effect s a t) :
    Abandoned version t := by
  constructor
  · rcases h.1.step heffect with hkept | ⟨worker, hfinishes⟩
    · exact hkept
    obtain ⟨pass, reading, size, hremoved⟩ := hfinishes.removed
    exact absurd ⟨pass, _, hremoved⟩ (h.2 worker reading)
  intro worker reading howns
  rcases owns_step howns heffect with hpre | ⟨hfresh, _⟩
  · exact h.2 worker reading hpre
  exact hfresh version h.1

theorem abandoned_of_abandons {worker : Nat} {reading : Reading} (howner : OwnerSafe s)
    (howns : Owns s worker reading) (ha : a.abandons worker) (hstep : step s a = some t) :
    Abandoned reading.version t := by
  have hstarted := howner.owned worker reading howns
  have hleft : ∀ phase, (∀ pass read stage, phase ≠ .deletes pass read stage) →
      Abandoned reading.version (s.setWorker worker phase) := by
    intro phase hphase
    refine ⟨hstarted, ?_⟩
    rintro other read ⟨pass, stage, hdeletes⟩
    rcases s.setWorker_cases worker other phase with ⟨_, hself⟩ | ⟨hne, hkept⟩
    · exact hphase pass read stage (hself.symm.trans hdeletes)
    apply hne
    exact howner.unique other worker read reading ⟨pass, stage, hkept.symm.trans hdeletes⟩ howns
  cases a with
  | fail w =>
    obtain rfl := ha
    obtain ⟨pass, stage, hdeletes⟩ := howns
    simp only [MediaGc.step, fail, hdeletes] at hstep
    split at hstep
    · cases hstep
    · cases hstep
      exact hleft _ (fun _ _ _ h => by cases h)
    cases hstep
  | stop w =>
    obtain rfl := ha
    cases hstep
    exact hleft _ (fun _ _ _ h => by cases h)
  | _ => cases ha

theorem seal_undisturbed (h : GcInvariant s) {worker : Nat}
    (hstep : step s (.sealForDelete worker) = some t) (hpre : ¬ SealedAt version s)
    (hafter : SealedAt version t) :
    ∃ pass reading marked, s.workers worker = .judges pass reading .sealing ∧
      reading.version = version ∧
      (∃ evidence, reclaimable reading.record evidence pass.now = true) ∧
      reading.activity = s.activity ∧
      (∀ record, s.record = some record → record.claims = reading.record.claims) ∧
      reading.record.candidateAt = some marked ∧ s.activity.last ≤ marked ∧
      marked + quarantine ≤ s.now := by
  have heffect := effect_of_step hstep
  cases heffect with
  | keep | move => exact absurd hafter hpre
  | register before after granted hrec hreg =>
    obtain ⟨record, hcur, hstate, _⟩ := hafter
    cases hcur
    cases hreg.opened.symm.trans hstate
  | sealing _ pass reading record hphase hrec hsealable =>
    obtain ⟨hreading, hsealing⟩ := PhaseSafe.reading (hphase ▸ h.phases worker)
    obtain ⟨hevidence, marked, hmarked, hquarantine⟩ := hsealing rfl
    have hver := (Record.sealable_iff.mp hsealable).2.1
    have hview := hreading.view_eq hrec hver
    have hactivity : reading.activity = s.activity := congrArg (fun view => view.2.2) hview
    have hclaims : reading.record.claims = record.claims := congrArg (fun view => view.2.1) hview
    obtain ⟨current, hcur, _, hsealed⟩ := hafter
    cases hcur
    refine ⟨pass, reading, marked, hphase, hver.symm.trans hsealed, hevidence, hactivity, ?_,
      hmarked, hactivity ▸ hreading.quiet marked hmarked, hquarantine.trans hreading.clock⟩
    intro now hnow
    cases hrec.symm.trans hnow
    exact hclaims.symm

/-- In every reachable state, whatever the workers and the writers do next. -/
theorem managed_key_safe (hs : machine.Reachable s) : GcSafe s where
  protected_kept a t u ha hstep path := by
    have ht : GcInvariant t := gcInvariant_step (gcInvariant hs) hstep
    have hkept := path.preserves (fun u => GcInvariant u ∧ Retained u ∧ u.issued = t.issued)
      (fun v b w _ hv hnext => by
        have heffect := effect_of_step hnext
        obtain ⟨hret, hissued⟩ := hv.2.1.step hv.1.owner heffect
        exact ⟨gcInvariant_step hv.1 hnext, hret, hissued.trans hv.2.2⟩)
      ⟨ht, retained_of_protect ha hstep, rfl⟩
    exact ⟨hkept.2.2, hkept.1.owner.inFlight_nil (fun _ => hkept.2.1.not_sealed)⟩
  sealed_refuses version t hsealed path := by
    have hkept : SealedAt version t := by
      apply path.preserves (SealedAt version) _ hsealed
      intro u a v ha hu hnext
      exact hu.kept (effect_of_step hnext) ha
    exact ⟨hkept, fun a ha => hkept.refuses ha⟩
  issued_current worker t hstep := by
    simp only [MediaGc.step, issue] at hstep
    split at hstep
    · rename_i pass reading size hphase
      cases hstep
      have howns : Owns s worker reading := ⟨pass, _, hphase⟩
      exact ⟨reading, howns, ((gcInvariant hs).owner.owned worker reading howns).sealed, rfl⟩
    cases hstep
  landed_current request t hstep := by
    simp only [MediaGc.step, land] at hstep
    split at hstep
    · rename_i hreq
      have hsealed := ((gcInvariant hs).owner.requested request hreq).sealed
      refine ⟨hsealed, ?_⟩
      intro object hobject
      obtain ⟨record, hrec, _, hver⟩ := hsealed
      exact hver ▸ (gcInvariant hs).store.object_le hobject hrec
    cases hstep
  sealed_undisturbed worker t version hstep hpre hafter :=
    seal_undisturbed (gcInvariant hs) hstep hpre hafter
  uncertain_sealed worker reading a t u howns ha hstep path := by
    have habandoned := abandoned_of_abandons (gcInvariant hs).owner howns ha hstep
    have hkept : Abandoned reading.version u := by
      apply path.preserves (Abandoned reading.version) _ habandoned
      intro v b w _ hv hnext
      exact hv.step (effect_of_step hnext)
    exact hkept.1.sealed

def emptyStore : GcState := ⟨0, none, none, [], ⟨0, 0⟩, fun _ => .idle, [], []⟩

theorem emptyStore_initial : Initial emptyStore := ⟨rfl, rfl, rfl, le_rfl, fun _ => rfl, rfl⟩

def noEvidence (_ : Claim) : ClaimEvidence := ⟨none, [], [], false⟩

/-- An upload that nothing refers to is marked by one pass and sealed by a later one,
while another worker tries the same. -/
def deletionRun : List Action :=
  [.insert true, .beginWrite true, .upload ⟨1, uploadGrace⟩ 7, .tick (uploadGrace + 1),
    .run 0 false, .find 0, .attempt 0, .judge 0 noEvidence, .markCandidate 0, .stop 0,
    .tick quarantine, .run 0 false, .find 0, .attempt 0, .judge 0 noEvidence,
    .run 1 false, .find 1, .attempt 1, .judge 1 noEvidence, .sealForDelete 0,
    .sealForDelete 1, .startDelete 0, .check 0, .stat 0, .issue 0]

/-- The delete of the upload is on its way. -/
theorem deletionRun_safe : ∃ s, machine.Reachable s ∧
    (s.inFlight = [⟨0, 1⟩] ∧ s.object = some ⟨1, 7⟩) ∧ GcSafe s := by
  have hrun : (machine.execute emptyStore deletionRun).any
      (fun s => s.inFlight = [⟨0, 1⟩] ∧ s.object = some ⟨1, 7⟩) = true := by decide
  obtain ⟨s, hexecute, hflight⟩ := (any_eq_true _ _).mp hrun
  have hs : machine.Reachable s := Machine.reachable_of_execute emptyStore_initial hexecute
  exact ⟨s, hs, of_decide_eq_true hflight, managed_key_safe hs⟩

end ImApp.MediaGc
