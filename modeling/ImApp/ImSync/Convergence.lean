import ImApp.ImSync.GroupProfile

/-!
Convergence of the OpenIM group profile. Updates are patches, so a patch that is
applied after a later patch of the same field brings back an old value, and the
outbox does not keep that from happening. Where it does not happen, each field
reflects every event that a worker has brought to OpenIM.
-/

namespace ImApp.ImSync

open StepSystem PatchLog List Option Function

variable {s t : GroupSyncState}

/-- The OpenIM group has the values of an event or later ones. -/
def Reflects (s : GroupSyncState) (event : Nat) : Prop :=
  ∀ field, s.sets event field = true → event < s.written field

/-- Patches reach OpenIM in order: a patch takes effect only while no later event
that sets one of its fields has been brought to OpenIM, and a worker that wants to
register the group finds it registered only with the values of its event. -/
def InOrder (s : GroupSyncState) : Action → Prop
  | .land lease => ∀ l request, s.leases lease = some l → s.inFlight lease = some request →
      match request with
      | .setGroupInfo _ => ∀ later field, l.event < later → s.settled later = true →
          s.sets l.event field = true → s.sets later field = false
      | .createGroup _ _ => s.openim.isSome = true → Reflects s l.event
  | .ensureGroup lease => ∀ l, s.leases lease = some l → s.openim.isSome = true →
      Reflects s l.event
  | _ => True

/-- A snapshot is the profile at its version, which includes the event. -/
def SnapshotOk (s : GroupSyncState) (event version : Nat) (snapshot : GroupProfile) : Prop :=
  event < version ∧ version ≤ s.events.length ∧ snapshot = s.version version

def PhaseOk (s : GroupSyncState) (lease event : Nat) : Phase → Prop
  | .read version snapshot | .missing version snapshot | .creating version snapshot =>
    SnapshotOk s event version snapshot
  | .updating payload => s.events[event]? = some (.updated payload)
  | .sent => s.inFlight lease = none → s.settled event = true
  | .succeeded => s.settled event = true
  | _ => True

def RequestOk (s : GroupSyncState) (event : Nat) : Request → Prop
  | .setGroupInfo payload => s.events[event]? = some (.updated payload)
  | .createGroup version snapshot => SnapshotOk s event version snapshot

structure SyncInvariant (s : GroupSyncState) : Prop where
  profile : s.profile = s.version s.events.length
  payloads : ∀ (event : Nat) payload, s.events[event]? = some (.updated payload) →
    ∃ field, (payload field).isSome = true
  leases : ∀ lease l, s.leases lease = some l →
    l.event < s.events.length ∧ PhaseOk s lease l.event l.phase
  fresh : ∀ lease, s.nextLease ≤ lease → s.leases lease = none
  inFlight : ∀ lease request, s.inFlight lease = some request →
    ∃ l, s.leases lease = some l ∧ RequestOk s l.event request
  written : ∀ remote, s.openim = some remote → ∀ field, s.written field ≤ s.events.length ∧
    remote field = field.encode (s.version (s.written field) field)
  settled : ∀ event, s.settled event = true → event < s.events.length ∧
    ∀ field, s.sets event field = true → s.openim.isSome = true ∧ event < s.written field
  completed : ∀ event, event < s.events.length → (s.rows event).status = .completed →
    s.settled event = true

variable {lease : Nat} {payload : IMGroupUpdatePayload} {number : Nat} {l : Lease}

theorem isEmpty_eq_false (h : payload.isEmpty = false) :
    ∃ field, (payload field).isSome = true := by
  simp only [IMGroupUpdatePayload.isEmpty, List.all_eq_false] at h
  obtain ⟨field, _, hsome⟩ := h
  exact ⟨field, by simpa [isSome_iff_ne_none] using hsome⟩

theorem isEmpty_eq_true (h : payload.isEmpty = true)
    (field : Field) : (payload field).isSome = false := by
  simp only [IMGroupUpdatePayload.isEmpty, List.all_eq_true] at h
  have hall : field ∈ Field.all := by cases field <;> simp [Field.all]
  simpa using h field hall

theorem sets_updated {event : Nat}
    (h : s.events[event]? = some (.updated payload)) (field : Field) :
    s.sets event field = (payload field).isSome := by
  simp [GroupSyncState.sets, PatchLog.sets, h, GroupEvent.patch]

theorem sets_ensure {event : Nat} (h : s.events[event]? = some .ensure) (field : Field) :
    s.sets event field = false := by
  simp [GroupSyncState.sets, PatchLog.sets, h, GroupEvent.patch]

section Enqueue

variable (now : Time) (event : GroupEvent)

theorem getElem_enqueue (h : number < s.events.length) :
    (enqueue s now event).events[number]? = s.events[number]? :=
  getElem?_append_left h

theorem lt_of_getElem {event : GroupEvent} (h : s.events[number]? = some event) :
    number < s.events.length := (List.getElem?_eq_some_iff.mp h).1

theorem version_enqueue (h : number ≤ s.events.length) :
    (enqueue s now event).version number = s.version number :=
  PatchLog.version_append h

theorem sets_enqueue (h : number < s.events.length) (field : Field) :
    (enqueue s now event).sets number field = s.sets number field :=
  PatchLog.sets_append h

theorem snapshotOk_enqueue {number version : Nat} {snapshot : GroupProfile}
    (h : SnapshotOk s number version snapshot) :
    SnapshotOk (enqueue s now event) number version snapshot := by
  obtain ⟨hlow, hhigh, hsnap⟩ := h
  refine ⟨hlow, ?_, ?_⟩
  · rw [enqueue, length_append]
    exact Nat.le_add_right_of_le hhigh
  rw [version_enqueue now event hhigh]
  exact hsnap

theorem SyncInvariant.enqueue (h : SyncInvariant s)
    (hpayload : ∀ payload, event = .updated payload → ∃ field, (payload field).isSome = true) :
    SyncInvariant { enqueue s now event with profile := overlay s.profile event.patch } := by
  have hlen : (ImSync.enqueue s now event).events.length = s.events.length + 1 := by
    simp [ImSync.enqueue]
  exact {
    profile := by
      change overlay s.profile event.patch =
        PatchLog.version GroupEvent.patch s.base (s.events ++ [event]) (s.events ++ [event]).length
      rw [length_append, length_singleton, PatchLog.version_snoc, h.profile]
      rfl
    payloads := fun number payload hevent => by
      by_cases hold : number < s.events.length
      · exact h.payloads number payload ((getElem_enqueue now event hold).symm.trans hevent)
      have hnumber := lt_of_getElem (s := ImSync.enqueue s now event) hevent
      obtain rfl : number = s.events.length := by omega
      have hnew : (s.events ++ [event])[s.events.length]? = some event := by simp
      exact hpayload payload (some.inj (hnew.symm.trans hevent))
    leases := fun lease l hl => by
      obtain ⟨hevent, hphase⟩ := h.leases lease l hl
      refine ⟨by change l.event < (ImSync.enqueue s now event).events.length; omega, ?_⟩
      revert hphase
      cases l.phase with
      | read version snapshot | missing version snapshot | creating version snapshot =>
        exact snapshotOk_enqueue now event
      | updating payload => exact fun hupdated => (getElem_enqueue now event hevent).trans hupdated
      | _ => exact id
    fresh := h.fresh
    inFlight := fun lease request hreq => by
      obtain ⟨l, hl, hok⟩ := h.inFlight lease request hreq
      refine ⟨l, hl, ?_⟩
      revert hok
      cases request with
      | setGroupInfo payload =>
        exact fun hupdated => (getElem_enqueue now event (lt_of_getElem hupdated)).trans hupdated
      | createGroup version snapshot => exact snapshotOk_enqueue now event
    written := fun remote hremote field => by
      obtain ⟨hle, hvalue⟩ := h.written remote hremote field
      refine ⟨by change s.written field ≤ (ImSync.enqueue s now event).events.length; omega, ?_⟩
      rw [hvalue]
      exact congrArg field.encode (congrFun (version_enqueue now event hle) field).symm
    settled := fun number hset => by
      obtain ⟨hlt, hreflects⟩ := h.settled number hset
      refine ⟨by change number < (ImSync.enqueue s now event).events.length; omega, ?_⟩
      intro field hsets
      exact hreflects field ((sets_enqueue now event hlt field).symm.trans hsets)
    completed := fun number hnumber hcomp => by
      by_cases hnew : number = s.events.length
      · subst hnew
        have hrow : (ImSync.enqueue s now event).rows s.events.length = .fresh now :=
          update_self ..
        change ((ImSync.enqueue s now event).rows s.events.length).status = _ at hcomp
        rw [hrow] at hcomp
        cases hcomp
      have hrow : (ImSync.enqueue s now event).rows number = s.rows number :=
        update_of_ne hnew ..
      change ((ImSync.enqueue s now event).rows number).status = _ at hcomp
      rw [hrow] at hcomp
      change number < (ImSync.enqueue s now event).events.length at hnumber
      exact h.completed number (by omega) hcomp }

end Enqueue

theorem SyncInvariant.setPhase (h : SyncInvariant s) {phase : Phase}
    (hphase : ∀ l, s.leases lease = some l → PhaseOk s lease l.event phase) :
    SyncInvariant (setPhase s lease phase) := { h with
    leases := fun other l hl => by
      by_cases heq : other = lease
      · subst heq
        rw [setPhase_self] at hl
        obtain ⟨before, hpre, rfl⟩ := map_eq_some_iff.mp hl
        exact ⟨(h.leases other before hpre).1, hphase before hpre⟩
      rw [setPhase_of_ne heq] at hl
      exact h.leases other l hl
    fresh := fun other hother => by
      by_cases heq : other = lease
      · subst heq
        change Function.update s.leases other _ other = none
        rw [update_self, h.fresh other hother]
        rfl
      exact (update_of_ne heq ..).trans (h.fresh other hother)
    inFlight := fun other request hreq => by
      obtain ⟨l, hl, hok⟩ := h.inFlight other request hreq
      by_cases heq : other = lease
      · subst heq
        refine ⟨{ l with phase := phase }, ?_, hok⟩
        change Function.update s.leases other _ other = _
        rw [update_self, hl]
        rfl
      exact ⟨l, (update_of_ne heq ..).trans hl, hok⟩ }

theorem SyncInvariant.setRow (h : SyncInvariant s) (event : Nat) (row : OutboxRow)
    (hrow : event < s.events.length → row.status = .completed → s.settled event = true) :
    SyncInvariant (setRow s event row) := { h with
    completed := fun other hother hcomp => by
      by_cases heq : other = event
      · subst heq
        have hvalue : (ImSync.setRow s other row).rows other = row := update_self ..
        rw [hvalue] at hcomp
        exact hrow hother hcomp
      have hvalue : (ImSync.setRow s event row).rows other = s.rows other :=
        update_of_ne heq ..
      rw [hvalue] at hcomp
      exact h.completed other hother hcomp }

theorem settle_mono {event other : Nat} (h : s.settled other = true) :
    (settle s event).settled other = true := by
  by_cases heq : other = event
  · subst heq
    exact update_self ..
  exact (update_of_ne heq ..).trans h

theorem SyncInvariant.settle (h : SyncInvariant s) {event : Nat} (hevent : event < s.events.length)
    (hreflects : ∀ field, s.sets event field = true →
      s.openim.isSome = true ∧ event < s.written field) :
    SyncInvariant (settle s event) := { h with
    leases := fun lease l hl => by
      obtain ⟨hlt, hphase⟩ := h.leases lease l hl
      refine ⟨hlt, ?_⟩
      revert hphase
      cases l.phase with
      | sent => exact fun hsent hnone => settle_mono (hsent hnone)
      | succeeded => exact fun hset => settle_mono hset
      | _ => exact id
    settled := fun other hother => by
      by_cases heq : other = event
      · subst heq
        exact ⟨hevent, hreflects⟩
      exact h.settled other ((update_of_ne heq ..).symm.trans hother)
    completed := fun other hother hcomp => settle_mono (h.completed other hother hcomp) }

theorem SyncInvariant.openLease (h : SyncInvariant s)
    (hevent : l.event < s.events.length) (hphase : l.phase = .claimed) :
    SyncInvariant (openLease s l) := { h with
    leases := fun other l' hl' => by
      by_cases heq : other = s.nextLease
      · subst heq
        rw [openLease_self] at hl'
        cases hl'
        rw [hphase]
        exact ⟨hevent, trivial⟩
      rw [openLease_of_ne heq] at hl'
      exact h.leases other l' hl'
    fresh := fun other hother => by
      change s.nextLease + 1 ≤ other at hother
      rw [openLease_of_ne (by omega)]
      exact h.fresh other (by omega)
    inFlight := fun other request hreq => by
      obtain ⟨l', hl', hok⟩ := h.inFlight other request hreq
      have hne : other ≠ s.nextLease := by
        intro heq
        rw [h.fresh other heq.ge] at hl'
        cases hl'
      refine ⟨l', ?_, hok⟩
      rw [openLease_of_ne hne]
      exact hl' }

theorem SyncInvariant.claim (h : SyncInvariant s) {worker : WorkerID} {now : Time} {event : Nat}
    (hstep : claim s worker now event = some t) : SyncInvariant t := by
  unfold ImSync.claim at hstep
  split at hstep
  · rename_i hclaim
    cases hstep
    have hrow := h.setRow event ((s.rows event).claim worker now)
      (fun _ hcomp => absurd hcomp OutboxRow.claim_status)
    exact hrow.openLease hclaim.1 rfl
  cases hstep

theorem phaseOf_eq_some {phase : Phase} (h : phaseOf s lease = some phase) :
    ∃ l, s.leases lease = some l ∧ l.phase = phase := map_eq_some_iff.mp h

section

variable (h : SyncInvariant s)
include h

theorem SyncInvariant.phase {phase : Phase} (hphase : phaseOf s lease = some phase) :
    ∃ l, s.leases lease = some l ∧ l.event < s.events.length ∧ PhaseOk s lease l.event phase := by
  obtain ⟨l, hl, rfl⟩ := phaseOf_eq_some hphase
  exact ⟨l, hl, h.leases lease l hl⟩

theorem SyncInvariant.readState (hstep : readState s lease = some t) : SyncInvariant t := by
  unfold ImSync.readState at hstep
  split at hstep
  · cases hstep
    apply h.setPhase
    intro l hl
    exact ⟨(h.leases lease l hl).1, le_rfl, h.profile⟩
  cases hstep

theorem SyncInvariant.lookUp (hstep : lookUp s lease = some t) : SyncInvariant t := by
  unfold ImSync.lookUp at hstep
  split at hstep
  · rename_i event worker attempt version snapshot hl
    obtain ⟨hevent, hsnap⟩ := h.leases lease _ hl
    have hmissing : SyncInvariant (ImSync.setPhase s lease (.missing version snapshot)) := by
      apply h.setPhase
      intro l hl'
      cases hl.symm.trans hl'
      exact hsnap
    split at hstep
    · rename_i payload hupdated
      split at hstep
      · rename_i hempty
        cases hstep
        have hset : SyncInvariant (ImSync.settle s event) := by
          apply h.settle hevent
          intro field hsets
          rw [sets_updated hupdated, isEmpty_eq_true hempty] at hsets
          cases hsets
        apply hset.setPhase
        intro l hl'
        cases hl.symm.trans hl'
        exact update_self ..
      split at hstep
      · cases hstep
        apply h.setPhase
        intro l hl'
        cases hl.symm.trans hl'
        exact hupdated
      cases hstep
      exact hmissing
    · cases hstep
      exact hmissing
    cases hstep
  cases hstep

theorem SyncInvariant.ensureGroup
    (horder : InOrder s (.ensureGroup lease)) (hstep : ensureGroup s lease = some t) :
    SyncInvariant t := by
  unfold ImSync.ensureGroup at hstep
  split at hstep
  · rename_i event worker attempt version snapshot hl
    obtain ⟨hevent, hsnap⟩ := h.leases lease _ hl
    split at hstep
    · rename_i hreg
      cases hstep
      have hset : SyncInvariant (ImSync.settle s event) := by
        apply h.settle hevent
        intro field hsets
        exact ⟨hreg, horder _ hl hreg field hsets⟩
      apply hset.setPhase
      intro l hl'
      cases hl.symm.trans hl'
      exact update_self ..
    cases hstep
    apply h.setPhase
    intro l hl'
    cases hl.symm.trans hl'
    exact hsnap
  cases hstep

theorem SyncInvariant.sent {request : Request}
    (hl : s.leases lease = some l) (hok : RequestOk s l.event request) :
    SyncInvariant (setInFlight (ImSync.setPhase s lease .sent) lease (some request)) := by
  have hleases : (ImSync.setPhase s lease .sent).leases lease = some { l with phase := .sent } := by
    rw [setPhase_self, hl]
    rfl
  exact { h with
    leases := fun other l' hl' => by
      change (ImSync.setPhase s lease .sent).leases other = some l' at hl'
      by_cases heq : other = lease
      · subst heq
        rw [hleases] at hl'
        cases hl'
        refine ⟨(h.leases other l hl).1, fun hnone => ?_⟩
        rw [setInFlight_self] at hnone
        cases hnone
      rw [setPhase_of_ne heq] at hl'
      obtain ⟨hevent, hphase⟩ := h.leases other l' hl'
      refine ⟨hevent, ?_⟩
      revert hphase
      cases l'.phase with
      | sent =>
        intro hsent hnone
        rw [setInFlight_of_ne heq] at hnone
        exact hsent hnone
      | _ => exact id
    fresh := fun other hother => by
      change (ImSync.setPhase s lease .sent).leases other = none
      by_cases heq : other = lease
      · subst heq
        rw [h.fresh other hother] at hl
        cases hl
      rw [setPhase_of_ne heq]
      exact h.fresh other hother
    inFlight := fun other request' hreq => by
      change ∃ l', (ImSync.setPhase s lease .sent).leases other = some l' ∧ _
      by_cases heq : other = lease
      · subst heq
        rw [setInFlight_self] at hreq
        cases hreq
        exact ⟨_, hleases, hok⟩
      rw [setInFlight_of_ne heq] at hreq
      rw [setPhase_of_ne heq]
      exact h.inFlight other request' hreq }

theorem SyncInvariant.send (hstep : send s lease = some t) : SyncInvariant t := by
  unfold ImSync.send at hstep
  split at hstep
  · rename_i payload hphase
    cases hstep
    obtain ⟨l, hl, _, hok⟩ := h.phase hphase
    exact h.sent hl hok
  · rename_i version snapshot hphase
    cases hstep
    obtain ⟨l, hl, _, hok⟩ := h.phase hphase
    exact h.sent hl hok
  cases hstep

theorem SyncInvariant.write {remote : RemoteProfile} {written : Field → Nat}
    (hwritten : ∀ field, written field ≤ s.events.length ∧
      remote field = field.encode (s.version (written field) field))
    (hkept : ∀ event field, s.settled event = true → s.sets event field = true →
      event < written field) :
    SyncInvariant { s with openim := some remote, written := written } := { h with
    written := fun other hother field => by
      cases hother
      exact hwritten field
    settled := fun event hset =>
      ⟨(h.settled event hset).1, fun field hsets => ⟨rfl, hkept event field hset hsets⟩⟩ }

theorem SyncInvariant.dropRequest
    (hset : ∀ l, s.leases lease = some l → l.phase = .sent → s.settled l.event = true) :
    SyncInvariant (setInFlight s lease none) := { h with
    leases := fun other l hl => by
      obtain ⟨hevent, hphase⟩ := h.leases other l hl
      refine ⟨hevent, ?_⟩
      by_cases heq : other = lease
      · subst heq
        have hsent := hset l hl
        revert hphase hsent
        cases l.phase with
        | sent => exact fun _ hsent _ => hsent rfl
        | _ => exact fun hphase _ => hphase
      revert hphase
      cases l.phase with
      | sent =>
        intro hsent hnone
        rw [setInFlight_of_ne heq] at hnone
        exact hsent hnone
      | _ => exact id
    inFlight := fun other request hreq => by
      by_cases heq : other = lease
      · subst heq
        rw [setInFlight_self] at hreq
        cases hreq
      rw [setInFlight_of_ne heq] at hreq
      exact h.inFlight other request hreq }

theorem SyncInvariant.handled (hl : s.leases lease = some l)
    (hreflects : ∀ field, s.sets l.event field = true →
      s.openim.isSome = true ∧ l.event < s.written field) :
    SyncInvariant (setInFlight (ImSync.settle s l.event) lease none) := by
  apply (h.settle (h.leases lease l hl).1 hreflects).dropRequest
  intro l' hl' _
  cases hl.symm.trans hl'
  exact update_self ..

theorem SyncInvariant.land_setGroupInfo {remote : RemoteProfile} (hl : s.leases lease = some l)
    (hremote : s.openim = some remote) (hupdated : s.events[l.event]? = some (.updated payload))
    (horder : ∀ later field, l.event < later → s.settled later = true →
      s.sets l.event field = true → s.sets later field = false) :
    SyncInvariant (setInFlight (ImSync.settle { s with
      openim := some (overlay remote (encodePayload payload))
      written := fun field => if (payload field).isSome then l.event + 1 else s.written field }
      l.event) lease none) := by
  have hwrite : SyncInvariant { s with
      openim := some (overlay remote (encodePayload payload))
      written := fun field => if (payload field).isSome then l.event + 1 else s.written field } := by
    apply h.write
    · intro field
      cases hvalue : payload field with
      | none =>
        simp only [isSome_none, Bool.false_eq_true, if_false, overlay, encodePayload,
          hvalue, map_none, getD_none]
        exact h.written remote hremote field
      | some value =>
        have hver : s.version (l.event + 1) field = value :=
          version_of_sets hupdated hvalue
        simp only [isSome_some, if_true, overlay, encodePayload, hvalue, map_some,
          getD_some, hver, and_true]
        exact (h.leases lease l hl).1
    intro event field hset hsets
    cases hvalue : (payload field).isSome with
    | false =>
      simp only [Bool.false_eq_true, if_false]
      exact ((h.settled event hset).2 field hsets).2
    | true =>
      simp only [if_true]
      by_contra hlater
      have hnone := horder event field (by omega) hset ((sets_updated hupdated field).trans hvalue)
      rw [hsets] at hnone
      cases hnone
  apply hwrite.handled hl
  intro field hsets
  refine ⟨rfl, ?_⟩
  have hpayload : (payload field).isSome = true := (sets_updated hupdated field).symm.trans hsets
  simp only [hpayload, if_true]
  exact Nat.lt_succ_self _

theorem SyncInvariant.land_createGroup
    {version : Nat} {snapshot : GroupProfile} (hl : s.leases lease = some l)
    (hremote : s.openim = none) (hsnap : SnapshotOk s l.event version snapshot) :
    SyncInvariant (setInFlight (ImSync.settle { s with
      openim := some (encodeProfile snapshot)
      written := fun _ => version } l.event) lease none) := by
  obtain ⟨hevent, hver, rfl⟩ := hsnap
  have hwrite : SyncInvariant { s with
      openim := some (encodeProfile (s.version version)), written := fun _ => version } := by
    apply h.write
    · exact fun field => ⟨hver, rfl⟩
    intro event field hset hsets
    have hreg := ((h.settled event hset).2 field hsets).1
    rw [hremote] at hreg
    cases hreg
  apply hwrite.handled hl
  exact fun field _ => ⟨rfl, hevent⟩

theorem SyncInvariant.land
    (horder : InOrder s (.land lease)) (hstep : land s lease = some t) : SyncInvariant t := by
  unfold ImSync.land at hstep
  split at hstep
  · rename_i l request hl hreq
    have hallow := horder l request hl hreq
    obtain ⟨l', hl', hok⟩ := h.inFlight lease request hreq
    cases hl.symm.trans hl'
    simp only at hstep
    split at hstep
    · rename_i payload remote hremote
      cases hstep
      exact h.land_setGroupInfo hl hremote hok hallow
    · cases hstep
      have hfailed : SyncInvariant (ImSync.setPhase s lease .failed) :=
        h.setPhase fun _ _ => trivial
      apply hfailed.dropRequest
      intro l' hl' hsent
      rw [setPhase_self, hl] at hl'
      cases hl'
      cases hsent
    · rename_i version snapshot hremote
      cases hstep
      exact h.land_createGroup hl hremote hok
    rename_i version snapshot remote hremote
    cases hstep
    apply h.handled hl
    intro field hsets
    have hreg : s.openim.isSome = true := by rw [hremote]; rfl
    exact ⟨hreg, hallow hreg field hsets⟩
  cases hstep

theorem SyncInvariant.answer (hstep : answer s lease = some t) : SyncInvariant t := by
  unfold ImSync.answer at hstep
  split at hstep
  · rename_i hphase hnone
    cases hstep
    obtain ⟨l, hl, _, hsent⟩ := h.phase hphase
    apply h.setPhase
    intro l' hl'
    cases hl.symm.trans hl'
    exact hsent hnone
  cases hstep

theorem SyncInvariant.giveUp (hstep : giveUp s lease = some t) : SyncInvariant t := by
  unfold ImSync.giveUp at hstep
  split at hstep
  · cases hstep
  · cases hstep
  cases hstep
  exact h.setPhase fun _ _ => trivial

theorem SyncInvariant.markCompleted (hstep : markCompleted s lease = some t) : SyncInvariant t := by
  unfold ImSync.markCompleted at hstep
  split at hstep
  · rename_i event worker attempt hl
    cases hstep
    have hrow : SyncInvariant (ImSync.setRow s event ((s.rows event).markCompleted worker)) :=
      h.setRow _ _ fun _ _ => (h.leases lease _ hl).2
    exact hrow.setPhase fun _ _ => trivial
  cases hstep

theorem SyncInvariant.markFailed {lease maxAttempts : Nat}
    {nextAttempt : Time} (hstep : markFailed s lease maxAttempts nextAttempt = some t) :
    SyncInvariant t := by
  unfold ImSync.markFailed at hstep
  split at hstep
  · rename_i event worker attempt hl
    cases hstep
    have hrow : SyncInvariant (ImSync.setRow s event
        ((s.rows event).markFailed worker attempt maxAttempts nextAttempt)) :=
      h.setRow _ _ fun hevent hcomp =>
        h.completed event hevent (OutboxRow.markFailed_completed hcomp)
    exact hrow.setPhase fun _ _ => trivial
  cases hstep

theorem SyncInvariant.commitUpdate (now : Time)
    (payload : IMGroupUpdatePayload) : SyncInvariant (commitUpdate s now payload) := by
  unfold ImSync.commitUpdate
  split
  · exact h
  rename_i hpayload
  apply h.enqueue now (.updated payload)
  intro other hother
  cases hother
  exact isEmpty_eq_false (Bool.eq_false_iff.mpr hpayload)

end

theorem syncInvariant_step {a : Action} (horder : InOrder s a) (h : SyncInvariant s)
    (hstep : step s a = some t) : SyncInvariant t := by
  cases a with
  | updateSettings now request sameImages | updateSettingsByAdmin now allow =>
    cases hstep
    exact h.commitUpdate now _
  | syncLatestAnnouncement now latestText =>
    cases hstep
    unfold syncLatestAnnouncement
    split
    · exact h
    exact h.commitUpdate now _
  | enqueueEnsure now =>
    cases hstep
    exact h.enqueue now .ensure fun _ hother => by cases hother
  | claim worker now event => exact h.claim hstep
  | readState lease => exact h.readState hstep
  | lookUp lease => exact h.lookUp hstep
  | ensureGroup lease => exact h.ensureGroup horder hstep
  | send lease => exact h.send hstep
  | land lease => exact h.land horder hstep
  | answer lease => exact h.answer hstep
  | giveUp lease => exact h.giveUp hstep
  | markCompleted lease => exact h.markCompleted hstep
  | markFailed lease maxAttempts nextAttempt => exact h.markFailed hstep
  | replayDead now event =>
    cases hstep
    exact h.setRow _ _ fun hevent hcomp =>
      h.completed event hevent (OutboxRow.replayDead_completed hcomp)

theorem syncInvariant_initial (hs : Initial s) : SyncInvariant s where
  profile := by
    rw [hs.profile, GroupSyncState.version, hs.events]
    rfl
  payloads := fun event payload hevent => by
    rw [hs.events] at hevent
    cases hevent
  leases := fun lease l hl => by
    rw [hs.leases lease] at hl
    cases hl
  fresh := fun lease _ => hs.leases lease
  inFlight := fun lease request hreq => by
    rw [hs.inFlight lease] at hreq
    cases hreq
  written := fun remote hremote field => by
    rw [hs.written field]
    refine ⟨Nat.zero_le _, ?_⟩
    rcases hs.openim with hnone | hsome
    · rw [hnone] at hremote
      cases hremote
    rw [hsome] at hremote
    cases hremote
    rfl
  settled := fun event hset => by
    rw [hs.settled event] at hset
    cases hset
  completed := fun event hevent _ => by
    rw [hs.events] at hevent
    exact absurd hevent (Nat.not_lt_zero _)

/-- Every update event of the group has been completed. -/
def AllCompleted (s : GroupSyncState) : Prop :=
  ∀ (event : Nat) payload, s.events[event]? = some (.updated payload) →
    (s.rows event).status = .completed

/-- OpenIM has the committed profile, and it has the group once an update was
committed. -/
structure Converged (s : GroupSyncState) : Prop where
  profile : ∀ remote, s.openim = some remote → remote = encodeProfile s.profile
  registered : ∀ (event : Nat) payload, s.events[event]? = some (.updated payload) →
    s.openim.isSome = true

theorem sets_event {event : Nat} {field : Field} (h : s.sets event field = true) :
    ∃ payload, s.events[event]? = some (.updated payload) := by
  cases hevent : s.events[event]? with
  | none => simp [GroupSyncState.sets, PatchLog.sets, hevent] at h
  | some e =>
    cases e with
    | updated payload => exact ⟨payload, rfl⟩
    | ensure => rw [sets_ensure hevent] at h; cases h

theorem SyncInvariant.converged (h : SyncInvariant s) (hall : AllCompleted s) : Converged s where
  profile := fun remote hremote => by
    funext field
    obtain ⟨hwritten, hvalue⟩ := h.written remote hremote field
    rw [hvalue, encodeProfile, h.profile]
    congr 1
    symm
    apply version_eq_of_unset hwritten
    intro event hlow _
    rw [Bool.eq_false_iff]
    intro hsets
    obtain ⟨payload, hevent⟩ := sets_event hsets
    have hset := h.completed event (lt_of_getElem hevent) (hall event payload hevent)
    have hlater := ((h.settled event hset).2 field hsets).2
    omega
  registered := fun event payload hevent => by
    obtain ⟨field, hfield⟩ := h.payloads event payload hevent
    have hset := h.completed event (lt_of_getElem hevent) (hall event payload hevent)
    exact ((h.settled event hset).2 field ((sets_updated hevent field).trans hfield)).1

def plainGroup : GroupProfile
  | .name => ['A']
  | .avatar | .announcement => []
  | .allowMemberAddFriend => true

/-- A group that OpenIM knows as it is. -/
def registeredGroup : GroupSyncState where
  base := plainGroup
  profile := plainGroup
  events := []
  rows _ := .fresh 0
  leases _ := none
  nextLease := 0
  inFlight _ := none
  openim := some (encodeProfile plainGroup)
  written _ := 0
  settled _ := false

theorem registeredGroup_initial : Initial registeredGroup :=
  ⟨rfl, rfl, fun _ => rfl, rfl, fun _ => rfl, .inr rfl, fun _ => rfl, fun _ => rfl⟩

def nameB : Field.name.Value := ['B']

def nameC : Field.name.Value := ['C']

def rename (name : Field.name.Value) : Action := .updateSettings 0 (onlyField .name (some name)) false

def applyActions (lease : Nat) : List Action :=
  [.readState lease, .lookUp lease, .send lease, .land lease, .answer lease, .markCompleted lease]

/-- Two renames of which the first one fails at its first attempt. -/
def reorderedRenames : List Action :=
  [rename nameB, rename nameC, .claim 7 0 0, .claim 7 0 1, .readState 0, .lookUp 0, .giveUp 0,
    .markFailed 0 10 4] ++ applyActions 1 ++ [.claim 7 4 0] ++ applyActions 2

/-- Both events are completed and the first name is back. -/
theorem reorderedRenames_diverge : ¬ ∀ s, machine.Reachable s → AllCompleted s → Converged s := by
  intro hconverged
  have hrun : (machine.execute registeredGroup reorderedRenames).any (fun s =>
      s.events.length = 2 && (s.rows 0).status = .completed && (s.rows 1).status = .completed &&
        s.openim.any (fun remote => remote .name ≠ encodeProfile s.profile .name)) = true := by
    decide
  obtain ⟨s, hs, hcheck⟩ := (any_eq_true _ _).mp hrun
  simp only [Bool.and_eq_true, decide_eq_true_eq, Option.any_eq_true] at hcheck
  obtain ⟨⟨⟨hlen, hfirst⟩, hsecond⟩, remote, hremote, hname⟩ := hcheck
  have hall : AllCompleted s := by
    intro event payload hevent
    have hlt := lt_of_getElem hevent
    have hcases : event = 0 ∨ event = 1 := by omega
    rcases hcases with rfl | rfl
    · exact hfirst
    exact hsecond
  have hdone := hconverged s (Machine.reachable_of_execute registeredGroup_initial hs) hall
  rw [hdone.profile remote hremote] at hname
  exact hname rfl

/-- In every run in which the patches reach OpenIM in order, OpenIM has the
committed profile whenever every update event is completed. -/
theorem group_profile_converges :
    ∀ s, machine.ReachableBy InOrder s → AllCompleted s → Converged s := by
  intro s hs hall
  have h : SyncInvariant s := hs.invariant SyncInvariant
    (fun _ hinitial => syncInvariant_initial hinitial)
    (fun _ _ _ horder h hstep => syncInvariant_step horder h hstep)
  exact h.converged hall

/-- A rename up to its request. -/
def renameSent : GroupSyncState :=
  ((machine.execute registeredGroup [rename nameB, .claim 7 0 0, .readState 0, .lookUp 0,
    .send 0])).getD registeredGroup

def renameLanded : GroupSyncState := (land renameSent 0).getD registeredGroup

theorem rename_converges :
    ∃ s, machine.ReachableBy InOrder s ∧ AllCompleted s ∧ s.profile .name = nameB ∧
      ∀ remote, s.openim = some remote → remote .name = nameB := by
  have hsent : machine.execute registeredGroup [rename nameB, .claim 7 0 0, .readState 0,
      .lookUp 0, .send 0] = some renameSent := rfl
  have hlanded : machine.step renameSent (.land 0) = some renameLanded := rfl
  have hdone : (machine.execute renameLanded [.answer 0, .markCompleted 0]).any (fun s =>
      s.events.length = 1 && (s.rows 0).status = .completed && s.profile .name = nameB) = true := by
    decide
  obtain ⟨s, hs, hcheck⟩ := (any_eq_true _ _).mp hdone
  simp only [Bool.and_eq_true, decide_eq_true_eq] at hcheck
  obtain ⟨⟨hlen, hrow⟩, hname⟩ := hcheck
  have hfirst : machine.Path InOrder registeredGroup renameSent := by
    apply Machine.path_of_execute_by (fun _ => True) _ _ trivial hsent
    · exact fun _ _ _ _ _ _ => trivial
    intro s a ha _
    simp only [mem_cons, not_mem_nil, or_false] at ha
    rcases ha with rfl | rfl | rfl | rfl | rfl <;> trivial
  have hmiddle : machine.Path InOrder renameSent renameLanded := by
    apply Machine.Path.single _ hlanded
    intro l request _ hreq
    cases (rfl : renameSent.inFlight 0 = _).symm.trans hreq
    intro later field _ hset
    cases (rfl : renameSent.settled later = false).symm.trans hset
  have hlast : machine.Path InOrder renameLanded s := by
    apply Machine.path_of_execute_by (fun _ => True) _ _ trivial hs
    · exact fun _ _ _ _ _ _ => trivial
    intro s a ha _
    simp only [mem_cons, not_mem_nil, or_false] at ha
    rcases ha with rfl | rfl <;> trivial
  have hreach : machine.ReachableBy InOrder s :=
    ⟨registeredGroup, registeredGroup_initial, (hfirst.trans hmiddle).trans hlast⟩
  have hall : AllCompleted s := by
    intro event payload hevent
    have hlt := lt_of_getElem hevent
    obtain rfl : event = 0 := by omega
    exact hrow
  refine ⟨s, hreach, hall, hname, fun remote hremote => ?_⟩
  rw [(group_profile_converges s hreach hall).profile remote hremote]
  exact hname

end ImApp.ImSync
