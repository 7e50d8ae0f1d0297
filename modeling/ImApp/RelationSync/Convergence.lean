import ImApp.RelationSync.Worker

/-!
Convergence of the relations in OpenIM. A worker acts on what it read, so a call
can bring back a relation that has changed since the read. OpenIM agrees with the
database as long as every call that takes effect carries the relation as it is
stored, or leaves another event to bring it.
-/

namespace ImApp.RelationSync

open ImApp.ImSync (OutboxRow WorkerID Time)
open StepSystem List Option Function

variable {s t : RelationState} {number lease : Nat} {relation : Relation}

/-- The worker may still complete its event. -/
def Lease.alive (l : Lease) : Bool :=
  match l.phase with
  | .failed | .ended => false
  | _ => true

/-- A worker has brought the event's relation to OpenIM and may complete it. -/
def Brings (s : RelationState) (number : Nat) (relation : Relation) : Prop :=
  ∃ lease l, s.leases lease = some l ∧ l.event = number ∧ l.alive = true ∧
    s.brought lease relation = true

def Concerns (s : RelationState) (number : Nat) (relation : Relation) : Prop :=
  ∃ event, s.events[number]? = some event ∧ event.concerns relation = true

/-- The event cannot be completed before a worker brings the relation to OpenIM
again. -/
structure Owes (s : RelationState) (number : Nat) (relation : Relation) : Prop where
  concerns : Concerns s number relation
  uncompleted : (s.rows number).status ≠ .completed
  unbrought : ¬ Brings s number relation

/-- A call takes effect only with the stored relation, or while an event owes the
relation for which the call's worker does not answer. -/
def LandsCurrent (s : RelationState) : Action → Prop
  | .land lease handling => ∀ call l, s.inFlight lease = some call → s.leases lease = some l →
      ∀ relation, call.sets relation = true →
        call.effect handling s.openim relation = s.stored relation ∨
          ∃ number, Owes s number relation ∧ (number ≠ l.event ∨ l.alive = false)
  | _ => True

/-- The calls that the worker has not seen an answer to. -/
def remaining (s : RelationState) (lease : Nat) : Phase → List Call
  | .calling rest => rest
  | .waiting rest => (s.inFlight lease).toList ++ rest
  | _ => []

/-- What a worker has not brought to OpenIM it is going to. -/
def Covers (s : RelationState) (lease : Nat) (l : Lease) : Prop :=
  l.alive = true → l.phase ≠ .claimed → ∀ relation, Concerns s l.event relation →
    s.brought lease relation = true ∨ ∃ call ∈ remaining s lease l.phase, call.sets relation = true

structure SyncInvariant (s : RelationState) : Prop where
  leases : ∀ lease l, s.leases lease = some l → l.event < s.events.length ∧ Covers s lease l
  unclaimed : ∀ lease, s.nextLease ≤ lease → s.leases lease = none ∧ s.inFlight lease = none ∧
    ∀ relation, s.brought lease relation = false
  sent : ∀ lease call, s.inFlight lease = some call → (s.leases lease).isSome = true
  agree : ∀ relation, s.openim relation = s.stored relation ∨ ∃ number, Owes s number relation

theorem calls_cover (event : IMSyncEvent) (held : Bool) {relation : Relation}
    (h : event.concerns relation = true) : ∃ call ∈ event.calls held, call.sets relation = true := by
  obtain ⟨eventType, owner⟩ := event
  cases eventType <;> cases held <;>
    simpa [IMSyncEvent.concerns, IMSyncEvent.calls, Call.sets] using h

theorem lt_of_concerns (h : Concerns s number relation) : number < s.events.length := by
  obtain ⟨event, hevent, _⟩ := h
  exact (List.getElem?_eq_some_iff.mp hevent).1

/-- An event stays owed when its row is completed only by a worker that brought the
relation, and no further worker brings it. -/
theorem Owes.kept (h : Owes s number relation) (hevents : ∃ more, t.events = s.events ++ more)
    (hrow : (t.rows number).status = .completed → (s.rows number).status = .completed)
    (hbrings : Brings t number relation → Brings s number relation) : Owes t number relation where
  concerns := by
    obtain ⟨more, hmore⟩ := hevents
    obtain ⟨event, hevent, hconcerns⟩ := h.concerns
    refine ⟨event, ?_, hconcerns⟩
    rw [hmore, getElem?_append_left (List.getElem?_eq_some_iff.mp hevent).1]
    exact hevent
  uncompleted := fun hcomp => h.uncompleted (hrow hcomp)
  unbrought := fun hbrought => h.unbrought (hbrings hbrought)

section Enqueue

variable (now : Time) (event : IMSyncEvent)

theorem concerns_enqueue (h : number < s.events.length) :
    Concerns (enqueue s now event) number relation ↔ Concerns s number relation := by
  unfold Concerns
  simp only [enqueue, getElem?_append_left h]

theorem owes_enqueue (howes : Owes s number relation) :
    Owes (enqueue s now event) number relation := by
  refine howes.kept ⟨[event], rfl⟩ ?_ (fun hbrings => hbrings)
  intro hcomp
  have hne : number ≠ s.events.length := (lt_of_concerns howes.concerns).ne
  have hrow : (enqueue s now event).rows number = s.rows number := update_of_ne hne ..
  rw [hrow] at hcomp
  exact hcomp

theorem owes_new (h : SyncInvariant s) (hconcerns : event.concerns relation = true) :
    Owes (enqueue s now event) s.events.length relation where
  concerns := ⟨event, by simp [enqueue], hconcerns⟩
  uncompleted := by
    have hrow : (enqueue s now event).rows s.events.length = .fresh now := update_self ..
    rw [hrow]
    intro hcomp
    cases hcomp
  unbrought := by
    rintro ⟨lease, l, hl, hevent, _⟩
    exact absurd (hevent ▸ (h.leases lease l hl).1) (Nat.lt_irrefl _)

theorem SyncInvariant.enqueue (h : SyncInvariant s) : SyncInvariant (enqueue s now event) where
  leases := by
    intro lease l hl
    obtain ⟨hlt, hcovers⟩ := h.leases lease l hl
    have hgrown : (RelationSync.enqueue s now event).events.length = s.events.length + 1 :=
      length_append
    refine ⟨hgrown ▸ Nat.lt_succ_of_lt hlt, ?_⟩
    intro halive hphase relation hconcerns
    exact hcovers halive hphase relation ((concerns_enqueue now event hlt).mp hconcerns)
  unclaimed := h.unclaimed
  sent := h.sent
  agree := by
    intro relation
    rcases h.agree relation with hagree | ⟨number, howes⟩
    · exact Or.inl hagree
    exact Or.inr ⟨number, owes_enqueue now event howes⟩

theorem SyncInvariant.commit (h : SyncInvariant s) (value : Bool) :
    SyncInvariant (commit s now event value) := { h with
    leases := (h.enqueue now event).leases
    agree := by
      intro relation
      cases hconcerns : event.concerns relation with
      | true =>
        have howes := owes_new now event h hconcerns
        exact Or.inr ⟨_, howes.concerns, howes.uncompleted, howes.unbrought⟩
      | false =>
        have hstored : (RelationSync.commit s now event value).stored relation =
            s.stored relation := by
          simp [RelationSync.commit, RelationSync.enqueue, setStored, hconcerns]
        rcases (h.enqueue now event).agree relation with hagree | ⟨number, howes⟩
        · exact Or.inl (hagree.trans hstored.symm)
        exact Or.inr ⟨number, howes.concerns, howes.uncompleted, howes.unbrought⟩ }

end Enqueue

variable {phase : Phase} {l : Lease}

theorem setPhase_cases {other : Nat} (h : (setPhase s lease phase).leases other = some l) :
    (other = lease ∧ ∃ before, s.leases lease = some before ∧ l = { before with phase := phase }) ∨
      (other ≠ lease ∧ s.leases other = some l) := by
  rcases eq_or_ne other lease with rfl | hne
  · rw [show (setPhase s other phase).leases other = _ from update_self ..] at h
    obtain ⟨before, hpre, rfl⟩ := map_eq_some_iff.mp h
    exact Or.inl ⟨rfl, before, hpre, rfl⟩
  rw [show (setPhase s lease phase).leases other = _ from update_of_ne hne ..] at h
  exact Or.inr ⟨hne, h⟩

/-- A worker that goes on to a phase in which it may complete its event was in such
a phase before. -/
theorem brings_setPhase {before : Lease} (hlease : s.leases lease = some before)
    (halive : before.alive = true)
    (h : Brings (setPhase s lease phase) number relation) : Brings s number relation := by
  obtain ⟨other, l, hl, hevent, hl_alive, hbrought⟩ := h
  rcases setPhase_cases hl with ⟨rfl, current, hcur, rfl⟩ | ⟨_, hkept⟩
  · cases hlease.symm.trans hcur
    exact ⟨other, before, hlease, hevent, halive, hbrought⟩
  exact ⟨other, l, hkept, hevent, hl_alive, hbrought⟩

theorem brings_of_left (hleft : phase = .failed ∨ phase = .ended)
    (h : Brings (setPhase s lease phase) number relation) : Brings s number relation := by
  obtain ⟨other, l, hl, hevent, halive, hbrought⟩ := h
  rcases setPhase_cases hl with ⟨_, current, _, rfl⟩ | ⟨_, hkept⟩
  · rcases hleft with rfl | rfl <;> cases halive
  exact ⟨other, l, hkept, hevent, halive, hbrought⟩

section

variable (h : SyncInvariant s)
include h

theorem SyncInvariant.setPhase {before : Lease} (hlease : s.leases lease = some before)
    (hcovers : Covers (setPhase s lease phase) lease { before with phase := phase })
    (hbrings : ∀ number relation, Brings (setPhase s lease phase) number relation →
      Brings s number relation) : SyncInvariant (setPhase s lease phase) where
  leases := by
    intro other l hl
    rcases setPhase_cases hl with ⟨rfl, current, hcur, rfl⟩ | ⟨_, hkept⟩
    · cases hlease.symm.trans hcur
      exact ⟨(h.leases other before hlease).1, hcovers⟩
    exact h.leases other l hkept
  unclaimed := by
    intro other hother
    obtain ⟨hnone, hrest⟩ := h.unclaimed other hother
    refine ⟨?_, hrest⟩
    have hne : other ≠ lease := by
      rintro rfl
      cases hlease.symm.trans hnone
    exact (update_of_ne hne ..).trans hnone
  sent := by
    intro other call hcall
    have hsome := h.sent other call hcall
    rcases eq_or_ne other lease with rfl | hne
    · rw [show (RelationSync.setPhase s other phase).leases other = _ from update_self ..,
        hlease]
      rfl
    rw [show (RelationSync.setPhase s lease phase).leases other = _ from update_of_ne hne ..]
    exact hsome
  agree := by
    intro relation
    rcases h.agree relation with hagree | ⟨number, howes⟩
    · exact Or.inl hagree
    exact Or.inr ⟨number, howes.kept ⟨[], (append_nil _).symm⟩ (fun hrow => hrow)
      (hbrings number relation)⟩

/-- A change of an outbox row completes it only for a worker that brought what the
event owes. -/
theorem SyncInvariant.setRow (event : Nat) (row : OutboxRow)
    (hrow : row.status = .completed → (s.rows event).status = .completed ∨
      ∀ relation, ¬ Owes s event relation) : SyncInvariant (setRow s event row) := { h with
    agree := by
      intro relation
      rcases h.agree relation with hagree | ⟨number, howes⟩
      · exact Or.inl hagree
      refine Or.inr ⟨number, howes.kept ⟨[], (append_nil _).symm⟩ ?_ (fun hb => hb)⟩
      intro hcomp
      rcases eq_or_ne number event with rfl | hne
      · rw [show (RelationSync.setRow s number row).rows number = row from
          update_self ..] at hcomp
        rcases hrow hcomp with hpre | hnone
        · exact hpre
        exact absurd howes (hnone relation)
      rw [show (RelationSync.setRow s event row).rows number = s.rows number from
        update_of_ne hne ..] at hcomp
      exact hcomp }

theorem SyncInvariant.claim {worker : WorkerID} {now : Time} {event : Nat}
    (hstep : claim s worker now event = some t) : SyncInvariant t := by
  unfold RelationSync.claim at hstep
  split at hstep
  · rename_i hclaim
    cases hstep
    have hrow := h.setRow event ((s.rows event).claim worker now)
      (fun hcomp => absurd hcomp OutboxRow.claim_status)
    have hfree := h.unclaimed s.nextLease le_rfl
    have hleases : ∀ lease l, Function.update s.leases s.nextLease
        (some ⟨event, worker, (s.rows event).attemptCount + 1, .claimed⟩) lease = some l →
        (lease = s.nextLease ∧ l.event = event ∧ l.phase = .claimed) ∨
          (lease ≠ s.nextLease ∧ s.leases lease = some l) := by
      intro lease l hl
      rcases eq_or_ne lease s.nextLease with rfl | hne
      · rw [update_self] at hl
        cases hl
        exact Or.inl ⟨rfl, rfl, rfl⟩
      rw [update_of_ne hne] at hl
      exact Or.inr ⟨hne, hl⟩
    refine ⟨?_, ?_, ?_, ?_⟩
    · intro lease l hl
      rcases hleases lease l hl with ⟨_, hevent, hphase⟩ | ⟨_, hkept⟩
      · exact ⟨hevent ▸ hclaim.1, fun _ hnot => absurd hphase hnot⟩
      exact h.leases lease l hkept
    · intro lease hlease
      have hle : s.nextLease ≤ lease := Nat.le_of_succ_le hlease
      have hne : lease ≠ s.nextLease := (Nat.lt_of_succ_le hlease).ne'
      obtain ⟨hnone, hrest⟩ := h.unclaimed lease hle
      exact ⟨(update_of_ne hne ..).trans hnone, hrest⟩
    · intro lease call hcall
      rcases eq_or_ne lease s.nextLease with rfl | hne
      · cases hfree.2.1.symm.trans hcall
      simp only [update_of_ne hne]
      exact h.sent lease call hcall
    intro relation
    rcases hrow.agree relation with hagree | ⟨number, howes⟩
    · exact Or.inl hagree
    refine Or.inr ⟨number, howes.kept ⟨[], (append_nil _).symm⟩ (fun hr => hr) ?_⟩
    rintro ⟨lease, l, hl, hevent, halive, hbrought⟩
    rcases hleases lease l hl with ⟨rfl, _⟩ | ⟨_, hkept⟩
    · cases (hfree.2.2 relation).symm.trans hbrought
    exact ⟨lease, l, hkept, hevent, halive, hbrought⟩
  cases hstep

theorem SyncInvariant.relationshipState
    (hstep : relationshipState s lease = some t) : SyncInvariant t := by
  unfold RelationSync.relationshipState at hstep
  split at hstep
  · rename_i number worker attempt hlease
    obtain ⟨event, hevent, rfl⟩ := map_eq_some_iff.mp hstep
    apply h.setPhase hlease _ (fun _ _ hbrings => brings_setPhase hlease rfl hbrings)
    rintro _ _ relation ⟨current, hcur, hconcerns⟩
    cases hevent.symm.trans hcur
    exact Or.inr (calls_cover event _ hconcerns)
  cases hstep

theorem SyncInvariant.answer (hstep : answer s lease = some t) : SyncInvariant t := by
  unfold RelationSync.answer at hstep
  split at hstep
  · rename_i number worker attempt rest hlease hhandled
    cases hstep
    apply h.setPhase hlease _ (fun _ _ hbrings => brings_setPhase hlease rfl hbrings)
    intro _ _ relation hconcerns
    have hcovers := (h.leases lease _ hlease).2 rfl (by simp) relation hconcerns
    rw [remaining, hhandled] at hcovers
    exact hcovers
  cases hstep

theorem SyncInvariant.giveUp (hstep : giveUp s lease = some t) : SyncInvariant t := by
  unfold RelationSync.giveUp at hstep
  split at hstep
  · cases hstep
  · cases hstep
  rename_i l _ hlease
  cases hstep
  exact h.setPhase hlease (fun halive => by cases halive)
    (fun _ _ hbrings => brings_of_left (Or.inl rfl) hbrings)

theorem SyncInvariant.setInFlight {rest : List Call}
    (hlease : s.leases lease = some l) (hphase : l.phase = .calling rest) (call : Call) :
    SyncInvariant { s with inFlight := Function.update s.inFlight lease (some call) } where
  leases := by
    intro other l' hl
    obtain ⟨hlt, hcovers⟩ := h.leases other l' hl
    refine ⟨hlt, ?_⟩
    intro halive hclaimed relation hconcerns
    have hpre := hcovers halive hclaimed relation hconcerns
    rcases eq_or_ne other lease with rfl | hne
    · cases hlease.symm.trans hl
      rw [hphase] at hpre ⊢
      exact hpre
    cases hwait : l'.phase with
    | waiting more =>
      rw [hwait] at hpre
      simp only [remaining, update_of_ne hne]
      exact hpre
    | _ =>
      rw [hwait] at hpre
      exact hpre
  unclaimed := by
    intro other hother
    obtain ⟨hnone, hquiet, hbrought⟩ := h.unclaimed other hother
    have hne : other ≠ lease := by
      rintro rfl
      cases hlease.symm.trans hnone
    exact ⟨hnone, (update_of_ne hne ..).trans hquiet, hbrought⟩
  sent := by
    intro other sent hsent
    rcases eq_or_ne other lease with rfl | hne
    · simp only [hlease, isSome_some]
    simp only [update_of_ne hne] at hsent
    exact h.sent other sent hsent
  agree := by
    intro relation
    rcases h.agree relation with hagree | ⟨number, howes⟩
    · exact Or.inl hagree
    exact Or.inr ⟨number, howes.concerns, howes.uncompleted, howes.unbrought⟩

theorem SyncInvariant.send (hstep : send s lease = some t) : SyncInvariant t := by
  unfold RelationSync.send at hstep
  split at hstep
  · rename_i number worker attempt call rest hlease
    cases hstep
    have hsent := h.setInFlight hlease rfl call
    apply hsent.setPhase hlease _ (fun _ _ hbrings => brings_setPhase hlease rfl hbrings)
    intro _ _ relation hconcerns
    have hcovers := (h.leases lease _ hlease).2 rfl (by simp) relation hconcerns
    simp only [remaining, RelationSync.setPhase, update_self, toList_some]
    exact hcovers
  cases hstep

theorem SyncInvariant.land {handling : Handling}
    (hcur : LandsCurrent s (.land lease handling)) (hstep : land s lease handling = some t) :
    SyncInvariant t := by
  unfold RelationSync.land at hstep
  split at hstep
  · rename_i call hcall
    split at hstep
    · cases hstep
      obtain ⟨l, hlease⟩ := isSome_iff_exists.mp (h.sent lease call hcall)
      -- Only the call's own lease brings more than before.
      have hbrings : ∀ number relation, Brings { s with
            openim := call.effect handling s.openim
            inFlight := Function.update s.inFlight lease none
            brought := Function.update s.brought lease
              (fun relation => call.sets relation || s.brought lease relation) } number relation →
          (number ≠ l.event ∨ l.alive = false ∨ call.sets relation = false) →
            Brings s number relation := by
        rintro number relation ⟨other, l', hl, hevent, halive, hbrought⟩ hother
        rcases eq_or_ne other lease with rfl | hne
        · cases hlease.symm.trans hl
          simp only [update_self, Bool.or_eq_true] at hbrought
          rcases hbrought with hsets | hbrought
          · rcases hother with hnumber | hdead | hunset
            · exact absurd hevent.symm hnumber
            · cases hdead.symm.trans halive
            cases hunset.symm.trans hsets
          exact ⟨other, l, hlease, hevent, halive, hbrought⟩
        simp only [update_of_ne hne] at hbrought
        exact ⟨other, l', hl, hevent, halive, hbrought⟩
      refine ⟨?_, ?_, ?_, ?_⟩
      · intro other l' hl
        obtain ⟨hlt, hcovers⟩ := h.leases other l' hl
        refine ⟨hlt, ?_⟩
        intro halive hclaimed relation hconcerns
        have hpre := hcovers halive hclaimed relation hconcerns
        rcases eq_or_ne other lease with rfl | hne
        · simp only [update_self, Bool.or_eq_true]
          rcases hpre with hbrought | ⟨pending, hpend, hsets⟩
          · exact Or.inl (Or.inr hbrought)
          cases hphase : l'.phase with
          | waiting rest =>
            rw [hphase, remaining, hcall, toList_some, singleton_append, mem_cons] at hpend
            rcases hpend with rfl | hrest
            · exact Or.inl (Or.inl hsets)
            refine Or.inr ⟨pending, ?_, hsets⟩
            simpa only [remaining, update_self, toList_none, nil_append] using hrest
          | _ =>
            rw [hphase] at hpend
            exact Or.inr ⟨pending, hpend, hsets⟩
        simp only [update_of_ne hne]
        cases hphase : l'.phase with
        | waiting rest =>
          rw [hphase] at hpre
          simp only [remaining, update_of_ne hne]
          exact hpre
        | _ =>
          rw [hphase] at hpre
          exact hpre
      · intro other hother
        obtain ⟨hnone, hquiet, hbrought⟩ := h.unclaimed other hother
        have hne : other ≠ lease := by
          rintro rfl
          cases hlease.symm.trans hnone
        refine ⟨hnone, (update_of_ne hne ..).trans hquiet, ?_⟩
        intro relation
        simp only [update_of_ne hne]
        exact hbrought relation
      · intro other sent hsent
        rcases eq_or_ne other lease with rfl | hne
        · simp only [update_self] at hsent
          cases hsent
        simp only [update_of_ne hne] at hsent
        exact h.sent other sent hsent
      intro relation
      cases hsets : call.sets relation with
      | true =>
        rcases hcur call l hcall hlease relation hsets with
          hagree | ⟨number, howes, hother⟩
        · exact Or.inl hagree
        refine Or.inr ⟨number, howes.kept ⟨[], (append_nil _).symm⟩ (fun hr => hr) ?_⟩
        intro hb
        exact hbrings number relation hb (hother.imp_right Or.inl)
      | false =>
        have hsame : call.effect handling s.openim relation = s.openim relation := by
          simp [Call.effect, hsets]
        rcases h.agree relation with hagree | ⟨number, howes⟩
        · exact Or.inl (hsame.trans hagree)
        refine Or.inr ⟨number, howes.kept ⟨[], (append_nil _).symm⟩ (fun hr => hr) ?_⟩
        intro hb
        exact hbrings number relation hb (Or.inr (Or.inr hsets))
    cases hstep
  cases hstep

theorem SyncInvariant.brings_of_done
    (hlease : s.leases lease = some l) (hdone : l.phase = .calling []) (relation : Relation) :
    ¬ Owes s l.event relation := by
  intro howes
  have halive : l.alive = true := by simp [Lease.alive, hdone]
  have hcovers := (h.leases lease l hlease).2 halive (by simp [hdone]) relation howes.concerns
  rw [hdone] at hcovers
  rcases hcovers with hbrought | ⟨call, hmem, _⟩
  · exact howes.unbrought ⟨lease, l, hlease, rfl, halive, hbrought⟩
  cases hmem

theorem SyncInvariant.markCompleted (hstep : markCompleted s lease = some t) : SyncInvariant t := by
  unfold RelationSync.markCompleted at hstep
  split at hstep
  · rename_i number worker attempt hlease
    cases hstep
    have hrow := h.setRow number ((s.rows number).markCompleted worker)
      (fun _ => Or.inr (h.brings_of_done hlease rfl))
    exact hrow.setPhase hlease (fun halive => by cases halive)
      (fun _ _ hbrings => brings_of_left (Or.inr rfl) hbrings)
  cases hstep

theorem SyncInvariant.markFailed {maxAttempts : Nat} {nextAttempt : Time}
    (hstep : markFailed s lease maxAttempts nextAttempt = some t) : SyncInvariant t := by
  unfold RelationSync.markFailed at hstep
  split at hstep
  · rename_i number worker attempt hlease
    cases hstep
    have hrow := h.setRow number ((s.rows number).markFailed worker attempt maxAttempts nextAttempt)
      (fun hcomp => Or.inl (OutboxRow.markFailed_completed hcomp))
    exact hrow.setPhase hlease (fun halive => by cases halive)
      (fun _ _ hbrings => brings_of_left (Or.inr rfl) hbrings)
  cases hstep

end

theorem syncInvariant_step {a : Action} (ha : LandsCurrent s a) (h : SyncInvariant s)
    (hstep : step s a = some t) : SyncInvariant t := by
  cases a with
  | acceptFriendRequest now toUser | blockUser now user =>
    cases hstep
    exact h.commit now _ true
  | deleteFriend now user | unblockUser now user =>
    cases hstep
    exact h.commit now _ false
  | reconcile now event =>
    cases hstep
    unfold reconcile
    split
    · exact h.enqueue now event
    exact h
  | claim worker now event => exact h.claim hstep
  | relationshipState lease => exact h.relationshipState hstep
  | send lease => exact h.send hstep
  | land lease handling => exact h.land ha hstep
  | answer lease => exact h.answer hstep
  | giveUp lease => exact h.giveUp hstep
  | markCompleted lease => exact h.markCompleted hstep
  | markFailed lease maxAttempts nextAttempt => exact h.markFailed hstep
  | replayDead now event =>
    cases hstep
    exact h.setRow event _ (fun hcomp => Or.inl (OutboxRow.replayDead_completed hcomp))

theorem syncInvariant_initial (hs : Initial s) : SyncInvariant s where
  leases := by
    intro lease l hl
    cases (hs.leases lease).symm.trans hl
  unclaimed := fun lease _ => ⟨hs.leases lease, hs.inFlight lease, hs.brought lease⟩
  sent := by
    intro lease call hcall
    cases (hs.inFlight lease).symm.trans hcall
  agree := fun relation => Or.inl (congrFun hs.agree relation)

/-- Every event that concerns the relation has been completed. -/
def AllCompleted (s : RelationState) (relation : Relation) : Prop :=
  ∀ number, Concerns s number relation → (s.rows number).status = .completed

/-- Two users who are nothing to each other. -/
def strangers : RelationState where
  stored _ := false
  openim _ := false
  events := []
  rows _ := .fresh 0
  leases _ := none
  nextLease := 0
  inFlight _ := none
  brought _ _ := false

theorem strangers_initial : Initial strangers :=
  ⟨rfl, rfl, fun _ => rfl, fun _ => rfl, fun _ _ => rfl⟩

def bring (lease : Nat) : List Action := [.send lease, .land lease .applied, .answer lease]

/-- The worker of an accepted request has read the friendship when it is deleted,
and imports it after another worker has dealt with the deletion. -/
def overtakenRead : List Action :=
  [.acceptFriendRequest 0 .first, .claim 1 0 0, .relationshipState 0, .deleteFriend 0 .second,
    .claim 2 0 1, .relationshipState 1] ++ bring 1 ++ bring 1 ++ [.markCompleted 1] ++ bring 0 ++
    [.markCompleted 0]

/-- An accepted request up to its call. -/
def importSent : RelationState :=
  (machine.execute strangers [.acceptFriendRequest 0 .first, .claim 1 0 0, .relationshipState 0,
    .send 0]).getD strangers

def importLanded : RelationState := (land importSent 0 .applied).getD strangers

end ImApp.RelationSync
