import ImApp.ActiveConnections.Table

/-!
The accounting of the connections over whole runs. The limit holds in every run. That an
identifier stays with its reservation, and that a close or an expiry removes nothing but
its own reservation, needs that no identifier is reserved while it is in the table or an
old close or cleanup is still about to come to it: `reserve` looks for it before it reads
the metadata, and a close releases by identifier after its callback.
-/

namespace ImApp.ActiveConnections

open InterleavedCalls List Function Manager Service Option
open JsonText (Text)
open StepSystem (Machine)

theorem perm_replace {l : List Nat} {a : Nat} (b : Nat) (h : a ∈ l) :
    (l.replace a b).Perm (b :: l.erase a) := by
  obtain ⟨front, back, rfl, hfresh⟩ := eq_append_cons_of_mem h
  rw [replace_append_right hfresh, replace_cons_self, erase_append_right _ hfresh, erase_cons_head]
  exact perm_middle

namespace Manager

variable {m t : Manager} {n : Nat}

/-- The entries that an insertion leaves. -/
def others (m : Manager) (id : Text) : List Nat :=
  match m.get id with
  | some old => m.entries.erase old
  | none => m.entries

theorem others_sublist (m : Manager) (id : Text) : (m.others id).Sublist m.entries := by
  unfold others
  split
  · exact erase_sublist
  exact List.Sublist.refl _

theorem idOf_of_others {id : Text} (h : m.UniqueIds) (hn : n ∈ m.others id) : m.idOf n ≠ id := by
  unfold others at hn
  split at hn
  · rename_i old hget
    obtain ⟨hold, hid⟩ := get_some hget
    obtain ⟨hne, hmem⟩ := (List.Nodup.mem_erase_iff h.nodup).mp hn
    intro hsame
    exact hne (h.eq hmem hold (hsame.trans hid.symm))
  rename_i hget
  exact get_eq_none.mp hget n hn

theorem insert_perm (m : Manager) (entry : Entry) (limit : Int) :
    (m.insert entry limit).entries.Perm (m.reserved :: m.others entry.creation.id) := by
  unfold insert others
  cases hget : m.get entry.creation.id with
  | some old => exact perm_replace m.reserved (get_some hget).1
  | none => exact perm_append_singleton _ _

theorem objects_insert (entry : Entry) (limit : Int) (k : Nat) :
    (m.insert entry limit).objects k = if k = m.reserved then entry else m.objects k :=
  update_apply ..

theorem limits_insert (entry : Entry) (limit : Int) (k : Nat) :
    (m.insert entry limit).limits k = if k = m.reserved then limit else m.limits k :=
  update_apply ..

theorem objects_insert_of_lt (entry : Entry) (limit : Int) (h : n < m.reserved) :
    (m.insert entry limit).objects n = m.objects n := by
  rw [objects_insert, if_neg h.ne]

/-- What holds of the table in every run. Of the entries of an owner that were reserved
up to one of them there are no more than the limit when that one was. -/
structure Sound (m : Manager) : Prop where
  ids : m.UniqueIds
  known : ∀ n ∈ m.entries, n < m.reserved
  within : ∀ n ∈ m.entries,
    ((m.entries.filter fun k => m.ownerOf k = m.ownerOf n && k ≤ n).length : Int) ≤ m.limits n

theorem Sound.shrinks (h : m.Sound) (ht : m.Shrinks t) : t.Sound where
  ids := h.ids.shrinks ht
  known n hn := by
    rw [ht.reserved]
    exact h.known n (ht.entries.mem hn)
  within n hn := by
    have hold := h.within n (ht.entries.mem hn)
    have hfewer := (ht.entries.filter fun k => m.ownerOf k = m.ownerOf n && k ≤ n).length_le
    have howners : t.ownerOf = m.ownerOf := funext ht.ownerOf
    rw [ht.limits, howners]
    omega

theorem Sound.insert {entry : Entry} {limit : Int} (h : m.Sound)
    (hroom : (m.activeCount entry.creation.ownerId : Int) < limit) :
    (m.insert entry limit).Sound := by
  have hperm := m.insert_perm entry limit
  have hsub := m.others_sublist entry.creation.id
  have hold : ∀ k ∈ m.others entry.creation.id, k < m.reserved :=
    fun k hk => h.known k (hsub.mem hk)
  have hids : ∀ k ∈ m.others entry.creation.id, (m.insert entry limit).idOf k = m.idOf k :=
    fun k hk => congrArg (·.creation.id) (objects_insert_of_lt entry limit (hold k hk))
  have howners : ∀ k ∈ m.others entry.creation.id, (m.insert entry limit).ownerOf k = m.ownerOf k :=
    fun k hk => congrArg (·.creation.ownerId) (objects_insert_of_lt entry limit (hold k hk))
  have hnew : (m.insert entry limit).objects m.reserved = entry := by
    rw [objects_insert, if_pos rfl]
  refine ⟨?_, ?_, ?_⟩
  · unfold UniqueIds
    rw [(hperm.map _).nodup_iff, map_cons, nodup_cons]
    refine ⟨fun hmem => ?_, ?_⟩
    · obtain ⟨k, hk, heq⟩ := mem_map.mp hmem
      rw [hids k hk] at heq
      apply idOf_of_others h.ids hk
      rw [heq]
      exact congrArg (·.creation.id) hnew
    rw [map_congr_left hids]
    exact h.ids.sublist (hsub.map _)
  · intro k hk
    rcases mem_cons.mp (hperm.mem_iff.mp hk) with rfl | hk
    · exact Nat.lt_succ_self _
    exact Nat.lt_succ_of_lt (hold k hk)
  intro k hk
  rw [(hperm.filter _).length_eq, filter_cons, limits_insert]
  rcases mem_cons.mp (hperm.mem_iff.mp hk) with rfl | hk
  · have howner : (m.insert entry limit).ownerOf m.reserved = entry.creation.ownerId :=
      congrArg (·.creation.ownerId) hnew
    have hsame : ((m.others entry.creation.id).filter fun j =>
        (m.insert entry limit).ownerOf j = (m.insert entry limit).ownerOf m.reserved &&
          j ≤ m.reserved) =
        (m.others entry.creation.id).filter fun j => m.ownerOf j = entry.creation.ownerId := by
      apply filter_congr
      intro j hj
      rw [howners j hj, howner, decide_eq_true (hold j hj).le, Bool.and_true]
    have hfewer : ((m.others entry.creation.id).filter fun j =>
        m.ownerOf j = entry.creation.ownerId).length ≤ m.activeCount entry.creation.ownerId :=
      (hsub.filter _).length_le
    rw [hsame, if_pos rfl]
    split
    · rw [length_cons]
      omega
    omega
  have hk' := hold k hk
  have hsame : ((m.others entry.creation.id).filter fun j =>
      (m.insert entry limit).ownerOf j = (m.insert entry limit).ownerOf k && j ≤ k) =
      (m.others entry.creation.id).filter fun j => m.ownerOf j = m.ownerOf k && j ≤ k := by
    apply filter_congr
    intro j hj
    rw [howners j hj, howners k hk]
  have hlater : ¬m.reserved ≤ k := by omega
  have hfewer := (hsub.filter fun j => m.ownerOf j = m.ownerOf k && j ≤ k).length_le
  have hwithin := h.within k (hsub.mem hk)
  rw [hsame, if_neg hk'.ne, if_neg (by simp [hlater])]
  omega

/-- The table after one step. `reserves` are the identifiers that may be reserved. -/
inductive Moves (m : Manager) (reserves : Text → Prop) : Manager → Prop
  | shrinks {t : Manager} (h : m.Shrinks t) : Moves m reserves t
  | answers {n : Nat} (h : n ∈ m.entries) : Moves m reserves (m.grant (m.ownerOf n) n (some n))
  | reserves {input : Reservation} {id : Text} {metadata : ResourceMetadata} {limit now : Int}
      (h : (m.activeCount input.user.id : Int) < limit) (hid : reserves id) :
      Moves m reserves ((m.insert (newEntry (creation input id metadata now)) limit).grant
        input.user.id m.reserved (m.get id))

end Manager

/-- What a call may rely on where it stands, in a clean run. -/
def CallClaim (m : Manager) : Call → Prop
  | .closing pending => ∀ n ∈ pending, n < m.reserved ∧ m.Settled n
  | .sweeping now idleCutoff rest pending => m.SweepClaim now idleCutoff rest pending
  | _ => True

variable {m d : Manager}

variable {call : Call}

theorem CallClaim.shrinks (h : CallClaim m call) (hd : m.Shrinks d) : CallClaim d call := by
  cases call with
  | closing pending =>
    intro n hn
    obtain ⟨hknown, hset⟩ := h n hn
    exact ⟨hd.reserved ▸ hknown, hset.shrinks hd⟩
  | sweeping now idleCutoff rest pending => exact Manager.SweepClaim.shrinks h hd
  | reserve | reading | closeForViewer | closeOwner | cleanup => trivial

theorem claim_waitFor {pending : List Nat} (h : ∀ n ∈ pending, n < m.reserved ∧ m.Settled n) :
    ∀ current, waitFor pending = some current → CallClaim m current := by
  intro current hcur
  unfold waitFor at hcur
  split at hcur
  · cases hcur
  cases hcur
  exact h

theorem claim_afterSweep {now idleCutoff clock : Int} {reason : Text}
    {hasActive : Text → Text → Option Text → Bool} {ns : List Nat} {next : Option Call}
    (hids : m.UniqueIds)
    (h : afterSweep now idleCutoff (Manager.sweep now idleCutoff clock reason hasActive ns m) =
      (d, next)) : m.Shrinks d ∧ (m.Faithful → m.SweepClaim now idleCutoff ns none → d.Faithful ∧
      ∀ current, next = some current → CallClaim d current) := by
  have hshrinks : m.Shrinks (Manager.sweep now idleCutoff clock reason hasActive ns m).1 :=
    shrinks_sweep
  have hfaithful : m.Faithful → m.SweepClaim now idleCutoff ns none →
      (Manager.sweep now idleCutoff clock reason hasActive ns m).1.Faithful ∧ ∀ rest pending,
          (Manager.sweep now idleCutoff clock reason hasActive ns m).2 = some (rest, pending) →
          (Manager.sweep now idleCutoff clock reason hasActive ns m).1.SweepClaim now idleCutoff
            rest pending :=
    fun h hclaim => faithful_sweep h hids hclaim
  revert hshrinks hfaithful h
  generalize Manager.sweep now idleCutoff clock reason hasActive ns m = result
  intro h hshrinks hfaithful
  obtain ⟨swept, left⟩ := result
  cases left with
  | none =>
    cases h
    exact ⟨hshrinks, fun h hclaim => ⟨(hfaithful h hclaim).1, fun _ hnone => by cases hnone⟩⟩
  | some left =>
    cases h
    refine ⟨hshrinks, fun h hclaim => ⟨(hfaithful h hclaim).1, fun current hcur => ?_⟩⟩
    cases hcur
    exact (hfaithful h hclaim).2 left.1 left.2 rfl

/-- The call reserves the identifier in its next part. -/
def Call.Reserves (m : Manager) (call : Call) (choice : Choice) (id : Text) : Prop :=
  ∃ input metadata limit now, call = .reading input id ∧
    choice = .metadata (some metadata) limit now ∧ (m.activeCount input.user.id : Int) < limit

theorem advance_moves {choice : Choice} {next : Option Call} (hsound : m.Sound)
    (h : advance m call choice = some (d, next)) :
    m.Moves (call.Reserves m choice) d ∧ (m.Faithful → CallClaim m call → d.Faithful ∧
      ∀ current, next = some current → CallClaim d current) := by
  have hstays : ∀ {d : Manager}, m.Moves (call.Reserves m choice) d → d.removals = m.removals →
      m.Moves (call.Reserves m choice) d ∧ (m.Faithful → CallClaim m call → d.Faithful ∧
        ∀ current, (none : Option Call) = some current → CallClaim d current) :=
    fun hmoves hsame => ⟨hmoves, fun h _ => ⟨h.of_removals hsame, fun _ hnone => by cases hnone⟩⟩
  have hsame : m.Moves (call.Reserves m choice) m := .shrinks (Manager.Shrinks.refl m)
  cases call with
  | reserve input id =>
    cases choice with
    | run =>
      simp only [advance] at h
      split at h
      · rename_i n hget
        split at h
        · cases h
          exact hstays hsame rfl
        rename_i howner
        rw [not_not] at howner
        cases h
        rw [← howner]
        exact hstays (.answers (get_some hget).1) rfl
      cases h
      refine ⟨hsame, fun h _ => ⟨h, fun current hcur => ?_⟩⟩
      cases hcur
      trivial
    | metadata | closed | sweep => cases h
  | reading input id =>
    cases choice with
    | run | closed | sweep => cases h
    | metadata metadata limit now =>
      simp only [advance] at h
      split at h
      · cases h
        exact hstays hsame rfl
      rename_i metadata
      unfold Manager.reserveEntry at h
      split at h
      · cases h
        exact hstays hsame rfl
      rename_i heq
      split at heq
      · cases heq
      rename_i hroom
      cases heq
      cases h
      exact hstays (.reserves (not_le.mp hroom)
        ⟨input, metadata, limit, now, rfl, rfl, not_le.mp hroom⟩) rfl
  | closeForViewer id viewer reason =>
    cases choice with
    | run =>
      simp only [advance] at h
      split at h
      · cases h
        exact hstays hsame rfl
      rename_i n hget
      have hn := (get_some hget).1
      have hshrinks := shrinks_requestClose (m := m) n reason
      split at h
      · cases h
        exact hstays hsame rfl
      cases h
      refine ⟨.shrinks hshrinks, fun h _ => ?_⟩
      obtain ⟨hfaithful, -⟩ :=
        faithful_requestClose h hsound.ids (.inl hn) reason
      refine ⟨hfaithful, claim_waitFor fun k hk => ?_⟩
      split at hk
      · rw [mem_singleton.mp hk]
        exact ⟨hshrinks.reserved ▸ hsound.known n hn, Manager.Settled.shrinks (.inl hn) hshrinks⟩
      cases hk
    | metadata | closed | sweep => cases h
  | closeOwner ownerId reason =>
    cases choice with
    | run =>
      cases h
      have hshrinks := shrinks_requestCloses reason
        (m.entries.filter fun n => m.ownerOf n = ownerId) m
      refine ⟨.shrinks hshrinks, fun h _ => ?_⟩
      obtain ⟨hfaithful, hpend⟩ := faithful_requestCloses reason h hsound.ids
        (fun n (hn : n ∈ m.entries.filter fun n => m.ownerOf n = ownerId) =>
          .inl (mem_filter.mp hn).1)
      refine ⟨hfaithful, claim_waitFor fun n hn => ?_⟩
      obtain ⟨hmem, hset⟩ := hpend n hn
      exact ⟨hshrinks.reserved ▸ hsound.known n (mem_filter.mp hmem).1, hset⟩
    | metadata | closed | sweep => cases h
  | closing pending =>
    cases choice with
    | run | metadata | sweep => cases h
    | closed n threw =>
      simp only [advance] at h
      split at h
      · rename_i hn
        cases h
        have hshrinks : m.Shrinks (if threw then m else m.closed n) := by
          split
          · exact Manager.Shrinks.refl m
          exact shrinks_delete _ _
        refine ⟨.shrinks hshrinks, fun h hclaim => ⟨?_, claim_waitFor fun k hk => ?_⟩⟩
        · split
          · exact h
          exact faithful_delete h hsound.ids (hclaim n hn).2
        obtain ⟨hknown, hset⟩ := hclaim k (mem_of_mem_erase hk)
        exact ⟨hshrinks.reserved ▸ hknown, hset.shrinks hshrinks⟩
      cases h
  | cleanup =>
    cases choice with
    | run | metadata | closed => cases h
    | sweep idleMinutes clock hasActive =>
      obtain ⟨hshrinks, hkeeps⟩ := claim_afterSweep hsound.ids (some.inj h)
      refine ⟨.shrinks hshrinks, fun h _ => hkeeps h ⟨fun n hn => ?_, fun _ hnone => by cases hnone⟩⟩
      exact ⟨hsound.known n hn, .inl (.inl hn)⟩
  | sweeping now idleCutoff rest pending =>
    cases pending with
    | none =>
      cases choice with
      | run | metadata | closed => cases h
      | sweep idleMinutes clock hasActive =>
        obtain ⟨hshrinks, hkeeps⟩ := claim_afterSweep hsound.ids (some.inj h)
        exact ⟨.shrinks hshrinks, hkeeps⟩
    | some n =>
      cases choice with
      | run | metadata | sweep => cases h
      | closed k threw =>
        simp only [advance] at h
        split at h
        · split at h
          · cases h
            exact hstays hsame rfl
          cases h
          have hshrinks := shrinks_delete (m := m) (some n) (m.idOf n)
          refine ⟨.shrinks hshrinks, fun h hclaim => ⟨?_, fun current hcur => ?_⟩⟩
          · exact faithful_delete h hsound.ids (hclaim.pending n rfl).2
          cases hcur
          exact ⟨(hclaim.shrinks hshrinks).rest, fun _ hnone => by cases hnone⟩
        cases h

variable {reserves : Text → Prop}

theorem Manager.Sound.moves (h : m.Sound) (hd : m.Moves reserves d) : d.Sound := by
  cases hd with
  | shrinks hshrinks => exact h.shrinks hshrinks
  | answers _ => exact ⟨h.ids, h.known, h.within⟩
  | @reserves input id metadata limit now hroom _ =>
    have hins : (m.insert (newEntry (creation input id metadata now)) limit).Sound :=
      h.insert hroom
    exact ⟨hins.ids, hins.known, hins.within⟩

/-- The reservations of before have the owner and the creation that they had. -/
def SameCreations (m d : Manager) : Prop :=
  m.reserved ≤ d.reserved ∧ ∀ n, n < m.reserved → (d.objects n).creation = (m.objects n).creation

theorem Manager.Moves.sameCreations (h : m.Moves reserves d) : SameCreations m d := by
  cases h with
  | shrinks hshrinks => exact ⟨hshrinks.reserved.ge, fun n _ => hshrinks.creation n⟩
  | answers _ => exact ⟨le_rfl, fun _ _ => rfl⟩
  | @reserves input id metadata limit now _ _ =>
    refine ⟨Nat.le_succ _, fun n hn => ?_⟩
    exact congrArg Entry.creation (objects_insert_of_lt
      (Manager.newEntry (Manager.creation input id metadata now)) limit hn)

variable {s t : State Manager Call}

/-- The step reserves the identifier. -/
def Reserves (s : State Manager Call) (action : Action Call Choice Event) (id : Text) : Prop :=
  ∃ c call choice, action = .advance c choice ∧ s.calls c = some call ∧
    call.Reserves s.data choice id

theorem moves_step {action : Action Call Choice Event} (h : s.data.Sound)
    (hstep : activeConnections.machine.step s action = some t) :
    s.data.Moves (Reserves s action) t.data := by
  cases action with
  | start id call =>
    obtain ⟨-, -, rfl⟩ := start_some hstep
    exact .shrinks (Manager.Shrinks.refl _)
  | advance c choice =>
    obtain ⟨call, data, next, hcall, hadv, rfl⟩ := advance_some hstep
    change s.data.Moves _ data
    cases (advance_moves h hadv).1 with
    | shrinks hshrinks => exact .shrinks hshrinks
    | answers hn => exact .answers hn
    | reserves hroom hid => exact .reserves hroom ⟨c, call, choice, rfl, hcall, hid⟩
  | world event =>
    obtain ⟨data, hdata, rfl⟩ := world_some hstep
    cases hdata
    exact .shrinks (shrinks_world h.ids event)

theorem Manager.IsNew.sound (h : m.IsNew) : m.Sound := by
  have hnone : ∀ n, n ∉ m.entries := by
    rw [h.entries]
    exact fun _ => not_mem_nil
  refine ⟨?_, fun n hn => absurd hn (hnone n), fun n hn => absurd hn (hnone n)⟩
  unfold Manager.UniqueIds
  rw [h.entries]
  exact nodup_nil

theorem sound_reachable (hs : activeConnections.machine.Reachable s) : s.data.Sound := by
  apply hs.invariant fun s : State Manager Call => s.data.Sound
  · rintro s ⟨hnew, -⟩
    exact hnew.sound
  exact fun s action t _ h hstep => h.moves (moves_step h hstep)

theorem sameCreations_path (hs : activeConnections.machine.Reachable s)
    (hpath : activeConnections.machine.Path Machine.unrestricted s t) :
    SameCreations s.data t.data := by
  apply hpath.relates (fun s => s.data.Sound) (fun s t => SameCreations s.data t.data)
  · exact fun s => ⟨le_rfl, fun _ _ => rfl⟩
  · intro s t u hst htu
    exact ⟨hst.1.trans htu.1, fun n hn => (htu.2 n (hn.trans_le hst.1)).trans (hst.2 n hn)⟩
  · exact fun s action t _ h hstep => h.moves (moves_step h hstep)
  · exact fun s action t _ h hstep => (moves_step h hstep).sameCreations
  exact sound_reachable hs

/-- A call is about to come to a reservation by its identifier. -/
def Call.Comes (m : Manager) (n : Nat) : Call → Prop
  | .closing pending => n ∈ pending
  | .sweeping now idleCutoff rest pending => pending = some n ∨ n ∈ rest ∧ m.Due now idleCutoff n
  | _ => False

/-- The identifier is in no entry, and no close or cleanup is about to come to it. -/
def Vacant (s : State Manager Call) (id : Text) : Prop :=
  s.data.get id = none ∧ ∀ c call, s.calls c = some call → ∀ n, call.Comes s.data n →
    s.data.idOf n ≠ id

/-- An identifier is reserved when it is vacant. -/
def Clean (s : State Manager Call) (action : Action Call Choice Event) : Prop :=
  ∀ id, Reserves s action id → Vacant s id

variable {entry : Entry} {limit : Int}

theorem settled_insert {n : Nat} (hn : n < m.reserved)
    (h : m.Settled n) (hknown : ∀ k ∈ m.entries, k < m.reserved)
    (hfree : m.get entry.creation.id = none) (hid : m.idOf n ≠ entry.creation.id) :
    (m.insert entry limit).Settled n := by
  have hentries : (m.insert entry limit).entries = m.entries ++ [m.reserved] := by
    unfold Manager.insert
    rw [hfree]
  have hsame : ∀ k, k < m.reserved → (m.insert entry limit).idOf k = m.idOf k :=
    fun k hk => congrArg (·.creation.id) (objects_insert_of_lt entry limit hk)
  rcases h with hmem | hnone
  · left
    rw [hentries]
    exact mem_append_left _ hmem
  right
  rw [get_eq_none] at hnone ⊢
  intro k hk
  rw [hsame n hn]
  rw [hentries] at hk
  rcases mem_append.mp hk with hold | hnew
  · rw [hsame k (hknown k hold)]
    exact hnone k hold
  rw [mem_singleton.mp hnew]
  have hreserved : (m.insert entry limit).idOf m.reserved = entry.creation.id := by
    unfold Manager.idOf
    rw [objects_insert, if_pos rfl]
  rw [hreserved]
  exact hid.symm

theorem CallClaim.insert (h : CallClaim m call)
    (hknown : ∀ k ∈ m.entries, k < m.reserved) (hfree : m.get entry.creation.id = none)
    (hcomes : ∀ n, call.Comes m n → m.idOf n ≠ entry.creation.id) :
    CallClaim (m.insert entry limit) call := by
  cases call with
  | closing pending =>
    intro n hn
    obtain ⟨hlt, hset⟩ := h n hn
    exact ⟨Nat.lt_succ_of_lt hlt, settled_insert hlt hset hknown hfree (hcomes n hn)⟩
  | sweeping now idleCutoff rest pending =>
    refine ⟨fun n hn => ?_, fun n hn => ?_⟩
    · obtain ⟨hlt, hharmless⟩ := Manager.SweepClaim.rest h n hn
      refine ⟨Nat.lt_succ_of_lt hlt, ?_⟩
      by_cases hdue : m.Due now idleCutoff n
      · left
        exact settled_insert hlt (hharmless.resolve_right fun hnot => hnot hdue) hknown hfree
          (hcomes n (.inr ⟨hn, hdue⟩))
      right
      unfold Manager.Due Manager.leaseIsOver Manager.isIdle
      rw [objects_insert_of_lt entry limit hlt]
      exact hdue
    obtain ⟨hlt, hset⟩ := Manager.SweepClaim.pending h n hn
    exact ⟨Nat.lt_succ_of_lt hlt, settled_insert hlt hset hknown hfree (hcomes n (.inl hn))⟩
  | reserve | reading | closeForViewer | closeOwner | cleanup => trivial

/-- What holds of the table in every clean run. -/
structure Tidy (m : Manager) : Prop where
  sound : m.Sound
  faithful : m.Faithful
  accounted : ∀ n, n < m.reserved → n ∈ m.entries ∨ ∃ removal ∈ m.removals, removal.removed = n
  granted : ∀ grant ∈ m.grants, grant.reservation < m.reserved ∧
    m.ownerOf grant.reservation = grant.ownerId ∧ ∀ n, grant.held = some n → n = grant.reservation

theorem Tidy.shrinks (h : Tidy m) (hd : m.Shrinks d) (hfaithful : d.Faithful) : Tidy d where
  sound := h.sound.shrinks hd
  faithful := hfaithful
  accounted n hn := by
    rw [hd.reserved] at hn
    rcases h.accounted n hn with hmem | ⟨removal, hmem, hremoved⟩
    · by_cases hkept : n ∈ d.entries
      · exact .inl hkept
      exact .inr (hd.logged n hmem hkept)
    exact .inr ⟨removal, hd.log removal hmem, hremoved⟩
  granted grant hgrant := by
    rw [hd.grants] at hgrant
    rw [hd.reserved, hd.ownerOf]
    exact h.granted grant hgrant

theorem Tidy.grant {n : Nat} {held : Option Nat} (h : Tidy m) (hn : n < m.reserved)
    (hheld : ∀ k, held = some k → k = n) : Tidy (m.grant (m.ownerOf n) n held) := { h with
    sound := ⟨h.sound.ids, h.sound.known, h.sound.within⟩
    granted grant hgrant := by
      rcases mem_append.mp hgrant with hold | hnew
      · exact h.granted grant hold
      rw [mem_singleton.mp hnew]
      exact ⟨hn, rfl, hheld⟩ }

theorem Tidy.insert (h : Tidy m) (hroom : (m.activeCount entry.creation.ownerId : Int) < limit)
    (hfree : m.get entry.creation.id = none) : Tidy (m.insert entry limit) where
  sound := h.sound.insert hroom
  faithful := h.faithful
  accounted n hn := by
    have hentries : (m.insert entry limit).entries = m.entries ++ [m.reserved] := by
      unfold Manager.insert
      rw [hfree]
    rw [hentries]
    rcases Nat.lt_succ_iff_lt_or_eq.mp hn with hlt | rfl
    · rcases h.accounted n hlt with hmem | hremoved
      · exact .inl (mem_append_left _ hmem)
      exact .inr hremoved
    exact .inl (mem_append_right _ (mem_singleton_self _))
  granted grant hgrant := by
    obtain ⟨hlt, howner, hheld⟩ := h.granted grant hgrant
    refine ⟨Nat.lt_succ_of_lt hlt, ?_, hheld⟩
    unfold Manager.ownerOf
    rw [objects_insert_of_lt entry limit hlt]
    exact howner

theorem Tidy.moves (h : Tidy m) (hd : m.Moves reserves d)
    (hfaithful : d.Faithful) (hvacant : ∀ id, reserves id → m.get id = none) : Tidy d := by
  cases hd with
  | shrinks hshrinks => exact h.shrinks hshrinks hfaithful
  | answers hn =>
    exact h.grant (h.sound.known _ hn) fun k hk => (some.inj hk).symm
  | @reserves input id metadata limit now hroom hid =>
    let entry := Manager.newEntry (Manager.creation input id metadata now)
    have hfree : m.get id = none := hvacant id hid
    have hins : Tidy (m.insert entry limit) := h.insert hroom hfree
    have howner : (m.insert entry limit).ownerOf m.reserved = input.user.id := by
      unfold Manager.ownerOf
      rw [objects_insert, if_pos rfl]
      rfl
    have hgranted : Tidy ((m.insert entry limit).grant
        ((m.insert entry limit).ownerOf m.reserved) m.reserved (m.get id)) :=
      hins.grant (Nat.lt_succ_self _) (by simp [hfree])
    rw [howner] at hgranted
    exact hgranted

theorem CallClaim.grant (h : CallClaim m call) (ownerId : Text) (n : Nat)
    (held : Option Nat) : CallClaim (m.grant ownerId n held) call := by
  cases call with
  | closing pending => exact h
  | sweeping now idleCutoff rest pending =>
    obtain ⟨hrest, hpend⟩ := h
    exact ⟨hrest, hpend⟩
  | reserve | reading | closeForViewer | closeOwner | cleanup => trivial

theorem CallClaim.moves (h : CallClaim m call) (hsound : m.Sound) (hd : m.Moves reserves d)
    (hvacant : ∀ id, reserves id → m.get id = none ∧ ∀ n, call.Comes m n → m.idOf n ≠ id) :
    CallClaim d call := by
  cases hd with
  | shrinks hshrinks => exact h.shrinks hshrinks
  | answers _ => exact h.grant _ _ _
  | @reserves input id metadata limit now _ hid =>
    obtain ⟨hfree, hcomes⟩ := hvacant id hid
    have hins : CallClaim (m.insert
        (Manager.newEntry (Manager.creation input id metadata now)) limit) call :=
      h.insert hsound.known hfree hcomes
    exact hins.grant _ _ _

theorem tidy_reachable (hs : activeConnections.machine.ReachableBy Clean s) :
    Tidy s.data ∧ ∀ c call, s.calls c = some call → CallClaim s.data call := by
  have hclaims : ∀ {s t : State Manager Call} {action : Action Call Choice Event},
      Clean s action → Tidy s.data → s.data.Moves (Reserves s action) t.data →
      ∀ c call, s.calls c = some call → CallClaim s.data call → CallClaim t.data call := by
    intro s t action hclean htidy hmoves c call hcall hclaim
    apply hclaim.moves htidy.sound hmoves
    exact fun id hid => ⟨(hclean id hid).1, (hclean id hid).2 c call hcall⟩
  apply hs.invariant fun s : State Manager Call =>
    Tidy s.data ∧ ∀ c call, s.calls c = some call → CallClaim s.data call
  · rintro s ⟨hnew, hnone⟩
    refine ⟨⟨hnew.sound, ?_, ?_, ?_⟩, fun c call hcall => ?_⟩
    · unfold Manager.Faithful
      rw [hnew.removals]
      exact fun _ hmem => absurd hmem not_mem_nil
    · rw [hnew.reserved]
      exact fun n hn => absurd hn (Nat.not_lt_zero n)
    · rw [hnew.grants]
      exact fun _ hmem => absurd hmem not_mem_nil
    rw [hnone c] at hcall
    cases hcall
  rintro s action t hclean ⟨htidy, hcalls⟩ hstep
  have hmoves := moves_step htidy.sound hstep
  have hfree : ∀ id, Reserves s action id → s.data.get id = none :=
    fun id hid => (hclean id hid).1
  cases action with
  | start id call =>
    obtain ⟨-, hopens, rfl⟩ := start_some hstep
    refine ⟨htidy, fun c current hcur => ?_⟩
    rcases setCall_some hcur with ⟨-, hsame⟩ | ⟨-, hkept⟩
    · cases hsame
      cases call with
      | closing | sweeping => cases hopens
      | reserve | reading | closeForViewer | closeOwner | cleanup => trivial
    exact hcalls c current hkept
  | advance c choice =>
    obtain ⟨call, data, next, hcall, hadv, rfl⟩ := advance_some hstep
    obtain ⟨hfaithful, hnext⟩ :=
      (advance_moves htidy.sound hadv).2 htidy.faithful (hcalls c call hcall)
    refine ⟨htidy.moves hmoves hfaithful hfree, fun other current hcur => ?_⟩
    rcases setCall_some hcur with ⟨-, hsame⟩ | ⟨-, hkept⟩
    · exact hnext current hsame
    exact hclaims hclean htidy hmoves other current hkept (hcalls other current hkept)
  | world event =>
    obtain ⟨data, hdata, rfl⟩ := world_some hstep
    cases hdata
    have hfaithful := faithful_world htidy.faithful htidy.sound.ids event
    refine ⟨htidy.moves hmoves hfaithful hfree, fun c call hcall => ?_⟩
    exact hclaims hclean htidy hmoves c call hcall (hcalls c call hcall)

def fresh : State Manager Call where
  data := ⟨[], fun _ => Manager.newEntry ⟨[], [], [], .web, [], [], none, [], [], ⟨.personal, [], []⟩,
    .web, .server, 0, none, false⟩, 0, fun _ => 0, [], []⟩
  calls _ := none

theorem fresh_initial : activeConnections.machine.initial fresh :=
  ⟨⟨rfl, rfl, rfl, rfl⟩, fun _ => rfl⟩

def named (name : Text) : User := ⟨name, name, false, ⟨.personal, name, []⟩⟩

/-- A desktop reserves its own identifier. -/
def desktopReservation (name : Text) : Reservation :=
  ⟨some ['c'], named name, .ssh, [], none, some name, some .desktop, some .onDevice, true⟩

def noMetadata : ResourceMetadata := ⟨"SSH 连接".toList, [], []⟩

/-- Two users ask for one identifier, and both read the metadata of their resources. -/
def twoReservations : List (Action Call Choice Event) :=
  [.start 0 (.reserve (desktopReservation ['a']) ['c']), .advance 0 .run,
    .start 1 (.reserve (desktopReservation ['b']) ['c']), .advance 1 .run,
    .advance 0 (.metadata (some noMetadata) 30 0), .advance 1 (.metadata (some noMetadata) 30 1)]

/-- A connection is closed, which waits for its callback; it is released and reserved
again before the callback ends. -/
def lateClose : List (Action Call Choice Event) :=
  [.start 0 (.reserve { desktopReservation ['a'] with external := false } ['c']), .advance 0 .run,
    .advance 0 (.metadata (some noMetadata) 30 0), .world (.activate ['c']),
    .start 1 (.closeForViewer ['c'] (named ['a']) ['x']), .advance 1 .run, .world (.release ['c']),
    .start 2 (.reserve (desktopReservation ['a']) ['c']), .advance 2 .run,
    .advance 2 (.metadata (some noMetadata) 30 1), .advance 1 (.closed 0 false)]

/-- The first of them before it reads, alone. -/
def asking : State Manager Call :=
  ⟨fresh.data, setCall (setCall fresh.calls 0 (some (.reserve (desktopReservation ['a']) ['c']))) 0
    (some (.reading (desktopReservation ['a']) ['c']))⟩

theorem asking_reachable : activeConnections.machine.ReachableBy Clean asking := by
  refine ⟨fresh, fresh_initial, ?_⟩
  have hrun : activeConnections.machine.execute fresh (twoReservations.take 2) = some asking := rfl
  apply Machine.path_of_execute_by (fun _ => True) (fun _ _ _ _ _ _ => trivial) _ trivial hrun
  rintro s action haction - id ⟨c, call, choice, rfl, -, input, metadata, limit, now, -, rfl, -⟩
  simp [twoReservations] at haction

theorem asking_vacant (id : Text) : Vacant asking id := by
  refine ⟨rfl, fun c call hcall n hcomes => ?_⟩
  rcases setCall_some hcall with ⟨-, hsame⟩ | ⟨hother, hkept⟩
  · cases hsame
    exact hcomes.elim
  rcases setCall_some hkept with ⟨hzero, -⟩ | ⟨-, hnone⟩
  · exact absurd hzero hother
  cases hnone

end ImApp.ActiveConnections
