import ImApp.SshJumps.Connections

/-!
Every stored jump host stays usable as long as no operation makes a chain: none gives a jump
to a connection that others jump through, and none names a host that jumps itself.
-/

namespace ImApp.SshJumps

open List Option KeyedTable
open JsonText (Text)
open WorkspaceAccess (Workspace)

/-- Every jump names a connection of the same workspace that has no jump. -/
def Good (t : Table) : Prop :=
  ∀ row ∈ t.rows, ∀ jumpId, row.jumpConnectionId = some jumpId → ∃ jump ∈ t.rows,
    jump.id = jumpId ∧ jump.workspace = row.workspace ∧ jump.jumpConnectionId = none

/-- Giving these connections this jump makes no chain. -/
def Settable (t : Table) (own : SshConnection → Bool) (jumpId : Option Text) : Prop :=
  ∀ id, jumpId = some id → (∀ jump ∈ t.rows, jump.id = id → jump.jumpConnectionId = none) ∧
      ∀ target ∈ t.rows, own target = true → ∀ row ∈ t.rows, row.jumpConnectionId ≠ some target.id

variable {t after : Table} {workspace : Workspace} {row : SshConnection} {own : SshConnection → Bool}
  {jumpId : Option Text} {id : Text}

theorem find_spec (h : t.find workspace id = some row) :
    row ∈ t.rows ∧ row.id = id ∧ row.workspace = workspace :=
  ⟨mem_of_find?_eq_some h, by simpa using find?_some h⟩

theorem good_setJump (h : Good t) (hset : Settable t own jumpId)
    (hjump : ∀ id, jumpId = some id → ∃ jump ∈ t.rows, jump.id = id ∧ own jump = false ∧
      ∀ row ∈ t.rows, own row = true → jump.workspace = row.workspace) :
    Good (t.update own (setJump jumpId)) := by
  intro row hrow target htgt
  rcases mem_update hrow with ⟨before, hpre, hown, rfl⟩ | ⟨hkept, -⟩
  · obtain ⟨jump, hmem, hid, hother, hws⟩ := hjump target htgt
    exact ⟨jump, mem_update_of_kept hmem hother, hid, hws before hpre hown,
      (hset target htgt).1 jump hmem hid⟩
  obtain ⟨jump, hmem, hid, hws, hplain⟩ := h row hkept target htgt
  cases hown : own jump with
  | false => exact ⟨jump, mem_update_of_kept hmem hown, hid, hws, hplain⟩
  | true =>
    cases jumpId with
    | none => exact ⟨_, mem_update_of_selected hmem hown, hid, hws, rfl⟩
    | some other => exact absurd (hid ▸ htgt) ((hset other rfl).2 jump hmem hown row hkept)

theorem good_rename (h : Good t) (name : Text) (endpoint : Endpoint) :
    Good (t.update own (rename name endpoint)) := by
  have hkept : ∀ row ∈ t.rows, ∃ row' ∈ (t.update own (rename name endpoint)).rows,
      row'.id = row.id ∧ row'.workspace = row.workspace ∧
        row'.jumpConnectionId = row.jumpConnectionId := by
    intro row hrow
    cases hown : own row with
    | true => exact ⟨_, mem_update_of_selected hrow hown, rfl, rfl, rfl⟩
    | false => exact ⟨row, mem_update_of_kept hrow hown, rfl, rfl, rfl⟩
  have hgood : ∀ row ∈ t.rows, ∀ target, row.jumpConnectionId = some target →
      ∃ jump ∈ (t.update own (rename name endpoint)).rows, jump.id = target ∧
        jump.workspace = row.workspace ∧ jump.jumpConnectionId = none := by
    intro row hrow target htgt
    obtain ⟨jump, hmem, hid, hws, hplain⟩ := h row hrow target htgt
    obtain ⟨jump', hmem', hid', hworkspace', hplain'⟩ := hkept jump hmem
    exact ⟨jump', hmem', hid'.trans hid, hworkspace'.trans hws, hplain'.trans hplain⟩
  intro row hrow target htgt
  rcases mem_update hrow with ⟨before, hpre, -, rfl⟩ | ⟨hrow, -⟩
  · exact hgood before hpre target htgt
  exact hgood row hrow target htgt

theorem add_spec (h : t.add row = some after) :
    row.id ∉ t.rows.map SshConnection.id ∧ after = t.insert row := by
  unfold Table.add at h
  split at h
  · cases h
  split at h
  · cases h
    exact ⟨by assumption, rfl⟩
  cases h

theorem good_add (h : Good t) (hadd : t.add row = some after)
    (hjump : ∀ id, row.jumpConnectionId = some id → ∃ jump ∈ t.rows, jump.id = id ∧
      jump.workspace = row.workspace ∧ jump.jumpConnectionId = none) : Good after := by
  obtain ⟨-, rfl⟩ := add_spec hadd
  intro other hother target htgt
  have hold : ∃ jump ∈ t.rows, jump.id = target ∧ jump.workspace = other.workspace ∧
      jump.jumpConnectionId = none := by
    rcases mem_insert hother with hother | rfl
    · exact h other hother target htgt
    exact hjump target htgt
  obtain ⟨jump, hmem, hspec⟩ := hold
  exact ⟨jump, mem_insert_of_mem hmem, hspec⟩

theorem assertJumpConnection_spec {ownId : Option Text}
    (h : (assertJumpConnection t (some id) workspace ownId).isSome = false) :
    some id ≠ ownId ∧ ∃ jump ∈ t.rows, jump.id = id ∧ jump.workspace = workspace := by
  unfold assertJumpConnection at h
  dsimp only at h
  split at h
  · cases h
  rename_i hself
  split at h
  · cases h
  rename_i jump hjump
  exact ⟨hself, jump, find_spec hjump⟩

theorem good_create (h : Good t) (hset : Settable t (fun _ => false) row.jumpConnectionId)
    (hcreate : createConnection t row = some after) : Good after := by
  unfold createConnection at hcreate
  split at hcreate
  · cases hcreate
  rename_i hassert
  apply good_add h hcreate
  intro id hid
  rw [hid] at hassert
  obtain ⟨-, jump, hmem, hjump, hws⟩ := assertJumpConnection_spec (Bool.eq_false_iff.mpr hassert)
  exact ⟨jump, hmem, hjump, hws, (hset id hid).1 jump hmem hjump⟩

theorem good_update {name : Text} {endpoint : Endpoint} (h : Good t)
    (hset : Settable t (·.id = id) jumpId)
    (hupdate : updateConnection t workspace id name endpoint jumpId = some after) : Good after := by
  unfold updateConnection at hupdate
  split at hupdate
  · cases hupdate
  rename_i hchecked
  cases hupdate
  obtain ⟨hfound, hassert⟩ := not_or.mp hchecked
  obtain ⟨existing, hexisting⟩ := ne_none_iff_exists'.mp (by simpa using hfound)
  obtain ⟨hmem, hid, hws⟩ := find_spec hexisting
  apply good_rename
  apply good_setJump h hset
  rintro target rfl
  obtain ⟨hself, jump, hjump, hjumpId, hsame⟩ :=
    assertJumpConnection_spec (Bool.eq_false_iff.mpr hassert)
  refine ⟨jump, hjump, hjumpId, ?_, ?_⟩
  · rw [decide_eq_false_iff_not, hjumpId]
    exact fun heq => hself (congrArg some heq)
  intro row hrow hown
  rw [eq_of_key hrow hmem ((of_decide_eq_true hown).trans hid.symm), hsame, hws]

theorem good_delete (h : Good t) (hdelete : deleteConnection t workspace id = some after) :
    Good after := by
  unfold deleteConnection at hdelete
  split at hdelete
  · cases hdelete
  cases hdelete
  intro row hrow target htgt
  rcases mem_update hrow with ⟨before, -, -, rfl⟩ | ⟨hrow, hother⟩
  · cases htgt
  obtain ⟨jump, hmem, hid, hws, hplain⟩ := h row (mem_filter.mp hrow).1 target htgt
  rw [decide_eq_false_iff_not, htgt] at hother
  have hkept : jump ∈ (t.delete (·.id = id)).rows := by
    apply mem_filter.mpr
    refine ⟨hmem, ?_⟩
    rw [Bool.not_eq_true', decide_eq_false_iff_not, hid]
    exact fun heq => hother (congrArg some heq)
  exact ⟨jump, mem_update_of_kept hkept (by simp [hplain]), hid, hws, hplain⟩

section

variable {naming : Naming} {c next : ApplyContext} {entry : ScriptRow}

/-- What the sync has noted names connections of the workspace. -/
structure Sound (c : ApplyContext) : Prop where
  good : Good c.table
  matched : ∀ found ∈ c.matchedIds, ∀ row ∈ c.table.rows, row.id ∈ found.2 → row.workspace = c.workspace
  cached : ∀ found ∈ c.sshIds, ∃ row ∈ c.table.rows, row.id = found.2 ∧ row.workspace = c.workspace

/-- The jump that a row of the payload stores makes no chain. -/
def CleanJump (naming : Naming) (c : ApplyContext) (entry : ScriptRow) : Prop :=
  naming.normalized entry.name ∉ c.ignoredExisting → ∀ jumpId next,
    sshIdForName naming c entry.jumpConnection = some (jumpId, next) →
      Settable c.table (·.id ∈ matched naming c entry) jumpId

def CleanPass (naming : Naming) : ApplyContext → List ScriptRow → Prop
  | _, [] => True
  | c, entry :: payload => CleanJump naming c entry ∧
    ∀ next, syncJump naming c entry = some next → CleanPass naming next payload

theorem mem_sshIdsForName {name : Text} (h : id ∈ sshIdsForName naming c name) :
    ∃ row ∈ c.table.rows, row.id = id ∧ row.workspace = c.workspace := by
  obtain ⟨row, hrow, rfl⟩ := List.mem_map.mp h
  obtain ⟨hrow, hfilter⟩ := mem_filter.mp hrow
  exact ⟨row, hrow, rfl, (of_decide_eq_true hfilter).1⟩

theorem Sound.written (h : Sound c) {edit : KeyedTable.Edit SshConnection.id}
    (hedit : ∀ row, (edit.apply row).workspace = row.workspace)
    (hgood : Good (c.table.update own edit)) : Sound { c with table := c.table.update own edit } where
  good := hgood
  matched found hfound row hrow hid := by
    rcases mem_update hrow with ⟨before, hpre, -, rfl⟩ | ⟨hrow, -⟩
    · rw [hedit]
      exact h.matched found hfound before hpre (edit.key_apply before ▸ hid)
    exact h.matched found hfound row hrow hid
  cached found hfound := by
    obtain ⟨row, hrow, hid, hws⟩ := h.cached found hfound
    cases hown : own row with
    | true => exact ⟨_, mem_update_of_selected hrow hown, (edit.key_apply row).trans hid,
        (hedit row).trans hws⟩
    | false => exact ⟨row, mem_update_of_kept hrow hown, hid, hws⟩

theorem sshIdForName_spec (h : Sound c) {name : Option Text}
    (hname : sshIdForName naming c name = some (jumpId, next)) :
    Sound next ∧ next.table = c.table ∧ next.workspace = c.workspace ∧
      next.matchedIds = c.matchedIds ∧ ∀ id, jumpId = some id →
        ∃ row ∈ c.table.rows, row.id = id ∧ row.workspace = c.workspace := by
  unfold sshIdForName at hname
  split at hname
  · cases hname
    exact ⟨h, rfl, rfl, rfl, fun id hid => by cases hid⟩
  dsimp only at hname
  split at hname
  · rename_i id hid
    cases hname
    refine ⟨h, rfl, rfl, rfl, ?_⟩
    rintro id ⟨⟩
    obtain ⟨a, b, hsplit, -⟩ := lookup_eq_some_iff.mp hid
    exact h.cached _ (hsplit ▸ mem_append_right _ mem_cons_self)
  obtain ⟨id, hid, heq⟩ := map_eq_some_iff.mp hname
  cases heq
  have hmem := mem_sshIdsForName (mem_of_head? hid)
  refine ⟨⟨h.good, h.matched, ?_⟩, rfl, rfl, rfl, by rintro _ ⟨⟩; exact hmem⟩
  intro found hfound
  rcases mem_cons.mp hfound with rfl | hfound
  · exact hmem
  exact h.cached found hfound

theorem Sound.syncConnection (h : Sound c) (hsync : syncConnection naming c entry = some next) :
    Sound next := by
  unfold SshJumps.syncConnection at hsync
  dsimp only at hsync
  split at hsync
  · obtain ⟨table, htable, rfl⟩ := map_eq_some_iff.mp hsync
    have hgood := good_add h.good htable (fun id hid => by cases hid)
    obtain ⟨hfresh, rfl⟩ := add_spec htable
    refine ⟨hgood, ?_, ?_⟩
    · intro found hfound row hrow hid
      rcases mem_insert hrow with hrow | rfl
      · rcases mem_cons.mp hfound with rfl | hfound
        · exact absurd (List.mem_map.mpr ⟨row, hrow, mem_singleton.mp hid⟩) hfresh
        exact h.matched found hfound row hrow hid
      rfl
    intro found hfound
    rcases mem_cons.mp hfound with rfl | hfound
    · exact ⟨_, mem_insert_self hfresh, rfl, rfl⟩
    obtain ⟨row, hrow, hspec⟩ := h.cached found hfound
    exact ⟨row, mem_insert_of_mem hrow, hspec⟩
  rename_i id rest hfound
  cases hsync
  have hids : ∀ id ∈ sshIdsForName naming c entry.name, ∃ row ∈ c.table.rows, row.id = id ∧
      row.workspace = c.workspace := fun id hid => mem_sshIdsForName hid
  have hnoted : Sound { c with
      matchedIds := (naming.normalized entry.name, sshIdsForName naming c entry.name) :: c.matchedIds
      sshIds := (naming.normalized entry.name, id) :: c.sshIds } := by
    refine ⟨h.good, ?_, ?_⟩
    · intro found hmem row hrow hid
      rcases mem_cons.mp hmem with rfl | hmem
      · obtain ⟨other, hother, hsame, hws⟩ := hids row.id hid
        rw [eq_of_key hrow hother hsame.symm, hws]
      exact h.matched found hmem row hrow hid
    intro found hmem
    rcases mem_cons.mp hmem with rfl | hmem
    · exact hids id (hfound ▸ mem_cons_self)
    exact h.cached found hmem
  split
  · exact ⟨hnoted.good, hnoted.matched, hnoted.cached⟩
  have hgood : Good (c.table.update (·.id ∈ sshIdsForName naming c entry.name)
    (rename entry.name entry.endpoint)) := good_rename h.good _ _
  have hwritten := hnoted.written (fun _ => rfl) hgood
  exact ⟨hwritten.good, hwritten.matched, hwritten.cached⟩

theorem Sound.syncJump (h : Sound c) (hclean : CleanJump naming c entry)
    (hsync : syncJump naming c entry = some next) : Sound next := by
  unfold SshJumps.syncJump at hsync
  split at hsync
  · cases hsync
    exact h
  rename_i hnew
  obtain ⟨⟨jumpId, named⟩, hnamed, hsync⟩ := bind_eq_some_iff.mp hsync
  obtain ⟨hsound, htable, hws, hmatched, hjump⟩ := sshIdForName_spec h hnamed
  have hset := hclean hnew jumpId named hnamed
  have hown : SshJumps.matched naming named entry = SshJumps.matched naming c entry := by
    rw [SshJumps.matched, hmatched, SshJumps.matched]
  dsimp only at hsync
  split at hsync
  · cases hsync
  rename_i hself
  cases hsync
  rw [hown, Bool.not_eq_true] at *
  apply hsound.written (fun _ => rfl)
  rw [htable]
  apply good_setJump h.good hset
  rintro id rfl
  obtain ⟨jump, hmem, hid, hplace⟩ := hjump id rfl
  have hother : id ∉ SshJumps.matched naming c entry := of_decide_eq_false hself
  refine ⟨jump, hmem, hid, by rw [hid]; exact hself, fun row hrow hrowOwn => ?_⟩
  have hids := of_decide_eq_true hrowOwn
  unfold SshJumps.matched at hids
  cases hlook : c.matchedIds.lookup (naming.normalized entry.name) with
  | none => rw [hlook] at hids; cases hids
  | some ids =>
    rw [hlook] at hids
    obtain ⟨a, b, hsplit, -⟩ := lookup_eq_some_iff.mp hlook
    rw [hplace]
    exact (h.matched _ (hsplit ▸ mem_append_right _ mem_cons_self) row hrow hids).symm

theorem good_sync {strategy : ConflictStrategy} {payload : List ScriptRow} (h : Good t)
    (hclean : ∀ c, payload.foldlM (syncConnection naming) ⟨workspace, strategy, t, [], [], []⟩ = some c →
      CleanPass naming c payload)
    (hsync : syncSshConnections naming t workspace strategy payload = some after) : Good after := by
  obtain ⟨c, hc, hsync⟩ := bind_eq_some_iff.mp hsync
  obtain ⟨last, hlast, rfl⟩ := map_eq_some_iff.mp hsync
  have hfirst : ∀ (rows : List ScriptRow) (c last : ApplyContext), Sound c →
      rows.foldlM (syncConnection naming) c = some last → Sound last := by
    intro rows
    induction rows with
    | nil =>
      rintro c _ hc ⟨⟩
      exact hc
    | cons entry rows ih =>
      intro c last hc hrows
      obtain ⟨next, hnext, hrest⟩ := bind_eq_some_iff.mp hrows
      exact ih next last (hc.syncConnection hnext) hrest
  have hsecond : ∀ (rows : List ScriptRow) (c last : ApplyContext), Sound c → CleanPass naming c rows →
      rows.foldlM (syncJump naming) c = some last → Sound last := by
    intro rows
    induction rows with
    | nil =>
      rintro c _ hc - ⟨⟩
      exact hc
    | cons entry rows ih =>
      intro c last hc hpass hrows
      obtain ⟨next, hnext, hrest⟩ := bind_eq_some_iff.mp hrows
      exact ih next last (hc.syncJump hpass.1 hnext) (hpass.2 next hnext) hrest
  have hstart : Sound ⟨workspace, strategy, t, [], [], []⟩ := ⟨h, by simp, by simp⟩
  exact (hsecond payload c last (hfirst payload _ c hstart hc) (hclean c hc) hlast).good

end

section

variable {p : CopyPlan} {s s' : CopyState} {fuel : ℕ} {pending : List Text} {targetId : Text}

/-- The copy of this connection has no jump, also when another one is reused for it. -/
def Plain (p : CopyPlan) (source : Table) (id : Text) : Prop :=
  (∀ row ∈ source.rows, row.id = id → row.jumpConnectionId = none) ∧
    ∀ targetId, p.reuse.lookup id = some targetId →
      ∀ row ∈ source.rows, row.id = targetId → row.jumpConnectionId = none

/-- No connection that jumps is reused as the jump host of a copy. -/
def CleanCopy (p : CopyPlan) (source : Table) (id : Text) : Prop :=
  p.reuse.lookup id = none → ∀ row ∈ source.rows, row.id = id → ∀ jumpId,
    row.jumpConnectionId = some jumpId → Plain p source jumpId

def Copied (p : CopyPlan) (source : Table) (s : CopyState) (id targetId : Text) : Prop :=
  ∃ row ∈ s.table.rows, row.id = targetId ∧ row.workspace = p.organization ∧
    (Plain p source id → row.jumpConnectionId = none)

/-- The copies that are noted exist, but for those that wait for their jump hosts. -/
structure CopySound (p : CopyPlan) (source : Table) (pending : List Text) (s : CopyState) : Prop where
  good : Good s.table
  kept : ∀ row ∈ source.rows, row ∈ s.table.rows
  copied : ∀ id targetId, s.sshMap.lookup id = some targetId → id ∉ pending →
    Copied p source s id targetId

theorem lookup_cons_of_none {map : List (Text × Text)} {key value k v : Text}
    (hfree : map.lookup key = none) (h : map.lookup k = some v) :
    ((key, value) :: map).lookup k = some v := by
  have hne : k ≠ key := by
    rintro rfl
    rw [h] at hfree
    cases hfree
  rw [lookup_cons, beq_false_of_ne hne]
  exact h

theorem ensureSsh_sound (hpermitted : p.permitted t = true) (hs : CopySound p t pending s)
    (hid : id ∉ pending) (hpend : ∀ x ∈ pending, ∃ row ∈ t.rows, row.id = x ∧
      row.jumpConnectionId ≠ none) (hclean : CleanCopy p t id)
    (h : ensureSsh p t fuel s id = some (s', targetId)) :
    CopySound p t pending s' ∧ Copied p t s' id targetId ∧
      ∀ k v, s.sshMap.lookup k = some v → s'.sshMap.lookup k = some v := by
  induction fuel generalizing s s' id targetId pending with
  | zero => cases h
  | succ fuel ih =>
    rw [ensureSsh] at h
    split at h
    · rename_i hmapped
      cases h
      exact ⟨hs, hs.copied id _ hmapped hid, fun _ _ hk => hk⟩
    rename_i hfree
    obtain ⟨row, hrow, h⟩ := bind_eq_some_iff.mp h
    obtain ⟨hmem, hrowId, -⟩ := find_spec hrow
    split at h
    · rename_i hreuse
      cases h
      obtain ⟨a, b, hsplit, -⟩ := lookup_eq_some_iff.mp hreuse
      have hentry := List.all_eq_true.mp hpermitted (id, targetId)
        (hsplit ▸ mem_append_right _ mem_cons_self)
      obtain ⟨_, _, hcand⟩ := (any_eq_true _ _).mp hentry
      obtain ⟨target, htgt, -⟩ := (any_eq_true _ _).mp hcand
      obtain ⟨htargetMem, htargetId, hws⟩ := find_spec htgt
      have hcopied : Copied p t s id targetId := ⟨target, hs.kept _ htargetMem, htargetId, hws,
        fun hplain => hplain.2 targetId hreuse target htargetMem htargetId⟩
      refine ⟨⟨hs.good, hs.kept, ?_⟩, hcopied, fun k v hk => lookup_cons_of_none hfree hk⟩
      intro k v hk hnot
      rw [lookup_cons] at hk
      split at hk
      · rename_i heq
        cases hk
        rw [beq_iff_eq.mp heq]
        exact hcopied
      exact hs.copied k v hk hnot
    rename_i hreuse
    dsimp only at h
    obtain ⟨⟨waiting, jumpId⟩, hjump, h⟩ := bind_eq_some_iff.mp h
    obtain ⟨table, htable, h⟩ := map_eq_some_iff.mp h
    cases h
    -- the copy waits while its jump host is copied, which has no jump of its own
    have hwaits : CopySound p t (id :: pending)
        { s with sshMap := (id, p.newId id) :: s.sshMap } := by
      refine ⟨hs.good, hs.kept, ?_⟩
      intro k v hk hnot
      obtain ⟨hne, hnot⟩ := not_or.mp (mt mem_cons.mpr hnot)
      rw [lookup_cons, beq_false_of_ne hne] at hk
      exact hs.copied k v hk hnot
    have hself : ((id, p.newId id) :: s.sshMap).lookup id = some (p.newId id) := by simp
    have hdone : CopySound p t (id :: pending) waiting ∧
        (∀ k v, ((id, p.newId id) :: s.sshMap).lookup k = some v →
          waiting.sshMap.lookup k = some v) ∧
        ∀ host, jumpId = some host → ∃ jump ∈ waiting.table.rows, jump.id = host ∧
          jump.workspace = p.organization ∧ jump.jumpConnectionId = none := by
      split at hjump
      · cases hjump
        exact ⟨hwaits, fun _ _ hk => hk, fun _ hhost => by cases hhost⟩
      rename_i jump hrowJump
      obtain ⟨⟨after, host⟩, hensured, heq⟩ := map_eq_some_iff.mp hjump
      cases heq
      have hplain : Plain p t jump := hclean hreuse row hmem hrowId jump hrowJump
      have hjumpPending : jump ∉ id :: pending := by
        intro hin
        have hown : ∃ row ∈ t.rows, row.id = jump ∧ row.jumpConnectionId ≠ none := by
          rcases mem_cons.mp hin with rfl | hin
          · exact ⟨row, hmem, hrowId, by simp [hrowJump]⟩
          exact hpend jump hin
        obtain ⟨other, hother, hotherId, hnone⟩ := hown
        exact hnone (hplain.1 other hother hotherId)
      have hall : ∀ x ∈ id :: pending, ∃ row ∈ t.rows, row.id = x ∧
          row.jumpConnectionId ≠ none := by
        intro x hx
        rcases mem_cons.mp hx with rfl | hx
        · exact ⟨row, hmem, hrowId, by simp [hrowJump]⟩
        exact hpend x hx
      have hnext : CleanCopy p t jump := by
        intro _ other hother hotherId further hfurther
        rw [hplain.1 other hother hotherId] at hfurther
        cases hfurther
      obtain ⟨hsound, ⟨copy, hcopy, hcopyId, hws, hnone⟩, hkeeps⟩ :=
        ih hwaits hjumpPending hall hnext hensured
      exact ⟨hsound, hkeeps, by rintro _ ⟨⟩; exact ⟨copy, hcopy, hcopyId, hws, hnone hplain⟩⟩
    obtain ⟨hsound, hkeeps, hhost⟩ := hdone
    have hgood : Good table := good_add hsound.good htable hhost
    obtain ⟨hfresh, rfl⟩ := add_spec htable
    have hcopied : Copied p t ⟨waiting.table.insert
        ⟨p.newId id, p.organization, p.copyName id, row.endpoint, jumpId⟩, waiting.sshMap⟩ id
          (p.newId id) := by
      refine ⟨_, mem_insert_self hfresh, rfl, rfl, fun hplain => ?_⟩
      rw [hplain.1 row hmem hrowId] at hjump
      cases hjump
      rfl
    refine ⟨⟨hgood, fun r hr => mem_insert_of_mem (hsound.kept r hr), ?_⟩, hcopied,
      fun k v hk => hkeeps k v (lookup_cons_of_none hfree hk)⟩
    intro k v hk hnot
    by_cases hk' : k = id
    · subst hk'
      rw [hkeeps _ _ hself] at hk
      cases hk
      exact hcopied
    obtain ⟨copy, hcopy, hspec⟩ := hsound.copied k v hk (by simp [hk', hnot])
    exact ⟨copy, mem_insert_of_mem hcopy, hspec⟩

theorem good_copy (h : Good t) (hclean : ∀ id ∈ p.sshConnectionIds, CleanCopy p t id)
    (hcopy : executeCopy t p = some after) : Good after := by
  unfold executeCopy at hcopy
  split at hcopy
  · rename_i hpermitted
    obtain ⟨last, hlast, rfl⟩ := map_eq_some_iff.mp hcopy
    have hrun : ∀ (ids : List Text) (s last : CopyState), (∀ id ∈ ids, CleanCopy p t id) →
        CopySound p t [] s →
        ids.foldlM (fun s id => (ensureSsh p t (t.rows.length + 1) s id).map Prod.fst) s = some last →
        CopySound p t [] last := by
      intro ids
      induction ids with
      | nil =>
        rintro s _ - hs ⟨⟩
        exact hs
      | cons id ids ih =>
        intro s last hids hs hfold
        obtain ⟨next, hnext, hrest⟩ := bind_eq_some_iff.mp hfold
        obtain ⟨⟨next, targetId⟩, hensured, rfl⟩ := map_eq_some_iff.mp hnext
        have hsound := ensureSsh_sound hpermitted hs (by simp) (by simp) (hids id mem_cons_self) hensured
        exact ih next last (fun id hid => hids id (mem_cons_of_mem _ hid)) hsound.1 hrest
    exact (hrun _ _ last hclean ⟨h, fun _ hr => hr, fun _ _ hk => by cases hk⟩ hlast).good
  cases hcopy

end

inductive Operation where
  | create (row : SshConnection)
  | update (workspace : Workspace) (id name : Text) (endpoint : Endpoint) (jumpId : Option Text)
  | delete (workspace : Workspace) (id : Text)
  | sync (workspace : Workspace) (strategy : ConflictStrategy) (payload : List ScriptRow)
  | copy (plan : CopyPlan)

def apply (naming : Naming) (t : Table) : Operation → Option Table
  | .create row => createConnection t row
  | .update workspace id name endpoint jumpId => updateConnection t workspace id name endpoint jumpId
  | .delete workspace id => deleteConnection t workspace id
  | .sync workspace strategy payload => syncSshConnections naming t workspace strategy payload
  | .copy plan => executeCopy t plan

/-- The operation makes no chain of jumps. -/
def Clean (naming : Naming) (t : Table) : Operation → Prop
  | .create row => Settable t (fun _ => false) row.jumpConnectionId
  | .update _ id _ _ jumpId => Settable t (·.id = id) jumpId
  | .delete _ _ => True
  | .sync workspace strategy payload =>
    ∀ c, payload.foldlM (syncConnection naming) ⟨workspace, strategy, t, [], [], []⟩ = some c →
      CleanPass naming c payload
  | .copy plan => ∀ id ∈ plan.sshConnectionIds, CleanCopy plan t id

inductive CleanRun (naming : Naming) : Table → Prop
  | start : CleanRun naming .empty
  | step {t after : Table} {operation : Operation} (h : CleanRun naming t)
    (hclean : Clean naming t operation) (hstep : apply naming t operation = some after) :
    CleanRun naming after

theorem CleanRun.good {naming : Naming} (h : CleanRun naming t) : Good t := by
  induction h with
  | start =>
    rintro row ⟨⟩
  | @step t after operation _ hclean hstep ih =>
    cases operation with
    | create row => exact good_create ih hclean hstep
    | update workspace id name endpoint jumpId => exact good_update ih hclean hstep
    | delete workspace id => exact good_delete ih hstep
    | sync workspace strategy payload => exact good_sync ih hclean hstep
    | copy plan => exact good_copy ih hclean hstep

/-- One connection jumps through the other. -/
def Jumps (t : Table) (row jump : SshConnection) : Prop :=
  row ∈ t.rows ∧ jump ∈ t.rows ∧ row.jumpConnectionId = some jump.id

theorem Good.acyclic (h : Good t) (row : SshConnection) : ¬ Relation.TransGen (Jumps t) row row := by
  intro hcycle
  obtain ⟨jump, ⟨hrow, hjump, hid⟩, hback⟩ := Relation.TransGen.head'_iff.mp hcycle
  obtain ⟨other, hother, hotherId, -, hplain⟩ := h row hrow jump.id hid
  obtain rfl := eq_of_key hother hjump hotherId
  rcases Relation.ReflTransGen.cases_head hback with rfl | ⟨next, ⟨-, -, hnext⟩, -⟩
  · rw [hplain] at hid
    cases hid
  rw [hplain] at hnext
  cases hnext

theorem good_iff_connects : Good t ↔ ∀ row ∈ t.rows, refusal t row = none := by
  apply forall_congr'
  intro row
  apply imp_congr_right
  intro hrow
  unfold refusal
  cases hjump : row.jumpConnectionId with
  | none => simp
  | some jumpId =>
    dsimp only
    cases hfind : t.rows.find? fun row => row.id = jumpId with
    | none =>
      constructor
      · intro h
        obtain ⟨jump, hmem, hid, -⟩ := h jumpId rfl
        exact absurd (decide_eq_true hid) (find?_eq_none.mp hfind jump hmem)
      exact fun h => by cases h
    | some jump =>
      have hmem := mem_of_find?_eq_some hfind
      have hid : jump.id = jumpId := by simpa using find?_some hfind
      dsimp only
      constructor
      · intro h
        obtain ⟨other, hother, hotherId, hws, hplain⟩ := h jumpId rfl
        obtain rfl := eq_of_key hother hmem (hotherId.trans hid.symm)
        rw [if_neg (not_not.mpr hws), hplain]
        rfl
      intro h
      split at h
      · cases h
      rename_i hws
      split at h
      · cases h
      rename_i hplain
      rintro _ ⟨⟩
      exact ⟨jump, hmem, hid, not_not.mp hws, by simpa using hplain⟩

/-- Runs without chains: every stored jump names a connection of the workspace without a
jump, there are no cycles, and every connection can be connected to. -/
theorem jump_hosts_usable {naming : Naming} (h : CleanRun naming t) :
    Good t ∧ (∀ row, ¬ Relation.TransGen (Jumps t) row row) ∧ ∀ row ∈ t.rows, refusal t row = none :=
  ⟨h.good, h.good.acyclic, good_iff_connects.mp h.good⟩

def host (id : Text) (jumpId : Option Text) : SshConnection :=
  ⟨id, ⟨.personal, "u".toList⟩, id, ⟨id, 22, id⟩, jumpId⟩

theorem jump_hosts_usable_pair :
    let pair : Table := ⟨[host ['a'] none, host ['b'] (some ['a'])], by decide⟩
    Good pair ∧ (∀ row, ¬ Relation.TransGen (Jumps pair) row row) ∧
      ∀ row ∈ pair.rows, refusal pair row = none := by
  let naming : Naming := ⟨fun name => name, fun name => name⟩
  let first : Table := ⟨[host ['a'] none], by decide⟩
  have hfirst : CleanRun naming first := by
    have hclean : Clean naming .empty (.create (host ['a'] none)) := fun _ h => by cases h
    exact .step .start hclean rfl
  have hsecond : Clean naming first (.create (host ['b'] (some ['a']))) := by
    rintro id ⟨⟩
    refine ⟨fun jump hjump _ => ?_, fun _ _ h => by cases h⟩
    rw [mem_singleton.mp hjump]
    rfl
  exact jump_hosts_usable (hfirst.step hsecond rfl)

/-- Three connections that jump through one another, which no route refuses. -/
def ring : List Operation :=
  let jump (id jumpId : Text) := Operation.update ⟨.personal, "u".toList⟩ id id ⟨id, 22, id⟩ (some jumpId)
  [.create (host ['a'] none), .create (host ['b'] none), .create (host ['c'] none),
    jump ['a'] ['b'], jump ['b'] ['c'], jump ['c'] ['a']]

theorem ring_of_jumps :
    (ring.foldlM (apply ⟨fun name => name, fun name => name⟩) .empty).map (fun t => t.rows.map fun row =>
      (row.id, row.jumpConnectionId, (refusal t row).isSome)) =
    some [(['a'], some ['b'], true), (['b'], some ['c'], true), (['c'], some ['a'], true)] := by
  decide +kernel

end ImApp.SshJumps
