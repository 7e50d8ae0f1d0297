import ImApp.Library.InterleavedCalls
import ImApp.Library.KeyedTable

/-!
The API keys of one type of one owner, and the login tickets that they issue. A creation
counts the active keys and inserts in two statements; a rotation, a revocation, a change of
the approval mode and the use of a ticket are one transaction each. A rotation does not look
at the status of the key.
-/

namespace ImApp.ApiKeys

open InterleavedCalls StepSystem List KeyedTable Option

inductive McpApprovalMode where
  | always
  | highRisk
  | never
  deriving DecidableEq

structure ApiKey where
  id : ℕ
  name : String
  mcpApprovalMode : McpApprovalMode
  active : Bool

inductive Workspace where
  | personal
  | organization (id : ℕ)
  deriving DecidableEq

/-- Tickets are told apart by their random texts. -/
structure Ticket where
  id : ℕ
  apiKey : ℕ
  user : ℕ
  workspace : Workspace
  expiresAt : ℕ
  consumedAt : Option ℕ

structure Session where
  ticket : ℕ
  user : ℕ
  workspace : Workspace
  createdAt : ℕ

/-- The tables, every ticket that was ever stored, the sessions obtained, the clock in
milliseconds, and what the requests read of the owner. -/
structure Data where
  keys : KeyedTable ApiKey.id
  tickets : KeyedTable Ticket.id
  issued : KeyedTable Ticket.id
  sessions : List Session
  now : ℕ
  userActive : Bool
  member : ℕ → Bool

/-- Where a request stands. `insert`, `storeTicket` and `redeem` come after the reads of a
creation, of the issue of a ticket and of its consumption. -/
inductive Request where
  | create (name : String) (mode : McpApprovalMode)
  | insert (name : String) (mode : McpApprovalMode)
  | rotate (key : ℕ)
  | revoke (key : ℕ)
  | setMode (key : ℕ) (mode : McpApprovalMode)
  | issueTicket (key : ℕ) (organization : Option ℕ)
  | storeTicket (key : ℕ) (workspace : Workspace) (now : ℕ)
  | consume (ticket : ℕ)
  | redeem (ticket : ℕ) (now : ℕ)
  deriving DecidableEq

def maxActiveKeys : ℕ := 10

def activeKeyCount (d : Data) : ℕ := d.keys.count ApiKey.active

def revoked : KeyedTable.Edit ApiKey.id := ⟨fun k => { k with active := false }, fun _ => rfl⟩

def withMode (mode : McpApprovalMode) : KeyedTable.Edit ApiKey.id :=
  ⟨fun k => { k with mcpApprovalMode := mode }, fun _ => rfl⟩

def consumed (now : ℕ) : KeyedTable.Edit Ticket.id :=
  ⟨fun t => { t with consumedAt := some now }, fun _ => rfl⟩

def Data.key (d : Data) (id : ℕ) : Option ApiKey := d.keys.rows.find? (·.id = id)

/-- A drawn id was not drawn before. -/
def issueApiKey (d : Data) (fresh : ℕ) (name : String) (mode : McpApprovalMode) : Option Data :=
  if fresh ∈ d.keys.rows.map ApiKey.id then none
  else some { d with keys := d.keys.insert ⟨fresh, name, mode, true⟩ }

def rotateKey (d : Data) (id fresh : ℕ) : Option Data :=
  match d.key id with
  | none => some d
  | some existing => (issueApiKey d fresh existing.name existing.mcpApprovalMode).map fun d =>
      { d with keys := d.keys.update (·.id = existing.id) revoked }

def revokeKey (d : Data) (id : ℕ) : Data :=
  { d with keys := d.keys.update (fun k => k.id = id && k.active) revoked }

def setMode (d : Data) (id : ℕ) (mode : McpApprovalMode) : Data :=
  { d with keys := d.keys.update (fun k => k.id = id && k.active) (withMode mode) }

def Workspace.allowed (d : Data) : Workspace → Bool
  | .personal => true
  | .organization id => d.member id

/-- Old tickets are deleted, and the open ones of the key are used up. -/
def storeTicket (d : Data) (user key fresh : ℕ) (workspace : Workspace) (now : ℕ) : Option Data :=
  if fresh ∈ d.issued.rows.map Ticket.id then none
  else
    let kept := d.tickets.delete fun t =>
      t.expiresAt < now || t.consumedAt.any fun used => used + 3600000 < now
    let closed := kept.update (fun t => t.apiKey = key && t.user = user && t.consumedAt.isNone)
      (consumed now)
    let ticket := ⟨fresh, key, user, workspace, now + 60000, none⟩
    some { d with tickets := closed.insert ticket, issued := d.issued.insert ticket }

def redeem (d : Data) (id now : ℕ) : Data :=
  match d.tickets.rows.find? (·.id = id) with
  | none => d
  | some ticket =>
    if !(d.key ticket.apiKey).any ApiKey.active || !d.userActive then d
    else if ticket.consumedAt.isSome || ticket.expiresAt ≤ now || !ticket.workspace.allowed d then d
    else { d with
      tickets := d.tickets.update (fun t => t.id = ticket.id && t.consumedAt.isNone) (consumed now)
      sessions := ⟨ticket.id, ticket.user, ticket.workspace, now⟩ :: d.sessions }

/-- The statements of a request of the owner `user`. -/
def run (user : ℕ) (d : Data) (fresh : ℕ) : Request → Option (Data × Option Request)
  | .create name mode => some (d, if maxActiveKeys ≤ activeKeyCount d then none
      else some (.insert name mode))
  | .insert name mode => (issueApiKey d fresh name mode).map (·, none)
  | .rotate key => (rotateKey d key fresh).map (·, none)
  | .revoke key => some (revokeKey d key, none)
  | .setMode key mode => some (setMode d key mode, none)
  | .issueTicket key organization =>
    let workspace := organization.elim Workspace.personal .organization
    some (d, if (d.key key).any ApiKey.active && d.userActive && workspace.allowed d then
      some (.storeTicket key workspace d.now) else none)
  | .storeTicket key workspace now => (storeTicket d user key fresh workspace now).map (·, none)
  | .consume ticket => some (d, some (.redeem ticket d.now))
  | .redeem ticket now => some (redeem d ticket now, none)

/-- Time passes, and the user and the memberships change. -/
structure Change where
  elapsed : ℕ
  userActive : Bool
  member : ℕ → Bool

def keyService (user : ℕ) : Service Data Request ℕ Change where
  initial d := d.keys = .empty ∧ d.tickets = .empty ∧ d.issued = .empty ∧ d.sessions = []
  opens
    | .insert .. | .storeTicket .. | .redeem .. => false
    | _ => true
  advance _ d request fresh := run user d fresh request
  world d change := some { d with
    now := d.now + change.elapsed, userActive := change.userActive, member := change.member }

variable {d d' : Data} {user fresh : ℕ} {next : Option Request}

/-- The key is exchanged for a new active one of the same name and mode. -/
def rotated (d : Data) (existing : ApiKey) (fresh : ℕ) : Data :=
  let inserted := d.keys.insert ⟨fresh, existing.name, existing.mcpApprovalMode, true⟩
  { d with keys := inserted.update (·.id = existing.id) revoked }

/-- The ticket is used up, and gives a session. -/
def redeemed (d : Data) (ticket : Ticket) (now : ℕ) : Data :=
  { d with
    tickets := d.tickets.update (fun t => t.id = ticket.id && t.consumedAt.isNone) (consumed now)
    sessions := ⟨ticket.id, ticket.user, ticket.workspace, now⟩ :: d.sessions }

/-- What a statement does to the tables. -/
inductive Effect (user fresh : ℕ) (d : Data) (request : Request) : Data → Prop
  | same : Effect user fresh d request d
  | inserted (name : String) (mode : McpApprovalMode) (hrequest : request = .insert name mode)
      (hfresh : fresh ∉ d.keys.rows.map ApiKey.id) :
      Effect user fresh d request { d with keys := d.keys.insert ⟨fresh, name, mode, true⟩ }
  | rotated (existing : ApiKey) (hrequest : request = .rotate existing.id)
      (hmem : existing ∈ d.keys.rows) (hfresh : fresh ∉ d.keys.rows.map ApiKey.id) :
      Effect user fresh d request (rotated d existing fresh)
  | edited (p : ApiKey → Bool) (edit : KeyedTable.Edit ApiKey.id)
      (hedit : ∀ k, (edit.apply k).active = true → k.active = true) :
      Effect user fresh d request { d with keys := d.keys.update p edit }
  | stored (key now : ℕ) (workspace : Workspace) (after : Data)
      (hstored : storeTicket d user key fresh workspace now = some after) :
      Effect user fresh d request after
  | redeemed (ticket : Ticket) (now : ℕ) (hmem : ticket ∈ d.tickets.rows)
      (hkey : (d.key ticket.apiKey).any ApiKey.active = true) (hopen : ticket.consumedAt = none)
      (hlive : now < ticket.expiresAt) : Effect user fresh d request (redeemed d ticket now)

theorem issueApiKey_some {name : String} {mode : McpApprovalMode}
    (h : issueApiKey d fresh name mode = some d') : fresh ∉ d.keys.rows.map ApiKey.id ∧
      d' = { d with keys := d.keys.insert ⟨fresh, name, mode, true⟩ } := by
  unfold issueApiKey at h
  split at h
  · cases h
  exact ⟨‹_›, (some.inj h).symm⟩

theorem rotateKey_some {id : ℕ} (h : rotateKey d id fresh = some d') :
    d' = d ∨ ∃ existing ∈ d.keys.rows, existing.id = id ∧ fresh ∉ d.keys.rows.map ApiKey.id ∧
      d' = rotated d existing fresh := by
  unfold rotateKey at h
  split at h
  · exact .inl (some.inj h).symm
  rename_i existing hfound
  obtain ⟨inserted, hinserted, rfl⟩ := map_eq_some_iff.mp h
  obtain ⟨hfresh, rfl⟩ := issueApiKey_some hinserted
  exact .inr ⟨existing, mem_of_find?_eq_some hfound, by simpa using find?_some hfound, hfresh, rfl⟩

theorem redeem_effect (d : Data) (id now : ℕ) :
    Effect user fresh d (.redeem id now) (redeem d id now) := by
  unfold redeem
  split
  · exact .same
  rename_i ticket hfound
  split
  · exact .same
  rename_i hkey
  split
  · exact .same
  rename_i hopen
  simp only [Bool.or_eq_true, Bool.not_eq_true', decide_eq_true_eq, not_or] at hkey hopen
  exact .redeemed ticket now (mem_of_find?_eq_some hfound) (by simpa using hkey.1)
    (by simpa using hopen.1.1) (by omega)

theorem run_effect {request : Request} (h : run user d fresh request = some (d', next)) :
    Effect user fresh d request d' := by
  cases request with
  | create | issueTicket | consume =>
    cases h
    exact .same
  | insert name mode =>
    obtain ⟨inserted, hinserted, hpair⟩ := map_eq_some_iff.mp h
    cases hpair
    obtain ⟨hfresh, rfl⟩ := issueApiKey_some hinserted
    exact .inserted name mode rfl hfresh
  | rotate key =>
    obtain ⟨after, hafter, hpair⟩ := map_eq_some_iff.mp h
    cases hpair
    rcases rotateKey_some hafter with rfl | ⟨existing, hmem, rfl, hfresh, rfl⟩
    · exact .same
    exact .rotated existing rfl hmem hfresh
  | revoke key =>
    cases h
    exact .edited _ revoked fun _ h => absurd h Bool.false_ne_true
  | setMode key mode =>
    cases h
    exact .edited _ (withMode mode) fun _ h => h
  | storeTicket key workspace now =>
    obtain ⟨stored, hstored, hpair⟩ := map_eq_some_iff.mp h
    cases hpair
    exact .stored key now workspace _ hstored
  | redeem ticket now =>
    cases h
    exact redeem_effect d ticket now

theorem stored_frame {key now : ℕ} {workspace : Workspace}
    (h : storeTicket d user key fresh workspace now = some d') :
    d'.keys = d.keys ∧ d'.sessions = d.sessions := by
  unfold storeTicket at h
  split at h <;> cases h
  exact ⟨rfl, rfl⟩

theorem count_insert {new : ApiKey} (hfresh : new.id ∉ d.keys.rows.map ApiKey.id)
    (hactive : new.active = true) :
    (d.keys.insert new).count ApiKey.active = activeKeyCount d + 1 := by
  simp [KeyedTable.count, KeyedTable.insert, activeKeyCount, hfresh, hactive, countP_append]

theorem count_edit {p : ApiKey → Bool} {edit : KeyedTable.Edit ApiKey.id}
    (hedit : ∀ k, (edit.apply k).active = true → k.active = true) :
    (d.keys.update p edit).count ApiKey.active ≤ activeKeyCount d := by
  have hexchange := d.keys.count_update p ApiKey.active edit
  have hmono : d.keys.count (fun k => p k && (edit.apply k).active) ≤
      d.keys.count (fun k => p k && k.active) := by
    apply countP_mono_left
    intro k _ hk
    rw [Bool.and_eq_true] at hk ⊢
    exact ⟨hk.1, hedit k hk.2⟩
  unfold activeKeyCount
  omega

theorem count_rotated {existing : ApiKey} (hmem : existing ∈ d.keys.rows)
    (hfresh : fresh ∉ d.keys.rows.map ApiKey.id) (hactive : existing.active = true) :
    activeKeyCount (rotated d existing fresh) = activeKeyCount d := by
  let keys := d.keys.insert ⟨fresh, existing.name, existing.mcpApprovalMode, true⟩
  have hinserted : keys.count ApiKey.active = activeKeyCount d + 1 := count_insert hfresh rfl
  have hexchange := keys.count_update (fun k => k.id = existing.id) ApiKey.active revoked
  have hnone : keys.count (fun k => k.id = existing.id && (revoked.apply k).active) = 0 :=
    count_zero fun _ _ => Bool.and_false _
  have hone : keys.count (fun k => k.id = existing.id && k.active) = 1 := by
    apply Nat.le_antisymm
    · exact count_le_one fun k hk => of_decide_eq_true ((Bool.and_eq_true _ _).mp hk).1
    exact countP_pos_iff.mpr ⟨existing, mem_insert_of_mem hmem, by simp [hactive]⟩
  change (keys.update (fun k => k.id = existing.id) revoked).count ApiKey.active = _
  omega

/-- A revoked key stays revoked. -/
def StaysRevoked (d d' : Data) : Prop :=
  ∀ k ∈ d.keys.rows, ∃ k' ∈ d'.keys.rows, k'.id = k.id ∧ (k.active = false → k'.active = false)

theorem staysRevoked_of_keys (h : d'.keys = d.keys) : StaysRevoked d d' :=
  fun k hk => ⟨k, h ▸ hk, rfl, id⟩

theorem StaysRevoked.trans {d'' : Data} (first : StaysRevoked d d') (second : StaysRevoked d' d'') :
    StaysRevoked d d'' := by
  intro k hk
  obtain ⟨k', hk', hid, hoff⟩ := first k hk
  obtain ⟨k'', hk'', hid', hoff'⟩ := second k' hk'
  exact ⟨k'', hk'', hid'.trans hid, fun h => hoff' (hoff h)⟩

theorem edit_keeps {keys : KeyedTable ApiKey.id} {p : ApiKey → Bool}
    {edit : KeyedTable.Edit ApiKey.id} (hedit : ∀ k, (edit.apply k).active = true → k.active = true)
    {k : ApiKey} (hk : k ∈ keys.rows) :
    ∃ k' ∈ (keys.update p edit).rows, k'.id = k.id ∧ (k.active = false → k'.active = false) := by
  cases hp : p k with
  | false => exact ⟨k, mem_update_of_kept hk hp, rfl, id⟩
  | true =>
    refine ⟨edit.apply k, mem_update_of_selected hk hp, edit.key_apply k, fun hk => ?_⟩
    by_contra hactive
    rw [hedit k (Bool.not_eq_false _ ▸ hactive)] at hk
    cases hk

theorem Effect.staysRevoked {request : Request} (h : Effect user fresh d request d') :
    StaysRevoked d d' := by
  cases h with
  | same => exact staysRevoked_of_keys rfl
  | inserted => exact fun k hk => ⟨k, mem_insert_of_mem hk, rfl, id⟩
  | rotated => exact fun k hk =>
      edit_keeps (fun _ h => absurd h Bool.false_ne_true) (mem_insert_of_mem hk)
  | edited p edit hedit => exact fun k hk => edit_keeps hedit hk
  | stored key now workspace after hstored => exact staysRevoked_of_keys (stored_frame hstored).1
  | redeemed => exact staysRevoked_of_keys rfl

/-- Each ticket gives at most one session, of its user and workspace and before it expires. -/
structure Sound (d : Data) : Prop where
  issued : ∀ t ∈ d.tickets.rows, { t with consumedAt := none } ∈ d.issued.rows
  once : (d.sessions.map Session.ticket).Nodup
  spent : ∀ s ∈ d.sessions, ∀ t ∈ d.tickets.rows, t.id = s.ticket → t.consumedAt.isSome = true
  fixed : ∀ s ∈ d.sessions, ∃ t ∈ d.issued.rows,
    t.id = s.ticket ∧ t.user = s.user ∧ t.workspace = s.workspace ∧ s.createdAt < t.expiresAt

theorem Sound.redeemed (h : Sound d) {ticket : Ticket} {now : ℕ} (hmem : ticket ∈ d.tickets.rows)
    (hopen : ticket.consumedAt = none) (hlive : now < ticket.expiresAt) :
    Sound (redeemed d ticket now) := by
  have hnew : ticket.id ∉ d.sessions.map Session.ticket := by
    intro hused
    obtain ⟨s, hs, hid⟩ := mem_map.mp hused
    have hspent := h.spent s hs ticket hmem hid.symm
    rw [hopen] at hspent
    cases hspent
  refine ⟨?_, nodup_cons.mpr ⟨hnew, h.once⟩, ?_, ?_⟩
  · intro t ht
    rcases mem_update ht with ⟨before, hbefore, -, rfl⟩ | ⟨hkept, -⟩
    · exact h.issued before hbefore
    exact h.issued t hkept
  · intro s hs t ht hid
    rcases mem_update ht with ⟨before, -, -, rfl⟩ | ⟨hkept, hnot⟩
    · rfl
    rcases mem_cons.mp hs with rfl | hold
    · simpa [hid] using hnot
    exact h.spent s hold t hkept hid
  intro s hs
  rcases mem_cons.mp hs with rfl | hold
  · exact ⟨_, h.issued ticket hmem, rfl, rfl, rfl, hlive⟩
  exact h.fixed s hold

theorem Sound.stored (h : Sound d) {key now : ℕ} {workspace : Workspace}
    (hstored : storeTicket d user key fresh workspace now = some d') : Sound d' := by
  unfold storeTicket at hstored
  split at hstored
  · cases hstored
  rename_i hfresh
  cases hstored
  have hrow : ∀ t ∈ ((d.tickets.delete fun t => t.expiresAt < now || t.consumedAt.any
      fun used => used + 3600000 < now).update (fun t => t.apiKey = key && t.user = user &&
        t.consumedAt.isNone) (consumed now)).rows, ∃ before ∈ d.tickets.rows, before.id = t.id ∧
      { t with consumedAt := none } = { before with consumedAt := none } ∧
        (before.consumedAt.isSome = true → t.consumedAt.isSome = true) := by
    intro t ht
    rcases mem_update ht with ⟨before, hbefore, -, rfl⟩ | ⟨hkept, -⟩
    · exact ⟨before, (mem_filter.mp hbefore).1, rfl, rfl, fun _ => rfl⟩
    exact ⟨t, (mem_filter.mp hkept).1, rfl, rfl, id⟩
  refine ⟨?_, h.once, ?_, ?_⟩
  · intro t ht
    rcases mem_insert ht with hold | rfl
    · obtain ⟨before, hbefore, -, hsame, -⟩ := hrow t hold
      exact mem_insert_of_mem (hsame ▸ h.issued before hbefore)
    exact mem_insert_self hfresh
  · intro s hs t ht hid
    rcases mem_insert ht with hold | rfl
    · obtain ⟨before, hbefore, hsame, -, hspent⟩ := hrow t hold
      exact hspent (h.spent s hs before hbefore (hsame.trans hid))
    obtain ⟨issued, hissued, hsame, -⟩ := h.fixed s hs
    exact absurd (mem_map.mpr ⟨issued, hissued, hsame.trans hid.symm⟩) hfresh
  intro s hs
  obtain ⟨issued, hissued, hfixed⟩ := h.fixed s hs
  exact ⟨issued, mem_insert_of_mem hissued, hfixed⟩

theorem Effect.sound {request : Request} (heffect : Effect user fresh d request d') (h : Sound d) :
    Sound d' := by
  cases heffect with
  | stored key now workspace after hstored => exact h.stored hstored
  | redeemed ticket now hmem hkey hopen hlive => exact h.redeemed hmem hopen hlive
  | _ => exact ⟨h.issued, h.once, h.spent, h.fixed⟩

/-- A rotation takes an active key, and a creation that inserts still finds room. -/
def Orderly (s : State Data Request) : Action Request ℕ Change → Prop
  | .advance id _ =>
    match s.calls id with
    | some (.rotate key) => ∀ k ∈ s.data.keys.rows, k.id = key → k.active = true
    | some (.insert ..) => activeKeyCount s.data < maxActiveKeys
    | _ => True
  | _ => True

/-- What a statement keeps and the world does not touch holds in every run. -/
theorem holds_data {allowed : State Data Request → Action Request ℕ Change → Prop}
    (invariant : Data → Prop) {s : State Data Request}
    (hinitial : ∀ d, (keyService user).initial d → invariant d)
    (hworld : ∀ d now userActive member, invariant d → invariant { d with now, userActive, member })
    (hrun : ∀ s id fresh request d, allowed s (.advance id fresh) → invariant s.data →
      s.calls id = some request → Effect user fresh s.data request d → invariant d)
    (hs : (keyService user).machine.ReachableBy allowed s) : invariant s.data := by
  suffices hholds : Service.Holds invariant (fun _ _ _ => True) s from hholds.data
  apply Service.holds_of_reachable hinitial _ _ _ hs
  · exact fun _ _ _ _ _ _ => trivial
  · intro before id request fresh d next hallowed hbefore hcall hnext
    exact ⟨hrun before id fresh request d hallowed hbefore.data hcall (run_effect hnext),
      fun _ _ => trivial, fun _ _ _ _ => trivial⟩
  intro before change d _ hbefore hnext
  cases hnext
  exact ⟨hworld _ _ _ _ hbefore.data, fun _ _ _ => trivial⟩

end ImApp.ApiKeys
