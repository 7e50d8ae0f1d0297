import ImApp.Library.StepSystem

/-!
Requests that a service works on at the same time. Each of them runs its statements on
the common data one by one, in any order with the statements of the others, and between
two of its own it remembers only what it has read. The rule below is the usual one for
such programs: a request keeps its own claim by its own statements, and no statement of
another request or of the world breaks it.
-/

namespace InterleavedCalls

open StepSystem Option

variable {δ κ χ ε : Type*}

/-- The data and the requests in progress, each where it stands. -/
structure State (δ κ : Type*) where
  data : δ
  calls : ℕ → Option κ

inductive Action (κ χ ε : Type*)
  | start (id : ℕ) (call : κ)
  | advance (id : ℕ) (choice : χ)
  | world (event : ε)

/-- What a service does. The choice of a statement stands for what its answer depends on
beside the data; no result means that the statement waits. -/
structure Service (δ κ χ ε : Type*) where
  initial : δ → Prop
  opens : κ → Bool
  advance : ℕ → δ → κ → χ → Option (δ × Option κ)
  world : δ → ε → Option δ

def setCall (calls : ℕ → Option κ) (id : ℕ) (call : Option κ) : ℕ → Option κ :=
  Function.update calls id call

@[simp] theorem setCall_self (calls : ℕ → Option κ) (id : ℕ) (call : Option κ) :
    setCall calls id call id = call := Function.update_self ..

@[simp] theorem setCall_of_ne {calls : ℕ → Option κ} {id other : ℕ} (call : Option κ)
    (h : other ≠ id) : setCall calls id call other = calls other := Function.update_of_ne h ..

theorem setCall_some {calls : ℕ → Option κ} {id other : ℕ} {call : Option κ} {current : κ}
    (h : setCall calls id call other = some current) :
    (other = id ∧ call = some current) ∨ (other ≠ id ∧ calls other = some current) := by
  by_cases hid : other = id
  · subst hid
    rw [setCall_self] at h
    exact .inl ⟨rfl, h⟩
  rw [setCall_of_ne call hid] at h
  exact .inr ⟨hid, h⟩

/-- Some request stands where `p` says. -/
def State.InProgress (s : State δ κ) (p : κ → Prop) : Prop :=
  ∃ id call, s.calls id = some call ∧ p call

theorem State.InProgress.kept {s : State δ κ} {p : κ → Prop} (h : s.InProgress p) {id : ℕ}
    (hcall : ∀ call, s.calls id = some call → ¬ p call) (data : δ) (next : Option κ) :
    State.InProgress ⟨data, setCall s.calls id next⟩ p := by
  obtain ⟨other, call, hother, hp⟩ := h
  have hne : other ≠ id := by
    intro hsame
    subst hsame
    exact hcall call hother hp
  exact ⟨other, call, (setCall_of_ne next hne).trans hother, hp⟩

theorem inProgress_of_setCall {s : State δ κ} {p : κ → Prop} {id : ℕ} {data : δ} {next : Option κ}
    (h : State.InProgress ⟨data, setCall s.calls id next⟩ p) :
    (∃ call, next = some call ∧ p call) ∨ s.InProgress p := by
  obtain ⟨other, call, hother, hp⟩ := h
  rcases setCall_some hother with ⟨-, hnext⟩ | ⟨-, hkept⟩
  · exact .inl ⟨call, hnext, hp⟩
  exact .inr ⟨other, call, hkept, hp⟩

namespace Service

variable (service : Service δ κ χ ε)

def step (s : State δ κ) : Action κ χ ε → Option (State δ κ)
  | .start id call => if (s.calls id).isNone && service.opens call then
      some { s with calls := setCall s.calls id (some call) }
    else none
  | .advance id choice =>
    match s.calls id with
    | none => none
    | some call =>
      match service.advance id s.data call choice with
      | none => none
      | some (data, next) => some ⟨data, setCall s.calls id next⟩
  | .world event => (service.world s.data event).map fun data : δ => ⟨data, s.calls⟩

def machine : Machine (State δ κ) (Action κ χ ε) where
  initial := fun s => service.initial s.data ∧ ∀ id, s.calls id = none
  step := service.step

variable {service} {s t : State δ κ}

theorem start_some {id : ℕ} {call : κ} (h : service.machine.step s (.start id call) = some t) :
    s.calls id = none ∧ service.opens call = true ∧ t = ⟨s.data, setCall s.calls id (some call)⟩ := by
  change (if (s.calls id).isNone && service.opens call then
    some { s with calls := setCall s.calls id (some call) } else none) = some t at h
  split at h
  · rename_i hfree
    obtain ⟨hnone, hopens⟩ := Bool.and_eq_true_iff.mp hfree
    exact ⟨Option.isNone_iff_eq_none.mp hnone, hopens, (some.inj h).symm⟩
  cases h

theorem start_of {id : ℕ} {call : κ} (hfree : s.calls id = none) (hopens : service.opens call = true) :
    service.machine.step s (.start id call) = some ⟨s.data, setCall s.calls id (some call)⟩ := by
  change (if (s.calls id).isNone && service.opens call then
    some { s with calls := setCall s.calls id (some call) } else none) = _
  rw [hfree, hopens]
  rfl

theorem advance_of {id : ℕ} {choice : χ} {call : κ} {data : δ} {next : Option κ}
    (hcall : s.calls id = some call) (h : service.advance id s.data call choice = some (data, next)) :
    service.machine.step s (.advance id choice) = some ⟨data, setCall s.calls id next⟩ := by
  simp only [machine, step, hcall, h]

theorem advance_some {id : ℕ} {choice : χ} (h : service.machine.step s (.advance id choice) = some t) :
    ∃ call data next, s.calls id = some call ∧
      service.advance id s.data call choice = some (data, next) ∧
        t = ⟨data, setCall s.calls id next⟩ := by
  simp only [machine, step] at h
  split at h
  · cases h
  rename_i call hcall
  split at h
  · cases h
  rename_i data next hadv
  exact ⟨call, data, next, hcall, hadv, (some.inj h).symm⟩

theorem world_some {event : ε} (h : service.machine.step s (.world event) = some t) :
    ∃ data, service.world s.data event = some data ∧ t = ⟨data, s.calls⟩ := by
  obtain ⟨data, hdata, hstep⟩ := Option.map_eq_some_iff.mp h
  exact ⟨data, hdata, hstep.symm⟩

/-- An invariant of the data, and what each request may rely on where it stands. -/
structure Holds (invariant : δ → Prop) (claim : δ → ℕ → κ → Prop) (s : State δ κ) : Prop where
  data : invariant s.data
  calls : ∀ id call, s.calls id = some call → claim s.data id call

variable {invariant : δ → Prop} {claim : δ → ℕ → κ → Prop}
  {allowed : State δ κ → Action κ χ ε → Prop}

theorem holds_of_reachable (hinitial : ∀ d, service.initial d → invariant d)
    (hstart : ∀ s id call, allowed s (.start id call) → Holds invariant claim s →
      service.opens call = true → claim s.data id call)
    (hadv : ∀ s id call choice d next, allowed s (.advance id choice) → Holds invariant claim s →
      s.calls id = some call → service.advance id s.data call choice = some (d, next) →
        invariant d ∧ (∀ current, next = some current → claim d id current) ∧
          ∀ other current, other ≠ id → s.calls other = some current → claim d other current)
    (hworld : ∀ s event d, allowed s (.world event) → Holds invariant claim s →
      service.world s.data event = some d →
        invariant d ∧ ∀ id call, s.calls id = some call → claim d id call)
    (hs : service.machine.ReachableBy allowed s) : Holds invariant claim s := by
  apply hs.invariant (Holds invariant claim)
  · rintro start ⟨hdata, hnone⟩
    refine ⟨hinitial start.data hdata, ?_⟩
    intro id call hcall
    rw [hnone id] at hcall
    cases hcall
  intro before action after hallow hpre hstep
  cases action with
  | start id call =>
    obtain ⟨-, hopens, rfl⟩ := start_some hstep
    refine ⟨hpre.data, ?_⟩
    intro other current hcur
    rcases setCall_some hcur with ⟨rfl, hsame⟩ | ⟨-, hkept⟩
    · cases hsame
      exact hstart before other _ hallow hpre hopens
    exact hpre.calls other current hkept
  | advance id choice =>
    obtain ⟨call, data, next, hcall, hnext, rfl⟩ := advance_some hstep
    obtain ⟨hdata, hown, hothers⟩ :=
      hadv before id call choice data next hallow hpre hcall hnext
    refine ⟨hdata, ?_⟩
    intro other current hcur
    rcases setCall_some hcur with ⟨rfl, hsame⟩ | ⟨hother, hkept⟩
    · exact hown current hsame
    exact hothers other current hother hkept
  | world event =>
    obtain ⟨data, hdata, rfl⟩ := world_some hstep
    obtain ⟨hkept, hcalls⟩ := hworld before event data hallow hpre hdata
    exact ⟨hkept, hcalls⟩

theorem relates_of_path (relation : δ → δ → Prop) (hrefl : ∀ d, relation d d)
    (htrans : ∀ a b c, relation a b → relation b c → relation a c)
    {holds : State δ κ → Prop} (hholds : ∀ s, service.machine.ReachableBy allowed s → holds s)
    (hadv : ∀ s id call choice d next, allowed s (.advance id choice) → holds s →
      s.calls id = some call → service.advance id s.data call choice = some (d, next) → relation s.data d)
    (hworld : ∀ s event d, allowed s (.world event) → holds s →
      service.world s.data event = some d → relation s.data d)
    (hs : service.machine.ReachableBy allowed s) (path : service.machine.Path allowed s t) :
    relation s.data t.data := by
  have hkeep : ∀ s a t, allowed s a → service.machine.ReachableBy allowed s →
      service.machine.step s a = some t → service.machine.ReachableBy allowed t :=
    fun s a t hallow hs hstep => hs.extend (Machine.Path.single hallow hstep)
  apply path.relates (service.machine.ReachableBy allowed) (fun s t => relation s.data t.data)
    (fun s => hrefl s.data) (fun s t u => htrans s.data t.data u.data) hkeep _ hs
  intro before action after hallow hpre hstep
  cases action with
  | start id call =>
    obtain ⟨-, -, rfl⟩ := start_some hstep
    exact hrefl before.data
  | advance id choice =>
    obtain ⟨call, data, next, hcall, hnext, rfl⟩ := advance_some hstep
    exact hadv before id call choice data next hallow (hholds before hpre) hcall hnext
  | world event =>
    obtain ⟨data, hdata, rfl⟩ := world_some hstep
    exact hworld before event data hallow (hholds before hpre) hdata

end Service

end InterleavedCalls
