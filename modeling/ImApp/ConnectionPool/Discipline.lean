import ImApp.ConnectionPool.Leases

/-!
The pool with its callers, in every order of their steps. A lease is the only
one of its resource, and what an invalidation selected or met unfinished is not
handed out after it.
-/

namespace ImApp.ConnectionPool

open InterleavedCalls List Function Bool Option
open StepSystem (Machine)

variable {κ : Type} {pool next : Pool κ}

structure Stands (pool : Pool κ) (id : Nat) (call : Call κ) : Prop where
  early : call.stage.isEarly = true → id ∉ pool.created
  creating : ∀ generation, call.stage = .creating generation → pool.began id = generation
  leased : ∀ n, call.stage.lease = some n →
    pool.holder n = some id ∧ (pool.objects n).key = call.key

/-- What the steps of others leave to a call. -/
structure Undisturbed (pool next : Pool κ) (id : Nat) : Prop where
  created : id ∈ next.created → id ∈ pool.created
  began : next.began id = pool.began id
  held : ∀ n, pool.holder n = some id →
    next.holder n = some id ∧ (next.objects n).key = (pool.objects n).key

variable {id n : Nat} {call : Call κ}

theorem Stands.kept (h : Stands pool id call)
    (hkept : Undisturbed pool next id) : Stands next id call := by
  refine ⟨fun hearly hcreated => h.early hearly (hkept.created hcreated), ?_, ?_⟩
  · intro generation hstage
    rw [hkept.began]
    exact h.creating generation hstage
  intro n hlease
  obtain ⟨hholder, hkey⟩ := h.leased n hlease
  obtain ⟨hholder', hkey'⟩ := hkept.held n hholder
  exact ⟨hholder', hkey'.trans hkey⟩

/-- A change that leaves the calls' fields as they are. -/
structure Aside (pool next : Pool κ) : Prop where
  created : next.created = pool.created
  began : next.began = pool.began
  holder : next.holder = pool.holder
  key : ∀ n, (next.objects n).key = (pool.objects n).key

theorem Aside.undisturbed (h : Aside pool next) (id : Nat) : Undisturbed pool next id := by
  refine ⟨fun hcreated => h.created ▸ hcreated, by rw [h.began], ?_⟩
  intro n hholder
  rw [h.holder]
  exact ⟨hholder, h.key n⟩

theorem Aside.trans {last : Pool κ} (h : Aside pool next) (h' : Aside next last) :
    Aside pool last :=
  ⟨h'.created.trans h.created, h'.began.trans h.began, h'.holder.trans h.holder,
    fun n => (h'.key n).trans (h.key n)⟩

theorem aside_remove (pool : Pool κ) (n : Nat) : Aside pool (pool.remove n) := by
  unfold Pool.remove
  split <;> exact ⟨rfl, rfl, rfl, fun _ => rfl⟩

theorem aside_removeAll (pool : Pool κ) (ns : List Nat) : Aside pool (pool.removeAll ns) := by
  induction ns generalizing pool with
  | nil => exact ⟨rfl, rfl, rfl, fun _ => rfl⟩
  | cons n rest ih => exact (aside_remove pool n).trans (ih (pool.remove n))

theorem aside_invalidate (pool : Pool κ) (choose : Option (κ → Nat → Bool)) :
    Aside pool (pool.invalidate choose) := by
  have hmark : Aside pool (pool.mark choose) := by
    refine ⟨rfl, rfl, rfl, ?_⟩
    intro n
    change (if n ∈ pool.selected choose then _ else pool.objects n).key = _
    split <;> rfl
  exact hmark.trans (aside_removeAll _ _)

variable [DecidableEq κ] {options : Options} {s t : State (Pool κ) (Call κ)}

theorem release_eq (options : Options) (pool : Pool κ) (key : κ) (n : Nat) (discard : Bool) (now : Int) (usable : Nat → Bool) :
    ∃ invalid ns, pool.release options key n discard now usable =
      (pool.giveBack n invalid now).removeAll ns := by
  cases hinvalid : (pool.objects n).invalid || discard || !usable n with
  | true =>
    refine ⟨true, [n], ?_⟩
    simp only [Pool.release, hinvalid, if_true]
    rfl
  | false =>
    refine ⟨false, ((pool.giveBack n false now).idleForKey key).drop options.maxIdle, ?_⟩
    simp only [Pool.release, hinvalid, false_eq_true, if_false]

theorem release_created (options : Options) (pool : Pool κ) (key : κ) (n : Nat) (discard : Bool) (now : Int) (usable : Nat → Bool) :
    (pool.release options key n discard now usable).created = pool.created := by
  obtain ⟨invalid, ns, hrelease⟩ := release_eq options pool key n discard now usable
  rw [hrelease]
  exact (aside_removeAll _ ns).created

theorem undisturbed_release (options : Options) {other : Nat}
    (hholder : pool.holder n = some id) (hother : other ≠ id) (key : κ) (discard : Bool) (now : Int) (usable : Nat → Bool) :
    Undisturbed pool (pool.release options key n discard now usable) other := by
  refine ⟨fun hcreated => release_created options pool key n discard now usable ▸ hcreated, ?_, ?_⟩
  · obtain ⟨invalid, ns, hrelease⟩ := release_eq options pool key n discard
      now usable
    rw [hrelease]
    exact congrFun (aside_removeAll _ ns).began other
  intro k hk
  have hkn : k ≠ n := by
    rintro rfl
    exact hother (some.inj (hk.symm.trans hholder))
  obtain ⟨invalid, ns, hrelease⟩ := release_eq options pool key n discard now usable
  have haside := aside_removeAll (pool.giveBack n invalid now) ns
  rw [hrelease, haside.holder, haside.key]
  simp [Pool.giveBack, Pool.setEntry, hkn, hk]

structure Inv (options : Options) (s : State (Pool κ) (Call κ)) : Prop where
  good : s.data.Good options
  made : ∀ n ∈ s.data.created, (s.calls n).isSome = true
  stands : ∀ id call, s.calls id = some call → Stands s.data id call

section

variable (h : Inv options s)
include h

theorem Inv.world (hgood : next.Good options) (haside : Aside s.data next) :
    Inv options ⟨next, s.calls⟩ := by
  refine ⟨hgood, ?_, ?_⟩
  · intro n hn
    exact h.made n (haside.created ▸ hn)
  intro id call hcall
  exact (h.stands id call hcall).kept (haside.undisturbed id)

theorem Inv.advance (hgood : next.Good options)
    (hmade : ∀ n ∈ next.created, n ∈ s.data.created ∨ n = id)
    (hown : Stands next id call) (hothers : ∀ other, other ≠ id → Undisturbed s.data next other) :
    Inv options ⟨next, setCall s.calls id (some call)⟩ := by
  refine ⟨hgood, ?_, ?_⟩
  · intro n hn
    change (setCall s.calls id (some call) n).isSome = true
    by_cases hid : n = id
    · rw [hid, setCall_self]
      rfl
    rw [setCall_of_ne _ hid]
    exact h.made n ((hmade n hn).resolve_right hid)
  intro other current hcur
  rcases setCall_some hcur with ⟨rfl, hsame⟩ | ⟨hother, hkept⟩
  · rw [← some.inj hsame]
    exact hown
  exact (h.stands other current hkept).kept (hothers other hother)

/-- A step of a call that leaves its fields of the pool alone and gives it a stage
without a claim. -/
theorem Inv.aside {stage : Stage}
    (hcall : s.calls id = some call) (hgood : next.Good options) (haside : Aside s.data next)
    (hearly : stage.isEarly = true → call.stage.isEarly = true)
    (hcreating : ∀ generation, stage ≠ .creating generation) (hlease : stage.lease = none) :
    Inv options ⟨next, setCall s.calls id (some { call with stage := stage })⟩ := by
  refine h.advance hgood (fun n hn => .inl (haside.created ▸ hn)) ⟨?_, ?_, ?_⟩
    (fun other _ => haside.undisturbed other)
  · intro hnow hcreated
    exact (h.stands id call hcall).early (hearly hnow) (haside.created ▸ hcreated)
  · intro generation hstage
    exact absurd hstage (hcreating generation)
  intro n hn
  rw [hlease] at hn
  cases hn

theorem Inv.lease {usable : Nat → Bool} (hexisting : s.data.existing call.key usable = some n) :
    Inv options ⟨s.data.lease n id, setCall s.calls id (some { call with stage := .leased n true })⟩ := by
  obtain ⟨hentry, hidle⟩ := Pool.existing_some hexisting
  simp only [Pool.isIdle, and_eq_true, decide_eq_true_eq, not_eq_true'] at hidle
  have hfree := h.good.sound.free hentry hidle.2
  refine h.advance (h.good.lease hentry id) (fun k hk => .inl hk) ⟨?_, ?_, ?_⟩ ?_
  · intro hearly
    cases hearly
  · intro generation hstage
    cases hstage
  · intro k hk
    obtain rfl : n = k := some.inj hk
    simp [Pool.lease, Pool.setEntry, hidle.1]
  intro other _
  refine ⟨fun hcreated => hcreated, rfl, ?_⟩
  intro k hk
  have hkn : k ≠ n := by
    rintro rfl
    rw [hfree] at hk
    cases hk
  simp [Pool.lease, Pool.setEntry, hkn, hk]

section

variable (hcall : s.calls id = some call)
include hcall

theorem Inv.begin (hearly : call.stage.isEarly = true) :
    Inv options ⟨{ s.data with began := Function.update s.data.began id s.data.generation },
      setCall s.calls id (some { call with stage := .creating s.data.generation })⟩ := by
  have hfresh := (h.stands id call hcall).early hearly
  refine h.advance (h.good.begin hfresh _) (fun k hk => .inl hk) ⟨fun _ => hfresh, ?_, ?_⟩ ?_
  · intro generation hstage
    obtain rfl : s.data.generation = generation := Stage.creating.inj hstage
    exact update_self _ _ _
  · intro n hn
    cases hn
  intro other hother
  exact ⟨fun hcreated => hcreated, update_of_ne hother _ _, fun n hn => ⟨hn, rfl⟩⟩

theorem Inv.create (hstage : call.stage = .creating s.data.generation) (now : Int) :
    Inv options ⟨(({ s.data with created := s.data.created ++ [id] } : Pool κ).create id
        call.key now).lease id id,
      setCall s.calls id (some { call with stage := .leased id false })⟩ := by
  have hstands := h.stands id call hcall
  have hfresh := hstands.early (by rw [hstage]; rfl)
  have hbegan := hstands.creating _ hstage
  refine h.advance (h.good.create hfresh hbegan call.key now) ?_ ⟨?_, ?_, ?_⟩ ?_
  · intro n hn
    exact (mem_append.mp hn).imp_right mem_singleton.mp
  · intro hearly
    cases hearly
  · intro generation hcreating
    cases hcreating
  · intro n hn
    obtain rfl : id = n := some.inj hn
    simp [Pool.lease, Pool.create, Pool.setEntry]
  intro other hother
  refine ⟨?_, rfl, ?_⟩
  · intro hn
    exact (mem_append.mp hn).resolve_right fun hid => hother (mem_singleton.mp hid)
  intro n hn
  have hid : n ≠ id := by
    rintro rfl
    exact hfresh (h.good.sound.held n (by rw [hn]; rfl))
  simp [Pool.lease, Pool.create, Pool.setEntry, hid, hn]

theorem Inv.disposeLate {generation : Nat} (hstage : call.stage = .creating generation) :
    Inv options ⟨({ s.data with created := s.data.created ++ [id] } : Pool κ).disposeLate id,
      setCall s.calls id (some { call with stage := .disposing })⟩ := by
  have hfresh := (h.stands id call hcall).early (by rw [hstage]; rfl)
  refine h.advance (h.good.disposeLate hfresh) ?_ ⟨?_, ?_, ?_⟩ ?_
  · intro n hn
    exact (mem_append.mp hn).imp_right mem_singleton.mp
  · intro hearly
    cases hearly
  · intro generation hcreating
    cases hcreating
  · intro n hn
    cases hn
  intro other hother
  refine ⟨?_, rfl, fun n hn => ⟨hn, rfl⟩⟩
  intro hn
  exact (mem_append.mp hn).resolve_right fun hid => hother (mem_singleton.mp hid)

theorem Inv.release {reused : Bool} (hstage : call.stage = .leased n reused) (discard : Bool)
    (now : Int) (usable : Nat → Bool) :
    Inv options ⟨s.data.release options call.key n discard now usable,
      setCall s.calls id (some { call with stage := .released })⟩ := by
  obtain ⟨hholder, hkey⟩ := (h.stands id call hcall).leased n (by rw [hstage]; rfl)
  refine h.advance (h.good.release hkey discard now usable) ?_ ⟨?_, ?_, ?_⟩
    fun other hother => undisturbed_release options hholder hother call.key discard now usable
  · intro k hk
    rw [release_created] at hk
    exact .inl hk
  · intro hearly
    cases hearly
  · intro generation hcreating
    cases hcreating
  intro k hk
  cases hk

end

theorem Inv.start (hfree : s.calls id = none)
    (hstage : call.stage = .asked) : Inv options ⟨s.data, setCall s.calls id (some call)⟩ := by
  refine h.advance h.good (fun n hn => .inl hn) ⟨?_, ?_, ?_⟩
    fun other _ => ⟨fun hcreated => hcreated, rfl, fun n hn => ⟨hn, rfl⟩⟩
  · intro _ hcreated
    have hmade := h.made id hcreated
    rw [hfree] at hmade
    cases hmade
  · intro generation hcreating
    rw [hstage] at hcreating
    cases hcreating
  intro n hn
  rw [hstage] at hn
  cases hn

theorem Inv.advance_step {choice : Choice}
    {next : Pool κ} {call' : Option (Call κ)} (hcall : s.calls id = some call)
    (hstep : ConnectionPool.advance options id s.data call choice = some (next, call')) :
    Inv options ⟨next, setCall s.calls id call'⟩ := by
  cases choice with
  | cleanup now usable =>
    cases hstage : call.stage with
    | asked =>
      simp only [ConnectionPool.advance, hstage, some.injEq, Prod.mk.injEq] at hstep
      obtain ⟨rfl, rfl⟩ := hstep
      refine h.aside hcall (h.good.cleanup now usable) (aside_removeAll _ _) ?_ ?_ rfl
      · rw [hstage]
        exact fun hearly => hearly
      intro generation hcreating
      cases hcreating
    | _ => simp [ConnectionPool.advance, hstage] at hstep
  | pick usable =>
    cases hstage : call.stage with
    | cleaning waits =>
      simp only [ConnectionPool.advance, hstage] at hstep
      split at hstep
      · cases hstep
      split at hstep
      · rename_i n hexisting
        simp only [some.injEq, Prod.mk.injEq] at hstep
        obtain ⟨rfl, rfl⟩ := hstep
        exact h.lease hexisting
      simp only [some.injEq, Prod.mk.injEq] at hstep
      obtain ⟨rfl, rfl⟩ := hstep
      exact h.begin hcall (by rw [hstage]; rfl)
    | _ => simp [ConnectionPool.advance, hstage] at hstep
  | created now =>
    cases hstage : call.stage with
    | creating generation =>
      simp only [ConnectionPool.advance, hstage] at hstep
      split at hstep
      case isTrue hlate =>
        simp only [some.injEq, Prod.mk.injEq] at hstep
        obtain ⟨rfl, rfl⟩ := hstep
        exact h.disposeLate hcall hstage
      case isFalse hsame =>
        obtain rfl : generation = s.data.generation := not_not.mp hsame
        simp only [some.injEq, Prod.mk.injEq] at hstep
        obtain ⟨rfl, rfl⟩ := hstep
        exact h.create hcall hstage now
    | _ => simp [ConnectionPool.advance, hstage] at hstep
  | threw error =>
    cases hstage : call.stage with
    | creating generation =>
      simp only [ConnectionPool.advance, hstage, some.injEq, Prod.mk.injEq] at hstep
      obtain ⟨rfl, rfl⟩ := hstep
      refine h.aside hcall h.good ⟨rfl, rfl, rfl, fun _ => rfl⟩ ?_ ?_ rfl
      · intro hearly
        cases hearly
      intro generation hcreating
      cases hcreating
    | _ => simp [ConnectionPool.advance, hstage] at hstep
  | disposed =>
    cases hstage : call.stage with
    | disposing =>
      simp only [ConnectionPool.advance, hstage] at hstep
      split at hstep
      · cases hstep
      simp only [some.injEq, Prod.mk.injEq] at hstep
      obtain ⟨rfl, rfl⟩ := hstep
      refine h.aside hcall h.good ⟨rfl, rfl, rfl, fun _ => rfl⟩ ?_ ?_ rfl
      · intro hearly
        cases hearly
      intro generation hcreating
      cases hcreating
    | _ => simp [ConnectionPool.advance, hstage] at hstep
  | release discard now usable =>
    cases hstage : call.stage with
    | leased n reused =>
      simp only [ConnectionPool.advance, hstage, some.injEq, Prod.mk.injEq] at hstep
      obtain ⟨rfl, rfl⟩ := hstep
      exact h.release hcall hstage discard now usable
    | released =>
      simp only [ConnectionPool.advance, hstage, some.injEq, Prod.mk.injEq] at hstep
      obtain ⟨rfl, rfl⟩ := hstep
      refine h.advance h.good (fun n hn => .inl hn) (h.stands id call hcall)
        fun other _ => ⟨fun hcreated => hcreated, rfl, fun n hn => ⟨hn, rfl⟩⟩
    | _ => simp [ConnectionPool.advance, hstage] at hstep

theorem Inv.world_step {event : Event κ} {next : Pool κ}
    (hstep : ConnectionPool.world options s.data event = some next) : Inv options ⟨next, s.calls⟩ := by
  cases event with
  | invalidate choose =>
    cases hstep
    exact h.world (h.good.invalidate choose) (aside_invalidate _ choose)
  | close =>
    cases hstep
    have hgood : ({ s.data with timer := false } : Pool κ).Good options :=
      ⟨{ h.good.sound with }, h.good.valid, h.good.capped⟩
    have haside : Aside s.data ({ s.data with timer := false } : Pool κ) :=
      ⟨rfl, rfl, rfl, fun _ => rfl⟩
    exact h.world (hgood.invalidate none) (haside.trans (aside_invalidate _ none))
  | cleanup now usable =>
    simp only [ConnectionPool.world] at hstep
    split at hstep
    · cases hstep
      exact h.world (h.good.cleanup now usable) (aside_removeAll _ _)
    cases hstep
  | settle n =>
    simp only [ConnectionPool.world] at hstep
    split at hstep
    · cases hstep
      exact h.world ⟨{ h.good.sound with }, h.good.valid, h.good.capped⟩
        ⟨rfl, rfl, rfl, fun _ => rfl⟩
    cases hstep

end

theorem inv_initial (hs : (idleResourcePool options).machine.initial s) : Inv options s := by
  obtain ⟨hnew, hnone⟩ := hs
  have hentries : s.data.entries = [] := Pool.IsNew.entries hnew
  have hcreated : s.data.created = [] := Pool.IsNew.created hnew
  have hdisposed : s.data.disposed = [] := Pool.IsNew.disposed hnew
  refine ⟨⟨?_, ?_, ?_⟩, ?_, ?_⟩
  · constructor
    · simp [hentries]
    · simp [hdisposed]
    · simp [hentries]
    · simp [hentries, hcreated, hdisposed]
    · simp [hentries]
    · simp [Pool.IsNew.generation hnew, Pool.IsNew.invalidations hnew]
    · simp [hentries]
    · simp [Pool.IsNew.handed hnew]
    · simp [Pool.IsNew.holder hnew]
    simp [hdisposed]
  · simp [Pool.Valid, hentries]
  · intro key
    simp [Pool.idle, hentries]
  · simp [hcreated]
  intro id call hcall
  rw [hnone id] at hcall
  cases hcall

theorem inv_reachable (hs : (idleResourcePool options).machine.Reachable s) : Inv options s := by
  apply hs.invariant (Inv options)
  · exact fun _ => inv_initial
  intro s action t _ h hstep
  cases action with
  | start id call =>
    obtain ⟨hfree, hopens, rfl⟩ := Service.start_some hstep
    apply h.start hfree
    cases hstage : call.stage with
    | asked => rfl
    | _ => simp [idleResourcePool, hstage] at hopens
  | advance id choice =>
    obtain ⟨call, data, next, hcall, hadv, rfl⟩ := Service.advance_some hstep
    exact h.advance_step hcall hadv
  | world event =>
    obtain ⟨data, hdata, rfl⟩ := Service.world_some hstep
    exact h.world_step hdata

/-- In every order of the steps: a resource has one unreleased lease at most; it is
disposed of at most once, and while leased only when an invalidation selected it;
an invalidation between the beginning of its creation and a hand-out met it pooled
and left it out; the idle resources of a key are within the limit; and every
resource is pooled or disposed of. -/
theorem pool_discipline (hs : (idleResourcePool options).machine.Reachable s) :
    (∀ a b call call' n, s.calls a = some call → s.calls b = some call' →
      call.stage.lease = some n → call'.stage.lease = some n → a = b) ∧ s.data.disposed.Nodup ∧
    (∀ id call n, s.calls id = some call → call.stage.lease = some n → n ∈ s.data.disposed →
      ∃ record ∈ s.data.invalidations, n ∈ record.selected) ∧
    (∀ handout ∈ s.data.handed, ∀ i, s.data.began handout.resource ≤ i →
      i < handout.generation → ∃ record, s.data.invalidations[i]? = some record ∧
        record.matched = true ∧ handout.resource ∈ record.pooled ∧
        handout.resource ∉ record.selected) ∧ (∀ key, (s.data.idle key).length ≤ options.maxIdle) ∧
    ∀ n ∈ s.data.created, n ∈ s.data.entries ∨ n ∈ s.data.disposed := by
  have h := inv_reachable hs
  have hholder : ∀ id call n, s.calls id = some call → call.stage.lease = some n →
      s.data.holder n = some id :=
    fun id call n hcall hlease => ((h.stands id call hcall).leased n hlease).1
  refine ⟨?_, h.good.sound.once, ?_, ?_, h.good.capped, ?_⟩
  · intro a b call call' n ha hb hlease hlease'
    exact some.inj ((hholder a call n ha hlease).symm.trans (hholder b call' n hb hlease'))
  · intro id call n hcall hlease hdisposed
    apply h.good.sound.taken n hdisposed
    rw [hholder id call n hcall hlease]
    rfl
  · intro handout hmem
    exact (h.good.sound.handed handout hmem).2.2
  intro n hn
  exact (h.good.sound.accounted n).mp hn

/-- A new pool of connections to hosts with numbers. -/
def fresh : State (Pool Nat) (Call Nat) where
  data := ⟨[], fun _ => ⟨0, false, false, 0⟩, 0, true, [], [], [], fun _ => 0, fun _ => none, [], []⟩
  calls _ := none

def defaults : Options := ⟨none, none⟩

theorem fresh_initial : (idleResourcePool defaults).machine.initial fresh :=
  ⟨⟨rfl, rfl, rfl, rfl, rfl, rfl, fun _ => rfl, rfl, rfl⟩, fun _ => rfl⟩

/-- An acquire that finds nothing idle, up to the answer of `create`. -/
def creating (id key : Nat) : List (Action (Call Nat) Choice (Event Nat)) :=
  [.start id ⟨key, .asked⟩, .advance id (.cleanup 0 fun _ => true),
    .advance id (.pick fun _ => true)]

/-- Host 7 gets a connection and gives it back; the connections of host 8 are
invalidated; host 7 gets its connection again. -/
def reusing : List (Action (Call Nat) Choice (Event Nat)) :=
  creating 1 7 ++ [.advance 1 (.created 0), .advance 1 (.release false 5 fun _ => true),
    .world (.invalidate (some fun key _ => key = 8))] ++ creating 2 7

/-- A connection whose creation began before an invalidation of another host's is
handed out after it. -/
theorem handed_out_after_invalidation : ∃ s : State (Pool Nat) (Call Nat),
    (idleResourcePool defaults).machine.Reachable s ∧ ∃ handout ∈ s.data.handed,
      s.data.began handout.resource < handout.generation := by
  have hrun : ((idleResourcePool defaults).machine.execute fresh reusing).any
      (fun s => s.data.handed.any fun handout =>
        s.data.began handout.resource < handout.generation) = true := by
    decide +kernel
  obtain ⟨s, hs, hchecked⟩ := (any_eq_true _ _).mp hrun
  obtain ⟨handout, hmem, hlt⟩ := any_eq_true.mp hchecked
  exact ⟨s, Machine.reachable_of_execute fresh_initial hs, handout, hmem, of_decide_eq_true hlt⟩

/-- A creation that an invalidation overtakes: its connection is disposed of. -/
theorem pool_discipline_overtaken : ∃ s : State (Pool Nat) (Call Nat),
    s.data.created = [1] ∧ s.data.entries = [] ∧ 1 ∈ s.data.disposed := by
  have hrun : ((idleResourcePool defaults).machine.execute fresh
      (creating 1 7 ++ [.world .close, .advance 1 (.created 0)])).any
      (fun s => s.data.created = [1] && s.data.entries.isEmpty) = true := by
    decide +kernel
  obtain ⟨s, hs, hchecked⟩ := (any_eq_true _ _).mp hrun
  simp only [and_eq_true, decide_eq_true_eq, List.isEmpty_iff] at hchecked
  obtain ⟨hcreated, hentries⟩ := hchecked
  have hall := pool_discipline (Machine.reachable_of_execute fresh_initial hs)
  have hkept := hall.2.2.2.2.2 1 (by simp [hcreated])
  rw [hentries] at hkept
  exact ⟨s, hcreated, hentries, hkept.resolve_left (by simp)⟩

end ImApp.ConnectionPool
