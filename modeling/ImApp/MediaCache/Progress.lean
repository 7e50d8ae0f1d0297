import ImApp.MediaCache.Answers

/-!
Each callback is called once. That none is called twice or lost holds in every
state; that each is called in the end holds in every run in which the downloads
end, the index is read, and no more requests come.
-/

namespace ImApp.MediaCache

open List Cache
open JsonText (Text)
open PreviewCache (Platform)
open StepSystem (Machine)

variable {device : Device} {c d : Cache}

def Action.isRequest : Action → Bool
  | .request _ _ _ => true
  | _ => false

namespace Cache

theorem Inv.downloads_length {limit : Nat} (h : c.Inv limit []) : c.downloads.length ≤ limit := by
  have heq : c.inflight = (c.downloads.map Download.key).toFinset := by
    ext key
    rw [mem_toFinset]
    exact h.queues.inflight key
  calc c.downloads.length = (c.downloads.map Download.key).length := by rw [length_map]
    _ = c.inflight.card := by rw [heq, toFinset_card_of_nodup h.queues.single]
    _ ≤ limit := h.slots

theorem Inv.background_length {limit : Nat} (h : c.Inv limit []) :
    (c.downloads.filter Download.background).length ≤ backgroundSlots := by
  have hnodup : ((c.downloads.filter Download.background).map Download.key).Nodup :=
    h.queues.single.sublist (filter_sublist.map _)
  have heq : c.backgroundInflight =
      ((c.downloads.filter Download.background).map Download.key).toFinset := by
    ext key
    rw [mem_toFinset, h.queues.background]
    simp only [mem_map, mem_filter]
    constructor
    · rintro ⟨download, hmem, hkey, hback⟩
      exact ⟨download, ⟨hmem, hback⟩, hkey⟩
    rintro ⟨download, ⟨hmem, hback⟩, hkey⟩
    exact ⟨download, hmem, hkey, hback⟩
  calc (c.downloads.filter Download.background).length
      = ((c.downloads.filter Download.background).map Download.key).length := by
        rw [length_map]
    _ = c.backgroundInflight.card := by rw [heq, toFinset_card_of_nodup hnodup]
    _ ≤ backgroundSlots := h.background

theorem Inv.inflight_empty {limit : Nat} (h : c.Inv limit []) (hidle : c.downloads = []) :
    c.inflight = ∅ := by
  apply Finset.eq_empty_of_forall_notMem
  intro key hkey
  have hmem := (h.queues.inflight key).mp hkey
  rw [hidle] at hmem
  cases hmem

/-- Somebody will come back to the callback: the request goes on when the index is
read, its key is queued behind the downloads in progress, or it is being downloaded. -/
def Awaits (c : Cache) (callback : Nat) : Prop :=
  ∃ key list, c.listeners key = some list ∧ callback ∈ list ∧
    (key ∈ c.continuations.map Continuation.key ∨ (c.isQueued key ∧ c.downloads ≠ []) ∨
      key ∈ c.downloads.map Download.key)

theorem Between.answered_or_awaits (h : c.Between device) {callback : Nat}
    (hcb : callback < c.accepted) : c.answered.count callback = 1 ∧ ¬c.Awaits callback ∨
      c.answered.count callback = 0 ∧ c.Awaits callback := by
  rcases h.inv.listening.kept callback hcb with hans | ⟨key, list, hlist, hmem⟩
  · refine .inl ⟨count_eq_one_of_mem h.inv.listening.once hans, ?_⟩
    rintro ⟨key, list, hlist, hmem, -⟩
    exact ((h.inv.listening.waits key list hlist).2 callback hmem).2 hans
  refine .inr ⟨count_eq_zero_of_not_mem
    ((h.inv.listening.waits key list hlist).2 callback hmem).2, key, list, hlist, hmem, ?_⟩
  rcases h.inv.caused key (by rw [hlist]; rfl) with hextra | hcont | hqueued | hinflight
  · cases hextra
  · exact .inl hcont
  · refine .inr (.inl ⟨hqueued, ?_⟩)
    intro hidle
    obtain ⟨horder, hbacklog⟩ := h.settled (h.inv.inflight_empty hidle)
    rcases hqueued with hkey | hkey
    · rw [horder] at hkey
      cases hkey
    rw [hbacklog] at hkey
    cases hkey
  exact .inr (.inr ((h.inv.queues.inflight key).mp hinflight))

theorem Between.all_answered (h : c.Between device) (hconts : c.continuations = [])
    (hidle : c.downloads = []) {callback : Nat} (hcb : callback < c.accepted) :
    c.answered.count callback = 1 := by
  rcases h.answered_or_awaits hcb with ⟨hone, -⟩ | ⟨-, key, list, -, -, hcause⟩
  · exact hone
  rw [hconts, hidle] at hcause
  rcases hcause with hkey | ⟨-, hne⟩ | hkey
  · cases hkey
  · exact absurd rfl hne
  cases hkey

theorem accepted_request (c : Cache) (url : Text) (background : Bool) (now : Int) :
    (c.requestMediaCache device url background now).1.accepted =
      c.accepted + if (c.requestMediaCache device url background now).2 then 1 else 0 := by
  unfold requestMediaCache
  split
  · rfl
  simp only []
  split
  · rfl
  split
  · split <;> rfl
  rfl

/-- What a step that is no request does to the work left. -/
structure Lessens (c d : Cache) : Prop where
  weight : d.weight ≤ c.weight
  accepted : d.accepted = c.accepted

theorem lessens_step {action : Action} (h : c.Between device)
    (hstep : step device c action = some d) (hreq : action.isRequest = false) :
    Lessens c d := by
  cases action with
  | request url background now => cases hreq
  | warm =>
    cases hstep
    split <;> exact ⟨le_rfl, rfl⟩
  | forget url =>
    cases hstep
    unfold forgetMediaCache
    simp only []
    split <;> exact ⟨le_rfl, rfl⟩
  | reset =>
    cases hstep
    exact ⟨h.reset.2.weight, h.reset.2.accepted⟩
  | loaded items | removed rel =>
    simp only [step] at hstep
    split at hstep
    · cases hstep
      exact ⟨le_rfl, rfl⟩
    cases hstep
  | proceed continuation =>
    simp only [step] at hstep
    split at hstep
    case isTrue hready =>
      cases hstep
      obtain ⟨-, hless, hacc⟩ := h.proceed hready.1 hready.2
      exact ⟨hless.le, hacc⟩
    case isFalse => cases hstep
  | finish download result now =>
    simp only [step] at hstep
    split at hstep
    case isTrue hmem =>
      cases hstep
      obtain ⟨-, hless, hacc, -⟩ := h.finish hmem result now
      exact ⟨hless.le, hacc⟩
    case isFalse => cases hstep

theorem weight_proceed {continuation : Continuation} (h : c.Between device)
    (hstep : step device c (.proceed continuation) = some d) : d.weight < c.weight := by
  simp only [step] at hstep
  split at hstep
  case isTrue hready =>
    cases hstep
    exact (h.proceed hready.1 hready.2).2.1
  case isFalse => cases hstep

theorem weight_finish {download : Download} {result : StoreResult} {now : Int}
    (h : c.Between device) (hstep : step device c (.finish download result now) = some d) :
    d.weight < c.weight := by
  simp only [step] at hstep
  split at hstep
  case isTrue hmem =>
    cases hstep
    exact (h.finish hmem result now).2.1
  case isFalse => cases hstep

theorem ready_loaded {items : Option (List Item)} (hstep : step device c (.loaded items) = some d) :
    d.ready = .loaded ∧ d.continuations = c.continuations := by
  simp only [step] at hstep
  split at hstep
  · cases hstep
    exact ⟨rfl, rfl⟩
  cases hstep

/-- Only a request adds to what goes on later, and only going on takes from it. -/
theorem continuations_step {action : Action} (h : c.Between device)
    (hstep : step device c action = some d) (hreq : action.isRequest = false)
    (hproceed : ∀ continuation, action ≠ .proceed continuation) :
    d.continuations = c.continuations := by
  cases action with
  | request url background now => cases hreq
  | warm =>
    cases hstep
    split <;> rfl
  | forget url =>
    cases hstep
    unfold forgetMediaCache
    simp only []
    split <;> rfl
  | reset =>
    cases hstep
    exact h.reset.2.continuations
  | loaded items => exact (ready_loaded hstep).2
  | proceed continuation => exact absurd rfl (hproceed continuation)
  | finish download result now =>
    simp only [step] at hstep
    split at hstep
    case isTrue hmem =>
      cases hstep
      exact (h.finish hmem result now).2.2.2
    case isFalse => cases hstep
  | removed rel =>
    simp only [step] at hstep
    split at hstep
    · cases hstep
      rfl
    cases hstep

end Cache

/-- Every download ends, by its deadline at the latest; the index that is being read
is read or given up; and a request goes on that can. -/
structure Fair (run : (mediaCache device).Run) : Prop where
  settles : ∀ n, ∀ download ∈ (run.state n).downloads,
    ∃ k, n ≤ k ∧ ∃ result now, run.action k = .finish download result now
  loads : ∀ n, (run.state n).ready = .loading → ∃ k, n ≤ k ∧ ∃ items, run.action k = .loaded items
  continues : ∀ n, (run.state n).ready = .loaded → ∀ continuation ∈ (run.state n).continuations,
    ∃ k, n ≤ k ∧ run.action k = .proceed continuation

variable {run : (mediaCache device).Run}

theorem between_run (run : (mediaCache device).Run) (n : ℕ) : (run.state n).Between device :=
  between_reachable (run.reachable n)

theorem eventually_quiet (hfair : Fair run) {start : ℕ}
    (hrequests : ∀ n, start ≤ n → (run.action n).isRequest = false) : ∃ N, start ≤ N ∧ ∀ n, N ≤ n →
      (run.state n).continuations = [] ∧ (run.state n).downloads = [] := by
  obtain ⟨N, hN, hconstant⟩ := Machine.eventually_constant
    (f := fun n => (run.state n).weight) start fun n hn =>
      (lessens_step (between_run run n) (run.next n) (hrequests n hn)).weight
  have hproceed : ∀ n, N ≤ n → ∀ continuation, run.action n ≠ .proceed continuation := by
    intro n hn continuation haction
    have hless := weight_proceed (between_run run n) (haction ▸ run.next n)
    have hnow := hconstant n hn
    have hnext := hconstant (n + 1) (hn.trans n.le_succ)
    omega
  have hfinish : ∀ n, N ≤ n → ∀ download result now,
      run.action n ≠ .finish download result now := by
    intro n hn download result now haction
    have hless := weight_finish (between_run run n) (haction ▸ run.next n)
    have hnow := hconstant n hn
    have hnext := hconstant (n + 1) (hn.trans n.le_succ)
    omega
  have hkept : ∀ n, N ≤ n → ∀ k, n ≤ k →
      (run.state k).continuations = (run.state n).continuations := by
    intro n hn k hk
    induction k, hk using Nat.le_induction with
    | base => rfl
    | succ k hk ih =>
      have hlater := hn.trans hk
      rw [continuations_step (between_run run k) (run.next k)
        (hrequests k (hN.trans hlater)) (hproceed k hlater), ih]
  have hloaded : ∀ n, N ≤ n → (run.state n).ready = .loaded → (run.state n).continuations = [] := by
    intro n hn hready
    by_contra hne
    obtain ⟨continuation, hmem⟩ := exists_mem_of_ne_nil _ hne
    obtain ⟨k, hk, haction⟩ := hfair.continues n hready continuation hmem
    exact hproceed k (hn.trans hk) continuation haction
  refine ⟨N, hN, fun n hn => ⟨?_, ?_⟩⟩
  · cases hready : (run.state n).ready with
    | unasked =>
      by_contra hne
      exact (between_run run n).asked hne hready
    | loading =>
      obtain ⟨k, hk, items, haction⟩ := hfair.loads n hready
      have hnext : step device (run.state k) (.loaded items) = some (run.state (k + 1)) :=
        haction ▸ run.next k
      have hlater : N ≤ k + 1 := hn.trans (hk.trans k.le_succ)
      have hempty := hloaded (k + 1) hlater (ready_loaded hnext).1
      rw [hkept n hn (k + 1) (hk.trans k.le_succ)] at hempty
      exact hempty
    | loaded => exact hloaded n hn hready
  by_contra hne
  obtain ⟨download, hmem⟩ := exists_mem_of_ne_nil _ hne
  obtain ⟨k, hk, result, now, haction⟩ := hfair.settles n download hmem
  exact hfinish k (hn.trans hk) download result now haction

theorem accepted_mono (hrun : ∀ n, (run.state n).accepted ≤ (run.state (n + 1)).accepted)
    {n k : ℕ} (hnk : n ≤ k) : (run.state n).accepted ≤ (run.state k).accepted := by
  induction k, hnk using Nat.le_induction with
  | base => exact le_rfl
  | succ k hk ih => exact ih.trans (hrun k)

theorem accepted_step (run : (mediaCache device).Run) (n : ℕ) :
    (run.state n).accepted ≤ (run.state (n + 1)).accepted := by
  cases haction : run.action n with
  | request url background now =>
    have hnext : step device (run.state n) (.request url background now) =
        some (run.state (n + 1)) := haction ▸ run.next n
    rw [← Option.some.inj hnext, accepted_request]
    omega
  | _ =>
    have hlessens := lessens_step (between_run run n) (run.next n) (by rw [haction]; rfl)
    exact hlessens.accepted.ge

/-- The download queue answers everyone once. In every state of every run a callback
of a request that returned true was called once, or it was not called and its key is
waited for; the downloads are within the slots, one of them in the background at
most, and of different keys; and without downloads the queues are empty. In a run in
which the downloads end, the index is read and the requests stop, each callback is
called. -/
theorem media_download_queue (device : Device) : (∀ c, (mediaCache device).Reachable c →
      (∀ callback, callback < c.accepted → c.answered.count callback = 1 ∧ ¬c.Awaits callback ∨
        c.answered.count callback = 0 ∧ c.Awaits callback) ∧
      (∀ callback ∈ c.answered, callback < c.accepted) ∧ c.downloads.length ≤ device.limit ∧
      (c.downloads.filter Download.background).length ≤ backgroundSlots ∧
      (c.downloads.map Download.key).Nodup ∧ (c.downloads = [] → c.order = [] ∧ c.backlog = [])) ∧
    (∀ (c : Cache) url background now, (c.requestMediaCache device url background now).1.accepted =
      c.accepted + if (c.requestMediaCache device url background now).2 then 1 else 0) ∧
    ∀ run : (mediaCache device).Run, Fair run →
      (∃ start, ∀ n, start ≤ n → (run.action n).isRequest = false) →
      ∀ n callback, callback < (run.state n).accepted →
        ∃ N, n ≤ N ∧ ∀ k, N ≤ k → (run.state k).answered.count callback = 1 := by
  refine ⟨fun c hc => ?_, accepted_request, ?_⟩
  · have h := between_reachable hc
    exact ⟨fun callback => h.answered_or_awaits, h.inv.listening.asked, h.inv.downloads_length,
      h.inv.background_length, h.inv.queues.single,
      fun hidle => h.settled (h.inv.inflight_empty hidle)⟩
  rintro run hfair ⟨start, hrequests⟩ n callback hcb
  obtain ⟨N, -, hquiet⟩ := eventually_quiet hfair hrequests
  refine ⟨max n N, le_max_left _ _, fun k hk => ?_⟩
  obtain ⟨hconts, hidle⟩ := hquiet k (le_trans (le_max_right _ _) hk)
  have hacc := accepted_mono (accepted_step run) (le_trans (le_max_left _ _) hk)
  exact (between_run run k).all_answered hconts hidle (hcb.trans_le hacc)

/-- A browser whose page has no origin, with addresses that are their own identity. -/
def browser : Device where
  platform := ⟨[], fun _ => none, fun _ => none, fun site _ => site, fun _ _ => 0⟩
  mediaCacheEnabled := true
  isApp := false
  isIOS := false
  playableLocal _ := []

def imageUrl : Text := "https://h/a".toList

/-- The image is requested, the index is read, and the download succeeds. -/
def oneImage : Nat → Action
  | 0 => .request imageUrl false 0
  | 1 => .loaded (some [])
  | 2 => .proceed ⟨imageUrl, false⟩
  | 3 => .finish ⟨imageUrl, imageUrl, [], false⟩ (.stored "blob:1".toList imageUrl 7) 1
  | _ => .warm

def oneImageState : Nat → Cache
  | 0 => started
  | n + 1 => (step browser (oneImageState n) (oneImage n)).getD (oneImageState n)

theorem oneImage_enabled (n : Nat) : (step browser (oneImageState n) (oneImage n)).isSome := by
  match n with
  | 0 => rfl
  | 1 => decide +kernel
  | 2 => decide +kernel
  | 3 => decide +kernel
  | n + 4 => rfl

def oneImageRun : (mediaCache browser).Run where
  state := oneImageState
  action := oneImage
  start := rfl
  next n := by
    obtain ⟨next, hnext⟩ := Option.isSome_iff_exists.mp (oneImage_enabled n)
    have hstate : oneImageState (n + 1) = next := by
      rw [oneImageState, hnext]
      rfl
    rw [hstate]
    exact hnext

theorem oneImage_quiet (n : Nat) : (oneImageState (n + 4)).ready = .loaded ∧
    (oneImageState (n + 4)).continuations = [] ∧ (oneImageState (n + 4)).downloads = [] := by
  induction n with
  | zero => decide +kernel
  | succ n ih =>
    obtain ⟨hready, hconts, hdownloads⟩ := ih
    have hnext : oneImageState (n + 5) = (oneImageState (n + 4)).ensureReady := rfl
    rw [hnext]
    refine ⟨?_, hconts, hdownloads⟩
    simp [Cache.ensureReady, hready]

theorem oneImage_fair : Fair oneImageRun where
  settles n download hmem := by
    change download ∈ (oneImageState n).downloads at hmem
    match n with
    | 0 => cases hmem
    | 1 => cases hmem
    | 2 =>
      have hnone : (oneImageState 2).downloads = [] := by decide +kernel
      rw [hnone] at hmem
      cases hmem
    | 3 =>
      have hone : (oneImageState 3).downloads = [⟨imageUrl, imageUrl, [], false⟩] := by
        decide +kernel
      rw [hone] at hmem
      exact ⟨3, le_rfl, .stored "blob:1".toList imageUrl 7, 1, by
        rw [mem_singleton.mp hmem]
        rfl⟩
    | n + 4 =>
      rw [(oneImage_quiet n).2.2] at hmem
      cases hmem
  loads n hready := by
    change (oneImageState n).ready = .loading at hready
    match n with
    | 0 => cases hready
    | 1 => exact ⟨1, le_rfl, some [], rfl⟩
    | 2 =>
      have hloaded : (oneImageState 2).ready = .loaded := by decide +kernel
      rw [hloaded] at hready
      cases hready
    | 3 =>
      have hloaded : (oneImageState 3).ready = .loaded := by decide +kernel
      rw [hloaded] at hready
      cases hready
    | n + 4 =>
      rw [(oneImage_quiet n).1] at hready
      cases hready
  continues n hready continuation hmem := by
    change (oneImageState n).ready = .loaded at hready
    change continuation ∈ (oneImageState n).continuations at hmem
    match n with
    | 0 => cases hmem
    | 1 =>
      have hloading : (oneImageState 1).ready = .loading := by decide +kernel
      rw [hloading] at hready
      cases hready
    | 2 =>
      have hone : (oneImageState 2).continuations = [⟨imageUrl, false⟩] := by decide +kernel
      rw [hone] at hmem
      exact ⟨2, le_rfl, by rw [mem_singleton.mp hmem]; rfl⟩
    | 3 =>
      have hnone : (oneImageState 3).continuations = [] := by decide +kernel
      rw [hnone] at hmem
      cases hmem
    | n + 4 =>
      rw [(oneImage_quiet n).2.1] at hmem
      cases hmem

theorem media_download_queue_one : ∃ N, 1 ≤ N ∧
    ∀ k, N ≤ k → (oneImageState k).answered.count 0 = 1 := by
  have hrequests : ∃ start, ∀ n, start ≤ n → (oneImageRun.action n).isRequest = false := by
    refine ⟨1, fun n hn => ?_⟩
    change (oneImage n).isRequest = false
    match n with
    | 0 => omega
    | 1 => rfl
    | 2 => rfl
    | 3 => rfl
    | n + 4 => rfl
  exact (media_download_queue browser).2.2 oneImageRun oneImage_fair hrequests 1 0
    (by decide +kernel)

end ImApp.MediaCache
