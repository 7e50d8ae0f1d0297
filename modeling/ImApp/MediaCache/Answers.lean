import ImApp.MediaCache.Invariant

/-!
What the queue guarantees whatever the order of requests, resets, evictions and
downloads: each callback of a request that returned true is called once, and the
downloads stay within their slots.
-/

namespace ImApp.MediaCache

open List
open JsonText (Text)
open StepSystem (Machine)

namespace Cache

variable {c d : Cache} {key : Text} {limit : Nat} {extra : List Text} {device : Device}

theorem Inv.withRows (h : c.Inv limit extra) {rows : Rows} {remoteUrls : Text → Option Text}
    {skipped : Text → Bool} {removals : List Text}
    (hrows : ∀ key, c.isQueued key → rows.path key = []) :
    ({ c with
      rows := rows
      remoteUrls := remoteUrls
      skipped := skipped
      removals := removals } : Cache).Inv limit extra := by
  refine ⟨h.listening.of_eq rfl rfl rfl, { h.queues with idle := ?_ }, h.caused, h.slots,
    h.background⟩
  intro key hkey
  exact ⟨(h.queues.idle key hkey).1, hrows key hkey⟩

/-- Evictions change the rows, the addresses and the removals only, and leave or
empty each path. -/
theorem discards_eq (keys : List Text) (c : Cache) :
    ∃ rows remoteUrls removals, keys.foldl discard c = { c with
      rows := rows
      remoteUrls := remoteUrls
      removals := removals } ∧ ∀ key, rows.path key = c.rows.path key ∨ rows.path key = [] := by
  induction keys generalizing c with
  | nil => exact ⟨c.rows, c.remoteUrls, c.removals, rfl, fun _ => .inl rfl⟩
  | cons victim rest ih =>
    obtain ⟨rows, remoteUrls, removals, heq, hpath⟩ := ih (c.discard victim)
    refine ⟨rows, remoteUrls, removals, heq, fun key => ?_⟩
    rcases hpath key with hkey | hkey
    · rw [hkey, discard, Rows.path_delete]
      split
      · exact .inr rfl
      exact .inl rfl
    exact .inr hkey

theorem Inv.remember (h : c.Inv limit extra) (hkey : ¬c.isQueued key) (path rel : Text)
    (bytes : Nat) (now : Int) : (c.remember key path rel bytes now).Inv limit extra := by
  obtain ⟨rows, remoteUrls, removals, heq, hpath⟩ :=
    discards_eq (pickCacheEvictions c.rows bytes) c
  unfold Cache.remember
  rw [heq]
  apply h.withRows
  intro other hother
  have hne : other ≠ key := fun hsame => hkey (hsame ▸ hother)
  rw [Rows.path_set, if_neg hne]
  rcases hpath other with hsame | hnone
  · rw [hsame]
    exact (h.queues.idle other hother).2
  exact hnone

/-- What holds between two steps. -/
structure Between (device : Device) (c : Cache) : Prop where
  inv : c.Inv device.limit []
  settled : c.Settled
  loading : c.ready ≠ .loaded → c.order = [] ∧ c.backlog = []
  asked : c.continuations ≠ [] → c.ready ≠ .unasked

theorem limit_pos (device : Device) : 0 < device.limit := by
  unfold Device.limit
  split
  · decide
  decide

theorem between_started : started.Between device := by
  refine ⟨⟨⟨?_, ?_, ?_, ?_, ?_⟩, ⟨?_, ?_, ?_, ?_, ?_, ?_, ?_, ?_, ?_⟩, ?_, ?_, ?_⟩, ?_, ?_, ?_⟩
  all_goals simp [started, answered, isQueued, Caused, Settled]

theorem ready_ensureReady (c : Cache) : c.ensureReady.ready ≠ .unasked ∧
    (c.ensureReady.ready ≠ .loaded → c.ready ≠ .loaded) := by
  cases hready : c.ready with
  | unasked | loading | loaded => simp [ensureReady, hready]

section

variable (h : c.Between device)
include h

theorem Between.warm : c.ensureReady.Between device := by
  refine ⟨⟨h.inv.listening.of_eq rfl rfl rfl, { h.inv.queues with }, h.inv.caused, h.inv.slots,
    h.inv.background⟩, h.settled, ?_, fun _ => (ready_ensureReady c).1⟩
  intro hready
  exact h.loading ((ready_ensureReady c).2 hready)

theorem Between.withRows (rows : Rows) (remoteUrls : Text → Option Text)
    (skipped : Text → Bool) (removals : List Text)
    (hrows : ∀ key, c.isQueued key → rows.path key = []) :
    ({ c with
      rows := rows
      remoteUrls := remoteUrls
      skipped := skipped
      removals := removals } : Cache).Between device :=
  ⟨h.inv.withRows hrows, h.settled, h.loading, h.asked⟩

theorem Between.listen (key : Text) (background : Bool) :
    (c.listen key background).Between device := by
  refine ⟨⟨h.inv.listening.listen key background, { h.inv.queues with }, ?_, h.inv.slots,
    h.inv.background⟩, h.settled, ?_, fun _ => (ready_ensureReady c).1⟩
  · intro other hother
    change (Function.update c.listeners key _ other).isSome = true at hother
    refine .inr ?_
    change other ∈ (c.continuations ++ [_]).map Continuation.key ∨ _
    rw [map_append, mem_append]
    by_cases hsame : other = key
    · exact .inl (.inr (by simp [hsame]))
    rw [Function.update_of_ne hsame] at hother
    rcases h.inv.caused other hother with hextra | hcont | hcause
    · cases hextra
    · exact .inl (.inl hcont)
    exact .inr hcause
  intro hready
  exact h.loading ((ready_ensureReady c).2 hready)

theorem Between.answerNow {hit : Row} (hhit : c.rows.lookup key = some hit)
    (now : Int) : (c.answerNow key hit now).Between device := by
  have hrows : ∀ other, c.isQueued other →
      (c.rows.set key { hit with usedAt := now }).path other = [] := by
    intro other hother
    have hnone := (h.inv.queues.idle other hother).2
    rw [Rows.path_set]
    split
    · rename_i hsame
      rw [hsame, Rows.path, hhit] at hnone
      exact hnone
    exact hnone
  have hkept := h.withRows _ c.remoteUrls c.skipped c.removals hrows
  exact ⟨⟨h.inv.listening.answerNow key hit now, { hkept.inv.queues with }, hkept.inv.caused,
    h.inv.slots, h.inv.background⟩, h.settled, h.loading, h.asked⟩

theorem Between.request (url : Text) (background : Bool) (now : Int) :
    (c.requestMediaCache device url background now).1.Between device := by
  unfold requestMediaCache
  split
  · exact h
  simp only []
  split
  · exact h
  have hknown := h.withRows c.rows (Function.update c.remoteUrls
    (device.platform.mediaCacheIdentity (device.platform.cacheableChatMediaUrl url))
    (some (device.platform.cacheableChatMediaUrl url))) c.skipped c.removals
      fun key hkey => (h.inv.queues.idle key hkey).2
  split
  · rename_i hit hhit
    split
    · exact hknown.answerNow hhit now
    exact hknown.listen _ background
  exact hknown.listen _ background

theorem Between.forget (url : Text) : (c.forgetMediaCache device url).Between device := by
  have hidle := fun key hkey => (h.inv.queues.idle key hkey).2
  unfold forgetMediaCache
  simp only []
  split
  · exact h.withRows _ _ _ _ hidle
  apply h.withRows
  intro key hkey
  rw [Rows.path_delete]
  split
  · rfl
  exact hidle key hkey

theorem Between.loaded (hready : c.ready = .loading)
    (items : Option (List Item)) : (c.loadIndex device items).Between device := by
  have hempty := h.loading (by rw [hready]; decide)
  refine ⟨⟨h.inv.listening.of_eq rfl rfl rfl, { h.inv.queues with idle := ?_ }, h.inv.caused,
    h.inv.slots, h.inv.background⟩, h.settled, fun _ => hempty, fun _ => by simp [loadIndex]⟩
  rintro key (hkey | hkey)
  · change key ∈ c.order at hkey
    rw [hempty.1] at hkey
    cases hkey
  change key ∈ c.backlog at hkey
  rw [hempty.2] at hkey
  cases hkey

end

theorem Inv.drops {dropped : List Text} (h : c.Inv limit (dropped ++ extra))
    (horder : c.order = []) :
    (dropped.foldl (fun c key =>
      let forgotten : Cache := { c with remoteUrls := Function.update c.remoteUrls key none }
      if key ∈ c.inflight then forgotten else forgotten.fail key) c).Inv limit extra ∧
    Served c (dropped.foldl (fun c key =>
      let forgotten : Cache := { c with remoteUrls := Function.update c.remoteUrls key none }
      if key ∈ c.inflight then forgotten else forgotten.fail key) c) := by
  induction dropped generalizing c with
  | nil => exact ⟨h, Served.refl c⟩
  | cons key rest ih =>
    rw [foldl_cons]
    simp only []
    have hforgotten : ({ c with
        remoteUrls := Function.update c.remoteUrls key none } : Cache).Inv limit
          (key :: (rest ++ extra)) :=
      h.withRows fun other hother => (h.queues.idle other hother).2
    have hserved : Served c ({ c with
        remoteUrls := Function.update c.remoteUrls key none } : Cache) :=
      ⟨rfl, rfl, rfl, rfl, rfl, le_rfl, le_rfl⟩
    split
    case isTrue hinflight =>
      obtain ⟨hinv, hrest⟩ := ih (hforgotten.settle (.inr (.inr hinflight))) horder
      exact ⟨hinv, hserved.trans hrest⟩
    case isFalse =>
      have hnot : key ∉ c.order := by
        rw [horder]
        exact not_mem_nil
      obtain ⟨hinv, hrest⟩ := ih (hforgotten.deliver hnot []) horder
      exact ⟨hinv, (hserved.trans (served_deliver [])).trans hrest⟩

theorem Between.reset (h : c.Between device) :
    c.resetMediaCacheQueue.Between device ∧ Served c c.resetMediaCacheQueue := by
  let cleared : Cache := { c with order := [], backlog := [], queued := ∅, waiting := ∅ }
  have hcleared : cleared.Inv device.limit (c.order.reverse ++ c.backlog.reverse ++ []) := by
    refine ⟨h.inv.listening.of_eq rfl rfl rfl, ?_, ?_, h.inv.slots, h.inv.background⟩
    · refine { h.inv.queues with
        order := nodup_nil
        backlog := nodup_nil
        apart := ?_
        queued := ?_
        waiting := ?_
        idle := ?_ }
      · exact fun _ hmem => absurd hmem not_mem_nil
      · exact fun _ => by simp [cleared]
      · exact fun _ => by simp [cleared]
      rintro key (hmem | hmem)
      · cases hmem
      cases hmem
    intro key hkey
    rcases h.inv.caused key hkey with hextra | hcont | hqueued | hinflight
    · cases hextra
    · exact .inr (.inl hcont)
    · left
      rcases hqueued with hmem | hmem
      · simp [hmem]
      simp [hmem]
    exact .inr (.inr (.inr hinflight))
  obtain ⟨hinv, hdropped⟩ := hcleared.drops rfl
  have hserved : Served c c.resetMediaCacheQueue := by
    have hempty : Served c cleared := by
      refine ⟨rfl, rfl, rfl, rfl, rfl, Nat.zero_le _, ?_⟩
      simp only [weight, pending, cleared, length_nil]
      omega
    exact hempty.trans hdropped
  have hempty := hdropped.pending
  have hzero : c.resetMediaCacheQueue.order = [] ∧ c.resetMediaCacheQueue.backlog = [] := by
    change c.resetMediaCacheQueue.pending ≤ 0 at hempty
    unfold pending at hempty
    exact ⟨length_eq_zero_iff.mp (by omega), length_eq_zero_iff.mp (by omega)⟩
  refine ⟨⟨hinv, fun _ => hzero, fun _ => hzero, ?_⟩, hserved⟩
  intro hconts
  rw [hserved.ready]
  exact h.asked (hserved.continuations ▸ hconts)

theorem Between.proceed (h : c.Between device) {continuation : Continuation}
    (hready : c.ready = .loaded) (hmem : continuation ∈ c.continuations) :
    (({ c with continuations := c.continuations.erase continuation } : Cache).proceed device
        continuation).Between device ∧
      (({ c with continuations := c.continuations.erase continuation } : Cache).proceed device
        continuation).weight < c.weight ∧
      (({ c with continuations := c.continuations.erase continuation } : Cache).proceed device
        continuation).accepted = c.accepted := by
  let rest : Cache := { c with continuations := c.continuations.erase continuation }
  have hrest : rest.Inv device.limit [continuation.key] := by
    refine ⟨h.inv.listening.of_eq rfl rfl rfl, { h.inv.queues with }, ?_, h.inv.slots,
      h.inv.background⟩
    intro key hkey
    rcases h.inv.caused key hkey with hextra | hcont | hcause
    · cases hextra
    · obtain ⟨other, hother, rfl⟩ := mem_map.mp hcont
      by_cases hsame : other = continuation
      · rw [hsame]
        exact .inl mem_cons_self
      exact .inr (.inl (mem_map.mpr ⟨other, (mem_erase_of_ne hsame).mpr hother, rfl⟩))
    exact .inr (.inr hcause)
  have hweight : rest.weight + 3 = c.weight := by
    have hlen := length_erase_of_mem hmem
    have hpos := length_pos_of_mem hmem
    simp only [weight, pending, rest]
    omega
  change (rest.proceed device continuation).Between device ∧
    (rest.proceed device continuation).weight < c.weight ∧
    (rest.proceed device continuation).accepted = c.accepted
  unfold Cache.proceed
  split
  case isTrue hpath =>
    have hnot : continuation.key ∉ rest.order :=
      fun horder => hpath (hrest.queues.idle _ (.inl horder)).2
    have hserved : Served rest (rest.deliver continuation.key
      (rest.rows.path continuation.key)) := served_deliver _
    have hle := hserved.weight
    refine ⟨⟨hrest.deliver hnot _, h.settled, h.loading, ?_⟩, by omega, rfl⟩
    intro _
    change c.ready ≠ .unasked
    rw [hready]
    decide
  case isFalse hpath =>
    obtain ⟨hinv, hset⟩ := hrest.enqueue (limit_pos device) h.settled (not_not.mp hpath)
      continuation.background
    obtain ⟨hsame, -, -, -, hacc, hless⟩ := enqueue_frame hrest.queues device.limit
      continuation.key continuation.background
    have hloaded : (rest.enqueue device.limit continuation.key
        continuation.background).ready = .loaded := hsame.trans hready
    refine ⟨⟨hinv, hset, fun hnot => absurd hloaded hnot, fun _ => ?_⟩, by omega, hacc⟩
    rw [hloaded]
    decide

/-- The state without a download that ended. -/
def landed (c : Cache) (download : Download) : Cache :=
  { c with
    downloads := c.downloads.erase download
    inflight := c.inflight.erase download.key
    backgroundInflight := c.backgroundInflight.erase download.key }

theorem Inv.landed {download : Download} (h : c.Inv limit []) (hmem : download ∈ c.downloads) :
    (c.landed download).Inv limit [download.key] := by
  have hnodup : c.downloads.Nodup := h.queues.single.of_map _
  have hsame : ∀ other ∈ c.downloads, other.key = download.key → other = download :=
    fun other hother hkey => inj_on_of_nodup_map h.queues.single hother hmem hkey
  have hkeys : ∀ key, key ∈ (c.downloads.erase download).map Download.key ↔
      key ≠ download.key ∧ key ∈ c.downloads.map Download.key := by
    intro key
    simp only [mem_map, hnodup.mem_erase_iff]
    constructor
    · rintro ⟨other, ⟨hne, hother⟩, rfl⟩
      exact ⟨fun hkey => hne (hsame other hother hkey), other, hother, rfl⟩
    rintro ⟨hne, other, hother, rfl⟩
    refine ⟨other, ⟨?_, hother⟩, rfl⟩
    rintro rfl
    exact hne rfl
  refine ⟨h.listening.of_eq rfl rfl rfl, ?_, ?_, (Finset.card_erase_le).trans h.slots,
    (Finset.card_erase_le).trans h.background⟩
  · refine { h.queues with idle := ?_, single := ?_, inflight := ?_, background := ?_ }
    · intro key hkey
      obtain ⟨hinflight, hpath⟩ := h.queues.idle key hkey
      exact ⟨fun hmem => hinflight (Finset.mem_of_mem_erase hmem), hpath⟩
    · exact h.queues.single.sublist (erase_sublist.map _)
    · intro key
      change key ∈ c.inflight.erase download.key ↔ _
      rw [Finset.mem_erase, h.queues.inflight]
      exact (hkeys key).symm
    intro key
    change key ∈ c.backgroundInflight.erase download.key ↔ ∃ other ∈ c.downloads.erase download, _
    rw [Finset.mem_erase, h.queues.background]
    constructor
    · rintro ⟨hne, other, hother, rfl, hback⟩
      exact ⟨other, hnodup.mem_erase_iff.mpr ⟨fun heq => hne (heq ▸ rfl), hother⟩, rfl, hback⟩
    rintro ⟨other, hother, rfl, hback⟩
    obtain ⟨hne, hother⟩ := hnodup.mem_erase_iff.mp hother
    exact ⟨fun hkey => hne (hsame other hother hkey), other, hother, rfl, hback⟩
  intro key hkey
  rcases h.caused key hkey with hextra | hcont | hqueued | hinflight
  · cases hextra
  · exact .inr (.inl hcont)
  · exact .inr (.inr (.inl hqueued))
  by_cases heq : key = download.key
  · exact .inl (by simp [heq])
  exact .inr (.inr (.inr (Finset.mem_erase.mpr ⟨heq, hinflight⟩)))

theorem weight_landed {download : Download} (hmem : download ∈ c.downloads) :
    (c.landed download).weight + 1 = c.weight := by
  have hlen := length_erase_of_mem hmem
  have hpos := length_pos_of_mem hmem
  simp only [weight, pending, landed]
  omega

theorem Between.of_pump (hinv : d.Inv device.limit []) (hserved : Served c d)
    (hconts : c.continuations ≠ [] → c.ready ≠ .unasked)
    (hloading : c.ready ≠ .loaded → c.order = [] ∧ c.backlog = []) :
    (d.pump device.limit).Between device := by
  obtain ⟨hpump, hset⟩ := hinv.pump (limit_pos device)
  have hall := hserved.trans (served_pump device.limit d)
  refine ⟨hpump, hset, ?_, ?_⟩
  · intro hready
    obtain ⟨horder, hbacklog⟩ := hloading (hall.ready ▸ hready)
    have hle := hall.pending
    simp only [pending, horder, hbacklog, length_nil] at hle
    exact ⟨length_eq_zero_iff.mp (by omega), length_eq_zero_iff.mp (by omega)⟩
  intro hne
  rw [hall.ready]
  exact hconts (hall.continuations ▸ hne)

theorem Between.finish (h : c.Between device) {download : Download}
    (hmem : download ∈ c.downloads) (result : StoreResult) (now : Int) :
    (({ c with downloads := c.downloads.erase download } : Cache).finishStore device.limit
        download.key result now).Between device ∧
      (({ c with downloads := c.downloads.erase download } : Cache).finishStore device.limit
        download.key result now).weight < c.weight ∧
      (({ c with downloads := c.downloads.erase download } : Cache).finishStore device.limit
        download.key result now).accepted = c.accepted ∧
      (({ c with downloads := c.downloads.erase download } : Cache).finishStore device.limit
        download.key result now).continuations = c.continuations := by
  have hlanded := h.inv.landed hmem
  have hweight := weight_landed hmem
  have hbusy : download.key ∈ c.inflight :=
    (h.inv.queues.inflight _).mpr (mem_map.mpr ⟨download, hmem, rfl⟩)
  have hqueued : ¬(c.landed download).isQueued download.key :=
    fun hkey => (h.inv.queues.idle _ hkey).1 hbusy
  have horder : download.key ∉ c.order := fun hkey => hqueued (.inl hkey)
  cases result with
  | failed skip =>
    let noted : Cache := { c.landed download with
      skipped := if skip then Function.update c.skipped download.key true else c.skipped
      remoteUrls := Function.update c.remoteUrls download.key none }
    have hnoted : noted.Inv device.limit [download.key] :=
      hlanded.withRows fun key hkey => (h.inv.queues.idle key hkey).2
    have hfailed : (noted.fail download.key).Inv device.limit [] := hnoted.deliver horder []
    have hserved : Served (c.landed download) (noted.fail download.key) :=
      ⟨rfl, rfl, rfl, rfl, rfl, le_rfl, le_rfl⟩
    have hpump := served_pump device.limit (noted.fail download.key)
    change ((noted.fail download.key).pump device.limit).Between device ∧
      ((noted.fail download.key).pump device.limit).weight < c.weight ∧
      ((noted.fail download.key).pump device.limit).accepted = c.accepted ∧
      ((noted.fail download.key).pump device.limit).continuations = c.continuations
    have hle := (hserved.trans hpump).weight
    exact ⟨Between.of_pump hfailed hserved h.asked h.loading, by omega, hpump.accepted,
      hpump.continuations⟩
  | stored path rel bytes =>
    have hremem := hlanded.remember hqueued path rel bytes now
    obtain ⟨rows, remoteUrls, removals, heq, -⟩ :=
      discards_eq (pickCacheEvictions (c.landed download).rows bytes) (c.landed download)
    have hfields : ∃ rows remoteUrls removals,
        (c.landed download).remember download.key path rel bytes now = { c.landed download with
          rows := rows
          remoteUrls := remoteUrls
          removals := removals } := by
      unfold Cache.remember
      rw [heq]
      exact ⟨_, _, _, rfl⟩
    obtain ⟨rows, remoteUrls, removals, hfields⟩ := hfields
    change ((((c.landed download).remember download.key path rel bytes now).deliver
        download.key path).pump device.limit).Between device ∧
      ((((c.landed download).remember download.key path rel bytes now).deliver
        download.key path).pump device.limit).weight < c.weight ∧
      ((((c.landed download).remember download.key path rel bytes now).deliver
        download.key path).pump device.limit).accepted = c.accepted ∧
      ((((c.landed download).remember download.key path rel bytes now).deliver
        download.key path).pump device.limit).continuations = c.continuations
    rw [hfields] at hremem ⊢
    have hdelivered := hremem.deliver horder path
    have hpump := served_pump device.limit (({ c.landed download with
      rows := rows
      remoteUrls := remoteUrls
      removals := removals } : Cache).deliver download.key path)
    have hless : (({ c.landed download with
      rows := rows
      remoteUrls := remoteUrls
      removals := removals } : Cache).deliver download.key path).weight + 1 = c.weight := hweight
    have hle := hpump.weight
    refine ⟨?_, by omega, hpump.accepted, hpump.continuations⟩
    apply Between.of_pump (c := ({ c.landed download with
      rows := rows
      remoteUrls := remoteUrls
      removals := removals } : Cache).deliver download.key path) hdelivered (Served.refl _)
      h.asked h.loading

theorem between_step {action : Action} (h : c.Between device)
    (hstep : step device c action = some d) : d.Between device := by
  cases action with
  | request url background now =>
    cases hstep
    exact h.request url background now
  | warm =>
    cases hstep
    split
    · exact h.warm
    exact h
  | forget url =>
    cases hstep
    exact h.forget url
  | reset =>
    cases hstep
    exact h.reset.1
  | loaded items =>
    simp only [step] at hstep
    split at hstep
    case isTrue hready =>
      cases hstep
      exact h.loaded hready items
    case isFalse => cases hstep
  | proceed continuation =>
    simp only [step] at hstep
    split at hstep
    case isTrue hready =>
      cases hstep
      exact (h.proceed hready.1 hready.2).1
    case isFalse => cases hstep
  | finish download result now =>
    simp only [step] at hstep
    split at hstep
    case isTrue hmem =>
      cases hstep
      exact (h.finish hmem result now).1
    case isFalse => cases hstep
  | removed rel =>
    simp only [step] at hstep
    split at hstep
    case isTrue =>
      cases hstep
      exact h.withRows _ _ _ _ fun key hkey => (h.inv.queues.idle key hkey).2
    case isFalse => cases hstep

theorem between_reachable (hc : (mediaCache device).Reachable c) : c.Between device := by
  apply hc.invariant (Between device)
  · rintro c rfl
    exact between_started
  exact fun _ _ _ _ h hstep => between_step h hstep

end Cache

end ImApp.MediaCache
