import ImApp.PreviewCache.Load

/-!
The queue of mutations. A write that was valid when it started may end after a
call; the removal of that call is still behind it. When a call resolves, its
removals have been made and nothing older was written after them.
-/

namespace ImApp.PreviewCache

open List Function Option

variable {s t : State} {platform : Platform}

def State.mutated (s : State) (current : Option Op) (done : Nat) (disk : Key → Option Row)
    (voided : List Nat) (dropped : List (Nat × Nat)) : State :=
  { s with current := current, done := done, disk := disk, voided := voided, dropped := dropped }

section Mutated

variable {current : Option Op} {done : Nat} {disk : Key → Option Row} {voided : List Nat}
  {dropped : List (Nat × Nat)}

theorem Guarded.mutated (h : Guarded s) : Guarded (s.mutated current done disk voided dropped) where
  pending := h.pending
  live := h.live
  fenced := h.fenced
  cause := h.cause
  stale := h.stale
  apart := h.apart
  upgraded := h.upgraded

theorem Keyed.mutated (h : Keyed platform s) :
    Keyed platform (s.mutated current done disk voided dropped) := { h with }

theorem Scheduled.mutated (h : Scheduled s) (hdone : s.done ≤ done)
    (hle : done ≤ s.tasks.length) (hrunning : current.isSome → done < s.tasks.length)
    (hqueued : ∀ r m, (s.runs r).stage.queuedAt = some m → done ≤ m ∧ (current.isSome → done < m))
    (hawaiting : ∀ r n, (s.runs r).stage.awaits = some n → done ≤ n + 1) :
    Scheduled (s.mutated current done disk voided dropped) := { h with
    done_le := hle
    running := hrunning
    queued := by
      intro r m hm
      obtain ⟨hd, hc⟩ := hqueued r m hm
      exact ⟨hd, (h.queued r m hm).2.1, hc⟩
    awaiting := by
      intro r n hn
      exact ⟨(h.awaiting r n hn).1, hawaiting r n hn⟩
    after := by
      intro c hc r hin hpre
      obtain ⟨hwait, hpast⟩ := h.after c hc r hin hpre
      exact ⟨hwait, fun hq => (hpast hq).trans_le hdone⟩ }

theorem Scheduled.continued (h : Scheduled s) (hcur : s.current.isSome) :
    Scheduled (s.mutated current s.done disk voided dropped) :=
  h.mutated (le_refl _) h.done_le (fun _ => h.running hcur)
    (fun r m hm => ⟨(h.queued r m hm).1, fun _ => (h.queued r m hm).2.2 hcur⟩)
    (fun r n hn => (h.awaiting r n hn).2)

theorem Held.mutated {r : Nat} {row : Asset} (h : Held s r row) (hvoided : s.voided ⊆ voided) :
    Held (s.mutated current done disk voided dropped) r row := { h with
    fresh := fun c hc hcovers hnot => h.fresh c hc hcovers (fun hmem => hnot (hvoided hmem)) }

theorem Stocked.mutated (h : Stocked s) (hvoided : s.voided ⊆ voided)
    (hdisk : ∀ key row, disk key = some row → Known s key row.producer)
    (hfresh : ∀ key row, disk key = some row → ∀ c ∈ s.calls, clears c.keys key = true →
      c.task ∉ voided → c.task < done → c.before < row.producer) :
    Stocked (s.mutated current done disk voided dropped) where
  memory := h.memory
  memoryFresh := fun entry hentry c hc hcovers hnot =>
    h.memoryFresh entry hentry c hc hcovers (fun hmem => hnot (hvoided hmem))
  held := fun r row hrow => (h.held r row hrow).mutated hvoided
  disk := hdisk
  diskFresh := hfresh

theorem Stocked.shrunk (h : Stocked s) (hvoided : s.voided ⊆ voided)
    (hdisk : ∀ key row, disk key = some row → s.disk key = some row) :
    Stocked (s.mutated current s.done disk voided dropped) := by
  apply h.mutated hvoided
  · intro key row hrow
    exact h.disk key row (hdisk key row hrow)
  intro key row hrow c hc hclears hnot
  exact h.diskFresh key row (hdisk key row hrow) c hc hclears (fun hmem => hnot (hvoided hmem))

theorem Queued.mutated (h : Queued s) (hdone : s.done ≤ done)
    (hold : ∀ n r, s.done ≤ n → s.tasks[n]? = some (.remove r (s.runs r).key) →
      ∀ row, disk (s.runs r).key = some row → row.producer ≤ r)
    (hwriting : ∀ r row, current = some (.writing r row) → s.tasks[done]? = some (.write r row) ∧
        ∀ c ∈ s.calls, covers c.keys (s.runs r).key = true → r ≤ c.before → done < c.task)
    (hremoving : ∀ r keys, current = some (.removing (some r) keys) →
      ∀ key ∈ keys, s.tasks[done]? = some (.remove r key))
    (hgone : ∀ op, current = some op → ∀ c ∈ s.calls, c.task = done → c.task ∉ voided →
      ∀ key, clears c.keys key = true → disk key = none ∨ op.leaves key) :
    Queued (s.mutated current done disk voided dropped) where
  writes := fun n r row hn => h.writes n r row (hdone.trans hn)
  removes := fun n r key hn => h.removes n r key (hdone.trans hn)
  removesOld := by
    intro n r hn htask
    have hn' := hdone.trans hn
    refine ⟨hold n r hn' htask, ?_⟩
    intro n' q row hlater htask' hkey hlt
    exact (h.removesOld n r hn' htask).2 n' q row (hdone.trans hlater) htask' hkey hlt
  writing := hwriting
  removing := hremoving
  gone := hgone

theorem Logged.mutated (h : Logged s)
    (hdropped : ∀ entry ∈ dropped, entry ∈ s.dropped ∨ entry.2 ≤ s.started ∧
      ∀ c ∈ s.calls, entry.1 ∈ c.stale → entry.2 ≤ c.before) :
    Logged (s.mutated current done disk voided dropped) := { h with
    dropped := by
      intro entry hentry
      cases hdropped entry hentry with
      | inl hold => exact h.dropped entry hold
      | inr hnew => exact hnew.1
    spared := by
      intro c hc r hr p hentry
      cases hdropped (r, p) hentry with
      | inl hold => exact h.spared c hc r hr p hold
      | inr hnew => exact hnew.2 c hc hr }

end Mutated

theorem not_call {n : Nat} {task : Task} (h : Scheduled s) (htask : s.tasks[n]? = some task)
    (hrun : ∀ keys, mutation keys ≠ task) {c : Call} (hc : c ∈ s.calls) : c.task ≠ n := by
  rintro rfl
  have hown := (h.asked c hc).1
  rw [htask] at hown
  exact hrun c.keys (some.inj hown).symm

theorem mutation_ne_write (keys : Option (Key × Key)) (r : Nat) (row : Asset) :
    mutation keys ≠ .write r row := by
  cases keys <;> simp [mutation]

theorem opOf_mutation {keys : Option (Key × Key)} {key : Key} (h : clears keys key = true) :
    (s.opOf (mutation keys)).leaves key := by
  cases keys with
  | none => trivial
  | some pair =>
    obtain ⟨own, legacy⟩ := pair
    simp only [clears, Bool.or_eq_true, decide_eq_true_eq] at h
    simp only [mutation, State.opOf, Op.leaves]
    split
    · rw [mem_pair]
      exact h.imp Eq.symm Eq.symm
    case isFalse hsame =>
      have hsame : legacy = own := by simpa using hsame
      subst hsame
      rw [mem_singleton]
      cases h with
      | inl heq | inr heq => exact heq.symm

theorem start_eq (hstep : s.start = some t) : ∃ task, s.tasks[s.done]? = some task ∧
    (∀ r ∈ s.runIds, ∀ m, (s.runs r).stage.queuedAt = some m → s.done < m) ∧
    t = s.mutated (some (s.opOf task)) s.done s.disk s.voided s.dropped := by
  unfold State.start at hstep
  split at hstep
  case h_2 => cases hstep
  case h_1 task hcur htask =>
    split at hstep
    case isFalse => cases hstep
    case isTrue hall =>
      refine ⟨task, htask, ?_, ?_⟩
      · intro r hr m hm
        have hdue := all_eq_true.mp hall r hr
        rw [hm] at hdue
        simpa using hdue
      exact (some.inj hstep).symm

theorem mem_runIds {r : Nat} : r ∈ s.runIds ↔ Started s r := by
  simp only [State.runIds, mem_range'_1, Started]
  omega

theorem Scheduled.started_of_ne {r : Nat} (h : Scheduled s) (hne : (s.runs r).stage ≠ .threw) :
    Started s r := by
  by_contra hnot
  exact hne (h.unstarted r hnot)

theorem start_sound (h : Sound platform s) (hstep : s.start = some t) : Sound platform t := by
  obtain ⟨task, htask, hdue, rfl⟩ := start_eq hstep
  have hlt := (List.getElem?_eq_some_iff.mp htask).1
  exact {
    scheduled := by
      apply h.scheduled.mutated (le_refl _) h.scheduled.done_le (fun _ => hlt)
      · intro r m hm
        refine ⟨(h.scheduled.queued r m hm).1, fun _ => ?_⟩
        apply hdue r _ m hm
        rw [mem_runIds]
        apply h.scheduled.started_of_ne
        intro hthrew
        rw [hthrew] at hm
        cases hm
      exact fun r n hn => (h.scheduled.awaiting r n hn).2
    guarded := h.guarded.mutated
    stocked := h.stocked.mutated (List.Subset.refl _) h.stocked.disk h.stocked.diskFresh
    queued := by
      apply h.queued.mutated (le_refl _)
      · exact fun n r hn hremove => (h.queued.removesOld n r hn hremove).1
      · intro r row hop
        cases task with
        | write r' row' =>
          simp only [State.opOf, some.injEq] at hop
          split at hop
          case isFalse => cases hop
          case isTrue hvalid =>
            obtain ⟨rfl, rfl⟩ := Op.writing.inj hop
            refine ⟨htask, ?_⟩
            intro c hc hcovers hle
            have hover := h.guarded.fenced c hc r' hcovers hle hvalid
            cases h.queued.writes s.done r' row' (le_refl _) htask with
            | inl hstage | inr hstage =>
              rw [hstage] at hover
              cases hover
        | touch r' | remove r' key | forget key legacy | clear => cases hop
      · intro r keys hop key hkey
        cases task with
        | write r' row' =>
          simp only [State.opOf, some.injEq] at hop
          split at hop <;> cases hop
        | touch r' | forget key' legacy | clear => cases hop
        | remove r' key' =>
          simp only [State.opOf, some.injEq, Op.removing.injEq] at hop
          obtain ⟨rfl, rfl⟩ := hop
          rw [mem_singleton.mp hkey]
          exact htask
      intro op hop c hc hnow _ key hclears
      have hown := (h.scheduled.asked c hc).1
      rw [hnow, htask] at hown
      rw [← some.inj hop, some.inj hown]
      exact .inr (opOf_mutation hclears)
    logged := h.logged.mutated (fun entry hentry => .inl hentry)
    keyed := h.keyed.mutated
    fits := h.fits }

theorem written_spares {r p : Nat} {row : Asset} {key : Key} (h : Sound platform s)
    (hcur : s.current = some (.writing r row)) (hp : Known s key p) {c : Call}
    (hc : c ∈ s.calls) (hr : r ∈ c.stale) : p ≤ c.before := by
  obtain ⟨hle, hcovers, -, -⟩ := h.guarded.stale c hc r hr
  have hlater := (h.queued.writing r row hcur).2 c hc hcovers hle
  cases hp with
  | inl hzero => omega
  | inr hrun =>
    obtain ⟨hin, -, hpast⟩ := hrun
    by_contra hlt
    have hdone := (h.scheduled.after c hc p hin (by omega)).2 hpast
    omega

theorem written_sound (hlaw : platform.Lawful) {stored : Bool} {evicted : List Key}
    (h : Sound platform s) (hstep : s.written stored evicted = some t) : Sound platform t := by
  unfold State.written at hstep
  split at hstep
  case h_2 => cases hstep
  case h_1 r row hcur =>
    cases hstep
    obtain ⟨htask, hcalls⟩ := h.queued.writing r row hcur
    have hheld : Held s r row := by
      apply h.stocked.held
      cases h.queued.writes s.done r row (le_refl _) htask with
      | inl hstage | inr hstage => rw [hstage]; rfl
    have hstarted : Started s r := by
      apply h.scheduled.started_of_ne
      intro hthrew
      cases h.queued.writes s.done r row (le_refl _) htask with
      | inl hstage | inr hstage => rw [hstage] at hthrew; cases hthrew
    -- a stored row is the one written, or it was there
    let disk : Key → Option Row := fun k =>
      if k = (s.runs r).key then
        if stored then some { producer := row.producer, bytes := row.bytes, blob := row.blob }
        else s.disk k
      else if evicted.contains k then none
      else s.disk k
    have hdisk : ∀ k found, disk k = some found →
        s.disk k = some found ∨ k = (s.runs r).key ∧ found.producer = row.producer := by
      intro k found hfound
      simp only [disk] at hfound
      split at hfound
      case isTrue hkey =>
        split at hfound
        · rw [← some.inj hfound]
          exact .inr ⟨hkey, rfl⟩
        exact .inl hfound
      case isFalse =>
        split at hfound
        · cases hfound
        exact .inl hfound
    exact {
      scheduled := h.scheduled.continued (by rw [hcur]; rfl)
      guarded := h.guarded.mutated
      stocked := by
        apply h.stocked.mutated (List.Subset.refl _)
        · intro k found hfound
          cases hdisk k found hfound with
          | inl hold => exact h.stocked.disk k found hold
          | inr hnew =>
            rw [hnew.1, hnew.2]
            exact hheld.producer
        intro k found hfound c hc hclears hvoided hdone
        cases hdisk k found hfound with
        | inl hold => exact h.stocked.diskFresh k found hold c hc hclears hvoided hdone
        | inr hnew =>
          rw [hnew.1] at hclears
          rw [hnew.2]
          have hcovers := h.keyed.covers_of_clears hlaw (h.keyed.current hstarted) hc hclears
          by_cases hpre : c.before < r
          · exact hheld.fresh c hc hcovers hvoided hpre
          have hlater := hcalls c hc hcovers (by omega)
          omega
      queued := by
        apply h.queued.mutated (le_refl _)
        · intro n q hn hremove found hfound
          obtain ⟨hold, hlater⟩ := h.queued.removesOld n q hn hremove
          cases hdisk _ found hfound with
          | inl hwas => exact hold found hwas
          | inr hnew =>
            rw [hnew.2]
            by_contra hlt
            have hpre := hlater s.done r row (le_refl _) htask hnew.1.symm (by omega)
            omega
        · intro q row' hop
          cases hop
        · intro q keys hop
          cases hop
        intro op _ c hc hnow
        exact (not_call h.scheduled htask (fun keys => mutation_ne_write keys r row) hc hnow).elim
      logged := by
        apply h.logged.mutated
        intro entry hentry
        rcases mem_append.mp hentry with hold | hnew
        · exact .inl hold
        right
        obtain ⟨k, -, hk⟩ := mem_filterMap.mp hnew
        obtain ⟨found, hfound, rfl⟩ := Option.map_eq_some_iff.mp hk
        have hknown := h.stocked.disk k found hfound
        exact ⟨hknown.le_started, fun c hc hr => written_spares h hcur hknown hc hr⟩
      keyed := h.keyed.mutated
      fits := h.fits }

theorem removed_le (hlaw : platform.Lawful) {r : Nat} {keys : List Key} {key : Key} {row : Row}
    (h : Sound platform s) (hcur : s.current = some (.removing (some r) keys))
    (hkey : key ∈ keys) (hrow : s.disk key = some row) : row.producer ≤ r := by
  have htask := h.queued.removing r keys hcur key hkey
  obtain ⟨hstarted, hown⟩ := h.queued.removes s.done r key (le_refl _) htask
  by_cases hsame : key = (s.runs r).key
  · rw [hsame] at htask hrow
    exact (h.queued.removesOld s.done r (le_refl _) htask).1 row hrow
  have hlegacy : key = (s.runs r).legacyKey := by
    cases hown with
    | inl heq => exact (hsame heq).elim
    | inr heq => exact heq
  rw [hlegacy] at hsame
  cases h.stocked.disk key row hrow with
  | inl hzero => omega
  | inr hrun =>
    obtain ⟨hin, hk, -⟩ := hrun
    rw [hlegacy] at hk
    exact (h.keyed.legacy_ne hlaw hstarted hin hsame hk).elim

theorem removed_sound (hlaw : platform.Lawful) {ok : Bool} (h : Sound platform s)
    (hstep : s.removed ok = some t) : Sound platform t := by
  unfold State.removed at hstep
  split at hstep
  case h_2 => cases hstep
  case h_1 who key rest hcur =>
    cases hstep
    let disk : Key → Option Row := if ok then Function.update s.disk key none else s.disk
    have hdisk : ∀ k found, disk k = some found → s.disk k = some found := by
      intro k found hfound
      simp only [disk] at hfound
      split at hfound
      · by_cases hk : k = key
        · rw [hk, update_self] at hfound
          cases hfound
        rwa [update_of_ne hk] at hfound
      exact hfound
    have hvoided : s.voided ⊆ if ok then s.voided else s.voided ++ [s.done] := by
      split
      · exact List.Subset.refl _
      exact subset_append_left _ _
    exact {
      scheduled := h.scheduled.continued (by rw [hcur]; rfl)
      guarded := h.guarded.mutated
      stocked := h.stocked.shrunk hvoided hdisk
      queued := by
        apply h.queued.mutated (le_refl _)
        · intro n q hn hremove found hfound
          exact (h.queued.removesOld n q hn hremove).1 found (hdisk _ found hfound)
        · intro q row hop
          cases hop
        · intro q keys hop k hk
          obtain ⟨rfl, rfl⟩ := Op.removing.inj (some.inj hop)
          exact h.queued.removing q _ hcur k (mem_cons_of_mem _ hk)
        intro op hop c hc hnow hnot k hclears
        rw [← some.inj hop]
        cases ok with
        | false => exact (hnot (by simp [hnow])).elim
        | true =>
          by_cases hk : k = key
          · left
            simp [hk]
          cases h.queued.gone _ hcur c hc hnow hnot k hclears with
          | inl hnone =>
            left
            simp [hk, hnone]
          | inr hleft =>
            right
            exact (mem_cons.mp hleft).resolve_left hk
      logged := by
        apply h.logged.mutated
        intro entry hentry
        rcases mem_append.mp hentry with hold | hnew
        · exact .inl hold
        right
        cases ok with
        | false => cases hnew
        | true =>
          obtain ⟨r, hr, hrow⟩ := mem_flatMap.mp hnew
          obtain ⟨found, hfound, rfl⟩ := mem_map.mp hrow
          obtain rfl := Option.mem_toList.mp hr
          have hk := Option.mem_toList.mp hfound
          have hle := removed_le hlaw h hcur mem_cons_self hk
          refine ⟨(h.stocked.disk key found hk).le_started, ?_⟩
          intro c hc hstale
          exact hle.trans (h.guarded.stale c hc r hstale).1
      keyed := h.keyed.mutated
      fits := h.fits }

theorem cleared_sound {ok : Bool} (h : Sound platform s)
    (hstep : s.cleared ok = some t) : Sound platform t := by
  unfold State.cleared at hstep
  split at hstep
  case h_2 => cases hstep
  case h_1 hcur =>
    cases hstep
    let disk : Key → Option Row := if ok then fun _ => none else s.disk
    have hdisk : ∀ k found, disk k = some found → s.disk k = some found := by
      intro k found hfound
      simp only [disk] at hfound
      split at hfound
      · cases hfound
      exact hfound
    have hvoided : s.voided ⊆ if ok then s.voided else s.voided ++ [s.done] := by
      split
      · exact List.Subset.refl _
      exact subset_append_left _ _
    exact {
      scheduled := h.scheduled.continued (by rw [hcur]; rfl)
      guarded := h.guarded.mutated
      stocked := h.stocked.shrunk hvoided hdisk
      queued := by
        apply h.queued.mutated (le_refl _)
        · intro n q hn hremove found hfound
          exact (h.queued.removesOld n q hn hremove).1 found (hdisk _ found hfound)
        · intro q row hop
          cases hop
        · intro q keys hop
          cases hop
        intro op _ c hc hnow hnot k _
        left
        cases ok with
        | false => exact (hnot (by simp [hnow])).elim
        | true => rfl
      logged := h.logged.mutated (fun entry hentry => .inl hentry)
      keyed := h.keyed.mutated
      fits := h.fits }

theorem finish_sound (h : Sound platform s) (hstep : s.finish = some t) : Sound platform t := by
  unfold State.finish at hstep
  split at hstep
  case isFalse => cases hstep
  case isTrue hready =>
    cases hstep
    obtain ⟨hidle, hall⟩ := hready
    obtain ⟨op, hcur, hop⟩ : ∃ op, s.current = some op ∧ op.isIdle = true := by
      cases hcur : s.current with
      | none =>
        rw [hcur] at hidle
        cases hidle
      | some op =>
        rw [hcur] at hidle
        exact ⟨op, rfl, hidle⟩
    have hlt := h.scheduled.running (by rw [hcur]; rfl)
    -- nothing that the mutation was to remove is left
    have hleft : ∀ key, ¬op.leaves key := by
      intro key hkey
      cases op with
      | writing r row | clearing => cases hop
      | nothing => exact hkey
      | removing who keys =>
        cases keys with
        | nil => cases hkey
        | cons k rest => cases hop
    exact {
      scheduled := by
        apply h.scheduled.mutated (Nat.le_succ _) hlt
        · intro hnone
          cases hnone
        · intro r m hm
          refine ⟨(h.scheduled.queued r m hm).2.2 (by rw [hcur]; rfl), ?_⟩
          intro hnone
          cases hnone
        intro r n hn
        have hstarted : Started s r := by
          apply h.scheduled.started_of_ne
          intro hthrew
          rw [hthrew] at hn
          cases hn
        have hwaits := all_eq_true.mp hall r (mem_runIds.mpr hstarted)
        rw [hn] at hwaits
        have hle : s.done ≤ n := by simpa using hwaits
        omega
      guarded := h.guarded.mutated
      stocked := by
        apply h.stocked.mutated (List.Subset.refl _) h.stocked.disk
        intro key row hrow c hc hclears hvoided hdone
        by_cases hnow : c.task = s.done
        · cases h.queued.gone op hcur c hc hnow hvoided key hclears with
          | inl hnone =>
            rw [hnone] at hrow
            cases hrow
          | inr hleaves => exact (hleft key hleaves).elim
        exact h.stocked.diskFresh key row hrow c hc hclears hvoided (by omega)
      queued := by
        apply h.queued.mutated (Nat.le_succ _)
        · exact fun n r hn hremove => (h.queued.removesOld n r hn hremove).1
        · intro r row hnone
          cases hnone
        · intro r keys hnone
          cases hnone
        intro op' hnone
        cases hnone
      logged := h.logged.mutated (fun entry hentry => .inl hentry)
      keyed := h.keyed.mutated
      fits := h.fits }

end ImApp.PreviewCache
