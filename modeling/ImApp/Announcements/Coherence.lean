import ImApp.Announcements.Operations

/-!
The group's announcement is its newest history row, the history has at most ten
rows, and no two of them say the same. Creating, rewriting and deleting a row
restore this from every state. A settings update does so unless it publishes what
an older row says already: the row stays where it is, and the group shows an
announcement that is not the newest.
-/

namespace ImApp.Announcements

open KeepNewest StepSystem List Function Option

structure Coherent (g : Group) : Prop where
  newest : ∀ row ∈ g.history, (∀ other ∈ g.history, other.createdAt ≤ row.createdAt) →
    g.current = row.body
  empty : g.history = [] → g.current = ⟨[], []⟩
  atMostTen : g.history.length ≤ 10
  noTwins : g.history.Pairwise fun a b => a.body ≠ b.body

/-- The history alone: new ids are unused, and the creation times tell the rows
apart. -/
structure Tidy (g : Group) : Prop where
  ids : (g.history.map AnnouncementRow.id).Nodup
  drawn : ∀ row ∈ g.history, row.id < g.nextID
  stamps : (g.history.map AnnouncementRow.createdAt).Nodup
  atMostTen : g.history.length ≤ 10
  noTwins : g.history.Pairwise fun a b => a.body ≠ b.body

structure Kept (g : Group) : Prop where
  tidy : Tidy g
  current : g.current = latest g.history

section Newest

variable {history : List AnnouncementRow} {row : AnnouncementRow}

theorem latest_of_head (hhead : (newestFirst history).head? = some row) :
    latest history = row.body := by
  rw [latest, hhead]

theorem latest_of_newest (hrow : row ∈ history)
    (hnewest : ∀ other ∈ history, other ≠ row → other.createdAt < row.createdAt) :
    latest history = row.body :=
  latest_of_head (head_of_newest hrow hnewest)

theorem exists_head (hne : history ≠ []) :
    ∃ first ∈ history, (newestFirst history).head? = some first := by
  cases hlist : newestFirst history with
  | nil =>
    have hperm : (newestFirst history).Perm history := newestFirst_perm _ history
    rw [hlist] at hperm
    exact absurd hperm.nil_eq.symm hne
  | cons first rest =>
    have hfirst : first ∈ newestFirst history := by simp [hlist]
    exact ⟨first, mem_newestFirst.mp hfirst, rfl⟩

theorem newest_of_le (hstamps : (history.map AnnouncementRow.createdAt).Nodup)
    (hrow : row ∈ history) (hle : ∀ other ∈ history, other.createdAt ≤ row.createdAt) :
    ∀ other ∈ history, other ≠ row → other.createdAt < row.createdAt := by
  intro other hother hne
  apply lt_of_le_of_ne (hle other hother)
  intro hsame
  exact hne (inj_on_of_nodup_map hstamps hother hrow hsame)

end Newest

theorem Kept.coherent {g : Group} (h : Kept g) : Coherent g where
  newest := by
    intro row hrow hle
    rw [h.current]
    exact latest_of_newest hrow (newest_of_le h.tidy.stamps hrow hle)
  empty := by
    intro hempty
    rw [h.current, hempty]
    rfl
  atMostTen := h.tidy.atMostTen
  noTwins := h.tidy.noTwins

section Edits

variable {g : Group} {r : Request} {body : Body}

theorem noTwins_eq (h : Tidy g) {a b : AnnouncementRow} (ha : a ∈ g.history)
    (hb : b ∈ g.history) (hbody : a.body = b.body) : a = b := by
  by_contra hne
  have : Std.Symm fun a b : AnnouncementRow => a.body ≠ b.body := ⟨fun _ _ h => h.symm⟩
  exact h.noTwins.forall ha hb hne hbody

theorem kept_sync (h : Tidy g) : Kept (syncLatestAnnouncement g) := by
  unfold syncLatestAnnouncement
  split
  case isTrue hsame => exact ⟨h, hsame.symm⟩
  case isFalse => exact ⟨⟨h.ids, h.drawn, h.stamps, h.atMostTen, h.noTwins⟩, rfl⟩

theorem Tidy.sublist (h : Tidy g) {rows : List AnnouncementRow} (hrows : rows.Sublist g.history) :
    Tidy { g with history := rows } where
  ids := h.ids.sublist (hrows.map _)
  drawn := fun row hrow => h.drawn row (hrows.subset hrow)
  stamps := h.stamps.sublist (hrows.map _)
  atMostTen := hrows.length_le.trans h.atMostTen
  noTwins := h.noTwins.sublist hrows

theorem inserted_ids (h : Tidy g) :
    ((insertRow g r body).history.map AnnouncementRow.id).Nodup := by
  rw [insertRow, map_append, nodup_append]
  refine ⟨h.ids, nodup_singleton _, ?_⟩
  rintro a ha b hb rfl
  obtain ⟨row, hrow, rfl⟩ := mem_map.mp ha
  have hlt := h.drawn row hrow
  simp only [map_cons, map_nil, mem_singleton] at hb
  omega

theorem inserted_tidy (h : Tidy g) (hnew : ∀ row ∈ g.history, row.body ≠ body)
    (hstamp : ∀ row ∈ g.history, row.createdAt ≠ r.now) {rows : List AnnouncementRow}
    (hrows : rows.Sublist (insertRow g r body).history) (hten : rows.length ≤ 10) :
    Tidy { insertRow g r body with history := rows } where
  ids := (inserted_ids h).sublist (hrows.map _)
  drawn := by
    intro row hrow
    rcases mem_append.mp (hrows.subset hrow) with hold | hadded
    · exact (h.drawn row hold).trans (Nat.lt_succ_self _)
    rw [mem_singleton.mp hadded]
    exact Nat.lt_succ_self _
  stamps := by
    apply List.Nodup.sublist (hrows.map _)
    rw [insertRow, map_append, nodup_append]
    refine ⟨h.stamps, nodup_singleton _, ?_⟩
    rintro a ha b hb rfl
    obtain ⟨row, hrow, rfl⟩ := mem_map.mp ha
    exact hstamp row hrow (mem_singleton.mp hb)
  atMostTen := hten
  noTwins := by
    apply List.Pairwise.sublist hrows
    rw [insertRow, pairwise_append]
    refine ⟨h.noTwins, pairwise_singleton _ _, ?_⟩
    intro a ha b hb
    rw [mem_singleton.mp hb]
    exact hnew a ha

theorem not_duplicate_iff {history : List AnnouncementRow} {exceptID : Option Nat} :
    announcementDuplicateExists history body exceptID = false ↔
      ∀ row ∈ history, row.body = body → exceptID = some row.id := by
  simp [announcementDuplicateExists]

theorem rewritten_tidy (h : Tidy g) {id : Nat}
    (hnew : ∀ row ∈ g.history, row.body = body → row.id = id) : Tidy (rewriteRow g id body) := by
  have hid : ∀ row : AnnouncementRow,
      (if row.id = id then { row with body := body } else row).id = row.id := by
    intro row
    split <;> rfl
  have hstamp : ∀ row : AnnouncementRow,
      (if row.id = id then { row with body := body } else row).createdAt = row.createdAt := by
    intro row
    split <;> rfl
  constructor
  · simpa [rewriteRow, comp_def, hid] using h.ids
  · intro row hrow
    obtain ⟨old, hold, rfl⟩ := mem_map.mp hrow
    rw [hid]
    exact h.drawn old hold
  · simpa [rewriteRow, comp_def, hstamp] using h.stamps
  · simpa [rewriteRow] using h.atMostTen
  -- two rows that say the same are the rewritten row twice
  rw [rewriteRow, pairwise_map]
  have hids := pairwise_map.mp h.ids
  apply (h.noTwins.and hids).imp_of_mem
  rintro a b ha hb ⟨hbody, hne⟩
  by_cases haid : a.id = id
  · have hbid : b.id ≠ id := fun h => hne (haid.trans h.symm)
    rw [if_pos haid, if_neg hbid]
    exact fun hsame => hbid (hnew b hb hsame.symm)
  rw [if_neg haid]
  split
  · exact fun hsame => haid (hnew a ha hsame)
  exact hbody

theorem prune_sublist (history : List AnnouncementRow) : (prune history).Sublist history :=
  filter_sublist

theorem length_prune_le {history : List AnnouncementRow}
    (hids : (history.map AnnouncementRow.id).Nodup) : (prune history).length ≤ historyLimit := by
  have hnodup : ((prune history).map AnnouncementRow.id).Nodup :=
    hids.sublist ((prune_sublist history).map _)
  have hsubset : (prune history).map AnnouncementRow.id ⊆
      ((newestFirst history).take historyLimit).map AnnouncementRow.id := by
    intro id hid
    obtain ⟨row, hrow, rfl⟩ := mem_map.mp hid
    simpa using (mem_filter.mp hrow).2
  have hle := (subperm_of_subset hnodup hsubset).length_le
  simp only [length_map, length_take] at hle
  omega

theorem head_mem_prune {history : List AnnouncementRow} {row : AnnouncementRow}
    (hrow : row ∈ history) (hhead : (newestFirst history).head? = some row) :
    row ∈ prune history := by
  apply mem_filter.mpr
  refine ⟨hrow, ?_⟩
  have htake : row ∈ (newestFirst history).take historyLimit := by
    cases hlist : newestFirst history with
    | nil => simp [hlist] at hhead
    | cons first rest =>
      obtain rfl : first = row := by simpa [hlist] using hhead
      simp [historyLimit]
  have hlive : row.id ∈ ((newestFirst history).take historyLimit).map AnnouncementRow.id :=
    mem_map_of_mem htake
  simpa using hlive

end Edits

section Steps

variable {g : Group} {r : Request} {body : Body}

variable {next : Group}

theorem createAnnouncement_kept (h : Kept g) (hstamp : ∀ row ∈ g.history, row.createdAt ≠ r.now)
    (hdone : createAnnouncement g r body = .ok next) : Kept next := by
  unfold createAnnouncement at hdone
  split_ifs at hdone with hedit hfull hduplicate
  cases hdone
  have hnew : ∀ row ∈ g.history, row.body ≠ body := by
    intro row hrow hbody
    have hnone := not_duplicate_iff.mp (Bool.eq_false_iff.mpr hduplicate) row hrow hbody
    cases hnone
  have hlen : (insertRow g r body).history.length ≤ 10 := by
    simp only [maxLiveAnnouncements] at hfull
    simp only [insertRow, length_append, length_singleton]
    omega
  exact kept_sync (inserted_tidy h.tidy hnew hstamp (List.Sublist.refl _) hlen)

theorem updateAnnouncement_kept (h : Kept g) {id : Option AnnouncementID}
    (hdone : updateAnnouncement g r id body = .ok next) : Kept next := by
  unfold updateAnnouncement at hdone
  cases id with
  | none => cases hdone
  | some id =>
    simp only at hdone
    split_ifs at hdone with hedit hduplicate hmissing
    cases hdone
    apply kept_sync
    apply rewritten_tidy h.tidy
    intro row hrow hbody
    have hexcept := not_duplicate_iff.mp (Bool.eq_false_iff.mpr hduplicate) row hrow hbody
    unfold AnnouncementID.text at hexcept
    split at hexcept
    · exact (some.inj hexcept).symm
    cases hexcept

theorem deleteAnnouncement_kept (h : Kept g) {id : Option AnnouncementID}
    (hdone : deleteAnnouncement g r id = .ok next) : Kept next := by
  unfold deleteAnnouncement at hdone
  cases id with
  | none => cases hdone
  | some id =>
    simp only at hdone
    split_ifs at hdone with hedit hmissing
    cases hdone
    exact kept_sync (h.tidy.sublist filter_sublist)

variable {u : Settings}

theorem writeSettings_current (hnone : u.publication g = none) :
    (writeSettings g u).current = g.current := by
  unfold Settings.publication at hnone
  split at hnone
  case isTrue habsent => simp [writeSettings, Group.current, habsent.1, habsent.2]
  case isFalse => cases hnone

theorem writeSettings_published (hsome : u.publication g = some body) :
    (writeSettings g u).current = body := by
  unfold Settings.publication at hsome
  split at hsome
  · cases hsome
  exact some.inj hsome

theorem writeSettings_tidy (h : Tidy g) : Tidy (writeSettings g u) :=
  ⟨h.ids, h.drawn, h.stamps, h.atMostTen, h.noTwins⟩

theorem recordAnnouncement_repeated {row : AnnouncementRow} (hrow : row ∈ g.history)
    (hbody : row.body = body) : recordAnnouncement g r body = g := by
  have hany : (g.history.any fun other => other.body = body) = true := by
    simpa using ⟨row, hrow, hbody⟩
  rw [recordAnnouncement, if_pos hany]

theorem recordAnnouncement_new (hnew : ∀ row ∈ g.history, row.body ≠ body) :
    recordAnnouncement g r body =
      { insertRow g r body with history := prune (insertRow g r body).history } := by
  have hnone : (g.history.any fun row => row.body = body) = false := by simpa using hnew
  rw [recordAnnouncement, hnone]
  rfl

theorem recordAnnouncement_kept (h : Tidy g) (hcur : g.current = body)
    (hnew : ∀ row ∈ g.history, row.body ≠ body)
    (hlater : ∀ row ∈ g.history, row.createdAt < r.now) : Kept (recordAnnouncement g r body) := by
  rw [recordAnnouncement_new hnew]
  have hall := inserted_tidy h hnew (fun row hrow => (hlater row hrow).ne) (prune_sublist _)
    (length_prune_le (inserted_ids h))
  refine ⟨hall, ?_⟩
  let row : AnnouncementRow := ⟨g.nextID, body, r.caller, r.now⟩
  have hmem : row ∈ (insertRow g r body).history := by simp [insertRow, row]
  have hnewest : ∀ other ∈ (insertRow g r body).history, other ≠ row →
      other.createdAt < row.createdAt := by
    intro other hother hne
    rcases mem_append.mp hother with hold | hadded
    · exact hlater other hold
    exact absurd (mem_singleton.mp hadded) hne
  have hkept := head_mem_prune hmem (head_of_newest hmem hnewest)
  have hlatest : latest (prune (insertRow g r body).history) = body :=
    latest_of_newest hkept (fun other hother => hnewest other ((prune_sublist _).subset hother))
  exact hcur.trans hlatest.symm

theorem updateSettings_published (hedit : r.mayEdit = true)
    (hbody : (u.changes g).publication g = some body) :
    updateSettings g r u = .ok (recordAnnouncement (writeSettings g (u.changes g)) r body) := by
  have hchanges : (u.changes g).isEmpty = false := by
    rw [Settings.isEmpty, decide_eq_false_iff_not]
    intro hempty
    rw [hempty] at hbody
    cases hbody
  simp [updateSettings, hedit, hchanges, hbody]

theorem updateSettings_unpublished (h : Kept g) (hnone : (u.changes g).publication g = none)
 (hdone : updateSettings g r u = .ok next) : Kept next := by
  unfold updateSettings at hdone
  simp only [hnone] at hdone
  split_ifs at hdone with hedit hempty
  · cases hdone
    exact h
  cases hdone
  exact ⟨writeSettings_tidy h.tidy, (writeSettings_current hnone).trans h.current⟩

end Steps

/-- A settings update does not publish what a row other than the newest one says
already, and a row that is added is made at a time of its own, by a settings
update later than all rows. -/
def Orderly (g : Group) (action : Request × Operation) : Prop :=
  action.1.mayEdit = true → match action.2 with
    | .create _ => ∀ row ∈ g.history, row.createdAt ≠ action.1.now
    | .update _ _ => True
    | .delete _ => True
    | .settings fields => ∀ body, (fields.changes g).publication g = some body →
        (∀ row ∈ g.history, row.body = body →
          ∀ other ∈ g.history, other.createdAt ≤ row.createdAt) ∧
        ((∀ row ∈ g.history, row.body ≠ body) → ∀ row ∈ g.history, row.createdAt < action.1.now)

def decidableForallSome {α : Type*} (o : Option α) (p : α → Prop) [DecidablePred p] :
    Decidable (∀ a, o = some a → p a) :=
  match o with
  | none => isTrue (by simp)
  | some a => decidable_of_iff (p a) (by simp)

instance (g : Group) (action : Request × Operation) : Decidable (Orderly g action) :=
  match action with
  | (r, .create _) =>
    inferInstanceAs (Decidable (r.mayEdit = true → ∀ row ∈ g.history, row.createdAt ≠ r.now))
  | (r, .update _ _) => inferInstanceAs (Decidable (r.mayEdit = true → True))
  | (r, .delete _) => inferInstanceAs (Decidable (r.mayEdit = true → True))
  | (r, .settings fields) =>
    letI : Decidable (∀ body, (fields.changes g).publication g = some body →
        (∀ row ∈ g.history, row.body = body →
          ∀ other ∈ g.history, other.createdAt ≤ row.createdAt) ∧
        ((∀ row ∈ g.history, row.body ≠ body) → ∀ row ∈ g.history, row.createdAt < r.now)) :=
      decidableForallSome _ _
    inferInstanceAs (Decidable (r.mayEdit = true → _))

section Runs

variable {g next : Group} {r : Request}

theorem updateSettings_kept (h : Kept g) {u : Settings} (horderly : Orderly g (r, .settings u))
 (hdone : updateSettings g r u = .ok next) : Kept next := by
  cases hpublication : (u.changes g).publication g with
  | none => exact updateSettings_unpublished h hpublication hdone
  | some body =>
    have hedit : r.mayEdit = true := by
      unfold updateSettings at hdone
      split at hdone
      · cases hdone
      case isFalse hedit => simpa using hedit
    obtain ⟨hrepeated, hlater⟩ := horderly hedit body hpublication
    rw [updateSettings_published hedit hpublication] at hdone
    cases hdone
    have htidy := writeSettings_tidy (u := u.changes g) h.tidy
    have hcur := writeSettings_published hpublication
    by_cases hexists : ∃ row ∈ g.history, row.body = body
    · -- the row that says the same is the newest, so the group keeps its announcement
      obtain ⟨row, hrow, rfl⟩ := hexists
      rw [recordAnnouncement_repeated (g := writeSettings g _) hrow rfl]
      refine ⟨htidy, hcur.trans ?_⟩
      have hnewest := newest_of_le h.tidy.stamps hrow (hrepeated row hrow rfl)
      exact (latest_of_newest hrow hnewest).symm
    push Not at hexists
    exact recordAnnouncement_kept htidy hcur hexists (hlater hexists)

theorem perform_kept (h : Kept g) {op : Operation} (horderly : Orderly g (r, op))
    (hdone : perform g r op = .ok next) : Kept next := by
  cases op with
  | create body =>
    have hedit : r.mayEdit = true := by
      simp only [perform, createAnnouncement] at hdone
      split_ifs at hdone with hedit
      simpa using hedit
    exact createAnnouncement_kept h (horderly hedit) hdone
  | update id body => exact updateAnnouncement_kept h hdone
  | delete id => exact deleteAnnouncement_kept h hdone
  | settings u => exact updateSettings_kept h horderly hdone

theorem afterwards_kept (h : Kept g) {op : Operation} (horderly : Orderly g (r, op)) :
    Kept (afterwards g r op) := by
  unfold afterwards
  split
  case h_1 next hdone => exact perform_kept h horderly hdone
  case h_2 => exact h

theorem new_kept (h : g.new) : Kept g := by
  obtain ⟨hcur, hhistory⟩ := h
  have htidy : Tidy g := by constructor <;> simp [hhistory]
  exact ⟨htidy, by rw [hcur, hhistory]; rfl⟩

theorem kept_of_reachable (h : announcementMachine.ReachableBy Orderly g) : Kept g := by
  apply h.invariant Kept
  · intro s hs
    exact new_kept hs
  intro s action t horderly hs hstep
  cases hstep
  exact afterwards_kept hs horderly

theorem announcements_coherent (h : announcementMachine.ReachableBy Orderly g) : Coherent g :=
  (kept_of_reachable h).coherent

def emptyGroup : Group :=
  ⟨"g".toList, [], [], [], true, "open".toList, false, [], 0⟩

def publish (content : JsonText.Text) : Settings :=
  ⟨none, none, some content, some [], none, none, none⟩

def byOwner (now : Nat) (op : Operation) : Request × Operation := (⟨1, some .owner, now⟩, op)

/-- An announcement that is made, one that is published with the settings, and the
deletion of the first. -/
def madeAndPublished : List (Request × Operation) :=
  [byOwner 1 (.create ⟨"A".toList, []⟩), byOwner 2 (.settings (publish "B".toList)),
    byOwner 3 (.delete (some ⟨0, true⟩))]

theorem announcements_coherent_published :
    ∃ g, announcementMachine.ReachableBy Orderly g ∧ g.current = ⟨"B".toList, []⟩ ∧
      g.history.length = 1 ∧ Coherent g := by
  have hrun : ∃ g, announcementMachine.executeBy Orderly emptyGroup madeAndPublished = some g ∧
      g.current = ⟨"B".toList, []⟩ ∧ g.history.length = 1 :=
    ⟨_, rfl, by decide, by decide⟩
  obtain ⟨g, hexecute, hcur, hlen⟩ := hrun
  have hreach : announcementMachine.ReachableBy Orderly g :=
    ⟨emptyGroup, ⟨rfl, rfl⟩, Machine.path_of_executeBy hexecute⟩
  exact ⟨g, hreach, hcur, hlen, announcements_coherent hreach⟩

theorem settings_coherent_iff (h : Kept g) {u : Settings} (hedit : r.mayEdit = true)
    (hstamp : ∀ row ∈ g.history, row.createdAt ≠ r.now) :
    Coherent (afterwards g r (.settings u)) ↔ Orderly g (r, .settings u) := by
  constructor
  · intro hcoherent _ body hbody
    have hnext : afterwards g r (.settings u) =
        recordAnnouncement (writeSettings g (u.changes g)) r body := by
      rw [afterwards, perform, updateSettings_published hedit hbody]
    rw [hnext] at hcoherent
    have hcur := writeSettings_published hbody
    constructor
    · -- an older row that says the same contradicts the newest one
      intro row hrow hsame other hother
      rw [recordAnnouncement_repeated (g := writeSettings g _) hrow hsame] at hcoherent
      obtain ⟨first, hfirst, hhead⟩ := exists_head (ne_nil_of_mem hrow)
      have hshown := hcoherent.newest first hfirst (fun b hb => le_of_head hhead hb)
      have htwins := noTwins_eq h.tidy hrow hfirst (hsame.trans (hcur.symm.trans hshown))
      rw [htwins]
      exact le_of_head hhead hother
    -- a newer row stays the newest one
    intro hnew row hrow
    by_contra hnot
    obtain ⟨first, hfirst, hhead⟩ := exists_head (ne_nil_of_mem hrow)
    have hlater : r.now < first.createdAt := by
      have hle : r.now ≤ row.createdAt := not_lt.mp hnot
      exact lt_of_lt_of_le (lt_of_le_of_ne hle (hstamp row hrow).symm) (le_of_head hhead hrow)
    rw [recordAnnouncement_new (g := writeSettings g _) hnew] at hcoherent
    let all := (insertRow (writeSettings g (u.changes g)) r body).history
    have hmem : first ∈ all := mem_append_left _ hfirst
    have hnewest : ∀ other ∈ all, other ≠ first → other.createdAt < first.createdAt := by
      intro other hother hne
      rcases mem_append.mp hother with hold | hadded
      · have hle := newest_of_le h.tidy.stamps hfirst (fun b hb => le_of_head hhead hb)
        exact hle other hold hne
      rw [mem_singleton.mp hadded]
      exact hlater
    have hkept := head_mem_prune hmem (head_of_newest hmem hnewest)
    have hshown := hcoherent.newest first hkept (by
      intro other hother
      by_cases hsame : other = first
      · rw [hsame]
      exact (hnewest other ((prune_sublist _).subset hother) hsame).le)
    exact hnew first hfirst (hshown.symm.trans hcur)
  intro horderly
  exact (afterwards_kept h horderly).coherent

theorem settings_coherent_iff_first :
    Coherent (afterwards emptyGroup ⟨1, some .owner, 1⟩ (.settings (publish "A".toList))) :=
  (settings_coherent_iff (new_kept ⟨rfl, rfl⟩) rfl (by decide)).mpr (by decide)

end Runs

/-- Two announcements of which the first is published again. -/
def backAndForth : List (Request × Operation) :=
  [byOwner 1 (.settings (publish "A".toList)), byOwner 2 (.settings (publish "B".toList)),
    byOwner 3 (.settings (publish "A".toList))]

theorem announcements_incoherent : ¬ ∀ g, announcementMachine.Reachable g → Coherent g := by
  intro h
  have hnew : announcementMachine.initial emptyGroup := ⟨rfl, rfl⟩
  have hrun : ∃ g, announcementMachine.execute emptyGroup backAndForth = some g ∧
      g.current = ⟨"A".toList, []⟩ ∧
      g.history = [⟨0, ⟨"A".toList, []⟩, 1, 1⟩, ⟨1, ⟨"B".toList, []⟩, 1, 2⟩] :=
    ⟨_, rfl, by decide, by decide⟩
  obtain ⟨g, hexecute, hcur, hhistory⟩ := hrun
  have hcoherent := h g (announcementMachine.reachable_of_execute hnew hexecute)
  have hshown := hcoherent.newest ⟨1, ⟨"B".toList, []⟩, 1, 2⟩ (by simp [hhistory]) (by
    simp [hhistory])
  rw [hcur] at hshown
  exact absurd hshown (by decide)

end ImApp.Announcements
