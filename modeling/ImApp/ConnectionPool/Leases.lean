import ImApp.ConnectionPool.Pool

/-!
What the operations of the pool keep. Every resource that was made is pooled or
disposed of, never both; a pooled one is busy exactly while a lease of it is out;
and no invalidation since its creation began has selected it.
-/

namespace ImApp.ConnectionPool

open List Function Bool

variable {κ : Type} {pool : Pool κ}

namespace Pool

/-- Each invalidation from the beginning of the creation of `n` up to `limit` met
it pooled and left it out. -/
def Spared (pool : Pool κ) (n limit : Nat) : Prop :=
  ∀ i, pool.began n ≤ i → i < limit → ∃ record, pool.invalidations[i]? = some record ∧
    record.matched = true ∧ n ∈ record.pooled ∧ n ∉ record.selected

structure Sound (pool : Pool κ) : Prop where
  nodup : pool.entries.Nodup
  once : pool.disposed.Nodup
  alive : ∀ n ∈ pool.entries, n ∉ pool.disposed
  accounted : ∀ n, n ∈ pool.created ↔ n ∈ pool.entries ∨ n ∈ pool.disposed
  busy : ∀ n ∈ pool.entries, (pool.objects n).busy = (pool.holder n).isSome
  counted : pool.generation = pool.invalidations.length
  spared : ∀ n ∈ pool.entries, pool.Spared n pool.generation
  handed : ∀ handout ∈ pool.handed, handout.resource ∈ pool.created ∧
    handout.generation ≤ pool.generation ∧ pool.Spared handout.resource handout.generation
  held : ∀ n, (pool.holder n).isSome = true → n ∈ pool.created
  taken : ∀ n ∈ pool.disposed, (pool.holder n).isSome = true →
    ∃ record ∈ pool.invalidations, n ∈ record.selected

/-- No entry that is pooled is invalid between two steps. -/
def Valid (pool : Pool κ) : Prop := ∀ n ∈ pool.entries, (pool.objects n).invalid = false

variable {n id : Nat}

theorem Sound.created_of_mem (hs : pool.Sound) (hn : n ∈ pool.entries) :
    n ∈ pool.created := (hs.accounted n).mpr (.inl hn)

/-- The pool after the disposal of `ns`. -/
def without (pool : Pool κ) (ns : List Nat) : Pool κ :=
  { pool with
    entries := pool.entries.filter fun n => n ∉ ns
    disposing := pool.disposing ++ ns
    disposed := pool.disposed ++ ns }

variable {ns : List Nat}

theorem removeAll_eq (hnodup : pool.entries.Nodup) (hns : ns.Nodup)
    (hsub : ∀ n ∈ ns, n ∈ pool.entries) : pool.removeAll ns = pool.without ns := by
  induction ns generalizing pool with
  | nil => simp [removeAll, without]
  | cons n rest ih =>
    obtain ⟨hfresh, hrest⟩ := nodup_cons.mp hns
    have hremove : pool.remove n = pool.without [n] := by
      rw [remove, if_pos (hsub n mem_cons_self), hnodup.erase_eq_filter]
      simp only [without, mem_singleton, bne]
      congr 2
      funext k
      by_cases hk : k = n <;> simp [hk]
    have hleft : ∀ k ∈ rest, k ∈ (pool.without [n]).entries := by
      intro k hk
      have hne : k ≠ n := fun heq => hfresh (heq ▸ hk)
      exact mem_filter.mpr ⟨hsub k (mem_cons_of_mem _ hk), by simpa using hne⟩
    change (pool.remove n).removeAll rest = _
    rw [hremove, ih (hnodup.filter _) hrest hleft]
    simp only [without, filter_filter, append_assoc, singleton_append]
    congr 2
    funext k
    by_cases hk : k = n <;> simp [hk]

theorem mem_without : n ∈ (pool.without ns).entries ↔ n ∈ pool.entries ∧ n ∉ ns := by
  simp [without]

theorem Sound.without (hs : pool.Sound) (hns : ns.Nodup)
    (hsub : ∀ n ∈ ns, n ∈ pool.entries) (hfree : ∀ n ∈ ns, pool.holder n = none) :
    (pool.without ns).Sound := by
  constructor
  · exact hs.nodup.filter _
  · refine nodup_append'.mpr ⟨hs.once, hns, ?_⟩
    intro n hn hdisposed
    exact hs.alive n (hsub n hdisposed) hn
  · intro n hn hdisposed
    obtain ⟨hn, hnot⟩ := mem_without.mp hn
    exact (mem_append.mp hdisposed).elim (hs.alive n hn) hnot
  · intro n
    rw [mem_without]
    change n ∈ pool.created ↔ _ ∨ n ∈ pool.disposed ++ ns
    rw [hs.accounted n, mem_append]
    by_cases hn : n ∈ ns
    · simp [hn, hsub n hn]
    simp [hn]
  · intro n hn
    exact hs.busy n (mem_without.mp hn).1
  · exact hs.counted
  · intro n hn
    exact hs.spared n (mem_without.mp hn).1
  · exact hs.handed
  · exact hs.held
  intro n hn hheld
  rcases mem_append.mp hn with hn | hn
  · exact hs.taken n hn hheld
  change (pool.holder n).isSome = true at hheld
  rw [hfree n hn] at hheld
  cases hheld

theorem Valid.without (hv : pool.Valid) (ns : List Nat) : (pool.without ns).Valid :=
  fun n hn => hv n (mem_without.mp hn).1

theorem Sound.free (hs : pool.Sound) (hn : n ∈ pool.entries)
    (hidle : (pool.objects n).busy = false) : pool.holder n = none := by
  have hbusy := hs.busy n hn
  rw [hidle] at hbusy
  exact Option.isNone_iff_eq_none.mp (Option.isSome_eq_false_iff.mp hbusy.symm)

section

variable (hs : pool.Sound)
include hs

theorem Sound.giveBack (n : Nat) (invalid : Bool) (now : Int) :
    (pool.giveBack n invalid now).Sound := by
  have hfree : ∀ k, (Function.update pool.holder n none k).isSome = true →
      k ≠ n ∧ (pool.holder k).isSome = true := by
    intro k hk
    by_cases hkn : k = n
    · rw [hkn, update_self] at hk
      cases hk
    rw [update_of_ne hkn] at hk
    exact ⟨hkn, hk⟩
  refine { hs with busy := ?_, held := ?_, taken := ?_ }
  · intro k hk
    by_cases hkn : k = n
    · subst hkn
      simp [Pool.giveBack, setEntry]
    simpa [Pool.giveBack, setEntry, hkn] using hs.busy k hk
  · intro k hk
    exact hs.held k (hfree k hk).2
  intro k hk hheld
  exact hs.taken k hk (hfree k hheld).2

theorem Sound.lease (hn : n ∈ pool.entries) (call : Nat) : (pool.lease n call).Sound := by
  have hcreated := hs.created_of_mem hn
  refine { hs with busy := ?_, handed := ?_, held := ?_, taken := ?_ }
  · intro k hk
    by_cases hkn : k = n
    · subst hkn
      simp [Pool.lease, setEntry]
    simpa [Pool.lease, setEntry, hkn] using hs.busy k hk
  · intro handout hmem
    rcases mem_append.mp hmem with hold | hnew
    · exact hs.handed handout hold
    rw [mem_singleton.mp hnew]
    exact ⟨hcreated, le_rfl, hs.spared n hn⟩
  · intro k hk
    by_cases hkn : k = n
    · rw [hkn]
      exact hcreated
    apply hs.held k
    simpa [Pool.lease, setEntry, hkn] using hk
  intro k hk hheld
  have hkn : k ≠ n := by
    rintro rfl
    exact hs.alive k hn hk
  apply hs.taken k hk
  simpa [Pool.lease, setEntry, hkn] using hheld

theorem Sound.create (hfresh : id ∉ pool.created)
    (hbegan : pool.began id = pool.generation) (key : κ) (now : Int) :
    (({ pool with created := pool.created ++ [id] } : Pool κ).create id key now).Sound := by
  have hentry : id ∉ pool.entries := fun h => hfresh (hs.created_of_mem h)
  have hdisposed : id ∉ pool.disposed := fun h => hfresh ((hs.accounted id).mpr (.inr h))
  constructor
  · refine nodup_append'.mpr ⟨hs.nodup, nodup_singleton id, ?_⟩
    intro n hn hid
    exact hentry (mem_singleton.mp hid ▸ hn)
  · exact hs.once
  · intro n hn
    rcases mem_append.mp hn with hn | hn
    · exact hs.alive n hn
    rw [mem_singleton.mp hn]
    exact hdisposed
  · intro n
    change n ∈ pool.created ++ [id] ↔ n ∈ pool.entries ++ [id] ∨ n ∈ pool.disposed
    have haccounted := hs.accounted n
    simp only [mem_append, mem_singleton]
    tauto
  · intro n hn
    by_cases hid : n = id
    · subst hid
      have hnone : pool.holder n = none := by
        by_contra hheld
        exact hfresh (hs.held n (Option.isSome_iff_ne_none.mpr hheld))
      simp [Pool.create, setEntry, hnone]
    have hold : n ∈ pool.entries := by
      rcases mem_append.mp hn with hn | hn
      · exact hn
      exact absurd (mem_singleton.mp hn) hid
    simpa [Pool.create, setEntry, hid] using hs.busy n hold
  · exact hs.counted
  · intro n hn
    rcases mem_append.mp hn with hn | hn
    · exact hs.spared n hn
    rw [mem_singleton.mp hn]
    intro i hle hlt
    change pool.began id ≤ i at hle
    change i < pool.generation at hlt
    omega
  · intro handout hmem
    obtain ⟨hcreated, hrest⟩ := hs.handed handout hmem
    exact ⟨mem_append_left _ hcreated, hrest⟩
  · intro n hn
    exact mem_append_left _ (hs.held n hn)
  exact hs.taken

/-- The disposal of a resource whose creation an invalidation came in between of. -/
theorem Sound.disposeLate (hfresh : id ∉ pool.created) :
    (({ pool with created := pool.created ++ [id] } : Pool κ).disposeLate id).Sound := by
  have hentry : id ∉ pool.entries := fun h => hfresh (hs.created_of_mem h)
  have hdisposed : id ∉ pool.disposed := fun h => hfresh ((hs.accounted id).mpr (.inr h))
  refine { hs with once := ?_, alive := ?_, accounted := ?_, handed := ?_, held := ?_, taken := ?_ }
  · refine nodup_append'.mpr ⟨hs.once, nodup_singleton id, ?_⟩
    intro n hn hid
    exact hdisposed (mem_singleton.mp hid ▸ hn)
  · intro n hn hmem
    rcases mem_append.mp hmem with hold | hid
    · exact hs.alive n hn hold
    exact hentry (mem_singleton.mp hid ▸ hn)
  · intro n
    change n ∈ pool.created ++ [id] ↔ n ∈ pool.entries ∨ n ∈ pool.disposed ++ [id]
    have haccounted := hs.accounted n
    simp only [mem_append, mem_singleton]
    tauto
  · intro handout hmem
    obtain ⟨hcreated, hrest⟩ := hs.handed handout hmem
    exact ⟨mem_append_left _ hcreated, hrest⟩
  · intro n hn
    exact mem_append_left _ (hs.held n hn)
  intro n hn hheld
  rcases mem_append.mp hn with hold | hid
  · exact hs.taken n hold hheld
  rw [mem_singleton.mp hid] at hheld
  exact absurd (hs.held id hheld) hfresh

theorem Sound.begin (hfresh : id ∉ pool.created) (generation : Nat) :
    ({ pool with began := Function.update pool.began id generation } : Pool κ).Sound := by
  have hspared : ∀ n limit, n ∈ pool.created → pool.Spared n limit →
      ({ pool with began := Function.update pool.began id generation } : Pool κ).Spared n limit := by
    intro n limit hn hold i hle hlt
    have hne : n ≠ id := fun heq => hfresh (heq ▸ hn)
    apply hold i _ hlt
    simpa [hne] using hle
  refine { hs with spared := ?_, handed := ?_ }
  · intro n hn
    exact hspared n _ (hs.created_of_mem hn) (hs.spared n hn)
  intro handout hmem
  obtain ⟨hcreated, hle, hold⟩ := hs.handed handout hmem
  exact ⟨hcreated, hle, hspared _ _ hcreated hold⟩

theorem Sound.invalidate (choose : Option (κ → Nat → Bool)) :
    ((pool.mark choose).without (pool.selected choose)).Sound := by
  have hsub : ∀ n ∈ pool.selected choose, n ∈ pool.entries :=
    fun n hn => (mem_filter.mp hn).1
  have hold : ∀ (i : Nat) (record : Invalidation), pool.invalidations[i]? = some record →
      (pool.invalidations ++ [⟨choose.isSome, pool.entries, pool.selected choose⟩])[i]? =
        some record := by
    intro i record hrec
    rw [getElem?_append_left (List.getElem?_eq_some_iff.mp hrec).1]
    exact hrec
  constructor
  · exact hs.nodup.filter _
  · refine nodup_append'.mpr ⟨hs.once, hs.nodup.filter _, ?_⟩
    intro n hn hselected
    exact hs.alive n (hsub n hselected) hn
  · intro n hn hdisposed
    obtain ⟨hn, hnot⟩ := mem_without.mp hn
    exact (mem_append.mp hdisposed).elim (hs.alive n hn) hnot
  · intro n
    rw [mem_without]
    change n ∈ pool.created ↔ (n ∈ pool.entries ∧ _) ∨ n ∈ pool.disposed ++ pool.selected choose
    rw [hs.accounted n, mem_append]
    by_cases hn : n ∈ pool.selected choose
    · simp [hn, hsub n hn]
    simp [hn]
  · intro n hn
    obtain ⟨hentry, hnot⟩ := mem_without.mp hn
    change (if n ∈ pool.selected choose then _ else pool.objects n).busy = _
    rw [if_neg hnot]
    exact hs.busy n hentry
  · change pool.generation + 1 = (pool.invalidations ++ [_]).length
    rw [length_append, hs.counted, length_singleton]
  · intro n hn i hle hlt
    obtain ⟨hentry, hnot⟩ := mem_without.mp hn
    change i < pool.generation + 1 at hlt
    rcases Nat.lt_succ_iff_lt_or_eq.mp hlt with hpre | hnow
    · obtain ⟨record, hrec, hspared⟩ := hs.spared n hentry i hle hpre
      exact ⟨record, hold i record hrec, hspared⟩
    refine ⟨⟨choose.isSome, pool.entries, pool.selected choose⟩, ?_, ?_, hentry, hnot⟩
    · change (pool.invalidations ++ [_])[i]? = _
      rw [hnow, hs.counted, getElem?_concat_length]
    cases choose with
    | none => exact absurd (mem_filter.mpr ⟨hentry, rfl⟩) hnot
    | some test => rfl
  · intro handout hmem
    obtain ⟨hcreated, hle, hspared⟩ := hs.handed handout hmem
    refine ⟨hcreated, Nat.le_succ_of_le hle, ?_⟩
    intro i hbegan hlt
    obtain ⟨record, hrec, hrest⟩ := hspared i hbegan hlt
    exact ⟨record, hold i record hrec, hrest⟩
  · exact hs.held
  intro n hn hheld
  rcases mem_append.mp hn with hn | hn
  · obtain ⟨record, hrec, hselected⟩ := hs.taken n hn hheld
    exact ⟨record, mem_append_left _ hrec, hselected⟩
  exact ⟨_, mem_append_right _ (mem_singleton_self _), hn⟩

theorem invalidate_eq (choose : Option (κ → Nat → Bool)) :
    pool.invalidate choose = (pool.mark choose).without (pool.selected choose) := by
  have hnodup : (pool.mark choose).entries.Nodup := hs.nodup
  exact removeAll_eq hnodup (hs.nodup.filter _) fun _ hn => (mem_filter.mp hn).1

end

variable {options : Options}

theorem cleanup_eq (hs : pool.Sound) (now : Int) (usable : Nat → Bool) :
    pool.cleanup options now usable = pool.without (pool.expired options now usable) :=
  removeAll_eq hs.nodup (hs.nodup.filter _) fun _ hn => (mem_filter.mp hn).1

variable [DecidableEq κ]

def idle (pool : Pool κ) (key : κ) : List Nat := pool.entries.filter (pool.isIdle key)

def Capped (options : Options) (pool : Pool κ) : Prop :=
  ∀ key, (pool.idle key).length ≤ options.maxIdle

theorem idle_without (ns : List Nat) (key : κ) :
    ((pool.without ns).idle key).Sublist (pool.idle key) :=
  filter_sublist.filter _

theorem Capped.without (hc : pool.Capped options) (ns : List Nat) :
    (pool.without ns).Capped options :=
  fun key => (idle_without ns key).length_le.trans (hc key)

/-- What holds of the pool between two steps. -/
structure Good (options : Options) (pool : Pool κ) : Prop where
  sound : pool.Sound
  valid : pool.Valid
  capped : pool.Capped options

section

variable (hg : pool.Good options)
include hg

theorem Good.without (hns : ns.Nodup)
    (hsub : ∀ n ∈ ns, n ∈ pool.entries) (hfree : ∀ n ∈ ns, pool.holder n = none) :
    (pool.without ns).Good options :=
  ⟨hg.sound.without hns hsub hfree, hg.valid.without ns, hg.capped.without ns⟩

theorem Good.cleanup (now : Int) (usable : Nat → Bool) :
    (pool.cleanup options now usable).Good options := by
  rw [cleanup_eq hg.sound]
  apply hg.without (hg.sound.nodup.filter _)
  · intro n hn
    exact (mem_filter.mp hn).1
  intro n hn
  obtain ⟨hentry, htest⟩ := mem_filter.mp hn
  apply hg.sound.free hentry
  simp only [and_eq_true, not_eq_true'] at htest
  exact htest.1

theorem Good.invalidate (choose : Option (κ → Nat → Bool)) :
    (pool.invalidate choose).Good options := by
  rw [invalidate_eq hg.sound]
  refine ⟨hg.sound.invalidate choose, ?_, ?_⟩
  · intro n hn
    obtain ⟨hentry, hnot⟩ := mem_without.mp hn
    change (if n ∈ pool.selected choose then _ else pool.objects n).invalid = false
    rw [if_neg hnot]
    exact hg.valid n hentry
  intro key
  refine le_trans (List.Sublist.length_le ?_) (hg.capped key)
  rw [idle, filter_congr (q := pool.isIdle key)]
  · exact filter_sublist.filter _
  intro n hn
  have hnot := (mem_without.mp hn).2
  simp only [isIdle, Pool.without, mark, if_neg hnot]

theorem Good.begin (hfresh : id ∉ pool.created) (generation : Nat) :
    ({ pool with began := Function.update pool.began id generation } : Pool κ).Good options :=
  ⟨hg.sound.begin hfresh generation, hg.valid, hg.capped⟩

theorem Good.disposeLate (hfresh : id ∉ pool.created) :
    (({ pool with created := pool.created ++ [id] } : Pool κ).disposeLate id).Good options :=
  ⟨hg.sound.disposeLate hfresh, hg.valid, hg.capped⟩

theorem Good.create (hfresh : id ∉ pool.created)
    (hbegan : pool.began id = pool.generation) (key : κ) (now : Int) :
    ((({ pool with created := pool.created ++ [id] } : Pool κ).create id key now).lease
      id id).Good options := by
  have hentry : ∀ n ∈ pool.entries, n ≠ id := by
    rintro n hn rfl
    exact hfresh (hg.sound.created_of_mem hn)
  refine ⟨(hg.sound.create hfresh hbegan key now).lease
    (mem_append_right _ (mem_singleton_self id)) id, ?_, ?_⟩
  · intro n hn
    rcases mem_append.mp hn with hn | hn
    · simpa [Pool.create, Pool.lease, setEntry, hentry n hn] using hg.valid n hn
    rw [mem_singleton.mp hn]
    simp [Pool.create, Pool.lease, setEntry]
  intro other
  refine le_trans (le_of_eq ?_) (hg.capped other)
  change ((pool.entries ++ [id]).filter _).length = _
  rw [filter_append, filter_cons_of_neg (by simp [Pool.create, Pool.lease, isIdle, setEntry]),
    filter_nil, append_nil, idle, filter_congr]
  intro n hn
  simp [Pool.create, Pool.lease, isIdle, setEntry, hentry n hn]

end

variable {key : κ}

theorem existing_some {usable : Nat → Bool}
    (h : pool.existing key usable = some n) : n ∈ pool.entries ∧ pool.isIdle key n = true := by
  have hmem := KeepNewest.mem_newestFirst.mp (mem_of_head? h)
  obtain ⟨hentry, htest⟩ := mem_filter.mp hmem
  simp only [and_eq_true] at htest
  exact ⟨hentry, htest.1.1⟩

theorem Good.lease (hg : pool.Good options) (hn : n ∈ pool.entries) (call : Nat) :
    (pool.lease n call).Good options := by
  refine ⟨hg.sound.lease hn call, ?_, ?_⟩
  · intro k hk
    by_cases hkn : k = n
    · subst hkn
      simpa [Pool.lease, setEntry] using hg.valid k hk
    simpa [Pool.lease, setEntry, hkn] using hg.valid k hk
  intro key
  refine le_trans (List.Sublist.length_le ?_) (hg.capped key)
  apply monotone_filter_right
  intro k hk
  by_cases hkn : k = n
  · subst hkn
    simp [Pool.lease, isIdle, setEntry] at hk
  simpa [Pool.lease, isIdle, setEntry, hkn] using hk

theorem isIdle_giveBack {k : Nat} (hk : k ≠ n) (invalid : Bool) (now : Int) (key : κ) :
    (pool.giveBack n invalid now).isIdle key k = pool.isIdle key k := by
  simp [isIdle, giveBack, setEntry, hk]

section

variable (hg : pool.Good options)
include hg

theorem Good.invalid_giveBack {k : Nat} (hentry : k ∈ pool.entries)
    (hk : k ≠ n) (invalid : Bool) (now : Int) :
    ((pool.giveBack n invalid now).objects k).invalid = false := by
  simpa [giveBack, setEntry, hk] using hg.valid k hentry

/-- A resource that comes back unusable is disposed of, unless it was before. -/
theorem Good.release_invalid (n : Nat) (now : Int) :
    ((pool.giveBack n true now).remove n).Good options := by
  have hsound := hg.sound.giveBack n true now
  by_cases hentry : n ∈ pool.entries
  · have hsub : ∀ k ∈ [n], k ∈ (pool.giveBack n true now).entries := by
      intro k hk
      rw [mem_singleton.mp hk]
      exact hentry
    have hremove : (pool.giveBack n true now).remove n = (pool.giveBack n true now).without [n] :=
      removeAll_eq hsound.nodup (nodup_singleton n) hsub
    rw [hremove]
    refine ⟨hsound.without (nodup_singleton n) hsub (by simp [giveBack]), ?_, ?_⟩
    · intro k hk
      obtain ⟨hk, hkn⟩ := mem_without.mp hk
      exact hg.invalid_giveBack hk (by simpa using hkn) true now
    intro key
    refine le_trans (List.Sublist.length_le ?_) (hg.capped key)
    rw [idle, filter_congr (q := pool.isIdle key)]
    · exact filter_sublist.filter _
    intro k hk
    exact isIdle_giveBack (by simpa using (mem_without.mp hk).2) true now key
  have hremove : (pool.giveBack n true now).remove n = pool.giveBack n true now :=
    if_neg hentry
  have hne : ∀ k ∈ pool.entries, k ≠ n := by
    rintro k hk rfl
    exact hentry hk
  rw [hremove]
  refine ⟨hsound, fun k hk => hg.invalid_giveBack hk (hne k hk) true now, ?_⟩
  intro key
  refine le_trans (le_of_eq ?_) (hg.capped key)
  change (pool.entries.filter _).length = (pool.entries.filter _).length
  rw [filter_congr fun k hk => isIdle_giveBack (hne k hk) true now key]

/-- A resource that comes back is idle, and the surplus of its key is disposed of. -/
theorem Good.release_valid
    (hkey : (pool.objects n).key = key) (now : Int) : ((pool.giveBack n false now).removeAll
      (((pool.giveBack n false now).idleForKey key).drop options.maxIdle)).Good options := by
  have hsound := hg.sound.giveBack n false now
  have hvalid : (pool.giveBack n false now).Valid := by
    intro k hk
    by_cases hkn : k = n
    · subst hkn
      simp [giveBack, setEntry]
    exact hg.invalid_giveBack hk hkn false now
  have hperm : ((pool.giveBack n false now).idleForKey key).Perm
      ((pool.giveBack n false now).idle key) := by
    have hall : (pool.giveBack n false now).entries.filter (fun k =>
        (pool.giveBack n false now).isIdle key k &&
          !((pool.giveBack n false now).objects k).invalid) =
        (pool.giveBack n false now).idle key := by
      apply filter_congr
      intro k hk
      simp [hvalid k hk]
    rw [idleForKey, hall]
    exact KeepNewest.newestFirst_perm _ _
  have hidle : ∀ k ∈ ((pool.giveBack n false now).idleForKey key).drop options.maxIdle,
      k ∈ (pool.giveBack n false now).idle key :=
    fun k hk => hperm.mem_iff.mp (mem_of_mem_drop hk)
  have hnodup : (((pool.giveBack n false now).idleForKey key).drop options.maxIdle).Nodup :=
    (hperm.nodup_iff.mpr (hsound.nodup.filter _)).sublist (drop_sublist _ _)
  have hsub : ∀ k ∈ ((pool.giveBack n false now).idleForKey key).drop options.maxIdle,
      k ∈ (pool.giveBack n false now).entries :=
    fun k hk => (mem_filter.mp (hidle k hk)).1
  rw [removeAll_eq hsound.nodup hnodup hsub]
  refine ⟨hsound.without hnodup hsub ?_, hvalid.without _, ?_⟩
  · intro k hk
    obtain ⟨hentry, htest⟩ := mem_filter.mp (hidle k hk)
    simp only [isIdle, and_eq_true, not_eq_true'] at htest
    exact hsound.free hentry htest.2
  intro other
  by_cases hother : other = key
  · subst hother
    refine le_trans (le_of_eq ?_)
      (KeepNewest.length_without_drop (hsound.nodup.filter _) hperm options.maxIdle)
    change ((pool.entries.filter _).filter _).length = ((pool.entries.filter _).filter _).length
    rw [filter_filter, filter_filter]
    congr 2
    funext k
    exact and_comm _ _
  refine le_trans (idle_without _ other).length_le (le_trans (le_of_eq ?_) (hg.capped other))
  change (pool.entries.filter _).length = (pool.entries.filter _).length
  congr 2
  funext k
  by_cases hkn : k = n
  · subst hkn
    simp [isIdle, giveBack, setEntry, hkey, Ne.symm hother]
  exact isIdle_giveBack hkn false now other

theorem Good.release
    (hkey : (pool.objects n).key = key) (discard : Bool) (now : Int) (usable : Nat → Bool) :
    (pool.release options key n discard now usable).Good options := by
  cases hinvalid : (pool.objects n).invalid || discard || !usable n with
  | true =>
    simp only [Pool.release, hinvalid, if_true]
    exact hg.release_invalid n now
  | false =>
    simp only [Pool.release, hinvalid, false_eq_true, if_false]
    exact hg.release_valid hkey now

end

end Pool

end ImApp.ConnectionPool
