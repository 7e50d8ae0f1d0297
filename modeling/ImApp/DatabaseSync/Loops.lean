import ImApp.DatabaseSync.Paging

/-!
The loops of a sync over the pages of a table. Every row is read exactly once, so the
source acts as one page, and the second loop keeps exactly the target rows whose key text
the source has.
-/

namespace ImApp.DatabaseSync

open List KeysetPaging Collation

variable {server : Server} {environment : Environment} {schema : Schema} {columns : List Column}
  {options : DataSyncOptions} {source table rows pages more target : List Row} {s : Session}
  {fits : Prop} {a b t : Row} {last : Option Row}

/-- The order in which a server reads the rows. -/
abbrev order (server : Server) (schema : Schema) (a b : Row) : Prop :=
  server.collation.rowLe schema.primaryKey a b = true

theorem readChunk_ends (hlast : ∀ a ∈ last, ∀ column ∈ schema.primaryKey, (a column).isNull = false) :
    Ends environment.Calm fits (fun found =>
        found.1 = (KeysetPaging.page (order server schema) dataChunkSize table last).map
          (select columns) ∧ found.2.target = s.target)
      (readChunk server environment s table columns schema.primaryKey
        (last.map fun a => schema.primaryKey.map a)) := by
  unfold readChunk
  refine query_ends.bind fun t ht => ⟨?_, ht⟩
  have hfilter : (table.filter fun row => (last.map fun a => schema.primaryKey.map a).all fun key =>
      server.collation.tupleGreater schema.primaryKey row key) =
        KeysetPaging.unread (order server schema) table last := by
    cases last with
    | none => simp [KeysetPaging.unread]
    | some a =>
      refine filter_congr fun row _ => ?_
      rw [Option.map_some, Option.all_some, Bool.eq_iff_iff, decide_eq_true_eq,
        tupleGreater_iff (hlast a rfl)]
  rw [hfilter]
  rfl

theorem keyed_of_unique (h : Unique server schema.primaryKey rows) :
    KeysetPaging.Keyed (order server schema) rows :=
  h.imp fun hne heq => hne (rowLe_antisymm.mp heq)

theorem Rows.perm (h : Rows server schema columns rows) (hperm : rows.Perm more) :
    Rows server schema columns more where
  unique := hperm.pairwise h.unique fun hne heq => hne (sameKey_symm heq)
  readable := fun row hrow => h.readable row (hperm.mem_iff.mpr hrow)

theorem Rows.sublist (h : Rows server schema columns rows) (hsub : more.Sublist rows) :
    Rows server schema columns more :=
  ⟨h.unique.sublist hsub, fun row hrow => h.readable row (hsub.subset hrow)⟩

theorem lastOfPage {chunk page : List Row} {row : Row} (hchunk : chunk = page.map (select columns))
    (hrow : chunk.getLast? = some row) :
    ∃ a front, page = front ++ [a] ∧ select columns a = row := by
  obtain ⟨front, hfront⟩ := getLast?_eq_some_iff.mp hrow
  rw [hchunk] at hfront
  obtain ⟨old, new, hsplit, _, hnew⟩ := map_eq_append_iff.mp hfront
  obtain ⟨a, rest, rfl, ha, hrest⟩ := map_eq_cons_iff.mp hnew
  obtain rfl := map_eq_nil_iff.mp hrest
  exact ⟨a, old, hsplit, ha⟩

/-- Keys that are equal for the server have the same text. -/
def NoTwins (server : Server) (schema : Schema) (source target : List Row) : Prop :=
  ∀ a ∈ source, ∀ t ∈ target, server.collation.sameKey schema.primaryKey a t →
    rowKey schema.primaryKey a = rowKey schema.primaryKey t

/-- The source has a row with the key text of `t`. -/
def kept (schema : Schema) (source : List Row) (t : Row) : Bool :=
  source.any fun a => rowKey schema.primaryKey a = rowKey schema.primaryKey t

section Key

variable (hkey : schema.primaryKey ⊆ columns)
include hkey

theorem select_key : schema.primaryKey.map (select columns a) = schema.primaryKey.map a :=
  map_congr_left fun _ hcol => select_apply (hkey hcol)

theorem sameKey_select : server.collation.sameKey schema.primaryKey a (select columns a) :=
  server.collation.sameKey_of_eq fun _ hcol => (select_apply (hkey hcol)).symm

theorem Rows.select (h : Rows server schema columns rows) :
    Rows server schema columns (rows.map (DatabaseSync.select columns)) where
  unique := pairwise_map.mpr <| h.unique.imp fun hne heq => hne <|
    sameKey_trans (sameKey_select hkey)
      (sameKey_trans heq (sameKey_symm (sameKey_select hkey)))
  readable := by
    intro row hrow
    obtain ⟨old, hold, rfl⟩ := mem_map.mp hrow
    have hread := h.readable old hold
    refine ⟨fun column hcol => ?_, fun column hcol => ?_⟩
    · rw [select_apply (hkey hcol)]
      exact hread.present column hcol
    rw [select_apply hcol]
    exact hread.typed column hcol

theorem apart_of_rows (h : Rows server schema columns (pages ++ more)) :
    ∀ a ∈ pages, ∀ b ∈ more, rowKey schema.primaryKey a ≠ rowKey schema.primaryKey b := by
  intro a ha b hb heq
  obtain ⟨_, _, hcross⟩ := pairwise_append.mp h.unique
  exact hcross a ha b hb (sameKey_of_rowKey hkey server.collation (h.readable a (mem_append_left _ ha))
    (h.readable b (mem_append_right _ hb)) heq)

theorem additions_fit (hrows : Rows server schema columns (pages ++ more))
    (hafter : Rows server schema columns (afterPages server schema columns options pages target))
    (htwins : options.insert = true → NoTwins server schema more target) :
    Unique server schema.primaryKey (afterPages server schema columns options pages target ++
      additions server schema columns options more
        (afterPages server schema columns options pages target)) := by
  rw [additions_append hkey (apart_of_rows hkey hrows)]
  have hstored : ∀ a : Row, server.collation.sameKey schema.primaryKey a
      (storedRow server columns a) := fun a => sameKey_symm (sameKey_storedRow hkey a)
  obtain ⟨_, hmore, hcross⟩ := pairwise_append.mp hrows.unique
  refine pairwise_append.mpr ⟨hafter.unique, ?_, ?_⟩
  · unfold additions
    split
    · refine pairwise_map.mpr ((hmore.filter _).imp fun hne heq => hne ?_)
      exact sameKey_trans (hstored _)
        (sameKey_trans heq (sameKey_symm (hstored _)))
    exact List.Pairwise.nil
  intro t ht u hu hsame
  obtain ⟨hinsert, b, hb, hlacks, rfl⟩ := mem_additions.mp hu
  have htb := sameKey_trans hsame (sameKey_symm (hstored b))
  rcases mem_append.mp ht with hpatched | hadded
  · obtain ⟨old, hold, rfl⟩ := mem_map.mp hpatched
    have hbold : server.collation.sameKey schema.primaryKey b old :=
      sameKey_symm (sameKey_trans
        (sameKey_symm (sameKey_patch server.collation pages old)) htb)
    exact lacks_iff.mp hlacks old hold (htwins hinsert b hb old hold hbold).symm
  obtain ⟨_, a, ha, _, rfl⟩ := mem_additions.mp hadded
  exact hcross a ha b hb (sameKey_trans (hstored a) htb)

theorem sourceLoop_ends (hsrc : Rows server schema columns source)
    (htwins : fits → options.insert = true → NoTwins server schema source target) {fuel : ℕ}
    (hlast : ∀ a ∈ last, a ∈ source)
    (hfuel : (KeysetPaging.unread (order server schema) source last).length < fuel)
    (hperm : (pages ++ (KeysetPaging.unread (order server schema) source last).map
      (select columns)).Perm (source.map (select columns)))
    (hs : s.target = afterPages server schema columns options pages target)
    (hrows : Rows server schema columns s.target) :
    Ends environment.Calm fits (fun t => ∃ all : List Row, all.Perm (source.map (select columns)) ∧
          t.target = afterPages server schema columns options all target ∧
            Rows server schema columns t.target)
      (sourceLoop server environment source columns schema.primaryKey options fuel
        (last.map fun a => schema.primaryKey.map a) s) := by
  induction fuel generalizing s last pages with
  | zero => omega
  | succ fuel ih =>
    rw [sourceLoop]
    refine checkCancelled_ends.bind fun _ _ => ?_
    refine (readChunk_ends fun a ha => (hsrc.readable a (hlast a ha)).present).bind ?_
    rintro ⟨chunk, u⟩ ⟨hchunk, hu⟩
    dsimp only at hchunk hu ⊢
    rw [← hu] at hs hrows
    have hkeyed := keyed_of_unique hsrc.unique
    split
    case h_1 hempty =>
      -- the page is empty, so everything was read before it
      rw [getLast?_eq_none_iff] at hempty
      rw [hempty] at hchunk
      have hpage := map_eq_nil_iff.mp hchunk.symm
      have hshort : (KeysetPaging.page (order server schema) dataChunkSize source last).Perm _ :=
        page_of_short (by rw [hpage]; decide)
      rw [hpage, nil_perm] at hshort
      rw [hshort, map_nil, append_nil] at hperm
      exact ⟨pages, hperm, hs, hrows⟩
    case h_2 row hrow =>
      obtain ⟨a, front, hpage, rfl⟩ := lastOfPage hchunk hrow
      have hsplit := page_append_unread hkeyed hpage
      have hmem : a ∈ KeysetPaging.page (order server schema) dataChunkSize source last := by
        rw [hpage]
        simp
      have ha : a ∈ source := unread_subset (mem_page hmem)
      have hall := (((hsplit.map (select columns)).append_left pages).trans hperm)
      rw [map_append, ← hchunk, ← append_assoc] at hall
      have hread : Rows server schema columns (pages ++ chunk) :=
        ((hsrc.select hkey).perm hall.symm).sublist (sublist_append_left _ _)
      have hchunkRows := hread.sublist (sublist_append_right pages chunk)
      refine lookupRows_ends.bind ?_
      rintro ⟨found, v⟩ ⟨hfound, hv⟩
      dsimp only at hfound hv ⊢
      subst hfound
      rw [← hv] at hs hrows ⊢
      refine (sourceStep_ends hkey hrows hchunkRows fun hfits => ?_).bind fun w hw => ?_
      · rw [hs] at hrows ⊢
        refine additions_fit hkey hread hrows fun hinsert b hb t ht hsame => ?_
        rw [hchunk] at hb
        obtain ⟨old, hold, rfl⟩ := mem_map.mp hb
        have hold' := unread_subset (mem_page hold)
        rw [rowKey_of_eq fun column hcol => select_apply (hkey hcol)]
        exact htwins hfits hinsert old hold' t ht
          (sameKey_trans (sameKey_select hkey) hsame)
      obtain ⟨hw, hwrows⟩ := hw
      rw [hs, afterPages_append hkey (apart_of_rows hkey hread)] at hw
      split
      case isTrue hshort =>
        rw [hchunk, length_map] at hshort
        have hlast := (page_of_short hshort).map (select columns)
        rw [← hchunk] at hlast
        exact ⟨pages ++ chunk, (hlast.append_left pages).trans hperm, hw, hwrows⟩
      case isFalse =>
        rw [select_key hkey]
        have hlen := hsplit.length_eq
        rw [length_append, hpage, length_append, length_singleton] at hlen
        refine @ih (pages ++ chunk) w (some a) ?_ ?_ hall hw hwrows
        · rintro _ ⟨⟩
          exact ha
        omega

omit hkey in
theorem kept_iff : kept schema source t = true ↔
    ∃ a ∈ source, rowKey schema.primaryKey a = rowKey schema.primaryKey t := by
  simp [kept]

omit hkey in
theorem select_self (primaryKey : List Column) (a : Row) :
    primaryKey.map (select primaryKey a) = primaryKey.map a :=
  map_congr_left fun _ => select_apply

theorem targetStep_ends {page : List Row} (hsrc : Rows server schema columns source)
    (hrows : Rows server schema columns s.target) (hpage : page ⊆ s.target) :
    Ends environment.Calm fits (fun t => ∃ p : Row → Bool, t.target = s.target.filter p ∧
        ∀ u ∈ s.target, p u = true ↔ (u ∈ page → kept schema source u = true))
      (targetStep server environment schema.primaryKey (page.map (select schema.primaryKey))
        ((matching server schema.primaryKey source (page.map (select schema.primaryKey))).map
          (select schema.primaryKey)) s) := by
  have hkeys : ∀ t : Row, rowKey schema.primaryKey (select schema.primaryKey t) =
      rowKey schema.primaryKey t := fun t => rowKey_of_eq fun _ => select_apply
  have hextra : ∀ t ∈ page, rowKey schema.primaryKey (select schema.primaryKey t) ∈
      (((matching server schema.primaryKey source (page.map (select schema.primaryKey))).map
        (select schema.primaryKey)).map (rowKey schema.primaryKey)) ↔
          kept schema source t = true := by
    intro t ht
    rw [kept_iff, hkeys, map_map, mem_map]
    constructor
    · rintro ⟨a, ha, heq⟩
      rw [Function.comp_apply, hkeys] at heq
      exact ⟨a, mem_of_mem_filter ha, heq⟩
    rintro ⟨a, ha, heq⟩
    refine ⟨a, mem_filter.mpr ⟨ha, any_eq_true.mpr ⟨_, mem_map_of_mem ht, ?_⟩⟩, (hkeys a).trans heq⟩
    rw [select_self, tupleEqual_iff (hrows.readable t (hpage ht)).present]
    exact sameKey_of_rowKey hkey server.collation (hrows.readable t (hpage ht)) (hsrc.readable a ha) heq.symm
  unfold targetStep
  extract_lets sourceKeys extra
  have hmem : ∀ t ∈ page, select schema.primaryKey t ∈ extra ↔ kept schema source t = false := by
    intro t ht
    rw [mem_filter, and_iff_right (mem_map_of_mem ht), decide_eq_true_eq,
      hextra t ht, Bool.not_eq_true]
  have hdeleted : ∀ u ∈ s.target, (extra.any fun row => server.collation.tupleEqual
      schema.primaryKey u (schema.primaryKey.map row)) = true ↔
        u ∈ page ∧ kept schema source u = false := by
    intro u hu
    rw [any_eq_true]
    constructor
    · rintro ⟨row, hrow, hequal⟩
      obtain ⟨t, ht, rfl⟩ := mem_map.mp (mem_of_mem_filter hrow)
      rw [select_self, tupleEqual_iff (hrows.readable t (hpage ht)).present] at hequal
      obtain rfl := eq_of_sameKey hrows.unique (hpage ht) hu hequal
      exact ⟨ht, (hmem t ht).mp hrow⟩
    rintro ⟨hu', hnot⟩
    refine ⟨_, (hmem u hu').mpr hnot, ?_⟩
    rw [select_self, tupleEqual_iff (hrows.readable u hu).present]
    exact server.collation.sameKey_of_eq fun _ _ => rfl
  have hpred : ∀ u ∈ s.target, (!extra.any fun row => server.collation.tupleEqual
      schema.primaryKey u (schema.primaryKey.map row)) = true ↔
        (u ∈ page → kept schema source u = true) := by
    intro u hu
    rw [Bool.not_eq_true', ← Bool.not_eq_true, hdeleted u hu, not_and, Bool.not_eq_false]
  split
  case isTrue hnone =>
    rw [List.isEmpty_iff] at hnone
    refine ⟨fun _ => true, (filter_true _).symm, fun u hu => ?_⟩
    simpa [hnone] using hpred u hu
  case isFalse =>
    exact deleteRows_ends.bind fun t ht => ⟨_, ht, hpred⟩

/-- The second loop: the rows that stay are those whose key text the source has. -/
theorem targetLoop_ends (hsrc : Rows server schema columns source)
    (htable : Rows server schema columns table) {fuel : ℕ} (hlast : ∀ a ∈ last, a ∈ table)
    (hfuel : (KeysetPaging.unread (order server schema) table last).length < fuel)
    (hs : s.target = table.filter fun t =>
      KeysetPaging.isAfter (order server schema) last t || kept schema source t) :
    Ends environment.Calm fits (fun t => t.target = table.filter (kept schema source))
      (targetLoop server environment source schema.primaryKey fuel
        (last.map fun a => schema.primaryKey.map a) s) := by
  induction fuel generalizing s last with
  | zero => omega
  | succ fuel ih =>
    rw [targetLoop]
    refine checkCancelled_ends.bind fun _ _ => ?_
    refine (readChunk_ends fun a ha => (htable.readable a (hlast a ha)).present).bind ?_
    rintro ⟨chunk, u⟩ ⟨hchunk, hu⟩
    dsimp only at hchunk hu ⊢
    have hkeyed := keyed_of_unique htable.unique
    -- rows that were read already and deleted are on no later page
    have hsame : KeysetPaging.page (order server schema) dataChunkSize s.target last =
        KeysetPaging.page (order server schema) dataChunkSize table last := by
      rw [KeysetPaging.page, hs, unread_filter]
      rfl
    rw [hsame] at hchunk
    have hfinish : ∀ t ∈ table, t ∉ KeysetPaging.unread (order server schema) table last →
        (KeysetPaging.isAfter (order server schema) last t || kept schema source t) =
          kept schema source t := by
      intro t ht hread
      rw [mem_unread, and_iff_right ht, Bool.not_eq_true] at hread
      rw [hread, Bool.false_or]
    split
    case h_1 hempty =>
      rw [getLast?_eq_none_iff] at hempty
      rw [hempty] at hchunk
      have hpage := map_eq_nil_iff.mp hchunk.symm
      have hshort : (KeysetPaging.page (order server schema) dataChunkSize table last).Perm _ :=
        page_of_short (by rw [hpage]; decide)
      rw [hpage, nil_perm] at hshort
      refine (hu.trans hs).trans (filter_congr fun t ht => hfinish t ht ?_)
      rw [hshort]
      exact not_mem_nil
    case h_2 row hrow =>
      obtain ⟨a, front, hpage, rfl⟩ := lastOfPage hchunk hrow
      have hsplit := page_append_unread hkeyed hpage
      have hmem : a ∈ KeysetPaging.page (order server schema) dataChunkSize table last := by
        rw [hpage]
        simp
      have hunread := mem_page hmem
      have htgt : Rows server schema columns u.target := by
        rw [hu, hs]
        exact htable.sublist filter_sublist
      have hsub : KeysetPaging.page (order server schema) dataChunkSize table last ⊆ u.target := by
        intro t ht
        rw [hu, hs, mem_filter]
        obtain ⟨hmem, hafter⟩ := mem_unread.mp (mem_page ht)
        exact ⟨hmem, by rw [hafter, Bool.true_or]⟩
      rw [hchunk]
      refine lookupRows_ends.bind ?_
      rintro ⟨found, v⟩ ⟨hfound, hv⟩
      dsimp only at hfound hv ⊢
      subst hfound
      rw [← hv] at htgt hsub
      refine (targetStep_ends hkey hsrc htgt hsub).bind ?_
      rintro w ⟨p, hw, hp⟩
      rw [hv, hu, hs] at hw hp
      have hdecided : ∀ t ∈ table, ∀ after : Bool,
          (t ∈ KeysetPaging.unread (order server schema) table last →
            (t ∉ KeysetPaging.page (order server schema) dataChunkSize table last ↔ after = true)) →
          (t ∉ KeysetPaging.unread (order server schema) table last → after = false) →
          (p t && (KeysetPaging.isAfter (order server schema) last t || kept schema source t)) =
            (after || kept schema source t) := by
        intro t ht after hin hout
        by_cases hread : t ∈ KeysetPaging.unread (order server schema) table last
        · have hafter := (mem_unread.mp hread).2
          have hpt := hp t (mem_filter.mpr ⟨ht, by rw [hafter, Bool.true_or]⟩)
          rw [hafter, Bool.true_or, Bool.and_true, Bool.eq_iff_iff, hpt, Bool.or_eq_true,
            ← hin hread]
          tauto
        rw [hfinish t ht hread, hout hread, Bool.false_or]
        cases hkept : kept schema source t with
        | false => rw [Bool.and_false]
        | true =>
          have hpt := hp t (mem_filter.mpr ⟨ht, by rw [hkept, Bool.or_true]⟩)
          rw [hpt.mpr fun _ => hkept, Bool.and_true]
      split
      case isTrue hshort =>
        rw [← hchunk, hchunk, length_map] at hshort
        have hperm := page_of_short hshort
        change w.target = _
        rw [hw, filter_filter]
        refine filter_congr fun t ht => ?_
        rw [hdecided t ht false (fun hread => ?_) (fun _ => rfl), Bool.false_or]
        simp [hperm.mem_iff.mpr hread]
      case isFalse =>
        rw [select_self]
        have hlen := hsplit.length_eq
        rw [length_append, hpage, length_append, length_singleton] at hlen
        refine @ih _ (some a) ?_ (by omega) ?_
        · rintro _ ⟨⟩
          exact unread_subset hunread
        rw [hw, filter_filter]
        refine filter_congr fun t ht => hdecided t ht _ (fun hread => ?_) (fun hread => ?_)
        · constructor
          · intro hnot
            have hmem := (hsplit.mem_iff (a := t)).mpr hread
            rcases mem_append.mp hmem with hin | hrest
            · exact absurd hin hnot
            exact (mem_unread.mp hrest).2
          intro hafter hin
          rw [not_after_of_mem_page hkeyed hpage hin] at hafter
          exact Bool.false_ne_true hafter
        rw [Bool.eq_false_iff]
        exact fun hafter => hread
          (unread_of_before hunread ht (of_decide_eq_true hafter))

end Key

end ImApp.DatabaseSync
