import ImApp.PreviewCache.Identity
import Mathlib.Data.List.Permutation
import Mathlib.Data.List.Sublists

/-!
The identity of an address as a normal form. It tells apart what differs in the
origin, in the path or in the kept parameters. It forgets the order of the
parameters as far as the collation tells them apart; pairs that the collation
takes for equal stay in the order in which they came.
-/

namespace ImApp.PreviewCache

open List Bool
open JsonText (Text)

variable {platform : Platform} {u v : Text} {parsed other : Parsed}

/-- The same origin and path, and the same pairs in any order. -/
structure SameObject (a b : Parsed) : Prop where
  origin : a.origin = b.origin
  pathname : a.pathname = b.pathname
  kept : a.kept.Perm b.kept

/-- The collation takes two pairs for equal only when they are. -/
def Distinguished (platform : Platform) (pairs : List (Text × Text)) : Prop :=
  ∀ a ∈ pairs, ∀ b ∈ pairs, platform.localeCompare a.1 b.1 = 0 →
    platform.localeCompare a.2 b.2 = 0 → a = b

/-- The pairs that the collation takes for equal to `a`. -/
def Platform.tied (platform : Platform) (a b : Text × Text) : Bool :=
  platform.inOrder a b && platform.inOrder b a

theorem tied_iff (h : platform.Lawful) (a b : Text × Text) : platform.tied a b = true ↔
    platform.localeCompare a.1 b.1 = 0 ∧ platform.localeCompare a.2 b.2 = 0 := by
  have hname := h.reversed a.1 b.1
  have hname' := h.reversed b.1 a.1
  have hvalue := h.reversed a.2 b.2
  have hvalue' := h.reversed b.2 a.2
  simp only [Platform.tied, Platform.inOrder, and_eq_true, or_eq_true, decide_eq_true_eq]
  omega

theorem sorted_of_identity (h : platform.Lawful) (hu : platform.Reads u parsed)
    (hv : platform.Reads v other)
    (heq : platform.mediaCacheIdentity u = platform.mediaCacheIdentity v) :
    parsed.origin = other.origin ∧ parsed.pathname = other.pathname ∧
      parsed.kept.mergeSort platform.inOrder = other.kept.mergeSort platform.inOrder := by
  have hleft : (parsed.kept.mergeSort platform.inOrder).Subperm parsed.params :=
    sorted_subperm parsed
  have hright : (other.kept.mergeSort platform.inOrder).Subperm other.params :=
    sorted_subperm other
  have hback := (hu.print h hleft).parses
  rw [← hu.identity, heq, hv.identity, (hv.print h hright).parses, Option.some.injEq,
    Parsed.mk.injEq] at hback
  obtain ⟨-, horigin, hpathname, hsorted⟩ := hback
  exact ⟨horigin.symm, hpathname.symm, hsorted.symm⟩

theorem sameObject_of_identity (h : platform.Lawful) (hu : platform.Reads u parsed)
    (hv : platform.Reads v other)
    (heq : platform.mediaCacheIdentity u = platform.mediaCacheIdentity v) :
    SameObject parsed other := by
  obtain ⟨horigin, hpathname, hsorted⟩ := sorted_of_identity h hu hv heq
  have hkept := (mergeSort_perm parsed.kept platform.inOrder).symm
  rw [hsorted] at hkept
  exact ⟨horigin, hpathname, hkept.trans (mergeSort_perm _ _)⟩

theorem identity_of_kept (hu : platform.Reads u parsed) (hv : platform.Reads v other)
    (horigin : parsed.origin = other.origin) (hpathname : parsed.pathname = other.pathname)
    (hkept : parsed.kept.mergeSort platform.inOrder = other.kept.mergeSort platform.inOrder) :
    platform.mediaCacheIdentity u = platform.mediaCacheIdentity v := by
  rw [hu.identity, hv.identity, hkept, Parsed.site, Parsed.site, horigin, hpathname]

theorem filter_sorted (h : platform.Lawful) (a : Text × Text) (pairs : List (Text × Text)) :
    (pairs.mergeSort platform.inOrder).filter (platform.tied a) =
      pairs.filter (platform.tied a) := by
  have hsorted : (pairs.filter (platform.tied a)).Pairwise
      (fun b c => platform.inOrder b c = true) := by
    apply pairwise_of_forall_mem_list
    intro b hb c hc
    have hba := (and_eq_true _ _).mp (mem_filter.mp hb).2
    have hac := (and_eq_true _ _).mp (mem_filter.mp hc).2
    exact inOrder_trans h b a c hba.2 hac.1
  have hsub : (pairs.filter (platform.tied a)).Sublist (pairs.mergeSort platform.inOrder) :=
    sublist_mergeSort (inOrder_trans h) (inOrder_total h) hsorted filter_sublist
  have hself := hsub.filter (platform.tied a)
  simp only [filter_filter, Bool.and_self] at hself
  exact (hself.eq_of_length ((mergeSort_perm pairs platform.inOrder).filter _).length_eq.symm).symm

/-- The pairs that are equal to the collation come in one order. -/
def SameTies (platform : Platform) (pairs pairs' : List (Text × Text)) : Prop :=
  ∀ a ∈ pairs, pairs.filter (platform.tied a) = pairs'.filter (platform.tied a)

variable {pairs pairs' : List (Text × Text)}

theorem eq_of_sameTies (h : platform.Lawful)
    (hsorted : pairs.Pairwise fun a b => platform.inOrder a b = true)
    (hsorted' : pairs'.Pairwise fun a b => platform.inOrder a b = true)
    (hperm : pairs.Perm pairs') (hties : SameTies platform pairs pairs') : pairs = pairs' := by
  induction pairs generalizing pairs' with
  | nil => exact (nil_perm.mp hperm).symm
  | cons a rest ih =>
    cases pairs' with
    | nil => exact perm_nil.mp hperm
    | cons b rest' =>
      have hrefl : ∀ c, platform.inOrder c c = true := by
        intro c
        simpa using inOrder_total h c c
      have hab : platform.inOrder a b = true := by
        rcases mem_cons.mp (hperm.mem_iff.mpr mem_cons_self) with heq | hb
        · rw [heq]
          exact hrefl a
        exact (pairwise_cons.mp hsorted).1 b hb
      have hba : platform.inOrder b a = true := by
        rcases mem_cons.mp (hperm.mem_iff.mp mem_cons_self) with heq | ha
        · rw [heq]
          exact hrefl b
        exact (pairwise_cons.mp hsorted').1 a ha
      have hhead := hties a mem_cons_self
      rw [filter_cons_of_pos (by simp [Platform.tied, hrefl]),
        filter_cons_of_pos (by simp [Platform.tied, hab, hba])] at hhead
      obtain ⟨rfl, -⟩ := List.cons.inj hhead
      have hrest : SameTies platform rest rest' := by
        intro c hc
        have hcons := hties c (mem_cons_of_mem _ hc)
        by_cases htied : platform.tied c a = true
        · rw [filter_cons_of_pos htied, filter_cons_of_pos htied] at hcons
          exact (List.cons.inj hcons).2
        rwa [filter_cons_of_neg htied, filter_cons_of_neg htied] at hcons
      rw [ih (pairwise_cons.mp hsorted).2 (pairwise_cons.mp hsorted').2 hperm.cons_inv hrest]

theorem sorted_eq_iff (h : platform.Lawful) (hperm : pairs.Perm pairs') :
    pairs.mergeSort platform.inOrder = pairs'.mergeSort platform.inOrder ↔
      SameTies platform pairs pairs' := by
  have hleft := mergeSort_perm pairs platform.inOrder
  have hright := mergeSort_perm pairs' platform.inOrder
  constructor
  · intro hsorted a _
    rw [← filter_sorted h a pairs, hsorted, filter_sorted h a pairs']
  intro hties
  apply eq_of_sameTies h (pairwise_mergeSort (inOrder_trans h) (inOrder_total h) _)
    (pairwise_mergeSort (inOrder_trans h) (inOrder_total h) _)
    (hleft.trans (hperm.trans hright.symm))
  intro a ha
  rw [filter_sorted h, filter_sorted h]
  exact hties a (hleft.mem_iff.mp ha)

theorem sameTies_of_distinguished (h : platform.Lawful)
    (hperm : pairs.Perm pairs') (hdist : Distinguished platform pairs) :
    SameTies platform pairs pairs' := by
  intro a ha
  have heq : ∀ b ∈ pairs, platform.tied a b = (b == a) := by
    intro b hb
    rw [Bool.eq_iff_iff, tied_iff h, beq_iff_eq]
    constructor
    · rintro ⟨hname, hvalue⟩
      exact (hdist a ha b hb hname hvalue).symm
    rintro rfl
    have hname := h.reversed b.1 b.1
    have hvalue := h.reversed b.2 b.2
    omega
  rw [filter_congr heq, filter_congr fun b hb => heq b (hperm.mem_iff.mpr hb)]
  simp only [filter_beq, hperm.count_eq]

/-- The claim's equivalence for two addresses of the web holds exactly when the
pairs that the collation takes for equal do not come in two orders. -/
theorem mediaCacheIdentity_canonical_iff (h : platform.Lawful) (hu : platform.Reads u parsed)
    (hv : platform.Reads v other) :
    ((platform.mediaCacheIdentity u = platform.mediaCacheIdentity v ↔ SameObject parsed other) ∧
        platform.mediaCacheIdentity (platform.mediaCacheIdentity u) =
          platform.mediaCacheIdentity u ↔
      (SameObject parsed other → SameTies platform parsed.kept other.kept)) ∧
    (platform.mediaCacheIdentity u = platform.mediaCacheIdentity v → SameObject parsed other) ∧
    (parsed.origin = other.origin → parsed.pathname = other.pathname → parsed.kept = other.kept →
        platform.mediaCacheIdentity u = platform.mediaCacheIdentity v) ∧
    (Distinguished platform parsed.kept → SameObject parsed other →
      platform.mediaCacheIdentity u = platform.mediaCacheIdentity v) := by
  have hties : SameObject parsed other → SameTies platform parsed.kept other.kept →
      platform.mediaCacheIdentity u = platform.mediaCacheIdentity v := by
    intro hsame hties
    exact identity_of_kept hu hv hsame.origin hsame.pathname
      ((sorted_eq_iff h hsame.kept).mpr hties)
  refine ⟨⟨?_, ?_⟩, sameObject_of_identity h hu hv, ?_, ?_⟩
  · intro hclaim hsame
    have hsorted := (sorted_of_identity h hu hv (hclaim.1.mpr hsame)).2.2
    exact (sorted_eq_iff h hsame.kept).mp hsorted
  · intro hcond
    exact ⟨⟨sameObject_of_identity h hu hv, fun hsame => hties hsame (hcond hsame)⟩,
      mediaCacheIdentity_idem h u⟩
  · intro horigin hpathname hkept
    exact identity_of_kept hu hv horigin hpathname (by rw [hkept])
  intro hdist hsame
  exact hties hsame (sameTies_of_distinguished h hsame.kept hdist)

/-- A letter and its accent as one character and as two. -/
def composed : Text × Text := (['á'], ['1'])

def decomposed : Text × Text := (['a', '\u0301'], ['1'])

/-- The canonical composition, as far as these two letters go. -/
def compose : Text → Text
  | 'a' :: '\u0301' :: rest => 'á' :: compose rest
  | c :: rest => c :: compose rest
  | [] => []

def encode (text : Text) : Text :=
  text.flatMap fun c =>
    if c = 'á' then "%C3%A1".toList else if c = '\u0301' then "%CC%81".toList else [c]

def printed (params : List (Text × Text)) : Text :=
  "https://h/a".toList ++ (if params = [] then [] else ['?']) ++
    ['&'].intercalate (params.map fun pair => encode pair.1 ++ ['='] ++ encode pair.2)

/-- What the two parameters can be put into. -/
def queries : List (List (Text × Text)) :=
  [[composed, decomposed], [decomposed, composed], [composed], [decomposed], []]

/-- A platform that knows the addresses with these parameters. -/
def accents : Platform where
  origin := []
  parse url := (queries.find? fun params => printed params = url).map fun params =>
    ⟨"https:".toList, "https://h".toList, "/a".toList, params⟩
  resolve _ := none
  print _ params := printed params
  localeCompare a b := compareText (compose a) (compose b)

theorem accents_parse {raw : Text} {parsed : Parsed} (h : accents.parse raw = some parsed) :
    parsed = ⟨"https:".toList, "https://h".toList, "/a".toList, parsed.params⟩ ∧
      parsed.params ∈ queries := by
  obtain ⟨params, hfind, hparsed⟩ := Option.map_eq_some_iff.mp h
  rw [← hparsed]
  exact ⟨rfl, mem_of_find?_eq_some hfind⟩

/-- The table is closed under leaving parameters out and changing their order. -/
theorem queries_closed {params params' : List (Text × Text)} (hmem : params ∈ queries)
    (hsub : params'.Subperm params) : params' ∈ queries := by
  have hall : ∀ l ∈ queries, ∀ l' ∈ l.sublists, ∀ l'' ∈ l'.permutations', l'' ∈ queries := by
    decide +kernel
  obtain ⟨l, hperm, hl⟩ := hsub
  exact hall params hmem l (mem_sublists.mpr hl) params' (mem_permutations'.mpr hperm.symm)

theorem accents_lawful : accents.Lawful where
  readsBack := by
    intro raw parsed params hparse _ hsub
    obtain ⟨hparsed, hmem⟩ := accents_parse hparse
    have hback : ∀ l ∈ queries, accents.parse (printed l) =
        some ⟨"https:".toList, "https://h".toList, "/a".toList, l⟩ := by
      decide +kernel
    rw [hparsed]
    exact hback params (queries_closed hmem hsub)
  printed := by
    intro raw parsed params hparse _ hsub
    have htrim : ∀ l ∈ queries, trim (printed l) = printed l ∧ printed l ≠ [] := by
      decide +kernel
    exact htrim params (queries_closed (accents_parse hparse).2 hsub)
  reversed a b := compareText_reversed (compose a) (compose b)
  ordered := by
    intro a b c hab hbc
    exact compareText_ordered hab hbc

def composedUrl : Text := "https://h/a?%C3%A1=1&a%CC%81=1".toList

def decomposedUrl : Text := "https://h/a?a%CC%81=1&%C3%A1=1".toList

theorem composedUrl_reads : accents.Reads composedUrl
    ⟨"https:".toList, "https://h".toList, "/a".toList, [composed, decomposed]⟩ where
  nonempty := by decide +kernel
  parses := by decide +kernel
  web := by decide

theorem decomposedUrl_reads : accents.Reads decomposedUrl
    ⟨"https:".toList, "https://h".toList, "/a".toList, [decomposed, composed]⟩ where
  nonempty := by decide +kernel
  parses := by decide +kernel
  web := by decide

/-- One object under two identities: its two parameters are equal to the collation
and came in two orders. -/
theorem mediaCacheIdentity_split : ∃ parsed other : Parsed,
    accents.Reads composedUrl parsed ∧ accents.Reads decomposedUrl other ∧ SameObject parsed other ∧
      accents.mediaCacheIdentity composedUrl ≠ accents.mediaCacheIdentity decomposedUrl := by
  have hcomposed : [composed, decomposed].Pairwise (fun a b => accents.inOrder a b = true) := by
    decide +kernel
  have hdecomposed : [decomposed, composed].Pairwise (fun a b => accents.inOrder a b = true) := by
    decide +kernel
  refine ⟨_, _, composedUrl_reads, decomposedUrl_reads, ⟨rfl, rfl, by decide +kernel⟩, ?_⟩
  rw [composedUrl_reads.identity, decomposedUrl_reads.identity]
  change printed ([composed, decomposed].mergeSort accents.inOrder) ≠
    printed ([decomposed, composed].mergeSort accents.inOrder)
  rw [mergeSort_of_pairwise hcomposed, mergeSort_of_pairwise hdecomposed]
  decide +kernel

theorem mediaCacheIdentity_canonical_accents :
    (accents.mediaCacheIdentity composedUrl = accents.mediaCacheIdentity decomposedUrl ↔
      SameObject ⟨"https:".toList, "https://h".toList, "/a".toList, [composed, decomposed]⟩
        ⟨"https:".toList, "https://h".toList, "/a".toList, [decomposed, composed]⟩) ∧
      accents.mediaCacheIdentity (accents.mediaCacheIdentity composedUrl) =
        accents.mediaCacheIdentity composedUrl ↔
    (SameObject ⟨"https:".toList, "https://h".toList, "/a".toList, [composed, decomposed]⟩
        ⟨"https:".toList, "https://h".toList, "/a".toList, [decomposed, composed]⟩ →
      SameTies accents [composed, decomposed] [decomposed, composed]) :=
  (mediaCacheIdentity_canonical_iff accents_lawful composedUrl_reads decomposedUrl_reads).1

end ImApp.PreviewCache
