import ImApp.Library.Regex

/-!
Replacing the matches of an expression by marks in brackets. Words without brackets that
were not in the text before are not in it afterwards, as long as each mark stands where
no word begins or ends.
-/

namespace Regex

open List Option
open JsonText (Text)

/-- What a replacement of all matches makes of the rest of a text. -/
inductive Replaced (r : Regex) (replacement : List Text → Text) : Spot → Text → Prop
  | done {s : Spot} (hrest : s.rest = []) : Replaced r replacement s []
  | keep {s : Spot} {c : Char} {rest text : Text} (hrest : s.rest = c :: rest)
      (hnone : r.matchAt s = none) (hmore : Replaced r replacement ⟨c :: s.before, rest, []⟩ text) :
      Replaced r replacement s (c :: text)
  | cut {s e : Spot} {text : Text} (hsome : r.matchAt s = some e)
      (hmore : Replaced r replacement { e with groups := [] } text) :
      Replaced r replacement s (replacement e.groups ++ text)

/-- Matches take at least one character. -/
def Advances (r : Regex) : Prop :=
  ∀ s e, s.groups = [] → r.matchAt s = some e → e.rest.length < s.rest.length

variable {good : Spot → Prop} {s : Spot}

theorem replaced_replaceFrom {r : Regex} (hr : r.Advances) (replacement : List Text → Text)
    {fuel : Nat} (hgroups : s.groups = []) (hfuel : s.rest.length < fuel) :
    Replaced r replacement s (r.replaceFrom replacement fuel s) := by
  induction fuel generalizing s with
  | zero => cases hfuel
  | succ fuel ih =>
    rw [replaceFrom]
    cases hmatch : r.matchAt s with
    | none =>
      cases hrest : s.rest with
      | nil => exact .done hrest
      | cons c rest =>
        rw [hrest] at hfuel
        exact .keep hrest hmatch (ih rfl (Nat.lt_of_succ_lt_succ hfuel))
    | some e =>
      have hless := hr s e hgroups hmatch
      cases hrest : s.rest with
      | nil =>
        rw [hrest] at hless
        cases hless
      | cons c rest =>
        rw [hrest] at hless hfuel
        dsimp only
        rw [if_pos hless]
        exact .cut hmatch (ih rfl (Nat.lt_of_lt_of_le hless (Nat.le_of_lt_succ hfuel)))

theorem replaced_unique {r : Regex} (hr : r.Advances) {replacement : List Text → Text}
    {text other : Text} (hgroups : s.groups = []) (h : Replaced r replacement s text)
    (h' : Replaced r replacement s other) : text = other := by
  induction h generalizing other with
  | done hrest =>
    cases h' with
    | done hrest' => rfl
    | keep hrest' hnone hmore =>
      rw [hrest] at hrest'
      cases hrest'
    | cut hsome hmore =>
      have hless := hr _ _ hgroups hsome
      rw [hrest] at hless
      cases hless
  | keep hrest hnone hmore ih =>
    cases h' with
    | done hrest' =>
      rw [hrest] at hrest'
      cases hrest'
    | keep hrest' hnone' hmore' =>
      rw [hrest] at hrest'
      cases hrest'
      rw [ih rfl hmore']
    | cut hsome hmore' =>
      rw [hnone] at hsome
      cases hsome
  | cut hsome hmore ih =>
    cases h' with
    | done hrest' =>
      have hless := hr _ _ hgroups hsome
      rw [hrest'] at hless
      cases hless
    | keep hrest' hnone hmore' =>
      rw [hnone] at hsome
      cases hsome
    | cut hsome' hmore' =>
      rw [hsome] at hsome'
      cases hsome'
      rw [ih rfl hmore']

theorem replaceFrom_of_none {r : Regex} {replacement : List Text → Text} {fuel : Nat}
    (h : ∀ word back, s.rest = word ++ back → ∀ groups,
      r.matchAt ⟨word.reverse ++ s.before, back, groups⟩ = none) :
    r.replaceFrom replacement fuel s = s.rest := by
  induction fuel generalizing s with
  | zero => rfl
  | succ fuel ih =>
    rw [replaceFrom]
    have hhere : r.matchAt s = none := h [] s.rest rfl s.groups
    rw [hhere]
    cases hrest : s.rest with
    | nil => rfl
    | cons c rest =>
      dsimp only
      congr 1
      apply ih
      intro word back hword groups
      have hcons := h (c :: word) back (by rw [hrest]; exact congrArg (c :: ·) hword) groups
      simpa using hcons

def wordBefore (prev : Option Char) : Bool := prev.any isWord

/-- Words without brackets that begin with a word character where none stands before. A
closed one ends with a word character where none follows. -/
structure Words where
  shape : Text → Prop
  closed : Bool
  /-- Characters that can stand for each other. -/
  like : Char → Char → Prop
  like_refl : ∀ c, like c c
  like_word : ∀ c d, like c d → isWord c = isWord d
  shape_like : ∀ word other, shape word → List.Forall₂ like word other → shape other
  head : ∀ word, shape word → ∃ c rest, word = c :: rest ∧ isWord c = true
  plain : ∀ word, shape word → '[' ∉ word
  last : closed = true → ∀ word, shape word → wordBefore word.getLast? = true

namespace Words

variable (words : Words)

def OccursAt (prev : Option Char) (text : Text) : Prop :=
  wordBefore prev = false ∧ ∃ word back, text = word ++ back ∧ words.shape word ∧
    (words.closed = true → wordBefore back.head? = false)

/-- No word begins in `front`, with `back` behind it. -/
def AbsentIn : Option Char → Text → Text → Prop
  | _, [], _ => True
  | prev, c :: front, back =>
    ¬ words.OccursAt prev (c :: (front ++ back)) ∧ AbsentIn (some c) front back

def Absent (prev : Option Char) (text : Text) : Prop := words.AbsentIn prev text []

variable {words}

variable {prev : Option Char} {text back : Text}

theorem not_occursAt {c : Char} (hc : isWord c = false) : ¬ words.OccursAt prev (c :: text) := by
  rintro ⟨-, word, back, htext, hshape, -⟩
  obtain ⟨d, rest, rfl, hd⟩ := words.head word hshape
  obtain ⟨rfl, -⟩ := List.cons.inj htext
  rw [hc] at hd
  cases hd

theorem getLast?_cons_or (c : Char) (word : Text) (prev : Option Char) :
    (c :: word).getLast?.or prev = word.getLast?.or (some c) := by
  cases word with
  | nil => rfl
  | cons d word =>
    rw [getLast?_cons_cons, getLast?_eq_some_getLast (cons_ne_nil d word)]
    rfl

theorem absentIn_append {front middle : Text} : words.AbsentIn prev (front ++ middle) back ↔
      words.AbsentIn prev front (middle ++ back) ∧
        words.AbsentIn (front.getLast?.or prev) middle back := by
  induction front generalizing prev with
  | nil => simp [AbsentIn]
  | cons c front ih =>
    rw [cons_append, AbsentIn, AbsentIn, ih, getLast?_cons_or, append_assoc, and_assoc]

theorem absentIn_agree {prev' : Option Char} {front : Text}
    (hagree : wordBefore prev' = wordBefore prev ∨ wordBefore front.head? = false)
    (h : words.AbsentIn prev front back) : words.AbsentIn prev' front back := by
  cases front with
  | nil => trivial
  | cons c front =>
    refine ⟨?_, h.2⟩
    rcases hagree with hsame | hother
    · rintro ⟨hpre, hword⟩
      exact h.1 ⟨hsame ▸ hpre, hword⟩
    exact not_occursAt hother

/-- What a match is replaced by: a front that is like what it was, and a mark for the
rest. No word begins or ends at the mark. -/
structure Marked (words : Words) (s e : Spot) (out : Text) where
  kept : Text
  secret : Text
  front : Text
  mark : Text
  back : Text
  rest : s.rest = kept ++ secret ++ e.rest
  out_eq : out = front ++ '[' :: (mark ++ back)
  front_like : List.Forall₂ words.like front kept
  front_begin : front = [] → wordBefore s.before.head? = false
  front_end : words.closed = true → front ≠ [] → wordBefore front.getLast? = false
  front_absent : ∀ any, words.AbsentIn s.before.head? front ('[' :: any)
  mark_absent : ∀ any, words.AbsentIn (some '[') (mark ++ back) any
  /-- What stands before the text that follows. -/
  behind : wordBefore ((mark ++ back).getLast?.or (some '[')) = wordBefore e.before.head? ∨
    wordBefore e.rest.head? = false

/-- A replacement that makes no words, from spots with a property on. -/
structure Masks (words : Words) (r : Regex) (replacement : List Text → Text)
    (good : Spot → Prop) : Prop where
  keep : ∀ s c rest, good s → s.rest = c :: rest → good ⟨c :: s.before, rest, []⟩
  cut : ∀ s e, good s → r.matchAt s = some e → good { e with groups := [] }
  quiet : ∀ s, good s → r.matchAt s = none → ¬ words.OccursAt s.before.head? s.rest
  marked : ∀ s e, good s → r.matchAt s = some e → Nonempty (Marked words s e (replacement e.groups))

theorem front_of_plain {front any word back : Text} (h : front ++ '[' :: any = word ++ back)
    (hplain : '[' ∉ word) : ∃ tail, front = word ++ tail ∧ back = tail ++ '[' :: any := by
  rcases append_eq_append_iff.mp h with ⟨tail, hword, hback⟩ | ⟨tail, hfront, hback⟩
  · cases tail with
    | nil =>
      rw [append_nil] at hword
      exact ⟨[], by rw [hword, append_nil], hback.symm⟩
    | cons c tail =>
      obtain ⟨rfl, -⟩ := List.cons.inj hback
      exact absurd (hword ▸ mem_append_right _ mem_cons_self) hplain
  exact ⟨tail, hfront, hback⟩

/-- A word without its end in the new text stood in the old one, or one like it. -/
theorem word_before {r : Regex} {replacement : List Text → Text}
    (h : Masks words r replacement good) {text : Text}
    (hrepld : Replaced r replacement s text) (hgood : good s) {word back : Text}
    (htext : text = word ++ back) (hplain : '[' ∉ word)
    (hlast : words.closed = true → wordBefore (word.getLast?.or s.before.head?) = true)
    (hback : words.closed = true → wordBefore back.head? = false) :
    ∃ other back', s.rest = other ++ back' ∧ List.Forall₂ words.like word other ∧
      (words.closed = true → wordBefore back'.head? = false) := by
  induction hrepld generalizing word with
  | done hrest =>
    obtain ⟨rfl, rfl⟩ := append_eq_nil_iff.mp htext.symm
    exact ⟨[], [], hrest, .nil, fun _ => rfl⟩
  | keep hrest hnone hmore ih =>
    rename_i s c rest text
    cases word with
    | nil =>
      obtain rfl : back = c :: text := htext.symm
      exact ⟨[], c :: rest, hrest, .nil, hback⟩
    | cons d word =>
      rw [cons_append] at htext
      obtain ⟨hc, hmore'⟩ := List.cons.inj htext
      subst hc
      obtain ⟨other, back', hother, hlike, hback'⟩ :=
        ih (h.keep s c rest hgood hrest) hmore' (fun hmem => hplain (mem_cons_of_mem _ hmem))
          (fun hclosed => getLast?_cons_or c word s.before.head? ▸ hlast hclosed)
      refine ⟨c :: other, back', ?_, .cons (words.like_refl c) hlike, hback'⟩
      rw [hrest]
      exact congrArg (c :: ·) hother
  | cut hsome hmore ih =>
    rename_i s e text
    obtain ⟨m⟩ := h.marked s e hgood hsome
    rw [m.out_eq, append_assoc, cons_append] at htext
    obtain ⟨tail, hfront, hbehind⟩ := front_of_plain htext hplain
    have hlike := m.front_like
    rw [hfront] at hlike
    have hother := forall₂_take word.length hlike
    have htail := forall₂_drop word.length hlike
    rw [take_left] at hother
    rw [drop_left] at htail
    refine ⟨m.kept.take word.length, m.kept.drop word.length ++ m.secret ++ e.rest, ?_, hother,
      fun hclosed => ?_⟩
    · rw [m.rest, ← append_assoc, ← append_assoc, take_append_drop]
    cases tail with
    | nil =>
      rw [append_nil] at hfront
      have hword := hlast hclosed
      rw [← hfront] at hword
      by_cases hempty : m.front = []
      · rw [hempty, getLast?_nil, none_or, m.front_begin hempty] at hword
        cases hword
      rw [getLast?_eq_some_getLast hempty, some_or,
        ← getLast?_eq_some_getLast hempty, m.front_end hclosed hempty] at hword
      cases hword
    | cons d tail =>
      generalize m.kept.drop word.length = rest at htail
      cases htail with
      | cons hd htail =>
        have hnone := hback hclosed
        rw [hbehind] at hnone
        change isWord _ = false
        rw [← words.like_word _ _ hd]
        exact hnone

variable {r : Regex} {replacement : List Text → Text}

theorem absent_replaced (h : Masks words r replacement good)
    (hrepld : Replaced r replacement s text) (hgood : good s)
    (hagree : wordBefore prev = wordBefore s.before.head? ∨ wordBefore s.rest.head? = false) :
    words.Absent prev text := by
  induction hrepld generalizing prev with
  | done hrest => trivial
  | keep hrest hnone hmore ih =>
    rename_i s c rest text
    refine ⟨?_, ih (h.keep s c rest hgood hrest) (.inl rfl)⟩
    rintro ⟨hpre, word, back, htext, hshape, hback⟩
    obtain ⟨d, tail, rfl, hd⟩ := words.head word hshape
    obtain ⟨hc, htail⟩ := List.cons.inj htext
    subst hc
    have hprev : wordBefore s.before.head? = false := by
      rcases hagree with hsame | hother
      · rw [← hsame, hpre]
      rw [hrest] at hother
      rw [show wordBefore (c :: rest).head? = isWord c from rfl, hd] at hother
      cases hother
    rw [append_nil] at htail
    obtain ⟨other, back', hother, hlike, hback'⟩ :=
      word_before h hmore (h.keep s c rest hgood hrest) htail
        (fun hmem => words.plain _ hshape (mem_cons_of_mem _ hmem))
        (fun hclosed => getLast?_cons_or c tail s.before.head? ▸ (by
            have hlast := words.last hclosed _ hshape
            rw [getLast?_eq_some_getLast (cons_ne_nil c tail)] at hlast ⊢
            exact hlast))
        hback
    apply h.quiet s hgood hnone
    refine ⟨hprev, c :: other, back', ?_, ?_, hback'⟩
    · rw [hrest]
      exact congrArg (c :: ·) hother
    exact words.shape_like _ _ hshape (.cons (words.like_refl c) hlike)
  | cut hsome hmore ih =>
    rename_i s e text
    obtain ⟨m⟩ := h.marked s e hgood hsome
    have hfront : words.AbsentIn prev m.front ('[' :: (m.mark ++ m.back ++ text)) := by
      apply absentIn_agree _ (m.front_absent _)
      rcases hagree with hsame | hother
      · exact .inl hsame
      right
      rw [m.rest] at hother
      have hlike := m.front_like
      generalize m.front = front at hlike
      generalize m.kept = kept at hlike hother
      cases hlike with
      | nil => rfl
      | cons hc hlike =>
        change isWord _ = false
        rw [words.like_word _ _ hc]
        exact hother
    have hbehind : words.Absent ((m.mark ++ m.back).getLast?.or (some '[')) text :=
      ih (h.cut s e hgood hsome) m.behind
    unfold Absent
    rw [m.out_eq, append_assoc, cons_append]
    apply absentIn_append.mpr
    rw [append_nil]
    exact ⟨hfront, not_occursAt (by decide), absentIn_append.mpr ⟨m.mark_absent _, hbehind⟩⟩

theorem absent_replaceAll (h : Masks words r replacement good) (hr : r.Advances)
    (hgood : good (Spot.start text)) : words.Absent none (r.replaceAll replacement text) :=
  absent_replaced h (replaced_replaceFrom hr replacement rfl (Nat.lt_succ_self _)) hgood (.inl rfl)

/-- A spot of a scan with no word behind it. -/
def Quiet (words : Words) (s : Spot) : Prop := s.groups = [] ∧ words.Absent s.before.head? s.rest

theorem masks_quiet (hmarked : ∀ s e, Quiet words s → r.matchAt s = some e →
      Nonempty (Marked words s e (replacement e.groups))) :
    Masks words r replacement (Quiet words) where
  keep := by
    rintro s c rest ⟨-, habsent⟩ hrest
    rw [hrest] at habsent
    exact ⟨rfl, habsent.2⟩
  cut := by
    rintro s e ⟨-, habsent⟩ hsome
    obtain ⟨word, hrest, hpre⟩ := eats (mem_of_matchAt hsome)
    rw [hrest] at habsent
    refine ⟨rfl, ?_⟩
    change words.Absent e.before.head? e.rest
    rw [hpre, head?_append, head?_reverse]
    exact (absentIn_append.mp habsent).2
  quiet := by
    rintro s ⟨-, habsent⟩ - hoccurs
    cases hrest : s.rest with
    | nil =>
      obtain ⟨-, word, back, hword, hshape, -⟩ := hoccurs
      obtain ⟨c, rest, rfl, -⟩ := words.head word hshape
      rw [hrest] at hword
      cases hword
    | cons c rest =>
      rw [hrest] at habsent hoccurs
      rw [← append_nil rest] at hoccurs
      exact habsent.1 hoccurs
  marked := hmarked

theorem masks_own (hmatch : ∀ s, words.OccursAt s.before.head? s.rest → r.matchAt s ≠ none)
    (hmarked : ∀ s e, s.groups = [] → r.matchAt s = some e →
      Nonempty (Marked words s e (replacement e.groups))) :
    Masks words r replacement fun s => s.groups = [] where
  keep := fun _ _ _ _ _ => rfl
  cut := fun _ _ _ _ => rfl
  quiet := fun s _ hnone hoccurs => hmatch s hoccurs hnone
  marked := hmarked

theorem not_occursAt_of_absent {word : Text}
    (h : words.Absent prev (word ++ back)) : ¬ words.OccursAt (word.getLast?.or prev) back := by
  have hback := (absentIn_append.mp h).2
  intro hoccurs
  cases back with
  | nil =>
    obtain ⟨-, found, rest, hfound, hshape, -⟩ := hoccurs
    obtain ⟨c, tail, rfl, -⟩ := words.head found hshape
    cases hfound
  | cons c rest =>
    rw [← append_nil rest] at hoccurs
    exact hback.1 hoccurs

theorem replaceAll_of_absent
    (hmatch : ∀ s e, r.matchAt s = some e → words.OccursAt s.before.head? s.rest)
    (h : words.Absent none text) : r.replaceAll replacement text = text := by
  apply replaceFrom_of_none
  intro word back hword groups
  cases hfound : r.matchAt ⟨word.reverse ++ [], back, groups⟩ with
  | none => exact hfound
  | some e =>
    have hoccurs := hmatch _ e hfound
    change text = word ++ back at hword
    rw [hword] at h
    rw [append_nil, head?_reverse] at hoccurs
    apply absurd hoccurs
    have hnone := not_occursAt_of_absent h
    rwa [or_none] at hnone

-- The lemmas above say all about absence; its recursion would be run over the new text.
attribute [irreducible] Absent

end Words

end Regex
