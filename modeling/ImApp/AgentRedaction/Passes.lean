import ImApp.AgentRedaction.Tokens

/-!
The last six replacements leave none of the four kinds of tokens, and none of them makes
one: a token ends before a mark, and what stands before a mark was there before.
-/

namespace ImApp.AgentRedaction

open JsonText (Text)
open Regex Regex.Words List Option Token

/-- No two neighbours begin a word, and the last character does not. -/
def noPair (begins : Char → Char → Bool) : Text → Bool
  | [] => true
  | [c] => !isWord c
  | c :: d :: rest => !begins c d && noPair begins (d :: rest)

theorem absentIn_of_noPair {words : Words} {begins : Char → Char → Bool}
    (hpair : ∀ word, words.shape word → ∃ c d rest, word = c :: d :: rest ∧ begins c d = true)
    {prev : Option Char} {front back : Text} (h : noPair begins front = true) :
    words.AbsentIn prev front back := by
  induction front generalizing prev with
  | nil => trivial
  | cons c front ih =>
    cases front with
    | nil => exact ⟨not_occursAt (by simpa [noPair] using h), trivial⟩
    | cons d rest =>
      obtain ⟨hnone, hmore⟩ := (Bool.and_eq_true _ _).mp h
      refine ⟨?_, ih hmore⟩
      rintro ⟨-, word, behind, htext, hshape, -⟩
      obtain ⟨a, b, tail, rfl, hbegins⟩ := hpair word hshape
      obtain ⟨ha, hmore'⟩ := List.cons.inj htext
      obtain ⟨hb, -⟩ := List.cons.inj hmore'
      rw [← ha, ← hb] at hbegins
      rw [hbegins] at hnone
      cases hnone

/-- The marks behind their bracket. -/
def marks : List Text :=
  ["REDACTED]".toList, "REDACTED_JWT]".toList, "REDACTED_ACCESS_KEY]".toList,
    "REDACTED_TOKEN]".toList, "REDACTED]@".toList]

/-- No mark has a word. -/
def Clear (words : Words) : Prop :=
  ∀ mark ∈ marks, ∀ any, words.AbsentIn (some '[') mark any

theorem clear_of_noPair {words : Words} {begins : Char → Char → Bool}
    (hpair : ∀ word, words.shape word → ∃ c d rest, word = c :: d :: rest ∧ begins c d = true)
    (h : marks.all (noPair begins) = true) : Clear words :=
  fun mark hmark _ => absentIn_of_noPair hpair (List.all_eq_true.mp h mark hmark)

theorem Token.clear {token : Token} (h : marks.all (noPair token.begins) = true) :
    Clear token.words := by
  apply clear_of_noPair _ h
  rintro word ⟨hbody, -⟩
  obtain ⟨c, d, rest, hword, hbegins, -⟩ := token.pair word hbody
  exact ⟨c, d, rest, hword, hbegins⟩

theorem clear_webToken : Clear webToken.words := Token.clear (by decide)

theorem clear_keyId : Clear keyId.words := Token.clear (by decide)

theorem clear_apiKey : Clear apiKey.words := Token.clear (by decide)

theorem bearer_pair (word : Text) (h : bearerBody word) :
    ∃ c d rest, word = c :: d :: rest ∧ (sameLetter 'B' c && sameLetter 'e' d) = true := by
  obtain ⟨front, back, rfl, hfront, -⟩ := h
  obtain ⟨c, d, rest, rfl, hc, hd⟩ :=
    spelled_pair (show "Bearer".toList = ['B', 'e', 'a', 'r', 'e', 'r'] by decide) hfront
  exact ⟨c, d, rest ++ back, rfl, by rw [hc, hd]; rfl⟩

theorem clear_bearer : Clear bearerWords := clear_of_noPair bearer_pair (by decide)

section

variable {words : Words}

variable {s e : Spot}

theorem token_marked {token : Token} {mark : Text} (hclear : Clear words)
    (hmark : mark ∈ marks) (hlast : wordBefore mark.getLast? = false)
    (h : token.regex.matchAt s = some e) : Nonempty (Marked words s e ('[' :: mark)) := by
  obtain ⟨hs, word, back, hrest, hbody, rfl, hend⟩ := ends_regex.mp (mem_of_matchAt h)
  have hne : mark ≠ [] := by
    rintro rfl
    simp [marks] at hmark
  exact ⟨{
    kept := []
    secret := word
    front := []
    mark := mark
    back := []
    rest := hrest
    out_eq := by simp
    front_like := .nil
    front_begin := fun _ => (before_boundary hrest hbody).mp hs
    front_end := fun _ hfront => absurd rfl hfront
    front_absent := fun _ => trivial
    mark_absent := by simpa using hclear mark hmark
    behind := by
      rw [append_nil, getLast?_eq_some_getLast hne, some_or, ← getLast?_eq_some_getLast hne, hlast]
      unfold atBoundary at hend
      change (wordBefore _ != wordBefore _) = true at hend
      cases hpre : wordBefore (s.after word back).before.head? with
      | false => exact .inl rfl
      | true =>
        rw [hpre] at hend
        right
        simpa using hend }⟩

theorem absentIn_bracket {prev : Option Char} {front back any : Text}
    (h : words.AbsentIn prev front back)
    (hend : words.closed = true → front ≠ [] → wordBefore front.getLast? = false) :
    words.AbsentIn prev front ('[' :: any) := by
  induction front generalizing prev with
  | nil => trivial
  | cons c front ih =>
    refine ⟨?_, ih h.2 fun hclosed hne => ?_⟩
    · rintro ⟨hpre, word, behind, htext, hshape, hbehind⟩
      obtain ⟨tail, hfront, hback⟩ :=
        front_of_plain (show (c :: front) ++ '[' :: any = word ++ behind from htext)
          (words.plain word hshape)
      apply h.1
      refine ⟨hpre, word, tail ++ back, ?_, hshape, fun hclosed => ?_⟩
      · rw [← append_assoc, ← hfront]
        rfl
      cases tail with
      | nil =>
        rw [append_nil] at hfront
        have hlast := words.last hclosed word hshape
        rw [← hfront, hend hclosed (cons_ne_nil c front)] at hlast
        cases hlast
      | cons d tail =>
        have hnext := hbehind hclosed
        rw [hback] at hnext
        exact hnext
    have hlast := hend hclosed (cons_ne_nil c front)
    rw [getLast?_eq_some_getLast (cons_ne_nil c front), getLast_cons hne] at hlast
    rw [getLast?_eq_some_getLast hne]
    exact hlast

theorem front_marked {front secret mark back : Text}
    (hclear : Clear words) (hmark : mark ++ back ∈ marks)
    (habsent : words.Absent s.before.head? s.rest) (hrest : s.rest = front ++ secret ++ e.rest)
    (hne : front ≠ []) (hlast : wordBefore front.getLast? = false)
    (hbehind : wordBefore ((mark ++ back).getLast?.or (some '[')) = wordBefore e.before.head? ∨
      wordBefore e.rest.head? = false) :
    Nonempty (Marked words s e (front ++ '[' :: (mark ++ back))) := by
  have hfront : words.AbsentIn s.before.head? front (secret ++ e.rest) := by
    unfold Words.Absent at habsent
    rw [hrest, append_assoc] at habsent
    have := (absentIn_append.mp habsent).1
    rwa [append_nil] at this
  exact ⟨{
    kept := front
    secret := secret
    front := front
    mark := mark
    back := back
    rest := hrest
    out_eq := rfl
    front_like := forall₂_same.mpr fun c _ => words.like_refl c
    front_begin := fun hempty => absurd hempty hne
    front_end := fun _ _ => hlast
    front_absent := fun any => absentIn_bracket hfront fun _ _ => hlast
    mark_absent := hclear (mark ++ back) hmark
    behind := hbehind }⟩

theorem wordBefore_of_not {accepts : Char → Bool} (haccepts : ∀ c, isWord c = true → accepts c = true)
    {text : Text} (h : ∀ c ∈ text.head?, accepts c = false) : wordBefore text.head? = false := by
  cases text with
  | nil => rfl
  | cons c rest =>
    have hc := h c rfl
    cases hword : isWord c with
    | false => exact hword
    | true =>
      rw [haccepts c hword] at hc
      cases hc

theorem valueChar_of_isWord (c : Char) (h : isWord c = true) : valueChar c = true := by
  have hne : ∀ d, isWord d = false → c ≠ d := by
    rintro d hd rfl
    rw [h] at hd
    cases hd
  unfold valueChar
  rw [isBlank_of_isWord h, decide_eq_true (hne ',' (by decide)),
    decide_eq_true (hne ';' (by decide))]
  rfl

theorem group_cut {r : Regex} {s m : Spot} (hr : r.hasGroup = false) (hgroups : s.groups = [])
    (hlast : ∀ n ∈ r.ends s, wordBefore n.before.head? = false ∧ n.rest.length < s.rest.length)
    (h : m ∈ (group r).ends s) : ∃ word, s.rest = word ++ m.rest ∧ m.groups = [word] ∧ word ≠ [] ∧
      wordBefore word.getLast? = false := by
  obtain ⟨n, hn, rfl⟩ := mem_group.mp h
  obtain ⟨word, hrest, hpre⟩ := eats hn
  obtain ⟨hend, hless⟩ := hlast n hn
  have hne : word ≠ [] := by
    rintro rfl
    rw [hrest] at hless
    simp at hless
  refine ⟨word, hrest, ?_, hne, ?_⟩
  · rw [upto_eq hpre, groups_of_plain hr hn, hgroups]
    rfl
  rw [hpre, head?_append, head?_reverse, getLast?_eq_some_getLast hne, some_or] at hend
  rw [getLast?_eq_some_getLast hne]
  exact hend

theorem less_of_after {r : Regex} {s k : Spot} {word back : Text} (hk : k ∈ r.ends s)
    (hrest : k.rest = word ++ back) (hne : word ≠ []) : back.length < s.rest.length := by
  obtain ⟨taken, hs, -⟩ := eats hk
  have hpos := length_pos_of_ne_nil hne
  rw [hs, hrest, length_append, length_append]
  omega

theorem assignment_cut (hgroups : s.groups = []) (h : assignment.matchAt s = some e) :
    ∃ front secret, s.rest = front ++ secret ++ e.rest ∧ e.groups.head? = some front ∧
      front ≠ [] ∧ wordBefore front.getLast? = false ∧ wordBefore e.rest.head? = false := by
  obtain ⟨m, hm, he⟩ := matchAt_seq h
  have hlast : ∀ n ∈ (seqs ([.boundary, alts [anyCase "password", anyCase "passwd", anyCase "pwd",
        anyCase "secret", anyCase "token", keyed "api", keyed "access"], .boundary, blanks 0] ++
      [.one (fun c => c = ':' || c = '='), blanks 0])).ends s,
      wordBefore n.before.head? = false ∧ n.rest.length < s.rest.length := by
    intro n hn
    obtain ⟨k, hk, hn⟩ := mem_seqs_append.mp hn
    obtain ⟨l, hl, hn⟩ := mem_seqs_cons.mp hn
    obtain ⟨c, back, hrest, hc, rfl⟩ := mem_one.mp hl
    obtain ⟨gap, back', hrest', -, hgap, rfl⟩ := mem_many.mp hn
    constructor
    · rw [Spot.after_before, head?_append, head?_reverse]
      cases hgaplast : gap.getLast? with
      | some d => exact isWord_of_isBlank (hgap d (mem_of_getLast? hgaplast))
      | none =>
        change isWord c = false
        rcases (Bool.or_eq_true _ _).mp hc with hc | hc <;>
        · rw [of_decide_eq_true hc]
          decide
    rw [Spot.after_rest] at hrest'
    have hword : k.rest = c :: gap ++ back' := by rw [hrest, hrest']; rfl
    exact less_of_after hk hword (cons_ne_nil c gap)
  obtain ⟨front, hrest, hfront, hne, hend⟩ := group_cut (by decide) hgroups hlast hm
  obtain ⟨n, hn, rfl⟩ := matchAt_group he
  obtain ⟨secret, hsecret, -⟩ := eats (mem_of_matchAt hn)
  have hnext := matchAt_many hn
  refine ⟨front, secret, ?_, ?_, hne, hend, wordBefore_of_not valueChar_of_isWord hnext⟩
  · rw [hrest, hsecret, append_assoc]
  rw [groups_of_plain rfl (mem_of_matchAt hn), hfront]
  rfl

theorem urlCredentials_cut (hgroups : s.groups = []) (h : urlCredentials.matchAt s = some e) :
    ∃ front secret, s.rest = front ++ (secret ++ ['@']) ++ e.rest ∧ e.groups.head? = some front ∧
      e.groups[2]? = some ['@'] ∧ front ≠ [] ∧ wordBefore front.getLast? = false ∧
      e.before.head? = some '@' := by
  obtain ⟨m, hm, he⟩ := mem_seqs_cons.mp (mem_of_matchAt h)
  have hlast : ∀ n ∈ (seqs ([literal "://", .many 1 fun c => !isBlank c && c ≠ '/' && c ≠ ':' &&
      c ≠ '@'] ++ [.one (· = ':')])).ends s,
      wordBefore n.before.head? = false ∧ n.rest.length < s.rest.length := by
    intro n hn
    obtain ⟨k, hk, hn⟩ := mem_seqs_append.mp hn
    obtain ⟨c, back, hrest, hc, rfl⟩ := mem_one.mp hn
    obtain rfl := of_decide_eq_true hc
    exact ⟨(by decide : isWord ':' = false), less_of_after hk hrest (cons_ne_nil _ [])⟩
  obtain ⟨front, hrest, hfront, hne, hend⟩ := group_cut (by decide) hgroups hlast hm
  obtain ⟨n, hn, he⟩ := mem_seqs_cons.mp he
  obtain ⟨k, hk, rfl⟩ := mem_group.mp hn
  obtain ⟨secret, hsecret, -⟩ := eats hk
  obtain ⟨l, hl, rfl⟩ := mem_group.mp he
  obtain ⟨c, back, hback, hc, rfl⟩ := mem_one.mp hl
  obtain rfl := of_decide_eq_true hc
  have htaken : ∀ n : Spot, n.upto (n.after ['@'] back) = ['@'] := fun n => upto_eq rfl
  have hall : k.groups = [front] := by rw [groups_of_plain rfl hk, hfront]
  refine ⟨front, secret, ?_, ?_, ?_, hne, hend, rfl⟩
  · rw [hrest, hsecret, hback]
    simp
  · rw [Spot.after_groups, hall]
    rfl
  rw [Spot.after_groups, hall, htaken]
  rfl

end

theorem ends_bearer : e ∈ bearer.ends s ↔ atBoundary s = true ∧
      ∃ word back, s.rest = word ++ back ∧ bearerBody word ∧ e = s.after word back := by
  have htakes : Takes (seqs [anyCase "Bearer", blanks 1, .many 8 bearerChar]) bearerBody :=
    takes_cons (takes_anyCase _) (takes_cons (takes_many _ _) (takes_many _ _))
  unfold bearer
  rw [mem_seqs_cons]
  constructor
  · rintro ⟨m, hm, he⟩
    obtain ⟨rfl, hs⟩ := mem_boundary.mp hm
    exact ⟨hs, (htakes _ _).mp he⟩
  rintro ⟨hs, hbody⟩
  exact ⟨s, mem_boundary.mpr ⟨rfl, hs⟩, (htakes _ _).mpr hbody⟩

theorem bearer_boundary {s : Spot} {word back : Text} (hrest : s.rest = word ++ back)
    (hbody : bearerBody word) : atBoundary s = true ↔ wordBefore s.before.head? = false := by
  obtain ⟨c, rest, rfl, hc⟩ := bearerWords.head word hbody
  unfold atBoundary
  rw [hrest]
  change (wordBefore s.before.head? != isWord c) = true ↔ _
  rw [hc]
  cases wordBefore s.before.head? <;> decide

theorem bearer_occurs (h : bearer.matchAt s = some e) :
    bearerWords.OccursAt s.before.head? s.rest := by
  obtain ⟨hs, word, back, hrest, hbody, -⟩ := ends_bearer.mp (mem_of_matchAt h)
  refine ⟨(bearer_boundary hrest hbody).mp hs, word, back, hrest, hbody, fun hclosed => ?_⟩
  cases hclosed

theorem bearer_match {s : Spot} (h : bearerWords.OccursAt s.before.head? s.rest) :
    bearer.matchAt s ≠ none := by
  obtain ⟨hpre, word, back, hrest, hbody, -⟩ := h
  intro hnone
  apply matchAt_none.mp hnone (s.after word back)
  exact ends_bearer.mpr ⟨(bearer_boundary hrest hbody).mpr hpre, word, back, hrest, hbody, rfl⟩

theorem bearer_longer {word : Text} (h : bearerBody word) : 15 ≤ word.length := by
  obtain ⟨front, back, rfl, hfront, gap, run, rfl, hgap, hrun⟩ := h
  have hlen := hfront.length_eq
  have hsix : "Bearer".toList.length = 6 := by decide
  have hone := hgap.1
  have height := hrun.1
  rw [length_append, length_append]
  omega

theorem bearer_marked (h : bearer.matchAt s = some e) :
    Nonempty (Marked bearerWords s e "Bearer [REDACTED]".toList) := by
  obtain ⟨-, word, back, hrest, ⟨front, tail, rfl, hfront, gap, run, rfl, hgap, hrun⟩, rfl⟩ :=
    ends_bearer.mp (mem_of_matchAt h)
  obtain ⟨blank, gap, rfl⟩ := exists_cons_of_length_pos hgap.1
  have hblank := hgap.2 blank mem_cons_self
  have hlike : List.Forall₂ bearerLike "Bearer ".toList (front ++ [blank]) := by
    have hsplit : "Bearer ".toList = "Bearer".toList ++ [' '] := by decide
    rw [hsplit]
    apply rel_append
    · exact List.Forall₂.imp (fun c d hcd => .inl hcd) hfront
    exact .cons (.inr ⟨by decide, hblank⟩) .nil
  have hnext : wordBefore back.head? = false := by
    have hseqs : (seqs ([.boundary, anyCase "Bearer", blanks 1] ++ [.many 8 bearerChar])).matchAt s =
        some (s.after (front ++ (blank :: gap ++ run)) back) := h
    obtain ⟨m, -, hm⟩ := matchAt_seqs hseqs
    exact wordBefore_of_not (fun c hc => isWord_of_bearerChar hc) (matchAt_many hm)
  have hclear := clear_bearer "REDACTED]".toList (by decide)
  exact ⟨{
    kept := front ++ [blank]
    secret := gap ++ run
    front := "Bearer ".toList
    mark := "REDACTED]".toList
    back := []
    rest := by rw [hrest]; simp
    out_eq := by decide
    front_like := hlike
    front_begin := fun hempty => absurd hempty (by decide)
    front_end := fun hclosed => by cases hclosed
    front_absent := by
      intro any
      have habsent : ∀ (front : Text) (prev : Option Char), front.length < 15 →
          bearerWords.AbsentIn prev front ('[' :: any) := by
        intro front
        induction front with
        | nil => exact fun _ _ => trivial
        | cons c front ih =>
          intro prev hshort
          refine ⟨?_, ih (some c) (Nat.lt_of_succ_lt hshort)⟩
          rintro ⟨-, word, behind, htext, hshape, -⟩
          obtain ⟨tail, hword, -⟩ :=
            front_of_plain (show (c :: front) ++ '[' :: any = word ++ behind from htext)
              (bearerWords.plain word hshape)
          have hlong := bearer_longer hshape
          have hlen := congrArg List.length hword
          rw [length_append] at hlen
          omega
      exact habsent _ _ (by decide)
    mark_absent := by simpa using hclear
    behind := .inr hnext }⟩

theorem advances_token (token : Token) : token.regex.Advances := by
  intro s e _ h
  obtain ⟨-, word, back, hrest, hbody, rfl, -⟩ := ends_regex.mp (mem_of_matchAt h)
  obtain ⟨c, d, rest, rfl, -, -⟩ := token.pair word hbody
  rw [hrest]
  simp
  omega

theorem advances_bearer : bearer.Advances := by
  intro s e _ h
  obtain ⟨-, word, back, hrest, hbody, rfl⟩ := ends_bearer.mp (mem_of_matchAt h)
  have hlong := bearer_longer hbody
  rw [hrest, length_append, Spot.after_rest]
  omega

theorem advances_assignment : assignment.Advances := by
  intro s e hgroups h
  obtain ⟨front, secret, hrest, -, hne, -⟩ := assignment_cut hgroups h
  have hpos := length_pos_of_ne_nil hne
  rw [hrest, length_append, length_append]
  omega

theorem advances_urlCredentials : urlCredentials.Advances := by
  intro s e hgroups h
  obtain ⟨front, secret, hrest, -, -, hne, -⟩ := urlCredentials_cut hgroups h
  have hpos := length_pos_of_ne_nil hne
  rw [hrest, length_append, length_append]
  omega

/-- A replacement keeps the words out. -/
def Keeps (words : Words) (p : SecretPattern) : Prop :=
  ∀ text, words.Absent none text → words.Absent none (p.replace text)

theorem keeps_token {words : Words} (hclear : Clear words) (token : Token) {mark : Text}
    (hmark : mark ∈ marks) (hlast : wordBefore mark.getLast? = false) :
    Keeps words ⟨token.regex, fun _ => '[' :: mark⟩ :=
  fun _ habsent => absent_replaceAll
    (masks_quiet fun _ _ _ hsome => token_marked hclear hmark hlast hsome)
    (advances_token token) ⟨rfl, habsent⟩

theorem keeps_assignment {words : Words} (hclear : Clear words) :
    Keeps words assignmentPattern := by
  intro text habsent
  refine absent_replaceAll (masks_quiet ?_) advances_assignment ⟨rfl, habsent⟩
  rintro s e ⟨hgroups, habsent⟩ hsome
  obtain ⟨front, secret, hrest, hfront, hne, hend, hnext⟩ := assignment_cut hgroups hsome
  have hout : afterPrefix e.groups = front ++ '[' :: ("REDACTED]".toList ++ []) := by
    rw [afterPrefix, hfront]
    rfl
  change Nonempty (Marked words s e (afterPrefix e.groups))
  rw [hout]
  exact front_marked hclear (by decide) habsent hrest hne hend (.inr hnext)

theorem keeps_urlCredentials {words : Words} (hclear : Clear words) :
    Keeps words urlCredentialsPattern := by
  intro text habsent
  refine absent_replaceAll (masks_quiet ?_) advances_urlCredentials ⟨rfl, habsent⟩
  rintro s e ⟨hgroups, habsent⟩ hsome
  obtain ⟨front, secret, hrest, hfront, hthird, hne, hend, hlast⟩ := urlCredentials_cut hgroups hsome
  have hout : afterPrefix e.groups ++ e.groups[2]?.getD [] =
      front ++ '[' :: ("REDACTED]".toList ++ ['@']) := by
    rw [afterPrefix, hfront, hthird, getD_some, getD_some, append_assoc]
    rfl
  change Nonempty (Marked words s e (afterPrefix e.groups ++ e.groups[2]?.getD []))
  rw [hout]
  apply front_marked hclear (by decide) habsent hrest hne hend
  left
  rw [hlast]
  decide

theorem token_absent {token : Token} (hclear : Clear token.words) {mark : Text}
    (hmark : mark ∈ marks) (hlast : wordBefore mark.getLast? = false) (text : Text) :
    token.words.Absent none (token.regex.replaceAll (fun _ => '[' :: mark) text) :=
  absent_replaceAll (masks_own (fun _ hoccurs => match_of_occursAt hoccurs)
      fun _ _ _ hsome => token_marked hclear hmark hlast hsome)
    (advances_token token) rfl

theorem bearer_absent (text : Text) :
    bearerWords.Absent none (bearer.replaceAll (fun _ => "Bearer [REDACTED]".toList) text) :=
  absent_replaceAll (masks_own (fun _ hoccurs => bearer_match hoccurs)
    fun _ _ _ hsome => bearer_marked hsome) advances_bearer rfl

/-- The four patterns of tokens. -/
def tokenPatterns : List SecretPattern :=
  [bearerPattern, webTokenPattern, accessKeyPattern, apiTokenPattern]

theorem webTokenPattern_eq :
    webTokenPattern = ⟨webToken.regex, fun _ => '[' :: "REDACTED_JWT]".toList⟩ := by
  have hmark : "[REDACTED_JWT]".toList = '[' :: "REDACTED_JWT]".toList := by decide
  rw [webTokenPattern, hmark, regex_webToken]

theorem accessKeyPattern_eq :
    accessKeyPattern = ⟨keyId.regex, fun _ => '[' :: "REDACTED_ACCESS_KEY]".toList⟩ := by
  have hmark : "[REDACTED_ACCESS_KEY]".toList = '[' :: "REDACTED_ACCESS_KEY]".toList := by decide
  rw [accessKeyPattern, hmark, regex_keyId]

theorem apiTokenPattern_eq :
    apiTokenPattern = ⟨apiKey.regex, fun _ => '[' :: "REDACTED_TOKEN]".toList⟩ := by
  have hmark : "[REDACTED_TOKEN]".toList = '[' :: "REDACTED_TOKEN]".toList := by decide
  rw [apiTokenPattern, hmark, regex_apiKey]

section

variable {words : Words} (hclear : Clear words) {text : Text} (h : words.Absent none text)

include hclear h

theorem keeps_webToken : words.Absent none (webTokenPattern.replace text) := by
  rw [webTokenPattern_eq]
  exact keeps_token hclear webToken (by decide) (by decide) text h

theorem keeps_accessKey : words.Absent none (accessKeyPattern.replace text) := by
  rw [accessKeyPattern_eq]
  exact keeps_token hclear keyId (by decide) (by decide) text h

theorem keeps_apiToken : words.Absent none (apiTokenPattern.replace text) := by
  rw [apiTokenPattern_eq]
  exact keeps_token hclear apiKey (by decide) (by decide) text h

theorem keeps_last :
    words.Absent none (urlCredentialsPattern.replace (assignmentPattern.replace text)) := by
  have hassignment := keeps_assignment hclear text h
  exact keeps_urlCredentials hclear (assignmentPattern.replace text) hassignment

end

theorem webToken_absent (text : Text) :
    webToken.words.Absent none (webTokenPattern.replace text) := by
  rw [webTokenPattern_eq]
  exact token_absent clear_webToken (by decide) (by decide) text

theorem keyId_absent (text : Text) : keyId.words.Absent none (accessKeyPattern.replace text) := by
  rw [accessKeyPattern_eq]
  exact token_absent clear_keyId (by decide) (by decide) text

theorem apiKey_absent (text : Text) : apiKey.words.Absent none (apiTokenPattern.replace text) := by
  rw [apiTokenPattern_eq]
  exact token_absent clear_apiKey (by decide) (by decide) text

theorem redact_passes (value : Text) : ∃ text, redactAgentSensitiveText value =
    urlCredentialsPattern.replace (assignmentPattern.replace (apiTokenPattern.replace
      (accessKeyPattern.replace (webTokenPattern.replace (bearerPattern.replace text))))) := by
  unfold redactAgentSensitiveText secretPatterns
  simp only [foldl_cons, foldl_nil]
  exact ⟨_, rfl⟩

theorem redacted_tokens (value : Text) :
    ∀ p ∈ tokenPatterns, p.replace (redactAgentSensitiveText value) =
      redactAgentSensitiveText value := by
  obtain ⟨text, hpasses⟩ := redact_passes value
  rw [hpasses]
  simp only [tokenPatterns, forall_mem_cons, not_mem_nil, false_implies, implies_true, and_true]
  refine ⟨?_, ?_, ?_, ?_⟩
  · apply replaceAll_of_absent (fun _ _ => bearer_occurs)
    exact keeps_last clear_bearer (keeps_apiToken clear_bearer (keeps_accessKey clear_bearer
      (keeps_webToken clear_bearer (bearer_absent text))))
  · rw [webTokenPattern_eq]
    apply replaceAll_of_absent (fun _ _ => occursAt_of_match)
    rw [← webTokenPattern_eq]
    exact keeps_last clear_webToken (keeps_apiToken clear_webToken (keeps_accessKey clear_webToken
      (webToken_absent _)))
  · rw [accessKeyPattern_eq]
    apply replaceAll_of_absent (fun _ _ => occursAt_of_match)
    rw [← accessKeyPattern_eq]
    exact keeps_last clear_keyId (keeps_apiToken clear_keyId (keyId_absent _))
  rw [apiTokenPattern_eq]
  apply replaceAll_of_absent (fun _ _ => occursAt_of_match)
  rw [← apiTokenPattern_eq]
  exact keeps_last clear_apiKey (apiKey_absent _)

end ImApp.AgentRedaction
