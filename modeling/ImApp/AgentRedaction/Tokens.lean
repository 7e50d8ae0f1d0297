import ImApp.AgentRedaction.Patterns
import ImApp.Library.Masking

/-!
The tokens that four of the patterns look for, as words: what follows `Bearer`, web
tokens, access keys and keys with a known beginning. A pattern has a match exactly where
such a word occurs.
-/

namespace ImApp.AgentRedaction

open JsonText (Text)
open Regex List Bool

variable {c : Char}

theorem isWord_of_tokenChar (h : isWord c = true) : tokenChar c = true := by
  unfold isWord at h
  unfold tokenChar isLetter dash
  simp only [or_eq_true, decide_eq_true_eq] at h ⊢
  tauto

theorem isWord_of_bearerChar (h : isWord c = true) : bearerChar c = true := by
  unfold isWord at h
  unfold bearerChar isLetter
  simp only [or_eq_true, decide_eq_true_eq] at h ⊢
  tauto

theorem isWord_of_accessChar (h : accessChar c = true) : isWord c = true := by
  unfold accessChar at h
  unfold isWord
  simp only [or_eq_true] at h ⊢
  tauto

theorem extend_word (back : Text) :
    ∃ more rest, back = more ++ rest ∧ (∀ c ∈ more, isWord c = true) ∧
      wordBefore rest.head? = false := by
  refine ⟨back.takeWhile isWord, back.dropWhile isWord, takeWhile_append_dropWhile.symm,
    fun c hc => mem_takeWhile_imp hc, ?_⟩
  cases hrest : back.dropWhile isWord with
  | nil => rfl
  | cons c rest =>
    have hne : back.dropWhile isWord ≠ [] := by rw [hrest]; exact cons_ne_nil c rest
    have hhead := head_dropWhile_not isWord hne
    simp only [hrest, head_cons] at hhead
    exact hhead

/-- A pattern between two boundaries, and the texts that it matches. -/
structure Token where
  middle : List Regex
  body : Text → Prop
  ends_iff : ∀ s e, e ∈ (seqs middle).ends s ↔
    ∃ word back, s.rest = word ++ back ∧ body word ∧ e = s.after word back
  /-- The first two characters. -/
  begins : Char → Char → Bool
  pair : ∀ word, body word → ∃ c d rest, word = c :: d :: rest ∧ begins c d = true ∧ isWord c = true
  plain : ∀ word, body word → '[' ∉ word
  longer : ∀ word more, body word → wordBefore word.getLast? = false →
    (∀ c ∈ more, isWord c = true) → body (word ++ more)

namespace Token

variable (token : Token)

def regex : Regex := seqs ([.boundary] ++ token.middle ++ [.boundary])

def words : Words where
  shape := fun word => token.body word ∧ wordBefore word.getLast? = true
  closed := true
  like := Eq
  like_refl := fun _ => rfl
  like_word := by
    rintro c d rfl
    rfl
  shape_like := by
    intro word other hshape hlike
    rw [forall₂_eq_eq_eq] at hlike
    exact hlike ▸ hshape
  head := by
    rintro word ⟨hbody, -⟩
    obtain ⟨c, d, rest, hword, -, hc⟩ := token.pair word hbody
    exact ⟨c, d :: rest, hword, hc⟩
  plain := fun word hshape => token.plain word hshape.1
  last := fun _ word hshape => hshape.2

variable {token}

theorem ends_regex {s e : Spot} : e ∈ token.regex.ends s ↔ atBoundary s = true ∧
      ∃ word back, s.rest = word ++ back ∧ token.body word ∧ e = s.after word back ∧
        atBoundary e = true := by
  unfold regex
  rw [mem_seqs_append]
  constructor
  · rintro ⟨m, hm, he⟩
    obtain ⟨n, hn, hmiddle⟩ := mem_seqs_append.mp hm
    obtain ⟨n', hn', hself⟩ := mem_seqs_cons.mp hn
    obtain ⟨rfl, hs⟩ := mem_boundary.mp hn'
    obtain rfl := mem_seqs_nil.mp hself
    obtain ⟨word, back, hrest, hbody, rfl⟩ := (token.ends_iff _ _).mp hmiddle
    obtain ⟨n, hn, hself⟩ := mem_seqs_cons.mp he
    obtain ⟨rfl, hend⟩ := mem_boundary.mp hn
    obtain rfl := mem_seqs_nil.mp hself
    exact ⟨hs, word, back, hrest, hbody, rfl, hend⟩
  rintro ⟨hs, word, back, hrest, hbody, rfl, hend⟩
  refine ⟨s.after word back, mem_seqs_append.mpr ⟨s, ?_, ?_⟩, ?_⟩
  · exact mem_seqs_cons.mpr ⟨s, mem_boundary.mpr ⟨rfl, hs⟩, mem_seqs_nil.mpr rfl⟩
  · exact (token.ends_iff _ _).mpr ⟨word, back, hrest, hbody, rfl⟩
  exact mem_seqs_cons.mpr ⟨_, mem_boundary.mpr ⟨rfl, hend⟩, mem_seqs_nil.mpr rfl⟩

theorem before_boundary {s : Spot} {word back : Text} (hrest : s.rest = word ++ back)
    (hbody : token.body word) : atBoundary s = true ↔ wordBefore s.before.head? = false := by
  obtain ⟨c, d, rest, rfl, -, hc⟩ := token.pair word hbody
  unfold atBoundary
  rw [hrest]
  change (wordBefore s.before.head? != isWord c) = true ↔ _
  rw [hc]
  cases wordBefore s.before.head? <;> decide

theorem after_head {s : Spot} {word back : Text} (hbody : token.body word) :
    (s.after word back).before.head? = word.getLast? := by
  obtain ⟨c, d, rest, rfl, -, -⟩ := token.pair word hbody
  rw [Spot.after_before, head?_append, head?_reverse, getLast?_eq_some_getLast (cons_ne_nil _ _)]
  rfl

theorem occursAt_of_match {s e : Spot} (h : token.regex.matchAt s = some e) :
    token.words.OccursAt s.before.head? s.rest := by
  obtain ⟨hs, word, back, hrest, hbody, rfl, hend⟩ := ends_regex.mp (mem_of_matchAt h)
  have hpre := (before_boundary hrest hbody).mp hs
  unfold atBoundary at hend
  rw [after_head hbody] at hend
  change (wordBefore word.getLast? != wordBefore back.head?) = true at hend
  cases hlast : wordBefore word.getLast? with
  | true =>
    rw [hlast] at hend
    refine ⟨hpre, word, back, hrest, ⟨hbody, hlast⟩, fun _ => ?_⟩
    simpa using hend
  | false =>
    rw [hlast] at hend
    obtain ⟨more, rest, hback, hmore, hnext⟩ := extend_word back
    have hne : more ≠ [] := by
      rintro rfl
      rw [nil_append] at hback
      rw [hback, hnext] at hend
      cases hend
    refine ⟨hpre, word ++ more, rest, by rw [hrest, hback, append_assoc],
      ⟨token.longer word more hbody hlast hmore, ?_⟩, fun _ => hnext⟩
    rw [getLast?_append, getLast?_eq_some_getLast hne]
    exact hmore _ (getLast_mem hne)

theorem match_of_occursAt {s : Spot} (h : token.words.OccursAt s.before.head? s.rest) :
    token.regex.matchAt s ≠ none := by
  obtain ⟨hpre, word, back, hrest, ⟨hbody, hlast⟩, hback⟩ := h
  intro hnone
  apply matchAt_none.mp hnone (s.after word back)
  apply ends_regex.mpr
  refine ⟨(before_boundary hrest hbody).mpr hpre, word, back, hrest, hbody, rfl, ?_⟩
  unfold atBoundary
  rw [after_head hbody]
  change (wordBefore word.getLast? != wordBefore back.head?) = true
  rw [hlast, hback rfl]
  rfl

end Token

variable {text : String}

theorem spelled_not_mem (hc : isWord c = false)
    (htext : text.toList.all isWord = true) : ∀ word, Spelled text word → c ∉ word := by
  intro word hword
  unfold Spelled at hword
  generalize text.toList = letters at hword htext
  induction hword with
  | nil => exact not_mem_nil
  | cons hsame hrest ih =>
    obtain ⟨hd, htext⟩ := (and_eq_true _ _).mp htext
    intro hmem
    rcases mem_cons.mp hmem with rfl | hmem
    · rw [isWord_sameLetter hsame, hd] at hc
      cases hc
    exact ih htext hmem

theorem spelled_pair {a b : Char} {rest word : Text}
    (htext : text.toList = a :: b :: rest) (hword : Spelled text word) :
    ∃ c d back, word = c :: d :: back ∧ sameLetter a c = true ∧ sameLetter b d = true := by
  unfold Spelled at hword
  rw [htext] at hword
  cases hword with
  | cons hc hword =>
    cases hword with
    | cons hd hword => exact ⟨_, _, _, rfl, hc, hd⟩

/-- A web token. -/
def webToken : Token where
  middle := [literal "eyJ", .many 8 tokenChar, .one (· = '.'), .many 8 tokenChar, .one (· = '.'),
    .many 8 tokenChar]
  body := Then (· = "eyJ".toList) (Then (Run 8 tokenChar) (Then (Exactly 1 (· = '.'))
    (Then (Run 8 tokenChar) (Then (Exactly 1 (· = '.')) (Run 8 tokenChar)))))
  ends_iff := takes_cons (takes_literal _) (takes_cons (takes_many _ _) (takes_cons (takes_one _)
    (takes_cons (takes_many _ _) (takes_cons (takes_one _) (takes_many _ _)))))
  begins := fun c d => c = 'e' && d = 'y'
  pair := by
    rintro word ⟨front, back, rfl, rfl, -⟩
    exact ⟨'e', 'y', 'J' :: back, rfl, by decide, by decide⟩
  plain := by
    apply then_not_mem
    · rintro word rfl
      decide
    apply then_not_mem (run_not_mem (by decide))
    apply then_not_mem (exactly_not_mem (by decide))
    apply then_not_mem (run_not_mem (by decide))
    apply then_not_mem (exactly_not_mem (by decide))
    exact run_not_mem (by decide)
  longer := by
    intro word more hbody hlast hmore
    have htoken : ∀ c ∈ more, tokenChar c = true := fun c hc => isWord_of_tokenChar (hmore c hc)
    apply then_longer _ hbody
    intro word₁
    apply then_longer
    intro word₂
    apply then_longer
    intro word₃
    apply then_longer
    intro word₄
    apply then_longer
    intro word₅
    exact run_longer htoken

theorem regex_webToken : jsonWebToken = webToken.regex := rfl

/-- The identifier of an access key. -/
def keyId : Token where
  middle := [alts [literal "AKIA", literal "ASIA"]] ++ List.replicate 16 (.one accessChar)
  body := Then (fun word => word = "AKIA".toList ∨ word = "ASIA".toList) (Exactly 16 accessChar)
  ends_iff := takes_append [alts [literal "AKIA", literal "ASIA"]]
    (takes_alt (takes_literal _) (takes_literal _)) (takes_replicate _ _)
  begins := fun c d => c = 'A' && (d = 'K' || d = 'S')
  pair := by
    rintro word ⟨front, back, rfl, rfl | rfl, -⟩
    · exact ⟨'A', 'K', 'I' :: 'A' :: back, rfl, by decide, by decide⟩
    exact ⟨'A', 'S', 'I' :: 'A' :: back, rfl, by decide, by decide⟩
  plain := by
    apply then_not_mem
    · rintro word (rfl | rfl)
      · decide
      decide
    exact exactly_not_mem (by decide)
  longer := by
    rintro word more ⟨front, back, rfl, -, hlen, hall⟩ hlast -
    have hne : back ≠ [] := by
      rintro rfl
      cases hlen
    rw [getLast?_append, getLast?_eq_some_getLast hne] at hlast
    change isWord (back.getLast hne) = false at hlast
    rw [isWord_of_accessChar (hall _ (getLast_mem hne))] at hlast
    cases hlast

theorem regex_keyId : accessKey = keyId.regex := rfl

/-- A key that begins with `sk`, `ghp` or `xox` and a letter. -/
def apiKey : Token where
  middle := [alts [anyCase "sk", anyCase "ghp",
      seqs [anyCase "xox", alts (['b', 'a', 'p', 'r', 's'].map fun c => .one (sameLetter c))]],
    .one dash, .many 12 tokenChar]
  body := Then (fun word => Spelled "sk" word ∨ Spelled "ghp" word ∨
      Then (Spelled "xox") (fun word => Exactly 1 (sameLetter 'b') word ∨
        Exactly 1 (sameLetter 'a') word ∨ Exactly 1 (sameLetter 'p') word ∨
        Exactly 1 (sameLetter 'r') word ∨ Exactly 1 (sameLetter 's') word) word)
    (Then (Exactly 1 dash) (Run 12 tokenChar))
  ends_iff := takes_cons
    (takes_alt (takes_anyCase _) (takes_alt (takes_anyCase _) (takes_cons (takes_anyCase _)
      (takes_alt (takes_one _) (takes_alt (takes_one _) (takes_alt (takes_one _)
        (takes_alt (takes_one _) (takes_one _))))))))
    (takes_cons (takes_one _) (takes_many _ _))
  begins := fun c d => sameLetter 's' c && sameLetter 'k' d || sameLetter 'g' c && sameLetter 'h' d ||
    sameLetter 'x' c && sameLetter 'o' d
  pair := by
    rintro word ⟨front, back, rfl, hfront, -⟩
    rcases hfront with hsk | hghp | ⟨xox, letter, rfl, hxox, -⟩
    · obtain ⟨c, d, rest, rfl, hc, hd⟩ := spelled_pair (show "sk".toList = ['s', 'k'] by decide) hsk
      exact ⟨c, d, rest ++ back, rfl, by rw [hc, hd]; rfl, isWord_sameLetter hc⟩
    · obtain ⟨c, d, rest, rfl, hc, hd⟩ := spelled_pair (show "ghp".toList = ['g', 'h', 'p'] by decide) hghp
      exact ⟨c, d, rest ++ back, rfl, by rw [hc, hd]; simp, isWord_sameLetter hc⟩
    obtain ⟨c, d, rest, rfl, hc, hd⟩ := spelled_pair (show "xox".toList = ['x', 'o', 'x'] by decide) hxox
    exact ⟨c, d, rest ++ letter ++ back, by simp, by rw [hc, hd]; simp, isWord_sameLetter hc⟩
  plain := by
    apply then_not_mem
    · rintro word (hsk | hghp | hxox)
      · exact spelled_not_mem (by decide) (by decide) word hsk
      · exact spelled_not_mem (by decide) (by decide) word hghp
      refine then_not_mem (spelled_not_mem (by decide) (by decide)) ?_ word hxox
      rintro word (h | h | h | h | h)
      all_goals exact exactly_not_mem (by decide) word h
    apply then_not_mem (exactly_not_mem (by decide))
    exact run_not_mem (by decide)
  longer := by
    intro word more hbody hlast hmore
    have htoken : ∀ c ∈ more, tokenChar c = true := fun c hc => isWord_of_tokenChar (hmore c hc)
    apply then_longer _ hbody
    intro word₁
    apply then_longer
    intro word₂
    exact run_longer htoken

theorem regex_apiKey : apiToken = apiKey.regex := rfl

/-- Letters in any case, and blanks, can stand for each other. -/
def bearerLike (c d : Char) : Prop := sameLetter c d = true ∨ isBlank c = true ∧ isBlank d = true

theorem bearerLike_refl (c : Char) : bearerLike c c := .inl (sameLetter_iff.mpr rfl)

theorem then_like {first second : Text → Prop} {like : Char → Char → Prop}
    (hfirst : ∀ word other, first word → List.Forall₂ like word other → first other)
    (hsecond : ∀ word other, second word → List.Forall₂ like word other → second other) :
    ∀ word other, Then first second word → List.Forall₂ like word other → Then first second other := by
  rintro word other ⟨front, back, rfl, hfront, hback⟩ hlike
  have htake := forall₂_take front.length hlike
  have hdrop := forall₂_drop front.length hlike
  rw [take_left] at htake
  rw [drop_left] at hdrop
  exact ⟨other.take front.length, other.drop front.length, (take_append_drop _ _).symm,
    hfirst _ _ hfront htake, hsecond _ _ hback hdrop⟩

theorem run_like {least : Nat} {accepts : Char → Bool} {like : Char → Char → Prop}
    (h : ∀ c d, accepts c = true → like c d → accepts d = true) :
    ∀ word other, Run least accepts word → List.Forall₂ like word other →
      Run least accepts other := by
  rintro word other ⟨hlen, hall⟩ hlike
  refine ⟨hlike.length_eq ▸ hlen, ?_⟩
  clear hlen
  induction hlike with
  | nil => simp
  | cons hc hrest ih =>
    obtain ⟨hhead, htail⟩ := forall_mem_cons.mp hall
    exact forall_mem_cons.mpr ⟨h _ _ hhead hc, ih htail⟩

theorem isWord_of_isBlank (h : isBlank c = true) : isWord c = false := by
  cases hword : isWord c with
  | false => rfl
  | true =>
    rw [isBlank_of_isWord hword] at h
    cases h

theorem isBlank_of_bearerChar (h : bearerChar c = true) : isBlank c = false := by
  unfold bearerChar at h
  simp only [or_eq_true, decide_eq_true_eq] at h
  rcases h with (((((((hletter | hdigit) | rfl) | rfl) | rfl) | rfl) | rfl) | rfl) | rfl
  · exact isBlank_of_isWord (isWord_of_isLetter hletter)
  · apply isBlank_of_isWord
    rw [isWord, hdigit]
    rfl
  all_goals decide

theorem spelled_like (htext : text.toList.all isWord = true) :
    ∀ word other, Spelled text word → List.Forall₂ bearerLike word other → Spelled text other := by
  intro word other hword hlike
  unfold Spelled at hword ⊢
  generalize text.toList = letters at hword htext ⊢
  induction hword generalizing other with
  | nil =>
    cases hlike
    exact .nil
  | cons hc hword ih =>
    obtain ⟨hletter, htext⟩ := (and_eq_true _ _).mp htext
    cases hlike with
    | cons hd hlike =>
      refine .cons ?_ (ih _ hlike htext)
      rcases hd with hsame | ⟨hblank, -⟩
      · exact sameLetter_trans hc hsame
      rw [isBlank_of_isWord (by rw [isWord_sameLetter hc, hletter])] at hblank
      cases hblank

def bearerBody : Text → Prop :=
  Then (Spelled "Bearer") (Then (Run 1 isBlank) (Run 8 bearerChar))

def bearerWords : Words where
  shape := bearerBody
  closed := false
  like := bearerLike
  like_refl := bearerLike_refl
  like_word := by
    rintro c d (hsame | ⟨hc, hd⟩)
    · exact (isWord_sameLetter hsame).symm
    rw [isWord_of_isBlank hc, isWord_of_isBlank hd]
  shape_like := by
    apply then_like (spelled_like (by decide))
    apply then_like
    · apply run_like
      rintro c d hc (hsame | ⟨-, hd⟩)
      · rcases sameLetter_cases hsame with rfl | ⟨hletter, -⟩
        · exact hc
        rw [isBlank_of_isWord (isWord_of_isLetter hletter)] at hc
        cases hc
      exact hd
    apply run_like
    rintro c d hc (hsame | ⟨hblank, -⟩)
    · rcases sameLetter_cases hsame with rfl | ⟨-, hletter⟩
      · exact hc
      exact isWord_of_bearerChar (isWord_of_isLetter hletter)
    rw [isBlank_of_bearerChar hc] at hblank
    cases hblank
  head := by
    rintro word ⟨front, back, rfl, hfront, -⟩
    obtain ⟨c, d, rest, rfl, hc, -⟩ :=
      spelled_pair (show "Bearer".toList = ['B', 'e', 'a', 'r', 'e', 'r'] by decide) hfront
    exact ⟨c, d :: rest ++ back, rfl, isWord_sameLetter hc⟩
  plain := by
    apply then_not_mem (spelled_not_mem (by decide) (by decide))
    apply then_not_mem (run_not_mem (by decide))
    exact run_not_mem (by decide)
  last := by
    intro hclosed
    cases hclosed

end ImApp.AgentRedaction
