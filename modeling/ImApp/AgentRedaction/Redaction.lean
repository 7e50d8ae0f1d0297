import ImApp.AgentRedaction.Passes
import ImApp.AgentRedaction.Walk

/-!
What redaction does to a value: what it hides, what it keeps, and when running it once
more changes nothing.

The last replacement, of secrets in addresses, changes nothing in its own result: an
address in it stood in the text before, with its secret or with the mark.
-/

namespace ImApp.AgentRedaction

open JsonText (Text)
open Regex List

/-- `[^\s/:@]` -/
def userChar (c : Char) : Bool := !isBlank c && c ≠ '/' && c ≠ ':' && c ≠ '@'

/-- `[^\s/@]` -/
def secretChar (c : Char) : Bool := !isBlank c && c ≠ '/' && c ≠ '@'

def front (user : Text) : Text := ':' :: '/' :: '/' :: (user ++ [':'])

theorem front_eq (user : Text) : front user = "://".toList ++ (user ++ [':']) := by
  have hslashes : "://".toList = [':', '/', '/'] := by decide
  rw [hslashes]
  rfl

/-- The beginning of a text is an address with a user and a secret. -/
structure Address (text user secret back : Text) : Prop where
  split : text = front user ++ (secret ++ '@' :: back)
  user : Run 1 userChar user
  secret : Run 1 secretChar secret

theorem urlCredentials_eq : urlCredentials =
    seqs [.group (seqs [literal "://", .many 1 userChar, .one (· = ':')]),
      .group (.many 1 secretChar), .group (.one (· = '@'))] := rfl

variable {s e : Spot}

theorem mem_group_takes {r : Regex} {body : Text → Prop} (hr : Takes r body) :
    e ∈ (group r).ends s ↔ ∃ word back, s.rest = word ++ back ∧ body word ∧
      e = ⟨word.reverse ++ s.before, back, s.groups ++ [word]⟩ := by
  rw [mem_group]
  constructor
  · rintro ⟨m, hm, rfl⟩
    obtain ⟨word, back, hrest, hword, rfl⟩ := (hr _ _).mp hm
    exact ⟨word, back, hrest, hword, by rw [upto_eq (Spot.after_before s word back)]; rfl⟩
  rintro ⟨word, back, hrest, hword, rfl⟩
  refine ⟨s.after word back, (hr _ _).mpr ⟨word, back, hrest, hword, rfl⟩, ?_⟩
  rw [upto_eq (Spot.after_before s word back)]
  rfl

theorem ends_urlCredentials (hgroups : s.groups = []) :
    e ∈ urlCredentials.ends s ↔ ∃ user secret back, Address s.rest user secret back ∧
      e = ⟨(front user ++ secret ++ ['@']).reverse ++ s.before, back,
        [front user, secret, ['@']]⟩ := by
  have hfront : Takes (seqs [literal "://", .many 1 userChar, .one (· = ':')])
      (Then (· = "://".toList) (Then (Run 1 userChar) (Exactly 1 (· = ':')))) :=
    takes_cons (takes_literal _) (takes_cons (takes_many _ _) (takes_one _))
  rw [urlCredentials_eq, mem_seqs_cons]
  constructor
  · rintro ⟨m, hm, he⟩
    obtain ⟨word, back, hrest, ⟨_, tail, rfl, rfl, user, colon, rfl, huser, hcolon⟩, rfl⟩ :=
      (mem_group_takes hfront).mp hm
    obtain ⟨n, hn, he⟩ := mem_seqs_cons.mp he
    obtain ⟨secret, back', hrest', hsecret, rfl⟩ := (mem_group_takes (takes_many _ _)).mp hn
    obtain ⟨at_, back'', hrest'', hat, rfl⟩ := (mem_group_takes (takes_one _)).mp he
    obtain ⟨c, rfl⟩ := length_eq_one_iff.mp hcolon.1
    obtain rfl := of_decide_eq_true (hcolon.2 _ mem_cons_self)
    obtain ⟨d, rfl⟩ := length_eq_one_iff.mp hat.1
    obtain rfl := of_decide_eq_true (hat.2 _ mem_cons_self)
    refine ⟨user, secret, back'', ⟨?_, huser, hsecret⟩, ?_⟩
    · change back = secret ++ back' at hrest'
      change back' = ['@'] ++ back'' at hrest''
      rw [hrest, hrest', hrest'', front_eq]
      simp
    simp [front_eq, hgroups]
  rintro ⟨user, secret, back, ⟨hsplit, huser, hsecret⟩, rfl⟩
  refine ⟨_, (mem_group_takes hfront).mpr ⟨front user, secret ++ '@' :: back, hsplit,
    ⟨"://".toList, user ++ [':'], front_eq user, rfl, user, [':'], rfl, huser, rfl, by simp⟩,
    rfl⟩, mem_seqs_cons.mpr ⟨_, (mem_group_takes (takes_many _ _)).mpr
      ⟨secret, '@' :: back, rfl, hsecret, rfl⟩,
      (mem_group_takes (takes_one _)).mpr ⟨['@'], back, rfl, ⟨rfl, by simp⟩, ?_⟩⟩⟩
  simp [hgroups]

variable {word back text : Text}

theorem span_unique {p : Char → Bool} {word' : Text} {c : Char} {back' : Text}
    (hword : ∀ d ∈ word, p d = true) (hword' : ∀ d ∈ word', p d = true) (hc : p c = false)
    (h : word ++ c :: back = word' ++ c :: back') : word = word' ∧ back = back' := by
  induction word generalizing word' with
  | nil =>
    cases word' with
    | nil => exact ⟨rfl, (List.cons.inj h).2⟩
    | cons d word' =>
      obtain ⟨rfl, -⟩ := List.cons.inj h
      rw [hword' c mem_cons_self] at hc
      cases hc
  | cons d word ih =>
    cases word' with
    | nil =>
      obtain ⟨rfl, -⟩ := List.cons.inj h
      rw [hword d mem_cons_self] at hc
      cases hc
    | cons d' word' =>
      obtain ⟨hd, hmore⟩ := List.cons.inj h
      subst hd
      obtain ⟨rfl, hback⟩ := ih (fun e he => hword e (mem_cons_of_mem _ he))
        (fun e he => hword' e (mem_cons_of_mem _ he)) hmore
      exact ⟨rfl, hback⟩

theorem address_unique {user user' secret secret' back' : Text}
    (h : Address text user secret back) (h' : Address text user' secret' back') :
    user = user' ∧ secret = secret' ∧ back = back' := by
  have hsame := h.split.symm.trans h'.split
  unfold front at hsame
  simp only [append_assoc, cons_append, nil_append, List.cons.injEq, true_and] at hsame
  obtain ⟨rfl, hmore⟩ := span_unique h.user.2 h'.user.2 (by decide) hsame
  obtain ⟨rfl, rfl⟩ := span_unique h.secret.2 h'.secret.2 (by decide) hmore
  exact ⟨rfl, rfl, rfl⟩

/-- The replaced text of an address. -/
def covered (user : Text) : Text := front user ++ marker ++ ['@']

def replacement (groups : List Text) : Text := afterPrefix groups ++ groups[2]?.getD []

theorem matchAt_urlCredentials (hgroups : s.groups = []) {user secret : Text}
    (h : Address s.rest user secret back) :
    ∃ e, urlCredentials.matchAt s = some e ∧ e.rest = back ∧ replacement e.groups = covered user := by
  cases hmatch : urlCredentials.matchAt s with
  | none =>
    exact absurd ((ends_urlCredentials hgroups).mpr ⟨user, secret, back, h, rfl⟩)
      (matchAt_none.mp hmatch _)
  | some e =>
    obtain ⟨user', secret', back', h', rfl⟩ :=
      (ends_urlCredentials hgroups).mp (mem_of_matchAt hmatch)
    obtain ⟨rfl, rfl, rfl⟩ := address_unique h h'
    exact ⟨_, rfl, rfl, rfl⟩

theorem address_of_match (hgroups : s.groups = []) (h : urlCredentials.matchAt s = some e) :
    ∃ user secret, Address s.rest user secret e.rest ∧ replacement e.groups = covered user := by
  obtain ⟨user, secret, back, haddress, rfl⟩ := (ends_urlCredentials hgroups).mp (mem_of_matchAt h)
  exact ⟨user, secret, haddress, rfl⟩

/-- A text that an address cannot begin in. -/
def joined : Text → Bool
  | [] => true
  | [c] => c ≠ ':'
  | c :: d :: rest => !(c = ':' && d = '/') && joined (d :: rest)

theorem joined_tail {c : Char} (h : joined (c :: word) = true) : joined word = true := by
  cases word with
  | nil => rfl
  | cons d word => exact ((Bool.and_eq_true _ _).mp h).2

theorem joined_of_not_mem (hslash : '/' ∉ word) (hlast : word.getLast? ≠ some ':') :
    joined word = true := by
  induction word with
  | nil => rfl
  | cons c word ih =>
    cases word with
    | nil => exact decide_eq_true fun hc => hlast (by rw [hc]; rfl)
    | cons d word =>
      rw [joined, ih (fun hmem => hslash (mem_cons_of_mem _ hmem)) hlast]
      have hd : d ≠ '/' := fun hd => hslash (hd ▸ mem_cons_of_mem _ mem_cons_self)
      simp [hd]

theorem text_before (h : Replaced urlCredentials replacement s text) (hgroups : s.groups = [])
    (htext : text = word ++ back) (hword : joined word = true) :
    ∃ back', s.rest = word ++ back' := by
  induction h generalizing word with
  | done hrest =>
    obtain ⟨rfl, -⟩ := append_eq_nil_iff.mp htext.symm
    exact ⟨_, rfl⟩
  | keep hrest hnone hmore ih =>
    cases word with
    | nil => exact ⟨_, rfl⟩
    | cons c word =>
      rw [cons_append] at htext
      obtain ⟨hc, hmore'⟩ := List.cons.inj htext
      subst hc
      obtain ⟨back', hback'⟩ := ih rfl hmore' (joined_tail hword)
      exact ⟨back', by rw [hrest]; exact congrArg (_ :: ·) hback'⟩
  | cut hsome hmore ih =>
    obtain ⟨user, secret, -, hcovered⟩ := address_of_match hgroups hsome
    rw [hcovered] at htext
    cases word with
    | nil => exact ⟨_, rfl⟩
    | cons c word =>
      obtain ⟨hc, hmore'⟩ := List.cons.inj htext
      subst hc
      cases word with
      | nil => cases hword
      | cons d word =>
        obtain ⟨hd, -⟩ := List.cons.inj hmore'
        subst hd
        cases hword

theorem replaced_again
    (h : Replaced urlCredentials replacement s text) (hgroups : s.groups = []) {s' : Spot}
    (hrest' : s'.rest = text) (hgroups' : s'.groups = []) :
    Replaced urlCredentials replacement s' text := by
  induction h generalizing s' with
  | done hrest => exact .done hrest'
  | keep hrest hnone hmore ih =>
    rename_i s c rest text
    apply Replaced.keep hrest' _ (ih rfl rfl rfl)
    cases hfound : urlCredentials.matchAt s' with
    | none => rfl
    | some e =>
      obtain ⟨user, secret, haddress, -⟩ := address_of_match hgroups' hfound
      have hsplit := haddress.split
      rw [hrest'] at hsplit
      obtain ⟨rfl, htext⟩ := List.cons.inj hsplit
      have hjoined : joined ('/' :: '/' :: (user ++ ':' :: (secret ++ ['@']))) = true := by
        have htail : joined (user ++ ':' :: (secret ++ ['@'])) = true := by
          apply joined_of_not_mem
          · have huser := run_not_mem (c := '/') (by decide) user haddress.user
            have hsecret := run_not_mem (c := '/') (by decide) secret haddress.secret
            simp [huser, hsecret]
          rw [show user ++ ':' :: (secret ++ ['@']) = (user ++ ':' :: secret) ++ ['@'] by simp,
            List.getLast?_append, List.getLast?_singleton, Option.some_or]
          decide
        have hhead : ∀ word, joined word = true → word ≠ [] → joined ('/' :: word) = true := by
          intro word hword hne
          cases word with
          | nil => exact absurd rfl hne
          | cons c word => rw [joined, hword]; rfl
        exact hhead _ (hhead _ htail (by simp)) (cons_ne_nil _ _)
      obtain ⟨back', hback'⟩ := text_before hmore rfl
        (show text = '/' :: '/' :: (user ++ ':' :: (secret ++ ['@'])) ++ e.rest by
          rw [htext]
          simp) hjoined
      have hpre : Address s.rest user secret back' := by
        refine ⟨?_, haddress.user, haddress.secret⟩
        rw [hrest, front]
        change _ :: rest = _
        rw [show rest = _ from hback']
        simp
      obtain ⟨e', he', -⟩ := matchAt_urlCredentials hgroups hpre
      rw [hnone] at he'
      cases he'
  | cut hsome hmore ih =>
    rename_i s e text
    obtain ⟨user, secret, haddress, hcovered⟩ := address_of_match hgroups hsome
    rw [hcovered] at hrest' ⊢
    have hmarker : Run 1 secretChar marker :=
      ⟨by decide, all_eq_true.mp (by decide)⟩
    have hagain : Address s'.rest user marker text := by
      refine ⟨?_, haddress.user, hmarker⟩
      rw [hrest', covered]
      simp
    obtain ⟨e', he', hback, hout⟩ := matchAt_urlCredentials hgroups' hagain
    rw [← hout]
    exact .cut he' (ih rfl hback rfl)

theorem redacted_urlCredentials (value : Text) :
    urlCredentialsPattern.replace (redactAgentSensitiveText value) =
      redactAgentSensitiveText value := by
  obtain ⟨text, hpasses⟩ := redact_passes value
  rw [hpasses]
  generalize assignmentPattern.replace _ = last
  have hfirst : Replaced urlCredentials replacement (Spot.start last)
      (urlCredentialsPattern.replace last) :=
    replaced_replaceFrom advances_urlCredentials replacement rfl (Nat.lt_succ_self _)
  have hsecond : Replaced urlCredentials replacement
      (Spot.start (urlCredentialsPattern.replace last)) (urlCredentialsPattern.replace last) :=
    replaced_again hfirst rfl rfl rfl
  apply replaced_unique advances_urlCredentials rfl _ hsecond
  exact replaced_replaceFrom advances_urlCredentials replacement rfl (Nat.lt_succ_self _)

end ImApp.AgentRedaction

namespace ImApp.AgentRedaction

open JsonText (Text Json)

/-- The patterns that change no redacted text. -/
def stablePatterns : List SecretPattern := urlCredentialsPattern :: tokenPatterns

theorem redacted_stable (value : Text) :
    ∀ p ∈ stablePatterns, p.replace (redactAgentSensitiveText value) =
      redactAgentSensitiveText value := by
  unfold stablePatterns
  rw [List.forall_mem_cons]
  exact ⟨redacted_urlCredentials value, redacted_tokens value⟩

theorem marker_stable : ∀ p ∈ stablePatterns, p.replace marker = marker := by
  have h := redacted_stable marker
  rwa [text_marker] at h

/-- No pattern changes the text. -/
def Clean (text : Text) : Prop := ∀ p ∈ secretPatterns, p.replace text = text

theorem redact_clean {text : Text} (h : Clean text) : redactAgentSensitiveText text = text := by
  have hfold : ∀ patterns : List SecretPattern, (∀ p ∈ patterns, p.replace text = text) →
      patterns.foldl (fun result p => p.replace result) text = text := by
    intro patterns hpatterns
    induction patterns with
    | nil => rfl
    | cons p patterns ih =>
      rw [List.foldl_cons, hpatterns p List.mem_cons_self]
      exact ih fun q hq => hpatterns q (List.mem_cons_of_mem _ hq)
  exact hfold secretPatterns h

/-- A scalar that holds no text of a pattern. -/
def CleanScalar : Json → Prop
  | .string text => Clean text
  | value => isOtherScalar value = true

theorem redact_cleanScalar {value : Json} (h : CleanScalar value) (levels : Nat) :
    redact levels [] value = value := by
  cases value with
  | string text => rw [redact_string, redact_clean h]
  | null | bool b | number literal => exact redact_other rfl levels
  | array items | object fields => cases h

theorem scalar_kept {value found : Json} {path : List Nat} {keys : List Text}
    (hplace : place value path = some (keys, found)) (hkeys : Plain keys)
    (hclean : CleanScalar found) :
    place (redactAgentSensitiveValue value) path = some (keys, found) := by
  unfold redactAgentSensitiveValue
  rcases Nat.lt_or_ge 8 path.length with hdeep | hpath
  · exact place_deep hplace hdeep fun key hkey => hkeys key (List.mem_of_mem_take hkey)
  rw [place_redact hplace hpath hkeys, redact_cleanScalar hclean]

theorem redaction (value : Json) :
    (∀ path keys last found, place (redactAgentSensitiveValue value) path = some (keys, found) →
      path.length ≤ 8 → keys.getLast? = some last → secretKey.test last = true →
        found = .string marker) ∧
    (∀ path keys text, place (redactAgentSensitiveValue value) path = some (keys, .string text) →
      path.length ≤ 8 → ∀ p ∈ stablePatterns, p.replace text = text) ∧
    (∀ path keys found, place value path = some (keys, found) → Plain keys → CleanScalar found →
      place (redactAgentSensitiveValue value) path = some (keys, found)) ∧
    (∀ path keys found, place value path = some (keys, found) → Plain keys → 8 < path.length →
      place (redactAgentSensitiveValue value) path = some (keys, found)) ∧
    (redactAgentSensitiveValue (redactAgentSensitiveValue value) = redactAgentSensitiveValue value ↔
      Settled 8 value) := by
  refine ⟨?_, ?_, ?_, ?_, ?_, ?_⟩
  · intro path keys last found hplace hpath hlast hsecret
    unfold redactAgentSensitiveValue at hplace
    exact secret_marked hplace hpath hlast hsecret
  · intro path keys text hplace hpath
    unfold redactAgentSensitiveValue at hplace
    rcases string_redacted hplace hpath with hmarker | ⟨original, _, htext⟩
    · rw [hmarker]
      exact marker_stable
    rw [htext]
    exact redacted_stable original
  · intro path keys found hplace hkeys hclean
    exact scalar_kept hplace hkeys hclean
  · intro path keys found hplace hkeys hpath
    unfold redactAgentSensitiveValue
    exact place_deep hplace hpath fun key hkey => hkeys key (List.mem_of_mem_take hkey)
  · exact settled_of_same
  intro hset
  exact redact_redact fun _ => hset

/-- This many objects around a value. -/
def nested : Nat → Json → Json
  | 0, value => value
  | levels + 1, value => .object [("a".toList, nested levels value)]

/-- A password eight containers deep stays, and an address with the word `token` for its
user changes once more. -/
theorem deep_password : (∃ keys, place (redactAgentSensitiveValue
        (nested 8 (.object [("password".toList, .string "x".toList)]))) (List.replicate 9 0) =
          some (keys ++ ["password".toList], .string "x".toList) ∧
      secretKey.test "password".toList = true ∧ "x".toList ≠ marker) ∧
    redactAgentSensitiveText (redactAgentSensitiveText "://token:,p@h".toList) ≠
      redactAgentSensitiveText "://token:,p@h".toList := by
  refine ⟨⟨List.replicate 8 "a".toList, ?_, by decide, by decide⟩, by decide +kernel⟩
  apply place_deep (by rfl) (by decide)
  intro key hkey
  rw [List.take_left' (by simp)] at hkey
  obtain rfl := List.eq_of_mem_replicate hkey
  decide

end ImApp.AgentRedaction
