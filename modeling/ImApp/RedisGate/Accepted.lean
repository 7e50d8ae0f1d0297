import ImApp.RedisGate.Server

/-!
What an accepted request went through. Its name is a read in upper case, and where the
server receives ASCII bytes, the gate saw the same bytes.
-/

namespace ImApp.RedisGate

open List Option JsNumber
open JsonText (Text)
open Utf8 (Bytes)
open UnicodeText (toUpper_lower toUpper_other lower_bounds)

theorem upperChar_ascii {c : Char} (h : c.toNat < 0x80) : upperChar c = [c.toUpper] := by
  have hne : ∀ d : Char, 0x80 ≤ d.toNat → c ≠ d := by
    rintro d hd rfl
    omega
  simp [upperChar, hne 'ß' (by decide), hne 'ı' (by decide), hne 'ſ' (by decide),
    hne 'ﬀ' (by decide), hne 'ﬁ' (by decide), hne 'ﬂ' (by decide), hne 'ﬃ' (by decide),
    hne 'ﬄ' (by decide), hne 'ﬅ' (by decide), hne 'ﬆ' (by decide)]

theorem upperChar_cases (c : Char) : (JsNumber.isBlank c = false ∧ upperChar c ≠ [] ∧
        (upperChar c).all (fun d => 65 ≤ d.toNat && d.toNat ≤ 90) = true) ∨ upperChar c = [c] := by
  by_cases h : 'a'.val ≤ c.val ∧ c.val ≤ 'z'.val
  · left
    have hbounds := lower_bounds h
    have hshift := toUpper_lower h
    rw [upperChar_ascii (by omega)]
    refine ⟨isBlank_of_ascii (by omega) (by omega), cons_ne_nil _ _, ?_⟩
    rw [all_cons, all_nil, Bool.and_true, Bool.and_eq_true, decide_eq_true_eq, decide_eq_true_eq]
    omega
  by_cases hc : c ∈ ['ß', 'ı', 'ſ', 'ﬀ', 'ﬁ', 'ﬂ', 'ﬃ', 'ﬄ', 'ﬅ', 'ﬆ']
  · simp only [mem_cons, not_mem_nil, or_false] at hc
    rcases hc with rfl | rfl | rfl | rfl | rfl | rfl | rfl | rfl | rfl | rfl
    all_goals exact .inl (by decide)
  simp only [mem_cons, not_mem_nil, or_false, not_or] at hc
  right
  simp [upperChar, hc, toUpper_other h]

theorem all_capitals {text : Text} (h : text.all (fun d => 65 ≤ d.toNat && d.toNat ≤ 90) = true) :
    ∀ d ∈ text, 65 ≤ d.toNat ∧ d.toNat ≤ 90 := by
  intro d hd
  simpa using List.all_eq_true.mp h d hd

theorem upperChar_capital {c : Char} (hlow : 65 ≤ c.toNat) (hhigh : c.toNat ≤ 90) :
    upperChar c = [c] := by
  rw [upperChar_ascii (by omega), toUpper_other]
  intro h
  have hbounds := lower_bounds h
  omega

theorem toUpperCase_toUpperCase (text : Text) :
    toUpperCase (toUpperCase text) = toUpperCase text := by
  have hchar : ∀ c, (upperChar c).flatMap upperChar = upperChar c := by
    intro c
    rcases upperChar_cases c with ⟨-, -, hcapitals⟩ | hself
    · have hmap : (upperChar c).flatMap upperChar = (upperChar c).flatMap fun d => [d] :=
        flatMap_congr fun d hd => upperChar_capital (all_capitals hcapitals d hd).1
          (all_capitals hcapitals d hd).2
      rw [hmap, flatMap_singleton']
    rw [hself, flatMap_singleton, hself]
  unfold toUpperCase
  rw [flatMap_assoc]
  exact flatMap_congr fun c _ => hchar c

theorem trim_toUpperCase (text : Text) :
    JsNumber.trim (toUpperCase text) = toUpperCase (JsNumber.trim text) := by
  apply UnicodeText.trimWhere_flatMap
  · intro c hc d hd
    rcases upperChar_cases c with ⟨hother, -, -⟩ | hself
    · rw [hother] at hc
      cases hc
    rw [hself, mem_singleton] at hd
    rw [hd, hc]
  intro c hc
  rcases upperChar_cases c with ⟨-, hne, hcapitals⟩ | hself
  · refine ⟨hne, fun d hd => ?_⟩
    have hbounds := all_capitals hcapitals d hd
    exact isBlank_of_ascii (by omega) (by omega)
  rw [hself]
  refine ⟨cons_ne_nil _ _, fun d hd => ?_⟩
  rw [mem_singleton.mp hd, hc]

theorem none_of_check {c : Prop} [Decidable c] {message : String} {rest : Option String} :
    (if c then some message else rest) = none ↔ ¬ c ∧ rest = none := by
  split <;> simp [*]

/-- What holds of the arguments when no check failed. -/
structure Checked (name : Text) (args : List Bytes) : Prop where
  indexes : named ["LRANGE", "ZRANGE", "ZREVRANGE"] name = true →
    ∃ start stop, integerAt args 1 = some start ∧ integerAt args 2 = some stop ∧
      start ≤ stop ∧ exceeds start stop = false
  entries : named ["XRANGE", "XREVRANGE"] name = true →
    ∃ i, optionIndex args "COUNT" = some i ∧ isBound (integerAt args (i + 1)) = true
  keys : named ["MGET", "EXISTS"] name = true → args.length ≤ 100
  fields : named ["HMGET", "SMISMEMBER", "ZMSCORE"] name = true → args.length ≤ 101
  scans : named ["HSCAN", "SSCAN", "ZSCAN", "SCAN"] name = true →
    ∀ i, optionIndex args "COUNT" = some i → isBound (integerAt args (i + 1)) = true
  scores : named ["ZRANGEBYSCORE", "ZREVRANGEBYSCORE"] name = true →
    ∃ i, optionIndex args "LIMIT" = some i ∧ isBound (integerAt args (i + 2)) = true
  log : named ["SLOWLOG"] name = true → ∀ sub, args.head? = some sub →
    upperText sub = "GET".toList → isBound (integerAt args 1) = true

theorem checked_of_none {name : Text} {args : List Bytes} (hname : toUpperCase name = name)
    (h : validateRedisBoundedRead name args = none) : Checked name args := by
  unfold validateRedisBoundedRead at h
  simp only [hname, none_of_check, Bool.and_eq_true, Bool.not_eq_true', not_and,
    Bool.not_eq_false, decide_eq_true_eq, Nat.not_lt] at h
  obtain ⟨-, hindexes, hentries, hkeys, hfields, -, -, hscans, hscores, -, hlog, -⟩ := h
  constructor
  · intro hnamed
    have hrange := hindexes hnamed
    split at hrange
    · rename_i start stop hstart hstop
      rw [Bool.and_eq_true, decide_eq_true_eq, Bool.not_eq_true'] at hrange
      exact ⟨start, stop, hstart, hstop, hrange.1, hrange.2⟩
    cases hrange
  · intro hnamed
    exact (any_eq_true _ _).mp (hentries hnamed)
  · exact hkeys
  · exact hfields
  · intro hnamed i hi
    have hscan := hscans hnamed
    rw [hi, any_some, Bool.not_eq_true, Bool.not_eq_false'] at hscan
    exact hscan
  · intro hnamed
    exact (any_eq_true _ _).mp (hscores hnamed)
  intro hnamed sub hsub hget
  apply hlog
  rw [hsub]
  exact ⟨hnamed, decide_eq_true hget⟩

section

variable (fromBase64 : Text → Bytes)

def received (args : List Arg) : List Bytes := args.map (Arg.bytes fromBase64)

def seen (args : List Arg) : List Bytes :=
  (args.map (Arg.policyText fromBase64)).map Utf8.encode

structure Accepted (name : Text) (args : List Arg) : Prop where
  read : named readCommands name = true
  subcommand : ∀ subcommands, readOnlySubcommands name = some subcommands →
    named subcommands (toUpperCase ((args.map (Arg.policyText fromBase64)).head?.getD [])) = true
  checked : Checked name (seen fromBase64 args)

theorem access_read {name : Text} {args : List Text} (hname : toUpperCase (JsNumber.trim name) = name)
    (h : redisCommandAccess name args = .read) :
    named readCommands name = true ∧ ∀ subcommands, readOnlySubcommands name = some subcommands →
      named subcommands (toUpperCase (args.head?.getD [])) = true := by
  unfold redisCommandAccess at h
  simp only [hname] at h
  split at h
  · rename_i hread
    refine ⟨hread, fun subcommands hsubcommands => ?_⟩
    rw [hsubcommands] at h
    simp only [] at h
    split at h
    · assumption
    cases h
  split at h <;> cases h

variable {fromBase64}

theorem accepted_of_ok {commandValue : Option Text} {argsValue : Option (List ArgValue)}
    {name : Text} {args : List Arg}
    (h : assertMcpReadOnlyRedisCommand fromBase64 commandValue argsValue = .ok (name, args)) :
    Accepted fromBase64 name args := by
  cases commandValue with
  | none => cases h
  | some value =>
    unfold assertMcpReadOnlyRedisCommand at h
    dsimp only at h
    split at h
    · cases h
    cases argsValue with
    | none => cases h
    | some values =>
      dsimp only at h
      split at h
      · cases h
      split at h
      · cases h
      rename_i checkedArgs hargs
      by_cases hread : redisCommandAccess (toUpperCase (JsNumber.trim value))
          (checkedArgs.map (Arg.policyText fromBase64)) = .read
      · rw [if_neg (not_not.mpr hread)] at h
        split at h
        · cases h
        rename_i hnone
        cases Except.ok.inj h
        have htrim : toUpperCase (JsNumber.trim (toUpperCase (JsNumber.trim value))) =
            toUpperCase (JsNumber.trim value) := by
          rw [trim_toUpperCase, trim_trim, toUpperCase_toUpperCase]
        obtain ⟨hname, hsubcommand⟩ := access_read htrim hread
        exact ⟨hname, hsubcommand, checked_of_none (toUpperCase_toUpperCase _) hnone⟩
      rw [if_pos hread] at h
      cases h

theorem policyText_ascii {arg : Arg} (h : Utf8.IsAscii (arg.bytes fromBase64)) :
    arg.policyText fromBase64 = Utf8.chars (arg.bytes fromBase64) := by
  cases arg with
  | text value => exact (Utf8.chars_encode h).symm
  | base64 value => exact Utf8.decode_ascii h

theorem seen_ascii {args : List Arg} {i : Nat} {bytes : Bytes}
    (hbytes : (received fromBase64 args)[i]? = some bytes) (h : Utf8.IsAscii bytes) :
    (seen fromBase64 args)[i]? = some bytes := by
  unfold received at hbytes
  unfold seen
  rw [getElem?_map] at hbytes
  obtain ⟨arg, harg, rfl⟩ := map_eq_some_iff.mp hbytes
  rw [getElem?_map, getElem?_map, harg, map_some, map_some, policyText_ascii h, Utf8.encode_chars h]

theorem seen_length (args : List Arg) :
    (seen fromBase64 args).length = (received fromBase64 args).length := by
  simp [seen, received]

end

theorem toNat_byte {byte : UInt8} : (Char.ofNat byte.toNat).toNat = byte.toNat := by
  have hbyte := byte.toNat_lt
  have hvalid : byte.toNat.isValidChar := .inl (by omega)
  rw [Char.ofNat, dif_pos hvalid]
  rfl

/-- A name that the server reads without regard to case is the upper case of its text. -/
theorem upperText_of_spells {name : String} {arg : Bytes} (h : spells name arg = true) :
    Utf8.IsAscii arg ∧ toUpperCase (Utf8.chars arg) = name.toList := by
  obtain ⟨hascii, hname⟩ := (Bool.and_eq_true _ _).mp h
  have harg : Utf8.IsAscii arg := fun byte hbyte =>
    of_decide_eq_true (List.all_eq_true.mp hascii byte hbyte)
  refine ⟨harg, ?_⟩
  rw [← of_decide_eq_true hname]
  unfold toUpperCase Utf8.chars
  rw [flatMap_map, List.map_map, map_eq_flatMap]
  apply flatMap_congr
  intro byte hbyte
  apply upperChar_ascii
  rw [toNat_byte]
  exact harg byte hbyte

theorem ascii_of_integerOf {arg : Bytes} {n : Int} (h : integerOf arg = some n) :
    Utf8.IsAscii arg := by
  obtain ⟨-, hchars⟩ := value_decimal h
  intro byte hbyte
  have hchar := hchars _ (List.mem_map_of_mem hbyte)
  rcases hchar with hdigit | hsign
  · have hhigh : (Char.ofNat byte.toNat).toNat ≤ 57 :=
      of_decide_eq_true ((Bool.and_eq_true _ _).mp hdigit).2
    rw [toNat_byte] at hhigh
    omega
  have hcode := congrArg Char.toNat hsign
  rw [toNat_byte] at hcode
  rw [hcode]
  decide

theorem integerAt_seen {fromBase64 : Text → Bytes} {args : List Arg} {i : Nat} {bytes : Bytes}
    {n : Int} {x : ℚ} (hbytes : (received fromBase64 args)[i]? = some bytes)
    (hn : integerOf bytes = some n) (hx : integerAt (seen fromBase64 args) i = some x) :
    Double.round n = some x := by
  have hascii := ascii_of_integerOf hn
  unfold integerAt at hx
  rw [seen_ascii hbytes hascii, bind_some, Utf8.decode_ascii hascii] at hx
  obtain ⟨hnumber, -⟩ := filter_eq_some_iff.mp hx
  rw [← number_decimal hn]
  exact hnumber

end ImApp.RedisGate
