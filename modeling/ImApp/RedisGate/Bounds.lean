import ImApp.RedisGate.Accepted

/-!
How many elements an accepted request can answer with. Beyond a thousand it takes an
option that the gate did not see in the place where the server reads it, positions
asked for without a bound, or indexes that are rounded before they are compared.
-/

namespace ImApp.RedisGate

open List Double Option
open JsonText (Text)
open Utf8 (Bytes)

/-- No list has more than a thousand elements between the two indexes. -/
def Narrow (start stop : Int) : Prop :=
  if 0 ≤ start then 0 ≤ stop ∧ stop - start < 1000
  else if stop < 0 then stop - start < 1000
  else -start ≤ 1000 ∨ stop < 1000

def Fits (server : Server) : Request → Prop
  | .rejected => True
  | .fixed elements => elements ≤ 1000
  | .range _ _ start stop => Narrow start stop
  | .between command _ low high offset most => (∃ n, most = some n ∧ n ≤ 1000) ∨
      ∃ n, server.capacity command low high = some n ∧ n ≤ offset + 1000
  | .scan count => count ≤ 1000
  | .positions _ _ rank count maxlen => count = none ∨ (∃ n, count = some n ∧ 1 ≤ n ∧ n ≤ 1000) ∨
      0 < maxlen ∧ maxlen ≤ rank.natAbs - 1 + 1000
  | .log most => ∃ n, most = some n ∧ n ≤ 1000

variable {start stop : Int}

theorem rangeCount_le (h : Narrow start stop) (length : Nat) :
    rangeCount length start stop ≤ 1000 := by
  unfold Narrow at h
  unfold rangeCount
  simp only []
  split at h
  · split
    · omega
    split <;> omega
  split at h <;>
  · split
    · split <;> omega
    omega

/-- The length of a list that has the most elements between two indexes. -/
def worstLength (start stop : Int) : Nat :=
  if 0 ≤ start then (if 0 ≤ stop then stop + 1 else start - stop + 1001).toNat
  else if stop < 0 then (-start).toNat
  else (min (-start) (stop + 1)).toNat

theorem narrow_of_worst
    (h : rangeCount (worstLength start stop) start stop ≤ 1000) : Narrow start stop := by
  unfold worstLength rangeCount at h
  unfold Narrow
  by_cases hstart : 0 ≤ start
  · rw [if_pos hstart]
    by_cases hstop : 0 ≤ stop
    · simp only [if_pos hstart, if_pos hstop, if_neg (not_lt.mpr hstart),
        if_neg (not_lt.mpr hstop)] at h
      omega
    simp only [if_pos hstart, if_neg hstop, if_neg (not_lt.mpr hstart),
      if_pos (not_le.mp hstop)] at h
    omega
  rw [if_neg hstart]
  by_cases hstop : stop < 0
  · rw [if_pos hstop]
    simp only [if_neg hstart, if_pos (not_le.mp hstart), if_pos hstop] at h
    omega
  rw [if_neg hstop]
  simp only [if_neg hstart, if_pos (not_le.mp hstart), if_neg hstop] at h
  omega

section

variable (server : Server)

/-- A content with a list of `length` elements under every key, or `length` entries
between all bounds that allow as many. -/
def full (length : Nat) (element : Bytes) : Content server where
  lists := fun _ => List.replicate length element
  sortedSets := fun _ => length
  between := fun command _ low high =>
    match server.capacity command low high with
    | none => length
    | some most => min length most
  within := by
    intro command key low high most hmost
    rw [hmost]
    exact min_le_right _ _
  log := length

theorem between_full {length : Nat} {command : Text} {element key low high : Bytes}
    (h : ∀ n, server.capacity command low high = some n → length ≤ n) :
    (full server length element).between command key low high = length := by
  change (match server.capacity command low high with
    | none => length
    | some most => min length most) = length
  split
  · rfl
  rename_i n hn
  exact min_eq_left (h n hn)

theorem positionCount_full (length : Nat) (element : Bytes) (rank : Int) (maxlen : Nat) :
    positionCount (List.replicate length element) element rank maxlen =
      (if maxlen = 0 then length else min maxlen length) - (rank.natAbs - 1) := by
  unfold positionCount
  rw [reverse_replicate, ite_self]
  by_cases hmaxlen : maxlen = 0
  · simp [hmaxlen]
  simp [hmaxlen, take_replicate]

theorem positionCount_le {items : List Bytes} {element : Bytes} {rank : Int} {maxlen : Nat}
    (h : 0 < maxlen) : positionCount items element rank maxlen ≤ maxlen - (rank.natAbs - 1) := by
  unfold positionCount
  simp only [if_neg h.ne']
  apply Nat.sub_le_sub_right
  exact le_trans count_le_length (length_take_le _ _)

theorem elements_le {server : Server} {request : Request} (h : Fits server request)
    (content : Content server) : content.elements request ≤ 1000 := by
  cases request with
  | rejected => exact Nat.zero_le _
  | fixed elements | scan count => exact h
  | range sorted key start stop => exact rangeCount_le h _
  | between command key low high offset most =>
    rcases h with ⟨n, rfl, hn⟩ | ⟨n, hcapacity, hn⟩
    · exact le_trans (min_le_right _ _) hn
    have hwithin := content.within command key low high n hcapacity
    cases most with
    | none =>
      change _ - _ ≤ 1000
      omega
    | some most =>
      apply le_trans (min_le_left _ _)
      omega
  | positions key element rank count maxlen =>
    cases count with
    | none => exact le_trans (min_le_left _ _) (by decide)
    | some count =>
      rcases h with hnone | ⟨n, hn, hpos, hle⟩ | ⟨hmaxlen, hle⟩
      · cases hnone
      · cases hn
        obtain ⟨m, rfl⟩ := Nat.exists_eq_succ_of_ne_zero (by omega : count ≠ 0)
        exact le_trans (min_le_left _ _) hle
      have hcount : positionCount (content.lists key) element rank maxlen ≤ 1000 :=
        le_trans (positionCount_le hmaxlen) (by omega)
      cases count with
      | zero => exact hcount
      | succ m => exact le_trans (min_le_right _ _) hcount
  | log most =>
    obtain ⟨n, rfl, hn⟩ := h
    exact le_trans (min_le_right _ _) hn

theorem fits_of_full {server : Server} {request : Request}
    (h : ∀ content : Content server, content.elements request ≤ 1000) : Fits server request := by
  cases request with
  | rejected => trivial
  | fixed elements | scan count => exact h (full server 0 [])
  | range sorted key start stop =>
    have hworst := h (full server (worstLength start stop) [])
    apply narrow_of_worst
    unfold Content.elements full at hworst
    cases sorted with
    | true => exact hworst
    | false =>
      simp only [Bool.false_eq_true, if_false, length_replicate] at hworst
      exact hworst
  | between command key low high offset most =>
    have hworst := h (full server (offset + 1001) [])
    by_contra hfits
    obtain ⟨hmost, hcapacity⟩ := not_or.mp hfits
    have hbetween : (full server (offset + 1001) []).between command key low high =
        offset + 1001 := by
      apply between_full
      intro n hn
      by_contra hle
      exact hcapacity ⟨n, hn, by omega⟩
    unfold Content.elements at hworst
    simp only [hbetween, Nat.add_sub_cancel_left] at hworst
    cases most with
    | none =>
      change 1001 ≤ 1000 at hworst
      omega
    | some most =>
      change min 1001 most ≤ 1000 at hworst
      exact hmost ⟨most, rfl, by omega⟩
  | positions key element rank count maxlen =>
    have hworst := h (full server (rank.natAbs - 1 + 1001) element)
    cases count with
    | none => exact .inl rfl
    | some count =>
      right
      by_contra hfits
      obtain ⟨hcount, hmaxlen⟩ := not_or.mp hfits
      have hlarge : 1001 ≤ positionCount (List.replicate (rank.natAbs - 1 + 1001) element)
          element rank maxlen := by
        rw [positionCount_full]
        split <;> omega
      cases count with
      | zero =>
        change positionCount _ _ _ _ ≤ 1000 at hworst
        exact absurd (le_trans hlarge hworst) (by decide)
      | succ m =>
        change min (m + 1) (positionCount _ _ _ _) ≤ 1000 at hworst
        have hm : ¬ m + 1 ≤ 1000 := fun hle => hcount ⟨m + 1, rfl, by omega, hle⟩
        unfold full at hworst
        simp only [] at hworst
        omega
  | log most =>
    have hworst := h (full server 1001 [])
    cases most with
    | none =>
      change 1001 ≤ 1000 at hworst
      omega
    | some most =>
      refine ⟨most, rfl, ?_⟩
      change min 1001 most ≤ 1000 at hworst
      omega

end

/-- What is left to the request itself: a bound of its own on entries, members, a scan or
positions, and indexes below `2 ^ 53` or close to each other. -/
def Within (server : Server) : Request → Prop
  | .rejected | .fixed _ | .log _ => True
  | .range _ _ start stop => start.natAbs < 2 ^ 53 ∧ stop.natAbs < 2 ^ 53 ∨ Narrow start stop
  | .between command _ low high offset most => (∃ n, most = some n ∧ n ≤ 1000) ∨
      ∃ n, server.capacity command low high = some n ∧ n ≤ offset + 1000
  | .scan count => count ≤ 1000
  | .positions _ _ rank count maxlen => count = none ∨ (∃ n, count = some n ∧ 1 ≤ n ∧ n ≤ 1000) ∨
      0 < maxlen ∧ maxlen ≤ rank.natAbs - 1 + 1000

theorem lt_of_not_exceeds (hle : start ≤ stop)
    (h : exceeds (start : ℚ) (stop : ℚ) = false) : stop - start < 1000 := by
  unfold exceeds at h
  rw [← Int.cast_sub] at h
  split at h
  · cases h
  rename_i distance hdistance
  split at h
  · cases h
  rename_i count hcount
  have hcount' : count ≤ 1000 := not_lt.mp (of_decide_eq_false h)
  by_cases hsmall : stop - start < 2 ^ 53
  · rw [Double.round_intCast (by omega)] at hdistance
    cases hdistance
    have hround : Double.round ((stop - start + 1 : ℤ) : ℚ) = some count := by
      rw [← hcount]
      push_cast
      rfl
    have hbound := le_of_round_le (by norm_num) (by norm_num) hround
      (by exact_mod_cast hcount' : count ≤ ((1000 : ℤ) : ℚ))
    omega
  have hgreat : (2 : ℚ) ^ 53 ≤ ((stop - start : ℤ) : ℚ) := by
    exact_mod_cast not_lt.mp hsmall
  have hdistance' := le_round hgreat hdistance
  have hcount'' := le_round (by linarith) hcount
  have : (2 : ℚ) ^ 53 ≤ 1000 := le_trans hcount'' hcount'
  norm_num at this

theorem narrow_of_lt (hle : start ≤ stop) (h : stop - start < 1000) : Narrow start stop := by
  unfold Narrow
  split
  · omega
  split <;> omega

/-- The gate leaves nothing to the request beyond `Within`. -/
def Guarded (server : Server) (request : Request) : Prop :=
  Fits server request ↔ Within server request

section

variable (server : Server)

theorem guarded_fixed {elements : Nat} (h : elements ≤ 1000) :
    Guarded server (.fixed elements) := iff_of_true h trivial

theorem guarded_ite {c : Prop} [Decidable c] {request other : Request}
    (hreq : c → Guarded server request) (hother : Guarded server other) :
    Guarded server (if c then request else other) := by
  split
  · exact hreq ‹c›
  exact hother

theorem guarded_limited (command : Text) (key low high : Bytes)
    (found : List (String × List Bytes)) : Guarded server (limited command key low high found) := by
  unfold limited
  split
  · exact Iff.rfl
  split
  · split
    · exact guarded_fixed server (by decide)
    exact Iff.rfl
  exact Iff.rfl

theorem guarded_indexRange {sorted : Bool} {key low high : Bytes}
    (h : ∀ start stop, integerOf low = some start → integerOf high = some stop →
      start.natAbs < 2 ^ 53 → stop.natAbs < 2 ^ 53 → Narrow start stop) :
    Guarded server (indexRange sorted key low high) := by
  unfold indexRange
  split
  · rename_i start stop hstart hstop
    constructor
    · exact .inr
    rintro (⟨hsmall, hsmall'⟩ | hnarrow)
    · exact h start stop hstart hstop hsmall hsmall'
    exact hnarrow
  exact Iff.rfl

theorem guarded_scanOptions (table : List (String × Nat)) (cursor : Bytes) (rest : List Bytes) :
    Guarded server (server.scanOptions table cursor rest) := by
  unfold Server.scanOptions
  split
  · exact Iff.rfl
  split
  · exact Iff.rfl
  split <;> exact Iff.rfl

theorem guarded_zrangebyscore (command : Text) (args : List Bytes) :
    Guarded server (server.zrangebyscore command args) := by
  unfold Server.zrangebyscore
  split
  · split
    · exact Iff.rfl
    exact guarded_limited server _ _ _ _ _
  exact Iff.rfl

theorem guarded_xrange (command : Text) (args : List Bytes) :
    Guarded server (server.xrange command args) := by
  unfold Server.xrange
  split
  · split
    · exact Iff.rfl
    split <;> exact Iff.rfl
  exact Iff.rfl

theorem guarded_lpos (args : List Bytes) : Guarded server (server.lpos args) := by
  unfold Server.lpos
  split
  · split
    · exact Iff.rfl
    split <;> exact Iff.rfl
  exact Iff.rfl

theorem guarded_scan (args : List Bytes) : Guarded server (server.scan args) := by
  unfold Server.scan
  split
  · exact guarded_scanOptions server _ _ _
  exact Iff.rfl

theorem guarded_keyScan (table : List (String × Nat)) (args : List Bytes) :
    Guarded server (server.keyScan table args) := by
  unfold Server.keyScan
  split
  · exact guarded_scanOptions server _ _ _
  exact Iff.rfl

end

theorem named_of_subset {names more : List String} {name : Text} (hsubset : names ⊆ more)
    (h : named names name = true) : named more name = true := by
  unfold named at h ⊢
  obtain ⟨n, hn, hname⟩ := any_eq_true.mp h
  exact any_eq_true.mpr ⟨n, hsubset hn, hname⟩

theorem eq_of_named {n : String} {name : Text} (h : named [n] name = true) : name = n.toList := by
  rw [named, any_cons, any_nil, Bool.or_false] at h
  exact (of_decide_eq_true h).symm

section

variable {fromBase64 : Text → Bytes} {name : Text} {args : List Arg}

theorem narrow_of_accepted (h : Accepted fromBase64 name args)
    (hname : named ["LRANGE", "ZRANGE", "ZREVRANGE"] name = true) {key low high : Bytes}
    {rest : List Bytes} (hargs : received fromBase64 args = key :: low :: high :: rest)
    (start stop : Int) (hstart : integerOf low = some start) (hstop : integerOf high = some stop)
    (hsmall : start.natAbs < 2 ^ 53) (hsmall' : stop.natAbs < 2 ^ 53) : Narrow start stop := by
  obtain ⟨x, y, hx, hy, hle, hexceeds⟩ := h.checked.indexes hname
  have hlow : (received fromBase64 args)[1]? = some low := by rw [hargs]; rfl
  have hhigh : (received fromBase64 args)[2]? = some high := by rw [hargs]; rfl
  have hroundx := integerAt_seen hlow hstart hx
  have hroundy := integerAt_seen hhigh hstop hy
  rw [round_intCast hsmall] at hroundx
  rw [round_intCast hsmall'] at hroundy
  cases hroundx
  cases hroundy
  have hle' : start ≤ stop := by exact_mod_cast hle
  exact narrow_of_lt hle' (lt_of_not_exceeds hle' hexceeds)

theorem integer_of_bound {i : Nat} {bytes : Bytes} {n : Int}
    (hbytes : (received fromBase64 args)[i]? = some bytes) (hn : integerOf bytes = some n)
    (hbound : isBound (integerAt (seen fromBase64 args) i) = true) : 1 ≤ n ∧ n ≤ 1000 := by
  obtain ⟨x, hx, hrange⟩ := (any_eq_true _ _).mp hbound
  obtain ⟨hlow, hhigh⟩ := (Bool.and_eq_true _ _).mp hrange
  have hround := integerAt_seen hbytes hn hx
  constructor
  · by_contra hless
    have hnonpos : (n : ℚ) ≤ 0 := by exact_mod_cast Int.lt_add_one_iff.mp (not_le.mp hless)
    have hx' := round_nonpos hnonpos hround
    have hone := of_decide_eq_true hlow
    linarith
  apply le_of_round_le (by norm_num) (by norm_num) hround
  exact_mod_cast of_decide_eq_true hhigh

theorem guarded_slowlog (server : Server) (h : Accepted fromBase64 name args)
    (hname : named ["SLOWLOG"] name = true) :
    Guarded server (slowlog (received fromBase64 args)) := by
  unfold slowlog
  split
  · split
    · exact iff_of_true ⟨10, rfl, by decide⟩ trivial
    exact guarded_fixed server (by decide)
  · rename_i sub count hargs
    split
    · exact Iff.rfl
    rename_i hget
    split
    · exact Iff.rfl
    rename_i n hn
    have hspells : spells "GET" sub = true := by simpa using hget
    obtain ⟨hascii, hupper⟩ := upperText_of_spells hspells
    have hsub : (seen fromBase64 args).head? = some sub := by
      rw [head?_eq_getElem?]
      apply seen_ascii _ hascii
      rw [hargs]
      rfl
    have hbound := h.checked.log hname sub hsub (by
      unfold upperText
      rw [Utf8.decode_ascii hascii, hupper])
    obtain ⟨hlow, hhigh⟩ := integer_of_bound (by rw [hargs]; rfl) hn hbound
    rw [if_neg (by omega), if_neg (by omega)]
    exact iff_of_true ⟨n.toNat, rfl, by omega⟩ trivial
  exact Iff.rfl

theorem guarded_request (server : Server) (h : Accepted fromBase64 name args) :
    Guarded server (server.request name (received fromBase64 args)) := by
  unfold Server.request
  apply guarded_ite
  · intro hname
    unfold lrange
    split
    · rename_i key low high hargs
      exact guarded_indexRange server (narrow_of_accepted h (named_of_subset (by simp) hname) hargs)
    exact Iff.rfl
  apply guarded_ite
  · intro hname
    unfold Server.zrevrange
    split
    · rename_i key low high rest hargs
      split
      · exact Iff.rfl
      exact guarded_indexRange server (narrow_of_accepted h (named_of_subset (by simp) hname) hargs)
    exact Iff.rfl
  apply guarded_ite
  · intro hname
    unfold Server.zrange
    split
    · rename_i key low high rest hargs
      split
      · exact Iff.rfl
      split
      · exact guarded_limited server _ _ _ _ _
      split
      · exact Iff.rfl
      exact guarded_indexRange server (narrow_of_accepted h (named_of_subset (by simp) hname) hargs)
    exact Iff.rfl
  apply guarded_ite
  · exact fun _ => guarded_zrangebyscore server _ _
  apply guarded_ite
  · exact fun _ => guarded_xrange server _ _
  apply guarded_ite
  · exact fun _ => guarded_scan server _
  apply guarded_ite
  · exact fun _ => guarded_keyScan server _ _
  apply guarded_ite
  · exact fun _ => guarded_keyScan server _ _
  apply guarded_ite
  · exact fun _ => guarded_lpos server _
  apply guarded_ite
  · exact guarded_slowlog server h
  apply guarded_ite
  · intro hname
    have hkeys := h.checked.keys (named_of_subset (by simp) hname)
    rw [seen_length] at hkeys
    exact guarded_fixed server (by omega)
  apply guarded_ite
  · intro hname
    have hfields := h.checked.fields hname
    rw [seen_length] at hfields
    exact guarded_fixed server (by omega)
  apply guarded_ite
  · exact fun _ => guarded_fixed server (by decide)
  exact guarded_fixed server (by decide)

theorem named_of_spelled (h : Accepted fromBase64 name args) {subcommands : List String}
    (hsubcommands : readOnlySubcommands name = some subcommands) {word : String}
    (hword : (received fromBase64 args).head?.any (spells word) = true) :
    named subcommands word.toList = true := by
  have hlooked := h.subcommand subcommands hsubcommands
  unfold received at hword
  cases args with
  | nil => cases hword
  | cons arg rest =>
    obtain ⟨hascii, hupper⟩ := upperText_of_spells
      (show spells word (arg.bytes fromBase64) = true from hword)
    change named subcommands (toUpperCase (arg.policyText fromBase64)) = true at hlooked
    rw [policyText_ascii hascii, hupper] at hlooked
    exact hlooked

theorem writes_of_accepted (h : Accepted fromBase64 name args) :
    writes name (received fromBase64 args) = false := by
  have hdisjoint : readCommands.all (fun n => !documentedWrites.contains n) = true := by
    decide +kernel
  have hwrite : named documentedWrites name = false := by
    obtain ⟨n, hn, hname⟩ := any_eq_true.mp h.read
    apply any_eq_false.mpr
    intro m hm hm'
    have hsame : m = n := String.toList_inj.mp
      ((of_decide_eq_true hm').trans (of_decide_eq_true hname).symm)
    have hno := all_eq_true.mp hdisjoint n hn
    rw [← hsame, contains_iff_mem.mpr hm] at hno
    cases hno
  unfold writes
  rw [hwrite, Bool.false_or, Bool.or_eq_false_iff, Bool.and_eq_false_imp, Bool.and_eq_false_imp]
  constructor
  · intro hname
    by_contra hreset
    have hsubcommands : readOnlySubcommands name = some ["GET", "LEN"] := by
      rw [eq_of_named hname]
      decide
    exact absurd (named_of_spelled h hsubcommands (Bool.eq_true_of_not_eq_false hreset)) (by decide)
  intro hname
  by_contra hpurge
  have hsubcommands : readOnlySubcommands name =
      some ["USAGE", "STATS", "DOCTOR", "MALLOC-STATS"] := by
    rw [eq_of_named hname]
    decide
  exact absurd (named_of_spelled h hsubcommands (Bool.eq_true_of_not_eq_false hpurge)) (by decide)

end

variable {i : Nat}

theorem integerAt_of_small {args : List Bytes} {bytes : Bytes} {n : Int}
    (hbytes : args[i]? = some bytes) (hn : integerOf bytes = some n) (hsmall : n.natAbs < 2 ^ 53) :
    integerAt args i = some (n : ℚ) := by
  have hnumber := JsNumber.number_decimal hn
  rw [round_intCast hsmall] at hnumber
  unfold integerAt JsNumber.integer
  rw [hbytes, bind_some, Utf8.decode_ascii (ascii_of_integerOf hn)]
  unfold integerOf at hn
  rw [hnumber, filter_some, if_pos (by simp)]

def text (value : String) : ArgValue := .text value.toList

theorem xrange_checked {args : List Arg} (fromBase64 : Text → Bytes)
    (hcount : optionIndex (seen fromBase64 args) "COUNT" = some i)
    (hbound : isBound (integerAt (seen fromBase64 args) (i + 1)) = true) :
    validateRedisBoundedRead "XRANGE".toList (seen fromBase64 args) = none := by
  have hname : toUpperCase "XRANGE".toList = "XRANGE".toList := by decide
  have hothers : ∀ names ∈ [["ZRANGE"], ["LRANGE", "ZRANGE", "ZREVRANGE"], ["MGET", "EXISTS"],
      ["HMGET", "SMISMEMBER", "ZMSCORE"], ["DEL", "UNLINK"], ["MSET"],
      ["HSCAN", "SSCAN", "ZSCAN", "SCAN"], ["ZRANGEBYSCORE", "ZREVRANGEBYSCORE"],
      ["LPOP", "RPOP"], ["SLOWLOG"], ["MEMORY"]], named names "XRANGE".toList = false := by
    decide +kernel
  unfold validateRedisBoundedRead
  simp only [none_of_check, hname, hcount, any_some, hbound]
  simp only [forall_mem_cons] at hothers
  simp only [hothers, Bool.false_and, Bool.not_true, Bool.and_false, Bool.false_eq_true,
    not_false_eq_true, and_self]

theorem xrange_accepted {fromBase64 : Text → Bytes} {values : List ArgValue} {args : List Arg} (hlen : values.length ≤ 256) (hargs : values.mapM checkedArg = some args)
    (hcount : optionIndex (seen fromBase64 args) "COUNT" = some i)
    (hbound : isBound (integerAt (seen fromBase64 args) (i + 1)) = true) :
    assertMcpReadOnlyRedisCommand fromBase64 (some "XRANGE".toList) (some values) =
      .ok ("XRANGE".toList, args) := by
  have hname : toUpperCase (JsNumber.trim "XRANGE".toList) = "XRANGE".toList := by decide
  have hshort : ¬ ("XRANGE".toList = [] || 64 < units "XRANGE".toList) = true := by decide
  have hread : redisCommandAccess "XRANGE".toList (args.map (Arg.policyText fromBase64)) = .read := by
    unfold redisCommandAccess
    simp only [hname]
    rw [if_pos (by decide +kernel)]
    rfl
  have hchecked := xrange_checked fromBase64 hcount hbound
  unfold seen at hchecked
  unfold assertMcpReadOnlyRedisCommand
  simp only [hname, if_neg hshort, if_neg (not_lt.mpr hlen), hargs, hread, ne_eq,
    not_true_eq_false, if_false, hchecked]

end ImApp.RedisGate
