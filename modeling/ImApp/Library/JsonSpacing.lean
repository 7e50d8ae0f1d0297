import ImApp.Library.JsonRoundTrip
import ImApp.Library.UnicodeText

/-!
White space around JSON text. What a parser reads is a piece at the start of its
text; the piece is read in the same way with less text behind it, and the value
in it starts and ends with other characters than white space.
-/

namespace JsonText

open List Option

theorem skipSpace_eq (cs : Text) : ∃ lead, cs = lead ++ skipSpace cs ∧ lead.all isSpace = true :=
  ⟨cs.takeWhile isSpace, takeWhile_append_dropWhile.symm, all_takeWhile⟩

variable {lead cs rest body : Text}

theorem skipSpace_append (h : lead.all isSpace = true) (cs : Text) :
    skipSpace (lead ++ cs) = skipSpace cs := by
  induction lead with
  | nil => rfl
  | cons c lead ih =>
    obtain ⟨hc, hlead⟩ := Bool.and_eq_true_iff.mp h
    rw [cons_append, skipSpace, dropWhile_cons_of_pos hc]
    exact ih hlead

theorem parseValue_skip (h : lead.all isSpace = true) (fuel depth : Nat) (cs : Text) :
    parseValue fuel depth (lead ++ cs) = parseValue fuel depth cs := by
  cases fuel with
  | zero => rw [parseValue, parseValue]
  | succ fuel => rw [parseValue, parseValue, skipSpace_append h]

variable {c close : Char}

theorem expect_eq_some (h : expect c cs = some rest) :
    ∃ lead, cs = lead ++ c :: rest ∧ lead.all isSpace = true ∧ isSpace c = false := by
  obtain ⟨lead, hcs, hlead⟩ := skipSpace_eq cs
  rw [expect] at h
  split at h
  · cases h
  case h_2 d rest' hskip =>
    split at h
    case isTrue hd =>
      subst hd
      obtain rfl := some.inj h
      refine ⟨lead, by rw [← hskip]; exact hcs, hlead, ?_⟩
      have hhead := head?_dropWhile_not isSpace cs
      rw [show cs.dropWhile isSpace = d :: rest' from hskip] at hhead
      exact hhead
    · cases h

theorem expect_append (hc : isSpace c = false) (hlead : lead.all isSpace = true) (rest : Text) :
    expect c (lead ++ c :: rest) = some rest := by
  rw [expect, skipSpace_append hlead, skipSpace_cons hc]
  simp

theorem expect_eq_none {dropped : Text} (h : expect c (cs ++ dropped) = none) :
    expect c cs = none := by
  cases hcs : expect c cs with
  | none => rfl
  | some rest =>
    obtain ⟨lead, rfl, hlead, hc⟩ := expect_eq_some hcs
    rw [append_assoc, cons_append, expect_append hc hlead] at h
    cases h

theorem scanUnits_truncate {units : List StringUnit} (h : scanUnits cs = some (units, rest)) :
    ∃ body, cs = body ++ '"' :: rest ∧ ∀ kept, scanUnits (body ++ '"' :: kept) = some (units, kept) := by
  induction cs using scanUnits.induct generalizing units rest with
  | case1 | case3 => cases h
  | case2 after =>
    cases h
    exact ⟨[], rfl, fun kept => rfl⟩
  | case4 a b c d after ih =>
    simp only [scanUnits, bind_eq_bind, bind_eq_some_iff, Prod.exists] at h
    obtain ⟨i, ha, j, hb, k, hc, l, hd, units', rest', hafter, h⟩ := h
    cases h
    obtain ⟨body, rfl, hbody⟩ := ih hafter
    refine ⟨'\\' :: 'u' :: a :: b :: c :: d :: body, rfl, ?_⟩
    intro kept
    simp [scanUnits, ha, hb, hc, hd, hbody kept]
  | case5 c after _ ih =>
    rw [scanUnits] at h
    · simp only [bind_eq_bind, bind_eq_some_iff, Prod.exists] at h
      obtain ⟨meant, hescape, units', rest', hafter, h⟩ := h
      cases h
      obtain ⟨body, rfl, hbody⟩ := ih hafter
      have hc : c ≠ 'u' := by
        rintro rfl
        rw [show simpleEscape 'u' = none by decide] at hescape
        cases hescape
      refine ⟨'\\' :: c :: body, rfl, ?_⟩
      intro kept
      simp [scanUnits, hc, hescape, hbody kept]
    assumption
  | case6 c after hquote h1 h2 h3 hcontrol ih =>
    rw [scanUnits.eq_6 _ _ hquote h1 h2 h3, if_pos hcontrol] at h
    cases h
  | case7 c after hquote h1 h2 h3 hcontrol ih =>
    rw [scanUnits.eq_6 _ _ hquote h1 h2 h3, if_neg hcontrol] at h
    simp only [bind_eq_bind, bind_eq_some_iff, Prod.exists] at h
    obtain ⟨units', rest', hafter, h⟩ := h
    cases h
    obtain ⟨body, rfl, hbody⟩ := ih hafter
    have hslash : c ≠ '\\' := by
      rintro rfl
      cases body with
      | nil | cons d body => exact h3 _ _ rfl rfl
    refine ⟨c :: body, rfl, ?_⟩
    intro kept
    simp [scanUnits, hslash, hcontrol, hbody kept]

theorem scanString_truncate {text : Text} (h : scanString cs = some (text, rest)) :
    ∃ body, cs = body ++ '"' :: rest ∧ ∀ kept, scanString (body ++ '"' :: kept) = some (text, kept) := by
  obtain ⟨⟨units, rest'⟩, hunits, hpair⟩ := map_eq_some_iff.mp h
  cases hpair
  obtain ⟨body, hcs, hbody⟩ := scanUnits_truncate hunits
  refine ⟨body, hcs, ?_⟩
  intro kept
  rw [scanString, hbody kept]
  rfl

variable {value : Json}

theorem keyword_eq_some {word : Text} {meant : Json}
    (h : keyword word meant cs = some (value, rest)) : cs = word ++ rest ∧ meant = value := by
  rw [keyword] at h
  split at h
  case isTrue hprefix =>
    cases h
    obtain ⟨tail, rfl⟩ := isPrefixOf_iff_prefix.mp hprefix
    exact ⟨by rw [drop_left], rfl⟩
  · cases h

theorem keyword_eq_none {word dropped : Text} {meant : Json}
    (h : keyword word meant (cs ++ dropped) = none) : keyword word meant cs = none := by
  rw [keyword] at h ⊢
  split at h
  · cases h
  case isFalse hnot =>
    rw [if_neg]
    intro hprefix
    obtain ⟨tail, rfl⟩ := isPrefixOf_iff_prefix.mp hprefix
    apply hnot
    rw [append_assoc]
    exact isPrefixOf_iff_prefix.mpr ⟨tail ++ dropped, rfl⟩

theorem keyword_append (word rest : Text) (meant : Json) :
    keyword word meant (word ++ rest) = some (meant, rest) := by
  rw [keyword, if_pos ( isPrefixOf_iff_prefix.mpr ⟨rest, rfl⟩), drop_left]

theorem parseScalar_eq_some : parseScalar cs = some (value, rest) ↔
      keyword ['n', 'u', 'l', 'l'] .null cs = some (value, rest) ∨
      keyword ['n', 'u', 'l', 'l'] .null cs = none ∧
        (keyword ['t', 'r', 'u', 'e'] (.bool true) cs = some (value, rest) ∨
        keyword ['t', 'r', 'u', 'e'] (.bool true) cs = none ∧
          (keyword ['f', 'a', 'l', 's', 'e'] (.bool false) cs = some (value, rest) ∨
          keyword ['f', 'a', 'l', 's', 'e'] (.bool false) cs = none ∧
            (scanNumber cs).map (fun (literal, rest) => (Json.number literal, rest)) =
              some (value, rest))) := by
  simp only [parseScalar, orElse_eq_orElse, orElse_eq_or, or_eq_some_iff]

/-- The parser read `body`: it reads the same from every text that goes on with
the start of `rest`, given three calls for each character and `calls` more. -/
def ReadsBody {α : Type} (parse : Nat → Text → Option (α × Text)) (calls : Nat) (body rest : Text)
    (value : α) : Prop :=
  ∀ kept dropped, rest = kept ++ dropped → ∀ fuel, 3 * body.length + calls ≤ fuel →
    parse fuel (body ++ kept) = some (value, kept)

def Starts (body : Text) : Prop :=
  ∃ c tail, body = c :: tail ∧ UnicodeText.isSpace c = false

def Ends (body : Text) : Prop :=
  ∃ front c, body = front ++ [c] ∧ UnicodeText.isSpace c = false

theorem Ends.append (h : Ends body) (front : Text) : Ends (front ++ body) := by
  obtain ⟨front', c, rfl, hc⟩ := h
  exact ⟨front ++ front', c, by rw [append_assoc], hc⟩

theorem Ends.cons (h : Ends body) (c : Char) : Ends (c :: body) := h.append [c]

/-- White space, a value and the rest. -/
def ReadsValue (depth : Nat) (cs rest : Text) (value : Json) : Prop :=
  ∃ lead body, cs = lead ++ (body ++ rest) ∧ lead.all isSpace = true ∧ Starts body ∧ Ends body ∧
    ReadsBody (fun fuel cs => parseValue fuel depth cs) 1 body rest value

theorem digit_visible (h : c.isDigit = true) : UnicodeText.isSpace c = false := by
  have hrange : 48 ≤ c.toNat ∧ c.toNat ≤ 57 := by
    simpa [Char.isDigit, UInt32.le_iff_toNat_le] using h
  have hblank : c ≠ ' ' := by
    rintro rfl
    exact absurd h (by decide)
  simp [UnicodeText.isSpace, hblank]
  omega

theorem ends_of_digits {digits : Text} (hne : digits ≠ []) (h : ∀ c ∈ digits, c.isDigit = true) :
    Ends digits := by
  refine ⟨digits.dropLast, digits.getLast hne, (dropLast_append_getLast hne).symm, ?_⟩
  exact digit_visible (h _ (getLast_mem hne))

theorem ends_takeWhile (hne : cs.takeWhile Char.isDigit ≠ []) : Ends (cs.takeWhile Char.isDigit) :=
  ends_of_digits hne (fun _ hc => mem_takeWhile_imp hc)

theorem ends_of_scanDigits {digits : Text} (h : scanDigits cs = some (digits, rest)) :
    Ends digits := by
  rw [scanDigits] at h
  split at h
  · cases h
  case isFalse hne =>
    cases h
    exact ends_takeWhile hne

theorem ends_of_scanInteger {integer : Text} (h : scanInteger cs = some (integer, rest)) :
    Ends integer := by
  cases cs with
  | nil => cases h
  | cons c cs =>
    rw [scanInteger] at h
    split at h
    · cases h
      exact ⟨[], '0', rfl, by decide⟩
    split at h
    case isTrue hdigit =>
      cases h
      apply ends_of_digits (cons_ne_nil _ _)
      intro d hd
      rcases mem_cons.mp hd with rfl | hd
      · exact hdigit
      exact mem_takeWhile_imp hd
    · cases h

theorem ends_of_scanFraction {fraction : Text}
    (h : scanFraction cs = some (fraction, rest)) : fraction = [] ∨ Ends fraction := by
  cases cs with
  | nil => exact .inl (Prod.mk.inj (some.inj h)).1.symm
  | cons c cs =>
    rw [scanFraction] at h
    split at h
    · obtain ⟨⟨digits, after⟩, hdigits, hpair⟩ := map_eq_some_iff.mp h
      cases hpair
      exact .inr ((ends_of_scanDigits hdigits).cons '.')
    exact .inl (Prod.mk.inj (some.inj h)).1.symm

theorem ends_of_scanExponent {exponent : Text}
    (h : scanExponent cs = some (exponent, rest)) : exponent = [] ∨ Ends exponent := by
  cases cs with
  | nil => exact .inl (Prod.mk.inj (some.inj h)).1.symm
  | cons c cs =>
    rw [scanExponent] at h
    split at h
    · obtain ⟨⟨digits, after⟩, hdigits, hpair⟩ := map_eq_some_iff.mp h
      cases hpair
      exact .inr (((ends_of_scanDigits hdigits).append _).cons c)
    exact .inl (Prod.mk.inj (some.inj h)).1.symm

theorem ends_of_scanNumber {literal : Text} (h : scanNumber cs = some (literal, rest)) :
    Ends literal := by
  obtain ⟨integer, fraction, exponent, rfl, hinteger, hfraction, hexponent⟩ := scanNumber_parts h
  apply Ends.append
  rcases ends_of_scanExponent hexponent with rfl | hends
  · rw [append_nil]
    rcases ends_of_scanFraction hfraction with rfl | hends
    · rw [append_nil]
      exact ends_of_scanInteger hinteger
    exact hends.append _
  exact (hends.append _).append _

/-- A value that is neither quoted nor bracketed. -/
structure Plain (body : Text) : Prop where
  starts : ∃ c tail, body = c :: tail ∧ isSpace c = false ∧ c ≠ '"' ∧ c ≠ '[' ∧ c ≠ '{' ∧
    UnicodeText.isSpace c = false
  ends : Ends body

theorem plain_keyword {d : Char} (front : Text) (hc : isSpace c = false)
    (hplain : c ≠ '"' ∧ c ≠ '[' ∧ c ≠ '{') (hstart : UnicodeText.isSpace c = false)
    (hend : UnicodeText.isSpace d = false) : Plain (c :: (front ++ [d])) := by
  obtain ⟨hquote, hbracket, hbrace⟩ := hplain
  exact ⟨⟨c, _, rfl, hc, hquote, hbracket, hbrace, hstart⟩, ⟨c :: front, d, rfl, hend⟩⟩

theorem plain_number {literal : Text} (h : IsNumber literal) : Plain literal := by
  refine ⟨?_, ends_of_scanNumber h⟩
  obtain ⟨c, tail, rfl, hc⟩ := isNumber_head h
  obtain ⟨⟨hspace, -⟩, hquote, hbracket, hbrace, -⟩ := leads_digit hc
  refine ⟨c, tail, rfl, hspace, hquote, hbracket, hbrace, ?_⟩
  rcases hc with rfl | hdigit
  · decide
  exact digit_visible hdigit

theorem parseScalar_truncate (h : parseScalar cs = some (value, rest)) :
    ∃ body, cs = body ++ rest ∧ Plain body ∧
      ∀ kept dropped, rest = kept ++ dropped → parseScalar (body ++ kept) = some (value, kept) := by
  rcases parseScalar_eq_some.mp h with hnull | ⟨hnull, htrue | ⟨htrue, hfalse | ⟨hfalse, hnumber⟩⟩⟩
  · obtain ⟨rfl, rfl⟩ := keyword_eq_some hnull
    refine ⟨_, rfl, plain_keyword ['u', 'l'] (by decide) (by decide) (by decide) (by decide), ?_⟩
    intro kept dropped hrest
    exact parseScalar_eq_some.mpr (.inl (keyword_append _ kept _))
  · obtain ⟨rfl, rfl⟩ := keyword_eq_some htrue
    refine ⟨_, rfl, plain_keyword ['r', 'u'] (by decide) (by decide) (by decide) (by decide), ?_⟩
    intro kept dropped hrest
    exact parseScalar_eq_some.mpr (.inr ⟨rfl, .inl (keyword_append _ kept _)⟩)
  · obtain ⟨rfl, rfl⟩ := keyword_eq_some hfalse
    refine ⟨_, rfl, plain_keyword ['a', 'l', 's'] (by decide) (by decide) (by decide) (by decide), ?_⟩
    intro kept dropped hrest
    exact parseScalar_eq_some.mpr (.inr ⟨rfl, .inr ⟨rfl, .inl (keyword_append _ kept _)⟩⟩)
  obtain ⟨⟨literal, after⟩, hscan, hpair⟩ := map_eq_some_iff.mp hnumber
  cases hpair
  have hcs := scanNumber_eq hscan
  refine ⟨literal, hcs.symm, plain_number (scanNumber_literal hscan), ?_⟩
  rintro kept dropped rfl
  have hshort : cs = (literal ++ kept) ++ dropped := by rw [append_assoc, hcs]
  rw [hshort] at hnull htrue hfalse
  refine parseScalar_eq_some.mpr (.inr ⟨keyword_eq_none hnull, .inr ⟨keyword_eq_none htrue,
    .inr ⟨keyword_eq_none hfalse, ?_⟩⟩⟩)
  rw [scanNumber_truncate hscan]
  rfl

/-- What a parser of a container reads, up to its closing mark. -/
def ReadsRest {α : Type} (parse : Nat → Text → Option (α × Text)) (calls : Nat) (cs rest : Text)
    (value : α) : Prop :=
  ∃ body, cs = body ++ rest ∧ Ends body ∧ ReadsBody parse calls body rest value

structure ReadsAll (fuel : Nat) : Prop where
  value : ∀ {depth cs value rest}, parseValue fuel depth cs = some (value, rest) →
    ReadsValue depth cs rest value
  array : ∀ {depth cs value rest}, parseArray fuel depth cs = some (value, rest) →
    ReadsRest (fun fuel cs => parseArray fuel depth cs) 3 cs rest value
  object : ∀ {depth cs value rest}, parseObject fuel depth cs = some (value, rest) →
    ReadsRest (fun fuel cs => parseObject fuel depth cs) 3 cs rest value
  items : ∀ {depth cs items rest}, parseItems fuel depth cs = some (items, rest) →
    ReadsRest (fun fuel cs => parseItems fuel depth cs) 2 cs rest items
  members : ∀ {depth cs members rest}, parseMembers fuel depth cs = some (members, rest) →
    ReadsRest (fun fuel cs => parseMembers fuel depth cs) 2 cs rest members

variable {depth fuel : Nat} {parse : Nat → Text → Option (Json × Text)}

theorem readsValue_open {open_ : Char}
    (hopen : isSpace open_ = false ∧ UnicodeText.isSpace open_ = false)
    (hparse : ∀ fuel cs, parseValue (fuel + 1) depth (open_ :: cs) = parse fuel cs)
    (h : ReadsRest parse 3 cs rest value) : ReadsValue depth (open_ :: cs) rest value := by
  obtain ⟨body, rfl, hends, hbody⟩ := h
  refine ⟨[], open_ :: body, rfl, rfl, ⟨open_, body, rfl, hopen.2⟩, hends.cons open_, ?_⟩
  intro kept dropped hrest fuel hfuel
  rw [length_cons] at hfuel
  obtain ⟨fuel, rfl⟩ : ∃ n, fuel = n + 1 := ⟨fuel - 1, by omega⟩
  change parseValue (fuel + 1) depth (open_ :: (body ++ kept)) = some (value, kept)
  rw [hparse]
  exact hbody kept dropped hrest fuel (by omega)

theorem ReadsValue.skip (h : ReadsValue depth cs rest value) (hlead : lead.all isSpace = true) :
    ReadsValue depth (lead ++ cs) rest value := by
  obtain ⟨lead', body, rfl, hlead', hbody⟩ := h
  refine ⟨lead ++ lead', body, by rw [append_assoc], ?_, hbody⟩
  rw [all_append, hlead, hlead']
  rfl

theorem readsValue_value (ih : ReadsAll fuel)
    (h : parseValue (fuel + 1) depth cs = some (value, rest)) : ReadsValue depth cs rest value := by
  obtain ⟨lead, hcs, hlead⟩ := skipSpace_eq cs
  rw [parseValue] at h
  rw [hcs]
  apply ReadsValue.skip _ hlead
  split at h
  · cases h
  case h_2 c tail hskip =>
    rw [hskip]
    split at h
    case isTrue hc =>
      subst hc
      obtain ⟨⟨text, after⟩, hscan, hpair⟩ := map_eq_some_iff.mp h
      cases hpair
      obtain ⟨body, rfl, hbody⟩ := scanString_truncate hscan
      refine ⟨[], '"' :: (body ++ ['"']), by simp, rfl, ⟨'"', _, rfl, by decide⟩,
        ⟨'"' :: body, '"', rfl, by decide⟩, ?_⟩
      intro kept dropped _ fuel hfuel
      obtain ⟨fuel, rfl⟩ : ∃ n, fuel = n + 1 := ⟨fuel - 1, by omega⟩
      have htext : '"' :: (body ++ ['"']) ++ kept = '"' :: (body ++ '"' :: kept) := by simp
      simp only [htext]
      rw [parseValue, skipSpace_cons (by decide)]
      simp [hbody kept]
    case isFalse hquote =>
    split at h
    case isTrue hc =>
      subst hc
      refine readsValue_open ⟨by decide, by decide⟩ ?_ (ih.array h)
      intro fuel cs
      rw [parseValue, skipSpace_cons (by decide)]
      rfl
    case isFalse hbracket =>
    split at h
    case isTrue hc =>
      subst hc
      refine readsValue_open ⟨by decide, by decide⟩ ?_ (ih.object h)
      intro fuel cs
      rw [parseValue, skipSpace_cons (by decide)]
      rfl
    case isFalse hbrace =>
      obtain ⟨body, hbody, ⟨hstarts, hends⟩, hkept⟩ := parseScalar_truncate h
      obtain ⟨c, tail, rfl, hspace, hq, hb, hc, hvis⟩ := hstarts
      rw [hbody]
      refine ⟨[], c :: tail, rfl, rfl, ⟨c, tail, rfl, hvis⟩, hends, ?_⟩
      intro kept dropped hrest fuel hfuel
      obtain ⟨fuel, rfl⟩ : ∃ n, fuel = n + 1 := ⟨fuel - 1, by omega⟩
      have hscalar := hkept kept dropped hrest
      rw [cons_append] at hscalar
      change parseValue (fuel + 1) depth (c :: (tail ++ kept)) = some (value, kept)
      rw [parseValue, skipSpace_cons hspace]
      simp [hq, hb, hc, hscalar]

theorem readsRest_empty (hvis : UnicodeText.isSpace close = false)
    (hparse : ∀ fuel cs kept, expect close cs = some kept → parse (fuel + 1) cs = some (value, kept))
    (h : expect close cs = some rest) : ReadsRest parse 3 cs rest value := by
  obtain ⟨lead, rfl, hlead, hclose⟩ := expect_eq_some h
  refine ⟨lead ++ [close], by simp, ⟨lead, close, rfl, hvis⟩, ?_⟩
  intro kept dropped _ fuel hfuel
  obtain ⟨fuel, rfl⟩ : ∃ n, fuel = n + 1 := ⟨fuel - 1, by omega⟩
  apply hparse
  rw [append_assoc, singleton_append, expect_append hclose hlead]

theorem readsRest_parts {α : Type} (wrap : α → Json)
    {parts : Nat → Text → Option (α × Text)} {found : α}
    (hparse : ∀ fuel cs, expect close cs = none →
      parse (fuel + 1) cs = (parts fuel cs).map (fun (found, rest) => (wrap found, rest)))
    (hnone : expect close cs = none) (h : ReadsRest parts 2 cs rest found) :
    ReadsRest parse 3 cs rest (wrap found) := by
  obtain ⟨body, rfl, hends, hbody⟩ := h
  refine ⟨body, rfl, hends, ?_⟩
  intro kept dropped hrest fuel hfuel
  obtain ⟨fuel, rfl⟩ : ∃ n, fuel = n + 1 := ⟨fuel - 1, by omega⟩
  rw [hrest, ← append_assoc] at hnone
  rw [hparse _ _ (expect_eq_none hnone), hbody kept dropped hrest fuel (by omega)]
  rfl

theorem readsAll_array (ih : ReadsAll fuel)
    (h : parseArray (fuel + 1) depth cs = some (value, rest)) :
    ReadsRest (fun fuel cs => parseArray fuel depth cs) 3 cs rest value := by
  rw [parseArray] at h
  split at h
  · cases h
  case isFalse hdepth =>
  split at h
  case h_1 rest' hclose =>
    cases h
    apply readsRest_empty (by decide) _ hclose
    intro fuel cs kept hkept
    simp only [parseArray, if_neg hdepth, hkept]
  case h_2 hnone =>
    obtain ⟨⟨items, after⟩, hitems, hpair⟩ := map_eq_some_iff.mp h
    cases hpair
    refine readsRest_parts Json.array ?_ hnone (ih.items hitems)
    intro fuel cs hcs
    simp only [parseArray, if_neg hdepth, hcs]

theorem readsAll_object (ih : ReadsAll fuel)
    (h : parseObject (fuel + 1) depth cs = some (value, rest)) :
    ReadsRest (fun fuel cs => parseObject fuel depth cs) 3 cs rest value := by
  rw [parseObject] at h
  split at h
  · cases h
  case isFalse hdepth =>
  split at h
  case h_1 rest' hclose =>
    cases h
    apply readsRest_empty (by decide) _ hclose
    intro fuel cs kept hkept
    simp only [parseObject, if_neg hdepth, hkept]
  case h_2 hnone =>
    obtain ⟨⟨members, after⟩, hmembers, hpair⟩ := map_eq_some_iff.mp h
    cases hpair
    refine readsRest_parts (fun members => .object (buildObject members)) ?_ hnone
      (ih.members hmembers)
    intro fuel cs hcs
    simp only [parseObject, if_neg hdepth, hcs]

/-- Behind a part of a container: a comma and more parts, or the closing mark. -/
def continues {α : Type} (close : Char) (more : Text → Option (List α × Text)) (part : α)
    (cs : Text) : Option (List α × Text) :=
  match expect ',' cs with
  | some after => (more after).map (fun (parts, rest) => (part :: parts, rest))
  | none => (expect close cs).map (fun rest => ([part], rest))

theorem readsRest_continues {α : Type} (more : Nat → Text → Option (List α × Text)) {part : α} {parts : List α}
    (hvis : UnicodeText.isSpace close = false)
    (ih : ∀ {cs rest parts}, more fuel cs = some (parts, rest) → ReadsRest more 2 cs rest parts)
    (h : continues close (more fuel) part cs = some (parts, rest)) :
    ∃ body, cs = body ++ rest ∧ Ends body ∧
      ReadsBody (fun fuel cs => continues close (more fuel) part cs) 0 body rest parts := by
  rw [continues] at h
  split at h
  case h_1 after hcomma =>
    obtain ⟨⟨tail, rest'⟩, htail, hpair⟩ := map_eq_some_iff.mp h
    cases hpair
    obtain ⟨lead, rfl, hlead, -⟩ := expect_eq_some hcomma
    obtain ⟨body, rfl, hends, hbody⟩ := ih htail
    refine ⟨lead ++ ',' :: body, by simp, (hends.cons ',').append lead, ?_⟩
    intro kept dropped hrest fuel hfuel
    simp only [length_append, length_cons] at hfuel
    have hmore := hbody kept dropped hrest fuel (by omega)
    have htext : lead ++ ',' :: body ++ kept = lead ++ ',' :: (body ++ kept) := by simp
    simp only [continues, htext, expect_append (by decide : isSpace ',' = false) hlead, hmore]
    rfl
  case h_2 hnone =>
    obtain ⟨rest', hclose, hpair⟩ := map_eq_some_iff.mp h
    cases hpair
    obtain ⟨lead, rfl, hlead, hspace⟩ := expect_eq_some hclose
    refine ⟨lead ++ [close], by simp, ⟨lead, close, rfl, hvis⟩, ?_⟩
    intro kept dropped hrest fuel hfuel
    have htext : lead ++ [close] ++ kept = lead ++ close :: kept := by simp
    have hshort : expect ',' (lead ++ close :: kept) = none := by
      refine @expect_eq_none _ _ dropped ?_
      rw [← hnone, hrest, append_assoc, cons_append]
    simp only [continues, htext, hshort, expect_append hspace hlead]
    rfl

theorem parseItems_eq (fuel depth : Nat) (cs : Text) :
    parseItems (fuel + 1) depth cs = (parseValue fuel depth cs).bind
      (fun item => continues ']' (parseItems fuel depth) item.1 item.2) := by
  rw [parseItems]
  cases parseValue fuel depth cs with
  | none => rfl
  | some item =>
    obtain ⟨item, rest⟩ := item
    cases hcomma : expect ',' rest with
    | none | some after => simp only [bind_some, continues, hcomma]

theorem parseMembers_eq (fuel depth : Nat) (cs : Text) :
    parseMembers (fuel + 1) depth cs = ((expect '"' cs).bind scanString).bind
      (fun key => ((expect ':' key.2).bind (parseValue fuel depth)).bind
        (fun value => continues '}' (parseMembers fuel depth) (key.1, value.1) value.2)) := by
  rw [parseMembers]
  cases (expect '"' cs).bind scanString with
  | none => rfl
  | some key =>
    simp only [bind_some]
    cases (expect ':' key.2).bind (parseValue fuel depth) with
    | none => rfl
    | some value =>
      obtain ⟨value, rest⟩ := value
      cases hcomma : expect ',' rest with
      | none | some after => simp only [bind_some, continues, hcomma]

theorem readsAll_items {items : List Json} (ih : ReadsAll fuel)
    (h : parseItems (fuel + 1) depth cs = some (items, rest)) :
    ReadsRest (fun fuel cs => parseItems fuel depth cs) 2 cs rest items := by
  rw [parseItems_eq] at h
  obtain ⟨⟨item, after⟩, hitem, hafter⟩ := bind_eq_some_iff.mp h
  obtain ⟨lead, text, rfl, hlead, -, -, htext⟩ := ih.value hitem
  obtain ⟨body, rfl, hends, hbody⟩ :=
    readsRest_continues (fun fuel cs => parseItems fuel depth cs) (by decide) ih.items hafter
  refine ⟨lead ++ (text ++ body), by simp, (hends.append text).append lead, ?_⟩
  intro kept dropped hrest fuel hfuel
  simp only [length_append] at hfuel
  obtain ⟨fuel, rfl⟩ : ∃ n, fuel = n + 1 := ⟨fuel - 1, by omega⟩
  have hvalue : parseValue fuel depth (lead ++ (text ++ (body ++ kept))) =
      some (item, body ++ kept) := by
    rw [parseValue_skip hlead]
    exact htext (body ++ kept) dropped (by rw [hrest, append_assoc]) fuel (by omega)
  have hmore := hbody kept dropped hrest fuel (by omega)
  simp only [append_assoc, parseItems_eq, hvalue, bind_some]
  exact hmore

theorem readsAll_members {members : List (Text × Json)}
    (ih : ReadsAll fuel) (h : parseMembers (fuel + 1) depth cs = some (members, rest)) :
    ReadsRest (fun fuel cs => parseMembers fuel depth cs) 2 cs rest members := by
  rw [parseMembers_eq] at h
  obtain ⟨⟨key, afterKey⟩, hkey, h⟩ := bind_eq_some_iff.mp h
  obtain ⟨⟨value, after⟩, hvalue, hafter⟩ := bind_eq_some_iff.mp h
  obtain ⟨opened, hquote, hscan⟩ := bind_eq_some_iff.mp hkey
  obtain ⟨start, hcolon, hstart⟩ := bind_eq_some_iff.mp hvalue
  obtain ⟨lead, text, rfl, hlead, -, -, htext⟩ := ih.value hstart
  obtain ⟨body, rfl, hends, hbody⟩ :=
    readsRest_continues (fun fuel cs => parseMembers fuel depth cs) (by decide) ih.members hafter
  obtain ⟨front, rfl, hfront, hspace⟩ := expect_eq_some hquote
  obtain ⟨name, rfl, hname⟩ := scanString_truncate hscan
  obtain ⟨gap, rfl, hgap, hspace'⟩ := expect_eq_some hcolon
  refine ⟨front ++ '"' :: (name ++ '"' :: (gap ++ ':' :: (lead ++ (text ++ body)))), by simp,
    ?_, ?_⟩
  · exact ((((((hends.append text).append lead).cons ':').append gap).cons '"').append
      name).cons '"' |>.append front
  intro kept dropped hrest fuel hfuel
  simp only [length_append, length_cons] at hfuel
  obtain ⟨fuel, rfl⟩ : ∃ n, fuel = n + 1 := ⟨fuel - 1, by omega⟩
  have hvalue' : parseValue fuel depth (lead ++ (text ++ (body ++ kept))) =
      some (value, body ++ kept) := by
    rw [parseValue_skip hlead]
    exact htext (body ++ kept) dropped (by rw [hrest, append_assoc]) fuel (by omega)
  have hmore := hbody kept dropped hrest fuel (by omega)
  simp only [append_assoc, cons_append, parseMembers_eq, expect_append hspace hfront,
    bind_some, hname, expect_append hspace' hgap, hvalue']
  exact hmore

theorem readsAll (fuel : Nat) : ReadsAll fuel := by
  induction fuel with
  | zero => constructor <;> simp [parseValue, parseArray, parseObject, parseItems, parseMembers]
  | succ fuel ih =>
    exact ⟨readsValue_value ih, readsAll_array ih, readsAll_object ih, readsAll_items ih,
      readsAll_members ih⟩

theorem isSpace_visible (h : isSpace c = true) : UnicodeText.isSpace c = true := by
  simp only [isSpace, Bool.or_eq_true, decide_eq_true_eq] at h
  rcases h with ((rfl | rfl) | rfl) | rfl <;> decide

theorem trimSpace_body (hlead : lead.all isSpace = true)
    (hrest : rest.all isSpace = true) (hstarts : Starts body) (hends : Ends body) :
    UnicodeText.trimSpace (lead ++ (body ++ rest)) = body := by
  have hlead' : ∀ c ∈ lead, UnicodeText.isSpace c = true := fun c hc =>
    isSpace_visible (all_eq_true.mp hlead c hc)
  have hrest' : ∀ c ∈ rest.reverse, UnicodeText.isSpace c = true := fun c hc =>
    isSpace_visible (all_eq_true.mp hrest c (mem_reverse.mp hc))
  obtain ⟨c, tail, hstart, hc⟩ := hstarts
  obtain ⟨front, d, hend, hd⟩ := hends
  have hdrop : (lead ++ (body ++ rest)).dropWhile UnicodeText.isSpace = body ++ rest := by
    rw [dropWhile_append_of_pos hlead', hstart, cons_append, dropWhile_cons_of_neg (by simp [hc])]
  have hback : (body ++ rest).reverse.dropWhile UnicodeText.isSpace = body.reverse := by
    rw [reverse_append, dropWhile_append_of_pos hrest', hend, reverse_append,
      reverse_singleton, singleton_append, dropWhile_cons_of_neg (by simp [hd])]
  rw [UnicodeText.trimSpace, hdrop, hback, reverse_reverse]

theorem decode_trimSpace (h : decode cs = some value) :
    decode (UnicodeText.trimSpace cs) = some value := by
  simp only [decode] at h
  split at h
  case h_2 => cases h
  case h_1 value' rest hparse =>
    split at h
    case isFalse => cases h
    case isTrue hrest =>
      obtain rfl := some.inj h
      obtain ⟨lead, body, rfl, hlead, hstarts, hends, hbody⟩ := (readsAll _).value hparse
      have htail : rest.all isSpace = true := by
        obtain ⟨front, hfront, hall⟩ := skipSpace_eq rest
        rw [isEmpty_iff.mp hrest, append_nil] at hfront
        rw [hfront]
        exact hall
      have hread : parseValue (3 * body.length + 1) maxNestingDepth (body ++ []) =
          some (value', []) := hbody [] rest rfl _ (Nat.le_refl _)
      rw [append_nil] at hread
      rw [trimSpace_body hlead htail hstarts hends, decode, hread]
      rfl

end JsonText
