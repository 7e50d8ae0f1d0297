import ImApp.SqlStatements.Splitters
import ImApp.Library.Masking

/-!
When the two splitters give the same statements. Both read quotes and comments, and differ
in a comment that opens with a slash, a star and a slash again: for one of them it is still
open, for the other one it is over.
-/

namespace ImApp.SqlStatements

open List

open JsonText (Text)
open Regex (isBlank Spot)

/-- What a character does, and how many it takes along. `short` is the reading in which
the star that opens a comment may also close it. -/
def Lex.turn (short : Bool) (lex : Lex) (char : Char) (next : Option Char) : Lex × Nat :=
  match lex with
  | .lineComment => (if char = '\n' then .plain else .lineComment, 0)
  | .blockComment => if char = '*' ∧ next = some '/' then (.plain, 1) else (.blockComment, 0)
  | .quote mark =>
    if char = '\\' ∧ next.isSome then (.quote mark, 1)
    else if char = mark then
      if next = some mark then (.quote mark, 1) else (.plain, 0)
    else (.quote mark, 0)
  | .plain =>
    if char = '-' ∧ next = some '-' then (.lineComment, 0)
    else if char = '#' then (.lineComment, 0)
    else if char = '/' ∧ next = some '*' then (.blockComment, if short then 0 else 1)
    else if isQuote char then (.quote char, 0)
    else (.plain, 0)

/-- A semicolon outside of quotes and comments. -/
def Lex.separates (lex : Lex) (char : Char) : Bool := lex = .plain ∧ char = ';'

/-- The characters of a text, each with whether it separates statements. -/
def read (short : Bool) : Lex → Nat → Text → List (Char × Bool)
  | _, _, [] => []
  | lex, more + 1, char :: rest => (char, false) :: read short lex more rest
  | lex, 0, char :: rest => (char, lex.separates char) ::
      read short (lex.turn short char rest.head?).1 (lex.turn short char rest.head?).2 rest

/-- The statements between the separators. -/
def pieces : Text → List (Char × Bool) → List Text
  | current, [] => filled current
  | current, (_, true) :: rest => filled current ++ pieces [] rest
  | current, (char, false) :: rest => pieces (current ++ [char]) rest

/-- A comment opens with a slash, a star and a slash. -/
def shortComment : Lex → Nat → Text → Bool
  | _, _, [] => false
  | lex, more + 1, _ :: rest => shortComment lex more rest
  | lex, 0, char :: rest => (lex = .plain ∧ char = '/' ∧ ['*', '/'].isPrefixOf rest) ||
      shortComment (lex.turn false char rest.head?).1 (lex.turn false char rest.head?).2 rest

/-- The same semicolons separate statements in both readings. -/
def SameReading (sql : Text) : Prop := read true .plain 0 sql = read false .plain 0 sql

instance (sql : Text) : Decidable (SameReading sql) := inferInstanceAs (Decidable (_ = _))

theorem read_plain_blank {short : Bool} {char : Char} {rest : Text} (h : isBlank char = true) :
    read short .plain 0 (char :: rest) = (char, false) :: read short .plain 0 rest := by
  have hne : ∀ d, isBlank d = false → char ≠ d := by
    rintro d hd rfl
    rw [h] at hd
    cases hd
  have hquote : isQuote char = false := by
    unfold isQuote
    simp [hne '\'' (by decide), hne '"' (by decide), hne '\x60' (by decide)]
  rw [read]
  simp [Lex.turn, Lex.separates, hne '-' (by decide), hne '#' (by decide), hne '/' (by decide),
    hne ';' (by decide), hquote]

theorem sameReading_of_noShort {lex : Lex} {more : Nat} {sql : Text}
    (h : shortComment lex more sql = false) : read true lex more sql = read false lex more sql := by
  induction sql generalizing lex more with
  | nil => cases more <;> rfl
  | cons char rest ih =>
    cases more with
    | succ more => exact congrArg _ (ih h)
    | zero =>
      rw [shortComment, Bool.or_eq_false_iff] at h
      obtain ⟨hopen, hmore⟩ := h
      have hopen := of_decide_eq_false hopen
      rw [read, read, ← ih hmore]
      congr 1
      by_cases hslash : lex = .plain ∧ char = '/' ∧ rest.head? = some '*'
      · -- The star does not close the comment, because no slash follows it.
        obtain ⟨rfl, rfl, hstar⟩ := hslash
        cases rest with
        | nil => cases hstar
        | cons star tail =>
          cases hstar
          have hnext : tail.head? ≠ some '/' := by
            intro hnext
            obtain ⟨c, tail, rfl⟩ := exists_cons_of_ne_nil (l := tail) (by
              rintro rfl
              cases hnext)
            cases hnext
            exact hopen ⟨rfl, rfl, rfl⟩
          have hlong : Lex.turn false .plain '/' (some '*') = (.blockComment, 1) := by decide
          have hshort : Lex.turn true .plain '/' (some '*') = (.blockComment, 0) := by decide
          have hstay : Lex.turn true .blockComment '*' tail.head? = (.blockComment, 0) :=
            if_neg fun hclose => hnext hclose.2
          rw [List.head?_cons, hlong, hshort, read, read, hstay]
          rfl
      have hturn : lex.turn true char rest.head? = lex.turn false char rest.head? := by
        unfold Lex.turn
        cases lex with
        | plain =>
          have hno : ¬(char = '/' ∧ rest.head? = some '*') := fun hboth => hslash ⟨rfl, hboth⟩
          simp only [if_neg hno]
        | lineComment | blockComment | quote mark => rfl
      rw [hturn]

theorem cut_turn (s : Cut) (index : Nat) (char : Char) (rest : Text) : s.turn index char rest =
      if s.lex.separates char then
        ({ s with statements := s.statements ++ filled s.current, current := [] }, 0)
      else
        ({ s with
            current := s.current ++ char :: rest.take (s.lex.turn true char rest.head?).2
            lex := (s.lex.turn true char rest.head?).1 },
          (s.lex.turn true char rest.head?).2) := by
  have htake : ∀ c, rest.head? = some c → rest.take 1 = [c] := by
    intro c hc
    cases rest with
    | nil => cases hc
    | cons d rest => exact congrArg (fun d => [d]) (Option.some.inj hc)
  obtain ⟨statements, current, lex⟩ := s
  cases lex with
  | lineComment =>
    by_cases hend : char = '\n' <;> simp [Cut.turn, Lex.turn, Lex.separates, hend]
  | blockComment =>
    by_cases hclose : char = '*' ∧ rest.head? = some '/'
    · simp [Cut.turn, Lex.turn, Lex.separates, hclose, htake _ hclose.2]
    simp [Cut.turn, Lex.turn, Lex.separates, hclose]
  | quote mark =>
    by_cases hescape : char = '\\' ∧ ¬rest = []
    · obtain ⟨c, rest, rfl⟩ := exists_cons_of_ne_nil hescape.2
      simp [Cut.turn, Lex.turn, Lex.separates, hescape.1]
    by_cases hmark : char = mark
    · subst hmark
      by_cases htwice : rest.head? = some char
      · simp [Cut.turn, Lex.turn, Lex.separates, htwice, htake _ htwice]
      simp [Cut.turn, Lex.turn, Lex.separates, hescape, htwice]
    simp [Cut.turn, Lex.turn, Lex.separates, hescape, hmark]
  | plain =>
    by_cases hdash : char = '-' ∧ rest.head? = some '-'
    · simp [Cut.turn, Lex.turn, Lex.separates, hdash]
    by_cases hhash : char = '#'
    · simp [Cut.turn, Lex.turn, Lex.separates, hhash]
    by_cases hopen : char = '/' ∧ rest.head? = some '*'
    · simp [Cut.turn, Lex.turn, Lex.separates, hopen]
    by_cases hquote : isQuote char = true
    · have hsemi : char ≠ ';' := by
        rintro rfl
        cases hquote
      simp [Cut.turn, Lex.turn, Lex.separates, hdash, hhash, hopen, hquote, hsemi]
    by_cases hsemi : char = ';'
    · simp [Cut.turn, Lex.separates, hsemi, show isQuote ';' = false from rfl]
    simp [Cut.turn, Lex.turn, Lex.separates, hdash, hhash, hopen, hquote, hsemi]

theorem scan_cut {sql : Text} {s : Cut} {index more : Nat} (current : Text)
    (h : s.current = current ++ sql.take more) :
    (scan Cut.turn s index more sql).statements ++ filled (scan Cut.turn s index more sql).current =
      s.statements ++ pieces current (read true s.lex more sql) := by
  induction sql generalizing s index more current with
  | nil =>
    rw [take_nil, append_nil] at h
    cases more <;> exact congrArg (s.statements ++ filled ·) h
  | cons char rest ih =>
    cases more with
    | succ more =>
      apply ih (current ++ [char])
      rw [h]
      simp
    | zero =>
      rw [take_zero, append_nil] at h
      rw [scan, cut_turn, read]
      cases hsep : s.lex.separates char with
      | true =>
        obtain ⟨hplain, rfl⟩ := of_decide_eq_true hsep
        have hturn : Lex.turn true .plain ';' rest.head? = (.plain, 0) := rfl
        rw [hplain, hturn, if_pos rfl, ih [] (by simp), pieces, h]
        simp
      | false =>
        rw [if_neg Bool.false_ne_true, pieces, ih (current ++ [char]) (by simp [h])]

theorem splitSql_eq {sql : Text} (h : hasBoundary sql = false) :
    splitSql sql = pieces [] (read true .plain 0 sql) := by
  unfold splitSql
  rw [if_neg (by simp [h])]
  exact scan_cut [] (by simp)

/-- No line of the text sets the delimiter. -/
def Undirected (source : Text) : Prop :=
  ∀ front sql, source = front ++ sql → (front = [] ∨ front.getLast? = some '\n') →
    directive (sql.takeWhile (· ≠ '\n')) = none

theorem trimmed_slice (front sql : Text) (start : Nat) :
    (trimmedStatement (front ++ sql) start front.length).toList.map (·.sql) =
      filled (front.drop start) := by
  unfold trimmedStatement filled
  rw [take_left]
  by_cases hempty : JsNumber.trim (front.drop start) = [] <;> simp [hempty]

theorem parse_readLex {s : Parse} (source : Text) (index : Nat) (char : Char) (rest : Text)
    (h : s.delimiter = [';']) : ∃ more, s.readLex source index char rest =
      (if s.lex.separates char then { s with
          statements := s.statements ++ (trimmedStatement source s.statementStart index).toList
          statementStart := index + 1 }
      else { s with lex := (s.lex.turn false char rest.head?).1 }, more) ∧
    (more = (s.lex.turn false char rest.head?).2 ∨
      more = 1 ∧ (s.lex.turn false char rest.head?) = (.lineComment, 0) ∧ rest.head? = some '-') := by
  obtain ⟨statements, delimiter, statementStart, lex⟩ := s
  obtain rfl : delimiter = [';'] := h
  cases lex with
  | lineComment => exact ⟨0, by simp [Parse.readLex, Lex.turn, Lex.separates], .inl rfl⟩
  | blockComment =>
    by_cases hclose : char = '*' ∧ rest.head? = some '/'
    · exact ⟨1, by simp [Parse.readLex, Lex.turn, Lex.separates, hclose],
        .inl (by simp [Lex.turn, hclose])⟩
    exact ⟨0, by simp [Parse.readLex, Lex.turn, Lex.separates, hclose],
      .inl (by simp [Lex.turn, hclose])⟩
  | quote mark =>
    refine ⟨(Lex.turn false (.quote mark) char rest.head?).2, ?_, .inl rfl⟩
    by_cases hescape : char = '\\' ∧ ¬rest = []
    · simp [Parse.readLex, Lex.turn, Lex.separates, hescape]
    by_cases hmark : char = mark
    · subst hmark
      by_cases htwice : rest.head? = some char
      · simp [Parse.readLex, Lex.turn, Lex.separates, htwice]
      simp [Parse.readLex, Lex.turn, Lex.separates, hescape, htwice]
    simp [Parse.readLex, Lex.turn, Lex.separates, hescape, hmark]
  | plain =>
    by_cases hdash : char = '-' ∧ rest.head? = some '-'
    · refine ⟨1, by simp [Parse.readLex, Lex.turn, Lex.separates, hdash], .inr ⟨rfl, ?_, hdash.2⟩⟩
      simp [Lex.turn, hdash]
    refine ⟨(Lex.turn false .plain char rest.head?).2, ?_, .inl rfl⟩
    by_cases hhash : char = '#'
    · simp [Parse.readLex, Lex.turn, Lex.separates, hhash]
    by_cases hopen : char = '/' ∧ rest.head? = some '*'
    · simp [Parse.readLex, Lex.turn, Lex.separates, hopen]
    by_cases hquote : isQuote char = true
    · have hsemi : char ≠ ';' := by
        rintro rfl
        cases hquote
      simp [Parse.readLex, Lex.turn, Lex.separates, hdash, hhash, hopen, hquote, hsemi]
    by_cases hsemi : char = ';'
    · simp [Parse.readLex, Lex.turn, Lex.separates, hsemi, show isQuote ';' = false from rfl]
    simp [Parse.readLex, Lex.turn, Lex.separates, hdash, hhash, hopen, hquote, hsemi, Ne.symm hsemi]

theorem parse_turn {s : Parse} {front rest : Text} {char : Char}
    (h : Undirected (front ++ char :: rest)) :
    s.turn (front ++ char :: rest) front.length char rest =
      s.readLex (front ++ char :: rest) front.length char rest := by
  unfold Parse.turn
  dsimp only
  split
  case isTrue hline =>
    have hnone : directive ((char :: rest).takeWhile (· ≠ '\n')) = none := by
      apply h front _ rfl
      rcases hline.2 with hempty | hbreak
      · exact .inl (length_eq_zero_iff.mp hempty)
      rcases eq_nil_or_concat front with rfl | ⟨init, last, rfl⟩
      · exact .inl rfl
      rw [concat_eq_append] at hbreak ⊢
      right
      have hindex : (init ++ [last]).length - 1 = init.length := by simp
      rw [hindex, append_assoc, List.getElem?_append_right (Nat.le_refl _),
        Nat.sub_self] at hbreak
      rw [List.getLast?_append]
      simpa using hbreak
    simp only [hnone]
  case isFalse => rfl

theorem scan_parse {source front sql : Text} {s : Parse} (more : Nat)
    (hsrc : source = front ++ sql) (h : Undirected source) (hdelimiter : s.delimiter = [';'])
    (hstart : s.statementStart ≤ front.length) :
    (scan (Parse.turn source) s front.length more sql).statements.map (·.sql) ++
        (trimmedStatement source (scan (Parse.turn source) s front.length more sql).statementStart
          source.length).toList.map (·.sql) =
      s.statements.map (·.sql) ++ pieces (front.drop s.statementStart) (read false s.lex more sql) := by
  induction sql generalizing front s more with
  | nil =>
    rw [append_nil] at hsrc
    have hlast := trimmed_slice front [] s.statementStart
    rw [append_nil] at hlast
    subst hsrc
    cases more <;> exact congrArg _ hlast
  | cons char rest ih =>
    have hlen : (front ++ [char]).length = front.length + 1 := by simp
    have hsource' : source = (front ++ [char]) ++ rest := by simp [hsrc]
    have hdrop : (front ++ [char]).drop s.statementStart = front.drop s.statementStart ++ [char] :=
      drop_append_of_le_length hstart
    cases more with
    | succ more =>
      have hmore := ih more hsource' hdelimiter (by omega)
      rw [hlen, hdrop] at hmore
      exact hmore
    | zero =>
      have hturn := parse_turn (s := s) (hsrc ▸ h)
      obtain ⟨more, hread, hmore⟩ := parse_readLex source front.length char rest hdelimiter
      rw [← hsrc, hread] at hturn
      rw [scan, hturn, read]
      -- A dash of a comment's opening may as well be read inside of the comment.
      have hsame : ∀ t : Parse, t.lex = (s.lex.turn false char rest.head?).1 →
          scan (Parse.turn source) t (front.length + 1) more rest =
            scan (Parse.turn source) t (front.length + 1) (s.lex.turn false char rest.head?).2 rest := by
        intro t ht
        rcases hmore with rfl | ⟨rfl, hcomment, hdash⟩
        · rfl
        rw [hcomment] at ht ⊢
        cases rest with
        | nil => rfl
        | cons dash rest =>
          cases hdash
          have hstay : t.turn source (front.length + 1) '-' rest = (t, 0) := by
            obtain ⟨statements, delimiter, statementStart, lex⟩ := t
            obtain rfl : lex = .lineComment := ht
            rfl
          rw [scan, scan, hstay]
      cases hsep : s.lex.separates char with
      | true =>
        obtain ⟨hplain, rfl⟩ := of_decide_eq_true hsep
        have hnext : Lex.turn false .plain ';' rest.head? = (.plain, 0) := rfl
        rw [hplain, hnext] at hsame ⊢
        simp only [if_pos]
        rw [hsame _ rfl]
        have hlater := ih (s := { s with
          statements := s.statements ++ (trimmedStatement source s.statementStart front.length).toList
          statementStart := front.length + 1
          lex := .plain }) 0 hsource' hdelimiter hlen.ge
        rw [hlen] at hlater
        apply hlater.trans
        rw [pieces, map_append, hsrc, trimmed_slice]
        simp
      | false =>
        simp only [Bool.false_eq_true, if_false]
        rw [hsame _ rfl]
        have hlater := ih (s := { s with lex := (s.lex.turn false char rest.head?).1 })
          (s.lex.turn false char rest.head?).2 hsource' hdelimiter
          (by rw [hlen]; exact Nat.le_succ_of_le hstart)
        rw [hlen, hdrop] at hlater
        rw [hlater, pieces]

theorem splitSqlStatements_eq {source : Text} (hbound : hasBoundary source = false)
    (h : Undirected source) :
    splitSqlStatements source = pieces [] (read false .plain 0 source) := by
  unfold splitSqlStatements parseSqlStatements
  rw [if_neg (by simp [hbound]), map_append]
  exact @scan_parse source [] source ⟨[], [';'], 0, .plain⟩ 0 rfl h rfl (Nat.le_refl _)

theorem advances_boundary : boundary.Advances := by
  intro s e _ h
  obtain ⟨m, hm, he⟩ := Regex.mem_seqs_cons.mp (Regex.mem_of_matchAt h)
  obtain ⟨n, hn, he⟩ := Regex.mem_seqs_cons.mp he
  obtain ⟨c, back, hback, -, rfl⟩ := Regex.mem_one.mp hn
  obtain ⟨front, hfront, -⟩ := Regex.eats hm
  obtain ⟨word, hword, -⟩ := Regex.eats he
  have hlen : m.rest.length = back.length + 1 := by rw [hback]; rfl
  have hrest : back.length = word.length + e.rest.length := by
    rw [show back = word ++ e.rest from hword, length_append]
  rw [hfront, length_append]
  omega

theorem slices_split {r : Regex} (hr : r.Advances) {source piece : Text} {s : Spot} {start fuel : Nat}
    (hgroups : s.groups = []) (hfuel : s.rest.length < fuel)
    (hsrc : source = s.before.reverse ++ s.rest)
    (hpiece : piece = s.before.reverse.drop start) (hstart : start ≤ s.before.length) :
    (slices source (r.matchesFrom fuel s) start).map (·.sql) = (r.splitFrom fuel piece s).flatMap filled := by
  induction fuel generalizing s start piece with
  | zero => cases hfuel
  | succ fuel ih =>
    have hslice : (trimmedStatement source start s.before.length).toList.map (·.sql) =
        filled piece := by
      rw [hsrc, hpiece, ← trimmed_slice s.before.reverse s.rest, length_reverse]
    rw [Regex.matchesFrom, Regex.splitFrom]
    cases hrest : s.rest with
    | nil =>
      rw [hrest, append_nil] at hsrc
      have hlen : source.length = s.before.length := by rw [hsrc, length_reverse]
      cases hmatch : r.matchAt s with
      | none =>
        change (slices source [] start).map (·.sql) = [piece].flatMap filled
        rw [slices, hlen, hslice]
        simp
      | some e =>
        have hless := hr s e hgroups hmatch
        rw [hrest] at hless
        cases hless
    | cons c rest =>
      have hshort : rest.length < fuel := by
        rw [hrest] at hfuel
        exact Nat.lt_of_succ_lt_succ hfuel
      cases hmatch : r.matchAt s with
      | none =>
        have hsource' : source = (c :: s.before).reverse ++ rest := by simp [hsrc, hrest]
        have hpiece' : piece ++ [c] = (c :: s.before).reverse.drop start := by
          rw [reverse_cons, drop_append_of_le_length (by simpa using hstart), hpiece]
        exact ih (s := ⟨c :: s.before, rest, []⟩) rfl hshort hsource' hpiece'
          (Nat.le_succ_of_le hstart)
      | some e =>
        have hless := hr s e hgroups hmatch
        obtain ⟨word, hword, hpre⟩ := Regex.eats (Regex.mem_of_matchAt hmatch)
        have hmore : ¬(piece = [] ∧ e.rest = c :: rest) := by
          rintro ⟨-, hsame⟩
          rw [hsame, hrest] at hless
          exact Nat.lt_irrefl _ hless
        rw [hrest] at hless
        simp only [if_pos hless, if_neg hmore]
        have hsource' : source = e.before.reverse ++ e.rest := by
          rw [hsrc, hword, hpre]
          simp
        have hempty : ([] : Text) = e.before.reverse.drop e.before.length := by
          rw [drop_eq_nil_of_le (by simp)]
        rw [slices, map_append, hslice, flatMap_cons]
        congr 1
        exact ih (s := { e with groups := [] }) rfl (Nat.lt_of_lt_of_le hless
          (Nat.succ_le_of_lt hshort)) hsource' hempty (Nat.le_refl _)

theorem boundary_agree {sql : Text} (h : hasBoundary sql = true) :
    splitSql sql = splitSqlStatements sql := by
  unfold splitSql splitSqlStatements parseSqlStatements
  rw [if_pos h, if_pos h]
  exact (slices_split advances_boundary rfl (Nat.lt_succ_self _) rfl rfl (Nat.le_refl _)).symm

/-- The characters that are not blank. -/
def solid (text : Text) : Text := text.filter fun c => !isBlank c

theorem solid_dropWhile (text : Text) : solid (text.dropWhile isBlank) = solid text := by
  induction text with
  | nil => rfl
  | cons c text ih =>
    cases hc : isBlank c with
    | true =>
      rw [dropWhile_cons_of_pos hc, ih]
      simp [solid, hc]
    | false => rw [dropWhile_cons_of_neg (by simp [hc])]

theorem solid_trim (text : Text) : solid (JsNumber.trim text) = solid text := by
  have hreverse : ∀ other : Text, solid other.reverse = (solid other).reverse :=
    fun other => filter_reverse
  change solid ((text.dropWhile isBlank).reverse.dropWhile isBlank).reverse = solid text
  rw [hreverse, solid_dropWhile, hreverse, reverse_reverse, solid_dropWhile]

theorem filled_of_solid {text : Text} (h : solid text ≠ []) : filled text = [JsNumber.trim text] := by
  apply if_neg
  intro hempty
  rw [← solid_trim, hempty] at h
  exact h rfl

theorem pieces_head {current : Text} (h : solid current ≠ []) (marks : List (Char × Bool)) :
    ∃ more later, pieces current marks = JsNumber.trim (current ++ more) :: later := by
  induction marks generalizing current with
  | nil => exact ⟨[], [], by rw [pieces, filled_of_solid h, append_nil]⟩
  | cons mark marks ih =>
    obtain ⟨char, separates⟩ := mark
    cases separates with
    | true => exact ⟨[], pieces [] marks, by rw [pieces, filled_of_solid h, append_nil]; rfl⟩
    | false =>
      obtain ⟨more, later, hpieces⟩ := @ih (current ++ [char]) (by simp_all [solid])
      exact ⟨char :: more, later, by rw [pieces, hpieces]; simp⟩

/-- A statement that goes on behind a separator of another one differs from it. -/
theorem pieces_ne {current : Text} (h : solid current ≠ []) (marks marks' : List (Char × Bool)) :
    pieces current ((';', true) :: marks) ≠ pieces current ((';', false) :: marks') := by
  have hmore : solid (current ++ [';']) ≠ [] := by simp_all [solid]
  obtain ⟨more, later, hpieces⟩ := pieces_head hmore marks'
  rw [pieces, pieces, hpieces, filled_of_solid h]
  intro hsame
  have hhead := congrArg solid (List.cons.inj hsame).1
  rw [solid_trim, solid_trim] at hhead
  have hlen := congrArg List.length hhead
  have hsemi : isBlank ';' = false := by decide
  simp [solid, hsemi] at hlen

theorem read_cons (short : Bool) (lex : Lex) (m : Nat) (char : Char) (rest : Text) :
    ∃ next more flag, read short lex m (char :: rest) = (char, flag) :: read short next more rest ∧
      (flag = true ↔ (lex = .plain ∧ m = 0) ∧ char = ';') ∧
      (flag = true → next = .plain ∧ more = 0) := by
  cases m with
  | succ m => exact ⟨lex, m, false, rfl, by simp, fun hflag => by cases hflag⟩
  | zero =>
    refine ⟨_, _, _, rfl, by simp [Lex.separates], fun hflag => ?_⟩
    obtain ⟨rfl, rfl⟩ := of_decide_eq_true hflag
    exact ⟨rfl, rfl⟩

theorem read_of_pieces {a b : Bool} {sql current : Text} {lex lex' : Lex} {m m' : Nat}
    (hblank : solid current = [] → (lex = .plain ∧ m = 0) ∧ lex' = .plain ∧ m' = 0)
    (h : pieces current (read a lex m sql) = pieces current (read b lex' m' sql)) :
    read a lex m sql = read b lex' m' sql := by
  induction sql generalizing current lex lex' m m' with
  | nil => cases m <;> cases m' <;> rfl
  | cons char rest ih =>
    by_cases hfresh : solid current = [] ∧ isBlank char = true
    · obtain ⟨⟨rfl, rfl⟩, rfl, rfl⟩ := hblank hfresh.1
      rw [read_plain_blank hfresh.2, read_plain_blank hfresh.2] at h ⊢
      exact congrArg _ (ih (fun _ => ⟨⟨rfl, rfl⟩, rfl, rfl⟩) h)
    obtain ⟨next, more, flag, hread, hsep, hnext⟩ := read_cons a lex m char rest
    obtain ⟨next', more', flag', hread', hsep', hnext'⟩ := read_cons b lex' m' char rest
    rw [hread, hread'] at h ⊢
    have hsame : flag = flag' := by
      by_cases hcur : solid current = []
      · obtain ⟨hplain, hplain'⟩ := hblank hcur
        rw [Bool.eq_iff_iff, hsep, hsep']
        exact and_congr_left fun _ => iff_of_true hplain hplain'
      cases flag with
      | true =>
        obtain ⟨-, rfl⟩ := hsep.mp rfl
        cases flag' with
        | true => rfl
        | false => exact absurd h (pieces_ne hcur _ _)
      | false =>
        cases flag' with
        | true =>
          obtain ⟨-, rfl⟩ := hsep'.mp rfl
          exact absurd h.symm (pieces_ne hcur _ _)
        | false => rfl
    subst hsame
    apply congrArg
    cases flag with
    | true =>
      rw [pieces, pieces] at h
      exact ih (fun _ => ⟨hnext rfl, hnext' rfl⟩) (append_cancel_left h)
    | false =>
      apply ih _ h
      intro hsolid
      exfalso
      apply hfresh
      simpa [solid] using hsolid

/-- For a text that sets no delimiter: its statements are the same exactly when it has
boundary lines, or the same semicolons separate statements in both readings, as they do
when no comment opens with a slash, a star and a slash. -/
theorem splitters_agree (sql : Text) (h : Undirected sql) :
    (splitSql sql = splitSqlStatements sql ↔ hasBoundary sql = true ∨ SameReading sql) ∧
      (shortComment .plain 0 sql = false → SameReading sql) := by
  refine ⟨?_, fun hshort => sameReading_of_noShort hshort⟩
  cases hbound : hasBoundary sql with
  | true => exact ⟨fun _ => .inl rfl, fun _ => boundary_agree hbound⟩
  | false =>
    rw [splitSql_eq hbound, splitSqlStatements_eq hbound h]
    constructor
    · intro hsame
      right
      exact read_of_pieces (fun _ => ⟨⟨rfl, rfl⟩, rfl, rfl⟩) hsame
    rintro (hfalse | hsame)
    · cases hfalse
    rw [hsame]

theorem undirected_of_one_line {sql : Text} (hbreak : '\n' ∉ sql) (hline : directive sql = none) :
    Undirected sql := by
  rintro front rest rfl (rfl | hlast)
  · rw [takeWhile_eq_self_iff.mpr]
    · exact hline
    intro c hc
    exact decide_eq_true fun hsame => hbreak (hsame ▸ hc)
  exact absurd (mem_append_left _ (mem_of_getLast? hlast)) hbreak

theorem splitters_agree_line : (splitSql "a;b".toList = splitSqlStatements "a;b".toList ↔
      hasBoundary "a;b".toList = true ∨ SameReading "a;b".toList) ∧
      (shortComment .plain 0 "a;b".toList = false → SameReading "a;b".toList) := by
  apply splitters_agree
  exact undirected_of_one_line (by decide) (by decide)

/-- A comment that the restore task ends at its second slash. -/
theorem comment_split : splitSql "/*/;*/".toList = ["/*/".toList, "*/".toList] ∧
      splitSqlStatements "/*/;*/".toList = ["/*/;*/".toList] ∧ Undirected "/*/;*/".toList := by
  refine ⟨by decide +kernel, by decide +kernel, ?_⟩
  exact undirected_of_one_line (by decide) (by decide)

end ImApp.SqlStatements
