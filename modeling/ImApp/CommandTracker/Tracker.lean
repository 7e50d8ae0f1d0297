import Mathlib.Data.List.Basic
import Mathlib.Data.List.TakeWhile

/-!
The line of a terminal as it is tracked from what is typed. The data comes in chunks of
UTF-16 units, and each call reads the keys of its chunk alone. Chunks make no difference as
long as none ends inside a key and no line feed is told apart from its carriage return by a
paste between them.
-/

namespace ImApp.CommandTracker

open List

abbrev Units := List UInt16

/-- `\s` and what `trim` removes. -/
def isWhite (u : UInt16) : Bool :=
  [0x20, 0xa0, 0x1680, 0x2028, 0x2029, 0x202f, 0x205f, 0x3000, 0xfeff].contains u ||
    0x9 ≤ u && u ≤ 0xd || 0x2000 ≤ u && u ≤ 0x200a

def isLineEnd (u : UInt16) : Bool := u = 0xd || u = 0xa

def trim (text : Units) : Units := ((text.dropWhile isWhite).reverse.dropWhile isWhite).reverse

structure Tracker where
  buffer : Units
  cursor : ℕ
  reliable : Bool
  deriving DecidableEq

namespace Tracker

def start : Tracker := ⟨[], 0, true⟩

def reset (_ : Tracker) : Tracker := start

def replace (t : Tracker) (command : Units) : Tracker :=
  if command = [] ∨ command.any isLineEnd then t else ⟨command, command.length, true⟩

def insert (t : Tracker) (command : Units) : Tracker :=
  if command = [] ∨ command.any isLineEnd then t
  else
    { t with
      buffer := t.buffer.take t.cursor ++ command ++ t.buffer.drop t.cursor
      cursor := t.cursor + command.length }

/-- Without the unit at the cursor, if there is one. -/
def deleteAt (t : Tracker) : Tracker :=
  if t.cursor < t.buffer.length then
    { t with buffer := t.buffer.take t.cursor ++ t.buffer.drop (t.cursor + 1) }
  else t

def left (t : Tracker) : Tracker := { t with cursor := t.cursor - 1 }
def right (t : Tracker) : Tracker := { t with cursor := min t.buffer.length (t.cursor + 1) }
def home (t : Tracker) : Tracker := { t with cursor := 0 }
def toEnd (t : Tracker) : Tracker := { t with cursor := t.buffer.length }

end Tracker

/-- `text.replace(/\s*\S+\s*$/, "")`: the last word, with the blanks on both sides. -/
def withoutWord (text : Units) : Units :=
  if text.all isWhite then text
  else (((text.reverse.dropWhile isWhite).dropWhile (!isWhite ·)).dropWhile isWhite).reverse

/-- What one round of the loop of `consume` reads. -/
inductive Key where
  | response
  | paste (text : Units)
  | unfinished
  | left
  | right
  | home
  | toEnd
  | delete
  | character (u : UInt16)
  deriving DecidableEq

/-- The length of a report of the terminal, `^\x1b\[(?:\?|>)?[\d;]+[Rc]`. -/
def responseLength : Units → Option ℕ
  | 0x1b :: 0x5b :: data =>
    let mark := if data.head? = some 0x3f ∨ data.head? = some 0x3e then 1 else 0
    let digits := (data.drop mark).takeWhile fun u => 0x30 ≤ u && u ≤ 0x39 || u = 0x3b
    match digits, data.drop (mark + digits.length) with
      | [], _ => none
      | _, 0x52 :: _ | _, 0x63 :: _ => some (2 + mark + digits.length + 1)
      | _, _ => none
  | _ => none

def pasteStart : Units := [0x1b, 0x5b, 0x32, 0x30, 0x30, 0x7e]
def pasteEnd : Units := [0x1b, 0x5b, 0x32, 0x30, 0x31, 0x7e]

/-- The text up to the end of the paste. -/
def pasted : Units → Option Units
  | [] => none
  | u :: data =>
    if pasteEnd.isPrefixOf (u :: data) then some [] else (pasted data).map fun text => u :: text

def sequences : List (Units × Key) :=
  [([0x1b, 0x5b, 0x44], .left), ([0x1b, 0x5b, 0x43], .right), ([0x1b, 0x5b, 0x48], .home),
    ([0x1b, 0x4f, 0x48], .home), ([0x1b, 0x5b, 0x46], .toEnd), ([0x1b, 0x4f, 0x46], .toEnd),
    ([0x1b, 0x5b, 0x33, 0x7e], .delete)]

/-- The next key of data that begins with this unit, and its length. -/
def nextKey (u : UInt16) (data : Units) : Key × ℕ :=
  match responseLength (u :: data) with
  | some length => (.response, length)
  | none =>
    if pasteStart.isPrefixOf (u :: data) then
      match pasted ((u :: data).drop 6) with
      | some text => (.paste text, 6 + text.length + 6)
      | none => (.unfinished, data.length + 1)
    else match sequences.find? fun sequence => sequence.1.isPrefixOf (u :: data) with
      | some (sequence, key) => (key, sequence.length)
      | none => (.character u, 1)

/-- The effect of a character that is no line end. -/
def Tracker.type (t : Tracker) (u : UInt16) : Tracker :=
  if u = 0x7f ∨ u = 0x8 then if 0 < t.cursor then t.left.deleteAt else t
  else if u = 0x1 then t.home
  else if u = 0x5 then t.toEnd
  else if u = 0x15 then { t with buffer := t.buffer.drop t.cursor, cursor := 0 }
  else if u = 0xb then { t with buffer := t.buffer.take t.cursor }
  else if u = 0x17 then
    let before := withoutWord (t.buffer.take t.cursor)
    { t with buffer := before ++ t.buffer.drop t.cursor, cursor := before.length }
  else if u = 0x3 then t.reset
  else if u = 0x4 then t.deleteAt
  else if u < 0x20 then { t with reliable := false }
  else t.insert [u]

/-- A round of the loop: the state, whether the last character was a carriage return, and
what was submitted. -/
structure Round where
  tracker : Tracker
  returned : Bool
  submissions : List Units
  deriving DecidableEq

/-- What the end of a line submits. -/
def Round.submitted (r : Round) (u : UInt16) : List Units :=
  if ¬ (u = 0xa ∧ r.returned) ∧ r.tracker.reliable ∧ trim r.tracker.buffer ≠ [] then
    [trim r.tracker.buffer]
  else []

def Round.press (r : Round) : Key → Round
  | .response => r
  | .paste text =>
    { r with
      tracker :=
        if text.any isLineEnd then { r.tracker with reliable := false } else r.tracker.insert text }
  | .unfinished => { r with tracker := { r.tracker with reliable := false }, returned := false }
  | .left => { r with tracker := r.tracker.left, returned := false }
  | .right => { r with tracker := r.tracker.right, returned := false }
  | .home => { r with tracker := r.tracker.home, returned := false }
  | .toEnd => { r with tracker := r.tracker.toEnd, returned := false }
  | .delete => { r with tracker := r.tracker.deleteAt, returned := false }
  | .character u =>
    if isLineEnd u then ⟨r.tracker.reset, u = 0xd, r.submissions ++ r.submitted u⟩
    else { r with tracker := r.tracker.type u, returned := false }

def keysWithin : ℕ → Units → List Key
  | 0, _ | _, [] => []
  | fuel + 1, u :: data =>
    let (key, length) := nextKey u data
    key :: keysWithin fuel (data.drop (length - 1))

def keysOf (data : Units) : List Key := keysWithin data.length data

/-- More rounds read nothing more. -/
theorem keysWithin_more {data : Units} {fuel : ℕ} (more : ℕ) (h : data.length ≤ fuel) :
    keysWithin (fuel + more) data = keysWithin fuel data := by
  induction fuel generalizing data with
  | zero =>
    obtain rfl := length_eq_zero_iff.mp (Nat.le_zero.mp h)
    cases more <;> rfl
  | succ fuel ih =>
    cases data with
    | nil => rw [Nat.succ_add, keysWithin, keysWithin] <;> simp
    | cons u data =>
      have hrest : (data.drop ((nextKey u data).2 - 1)).length ≤ fuel := by
        rw [length_drop]
        exact (Nat.sub_le _ _).trans (Nat.le_of_succ_le_succ h)
      rw [Nat.succ_add, keysWithin, keysWithin]
      exact congrArg _ (ih hrest)

theorem keysOf_cons (u : UInt16) (data : Units) :
    keysOf (u :: data) = (nextKey u data).1 :: keysOf (data.drop ((nextKey u data).2 - 1)) := by
  have hrest : (data.drop ((nextKey u data).2 - 1)).length ≤ data.length := by
    rw [length_drop]
    exact Nat.sub_le _ _
  obtain ⟨more, hmore⟩ := Nat.exists_eq_add_of_le hrest
  have hkeys := keysWithin_more more (le_refl (data.drop ((nextKey u data).2 - 1)).length)
  rw [← hmore] at hkeys
  exact congrArg _ hkeys

def consume (t : Tracker) (data : Units) (alternateBuffer : Bool) : Tracker × List Units :=
  if alternateBuffer then (t.reset, [])
  else
    let last := (keysOf data).foldl Round.press ⟨t, false, []⟩
    (last.tracker, last.submissions)

/-- A line that was ended by a carriage return: whether the call has ended since, and
whether something was pasted that a line feed would submit. -/
inductive Return where
  | none
  | after (ended pasted : Bool)
  deriving DecidableEq

def Return.next (r : Return) : Key → Return
  | .response => r
  | .paste text => match r with
    | .none => .none
    | .after ended pasted => .after ended (pasted || !text.any isLineEnd && !text.all isWhite)
  | .character u => if u = 0xd then .after false false else .none
  | _ => .none

def Return.ended : Return → Return
  | .none => .none
  | .after _ pasted => .after true pasted

/-- The keys of the chunks, and where the chunks end. -/
def marks (chunks : List Units) : List (Option Key) :=
  chunks.flatMap fun chunk => (keysOf chunk).map some ++ [none]

/-- No line feed comes in another call than the carriage return before it, with a paste
between them. -/
def Unswallowed : Return → List (Option Key) → Prop
  | _, [] => True
  | r, none :: marks => Unswallowed r.ended marks
  | r, some key :: marks =>
    ¬ (r = .after true true ∧ key = .character 0xa) ∧ Unswallowed (r.next key) marks

def Round.mark (r : Round) : Option Key → Round
  | none => { r with returned := false }
  | some key => r.press key

def consumeAll (t : Tracker) : List Units → Tracker × List Units
  | [] => (t, [])
  | chunk :: chunks =>
    let first := consume t chunk false
    let rest := consumeAll first.1 chunks
    (rest.1, first.2 ++ rest.2)

def Round.behind (r : Round) (submissions : List Units) : Round :=
  { r with submissions := submissions ++ r.submissions }

theorem mark_behind (r : Round) (submissions : List Units) (mark : Option Key) :
    (r.behind submissions).mark mark = (r.mark mark).behind submissions := by
  cases mark with
  | none => rfl
  | some key =>
    cases key with
    | character u =>
      simp only [Round.mark, Round.press]
      split
      · exact congrArg (Round.mk _ _) (append_assoc _ _ _)
      rfl
    | _ => rfl

theorem foldl_behind (r : Round) (submissions : List Units) (l : List (Option Key)) :
    l.foldl Round.mark (r.behind submissions) = (l.foldl Round.mark r).behind submissions := by
  induction l generalizing r with
  | nil => rfl
  | cons mark l ih => rw [foldl_cons, mark_behind, ih, foldl_cons]

theorem consumeAll_eq (t : Tracker) (chunks : List Units) : consumeAll t chunks =
    let last := (marks chunks).foldl Round.mark ⟨t, false, []⟩
    (last.tracker, last.submissions) := by
  induction chunks generalizing t with
  | nil => rfl
  | cons chunk chunks ih =>
    have hfirst : ((keysOf chunk).map some ++ [none]).foldl Round.mark ⟨t, false, []⟩ =
        (⟨(consume t chunk false).1, false, []⟩ : Round).behind (consume t chunk false).2 := by
      rw [foldl_append, foldl_map]
      simp [consume, Round.mark, Round.behind]
    have hmarks : marks (chunk :: chunks) = ((keysOf chunk).map some ++ [none]) ++ marks chunks :=
      flatMap_cons
    rw [hmarks, foldl_append, hfirst, foldl_behind, consumeAll, ih]
    rfl

/-- One call that reads all keys, and calls for the chunks. -/
structure Lockstep (p : Return) (one many : Round) : Prop where
  tracker : one.tracker = many.tracker
  submissions : one.submissions = many.submissions
  returnedOne : one.returned = decide (p ≠ .none)
  returnedMany : many.returned = true ↔ ∃ pasted, p = .after false pasted
  blank : ∀ ended, p = .after ended false → one.tracker.reliable = true →
    one.tracker.buffer.all isWhite = true

theorem trim_blank {text : Units} (h : text.all isWhite = true) : trim text = [] := by
  have hnone : text.dropWhile isWhite = [] := dropWhile_eq_nil_iff.mpr (all_eq_true.mp h)
  rw [trim, hnone]
  rfl

theorem blank_insert {t : Tracker} {text : Units} (ht : t.buffer.all isWhite = true)
    (htext : text.all isWhite = true) : (t.insert text).buffer.all isWhite = true := by
  unfold Tracker.insert
  split
  · exact ht
  simp only [all_append, Bool.and_eq_true]
  rw [all_eq_true] at ht
  exact ⟨⟨all_eq_true.mpr fun u hu => ht u (mem_of_mem_take hu), htext⟩,
    all_eq_true.mpr fun u hu => ht u (mem_of_mem_drop hu)⟩

theorem reliable_insert (t : Tracker) (text : Units) : (t.insert text).reliable = t.reliable := by
  unfold Tracker.insert
  split <;> rfl

theorem Lockstep.press {p : Return} {one many : Round} (h : Lockstep p one many) {key : Key}
    (hkey : ¬ (p = .after true true ∧ key = .character 0xa)) :
    Lockstep (p.next key) (one.press key) (many.press key) := by
  have hmove : ∀ t : Tracker, ∀ s, Lockstep .none ⟨t, false, s⟩ ⟨t, false, s⟩ :=
    fun t s => ⟨rfl, rfl, rfl, by simp, fun _ hp => by cases hp⟩
  obtain ⟨t, c, s⟩ := one
  obtain ⟨t', c', s'⟩ := many
  obtain ⟨rfl, rfl, hone, hmany, hblank⟩ := h
  cases key with
  | response => exact ⟨rfl, rfl, hone, hmany, hblank⟩
  | paste text =>
    refine ⟨rfl, rfl, ?_, ?_, ?_⟩
    · cases p <;> exact hone
    · cases p with
      | none => exact hmany
      | after ended pasted => simpa [Round.press, Return.next] using hmany
    intro ended hp hreliable
    cases p with
    | none => cases hp
    | after ended pasted =>
      simp only [Return.next, Return.after.injEq, Bool.or_eq_false_iff] at hp
      obtain ⟨-, rfl, hpasted⟩ := hp
      simp only [Round.press] at hreliable ⊢
      split at hreliable
      · cases hreliable
      rename_i hlines
      rw [if_neg hlines]
      rw [reliable_insert] at hreliable
      rw [Bool.not_eq_true] at hlines
      rw [hlines] at hpasted
      exact blank_insert (hblank _ rfl hreliable) (by simpa using hpasted)
  | character u =>
    simp only [Round.press, Return.next]
    by_cases hline : isLineEnd u = true
    · simp only [hline, if_true]
      have hsame : (⟨t, c, s⟩ : Round).submitted u = (⟨t, c', s⟩ : Round).submitted u := by
        unfold Round.submitted
        dsimp only
        by_cases hfeed : u = 0xa
        · subst hfeed
          cases p with
          | none =>
            have hc' : c' = false := Bool.eq_false_iff.mpr fun hc => by
              obtain ⟨_, hp⟩ := hmany.mp hc
              cases hp
            have hc : c = false := hone
            rw [hc, hc']
          | after ended pasted =>
            cases ended with
            | false =>
              have hc : c = true := hone
              have hc' : c' = true := hmany.mpr ⟨pasted, rfl⟩
              rw [hc, hc']
            | true =>
              cases pasted with
              | true => exact absurd ⟨rfl, rfl⟩ hkey
              | false =>
                have hnothing : ¬ (t.reliable = true ∧ trim t.buffer ≠ []) := fun hsubmits =>
                  hsubmits.2 (trim_blank (hblank true rfl hsubmits.1))
                rw [if_neg fun hsubmits => hnothing hsubmits.2,
                  if_neg fun hsubmits => hnothing hsubmits.2]
        simp [hfeed]
      refine ⟨rfl, congrArg (s ++ ·) hsame, ?_, ?_, ?_⟩
      · by_cases hreturn : u = 0xd <;> simp [hreturn]
      · by_cases hreturn : u = 0xd <;> simp [hreturn]
      exact fun _ _ _ => rfl
    have hreturn : u ≠ 0xd := by
      rintro rfl
      exact hline rfl
    simp only [hline, hreturn, if_false]
    exact hmove _ _
  | _ => exact hmove _ _

theorem foldl_lockstep {l : List (Option Key)} {p : Return} {one many : Round}
    (h : Lockstep p one many) (hl : Unswallowed p l) :
    ((l.filterMap id).foldl Round.press one).tracker = (l.foldl Round.mark many).tracker ∧
      ((l.filterMap id).foldl Round.press one).submissions = (l.foldl Round.mark many).submissions := by
  induction l generalizing p one many with
  | nil => exact ⟨h.tracker, h.submissions⟩
  | cons mark l ih =>
    cases mark with
    | some key => exact ih (h.press hl.1) hl.2
    | none =>
      refine ih ⟨h.tracker, h.submissions, ?_, ?_, ?_⟩ hl
      · cases p <;> exact h.returnedOne
      · cases p <;> simp [Round.mark, Return.ended]
      intro ended hp
      cases p with
      | none => cases hp
      | after first pasted =>
        cases hp
        exact h.blank first rfl

theorem consume_chunks (t : Tracker) {chunks : List Units}
    (hwhole : keysOf chunks.flatten = chunks.flatMap keysOf) (hreturn : Unswallowed .none (marks chunks)) :
    consumeAll t chunks = consume t chunks.flatten false := by
  have hkeys : ∀ chunks, (marks chunks).filterMap id = chunks.flatMap keysOf := by
    intro chunks
    induction chunks with
    | nil => rfl
    | cons chunk chunks ih =>
      have hmarks : marks (chunk :: chunks) = ((keysOf chunk).map some ++ [none]) ++ marks chunks :=
        flatMap_cons
      rw [hmarks, filterMap_append, ih, flatMap_cons]
      simp
  have hstart : Lockstep .none ⟨t, false, []⟩ ⟨t, false, []⟩ :=
    ⟨rfl, rfl, rfl, by simp, fun _ hp => by cases hp⟩
  obtain ⟨htracker, hsubmissions⟩ := foldl_lockstep hstart hreturn
  rw [consumeAll_eq, consume, if_neg Bool.false_ne_true, hwhole, ← hkeys]
  exact Prod.ext htracker.symm hsubmissions.symm

inductive Call where
  | consume (data : Units) (alternateBuffer : Bool)
  | replace (command : Units)
  | insert (command : Units)
  | reset

def Tracker.call (t : Tracker) : Call → Tracker
  | .consume data alternateBuffer => (CommandTracker.consume t data alternateBuffer).1
  | .replace command => t.replace command
  | .insert command => t.insert command
  | .reset => t.reset

def Tracker.Inside (t : Tracker) : Prop := t.cursor ≤ t.buffer.length

section

variable {t : Tracker}

theorem inside_insert (h : t.Inside) (text : Units) : (t.insert text).Inside := by
  unfold Tracker.insert Tracker.Inside at *
  split
  · exact h
  simp only [length_append, length_take, length_drop]
  omega

theorem inside_deleteAt (h : t.Inside) : t.deleteAt.Inside := by
  unfold Tracker.deleteAt Tracker.Inside at *
  split
  · simp only [length_append, length_take, length_drop]
    omega
  exact h

theorem inside_left (h : t.Inside) : t.left.Inside := (Nat.sub_le _ _).trans h

theorem inside_type (h : t.Inside) (u : UInt16) : (t.type u).Inside := by
  unfold Tracker.type
  split
  · split
    · exact inside_deleteAt (inside_left h)
    exact h
  split
  · exact Nat.zero_le _
  split
  · exact le_refl _
  split
  · exact Nat.zero_le _
  split
  · exact le_of_eq (length_take_of_le h).symm
  split
  · simp [Tracker.Inside]
  split
  · exact le_refl _
  split
  · exact inside_deleteAt h
  split
  · exact h
  exact inside_insert h _

theorem inside_press {r : Round} (h : r.tracker.Inside) (key : Key) : (r.press key).tracker.Inside := by
  cases key with
  | response => exact h
  | paste text =>
    simp only [Round.press]
    split
    · exact h
    exact inside_insert h text
  | unfinished => exact h
  | left => exact inside_left h
  | right => exact Nat.min_le_left _ _
  | home => exact Nat.zero_le _
  | toEnd => exact le_refl _
  | delete => exact inside_deleteAt h
  | character u =>
    simp only [Round.press]
    split
    · exact le_refl _
    exact inside_type h u

theorem inside_foldl {r : Round} (h : r.tracker.Inside) (keys : List Key) :
    (keys.foldl Round.press r).tracker.Inside := by
  induction keys generalizing r with
  | nil => exact h
  | cons key keys ih => exact ih (inside_press h key)

theorem inside_calls (calls : List Call) (h : t.Inside) : (calls.foldl Tracker.call t).Inside := by
  induction calls generalizing t with
  | nil => exact h
  | cons call calls ih =>
    apply ih
    cases call with
    | consume data alternateBuffer =>
      simp only [Tracker.call, consume]
      split
      · exact le_refl _
      exact inside_foldl h _
    | replace command =>
      simp only [Tracker.call, Tracker.replace]
      split
      · exact h
      exact le_refl _
    | insert command => exact inside_insert h command
    | reset => exact le_refl _

end

def isHigh (u : UInt16) : Bool := 0xd800 ≤ u && u ≤ 0xdbff
def isLow (u : UInt16) : Bool := 0xdc00 ≤ u && u ≤ 0xdfff

/-- The length of the character that the units begin with; a pair of surrogates is one. -/
def width : Units → ℕ
  | first :: second :: _ => if isHigh first && isLow second then 2 else 1
  | _ => 1

/-- The same for units from back to front. -/
def widthBack : Units → ℕ
  | second :: first :: _ => if isHigh first && isLow second then 2 else 1
  | _ => 1

/-- The line of an editor that works like readline. -/
structure Line where
  text : Units
  point : ℕ

namespace Line

variable (l : Line)

def insert (text : Units) : Line :=
  ⟨l.text.take l.point ++ text ++ l.text.drop l.point, l.point + text.length⟩

def left : Line := { l with point := l.point - widthBack (l.text.take l.point).reverse }
def right : Line := { l with point := min l.text.length (l.point + width (l.text.drop l.point)) }

def deleteAt : Line :=
  { l with text := l.text.take l.point ++ l.text.drop (l.point + width (l.text.drop l.point)) }

def backspace : Line := ⟨l.text.take l.left.point ++ l.text.drop l.point, l.left.point⟩

/-- `unix-word-rubout`: the blanks before the point, and the word before them. -/
def rubout : Line :=
  let before := (((l.text.take l.point).reverse.dropWhile isWhite).dropWhile (!isWhite ·)).reverse
  ⟨before ++ l.text.drop l.point, before.length⟩

/-- A character that does not end the line. Keys with another meaning (completion, history,
a mode) leave any line behind. -/
def type (other : Key → Line → Line) (u : UInt16) : Line :=
  if u = 0x7f ∨ u = 0x8 then l.backspace
  else if u = 0x1 then { l with point := 0 }
  else if u = 0x5 then { l with point := l.text.length }
  else if u = 0x15 then ⟨l.text.drop l.point, 0⟩
  else if u = 0xb then { l with text := l.text.take l.point }
  else if u = 0x17 then l.rubout
  else if u = 0x4 then l.deleteAt
  else if u < 0x20 then other (.character u) l
  else l.insert [u]

def press (other : Key → Line → Line) : Key → Line
  | .response => l
  | .paste text => if text.any isLineEnd then other (.paste text) l else l.insert text
  | .unfinished => other .unfinished l
  | .left => l.left
  | .right => l.right
  | .home => { l with point := 0 }
  | .toEnd => { l with point := l.text.length }
  | .delete => l.deleteAt
  | .character u => if isLineEnd u ∨ u = 0x3 then ⟨[], 0⟩ else l.type other u

end Line

def isSurrogate (u : UInt16) : Bool := isHigh u || isLow u

/-- A key that the tracker reads as the editor does: no half of a surrogate pair, and no
`^W` but behind nothing or a single word at the start of the line. -/
def Plain (t : Tracker) : Key → Prop
  | .paste text => text.all (!isSurrogate ·)
  | .character u => isSurrogate u = false ∧ (u = 0x17 → t.buffer.take t.cursor = [] ∨
      ∃ word blanks, t.buffer.take t.cursor = word ++ blanks ∧ word ≠ [] ∧
        word.all (!isWhite ·) ∧ blanks.all isWhite)
  | _ => True

/-- All keys are plain that come while the tracker is reliable. -/
def PlainRun : Round → List Key → Prop
  | _, [] => True
  | r, key :: keys => (r.tracker.reliable = true → Plain r.tracker key) ∧ PlainRun (r.press key) keys

/-- A reliable tracker holds the line of the editor. -/
def Tracks (t : Tracker) (l : Line) : Prop :=
  t.reliable = true → l = ⟨t.buffer, t.cursor⟩ ∧ t.buffer.all (!isSurrogate ·) = true

section

variable {t : Tracker} {text : Units}

theorem width_eq_one (h : text.all (!isSurrogate ·) = true) : width text = 1 := by
  unfold width
  split
  · rename_i first second rest
    have hfirst : isSurrogate first = false := by
      simpa using all_eq_true.mp h first mem_cons_self
    simp [(Bool.or_eq_false_iff.mp hfirst).1]
  rfl

theorem widthBack_eq_one (h : text.all (!isSurrogate ·) = true) : widthBack text = 1 := by
  unfold widthBack
  split
  · rename_i second first rest
    have hsecond : isSurrogate second = false := by
      simpa using all_eq_true.mp h second mem_cons_self
    simp [(Bool.or_eq_false_iff.mp hsecond).2]
  rfl

theorem all_take_drop {p : UInt16 → Bool} (h : text.all p = true) (n m : ℕ) :
    (text.take n ++ text.drop m).all p = true := by
  rw [all_eq_true] at h
  rw [all_append, Bool.and_eq_true]
  exact ⟨all_eq_true.mpr fun u hu => h u (mem_of_mem_take hu),
    all_eq_true.mpr fun u hu => h u (mem_of_mem_drop hu)⟩

section

variable (hplain : t.buffer.all (!isSurrogate ·) = true)
include hplain

theorem tracks_insert
    (htext : text.all (!isSurrogate ·) = true) (hline : text.any isLineEnd = false) :
    Tracks (t.insert text) (Line.insert ⟨t.buffer, t.cursor⟩ text) := by
  intro _
  unfold Tracker.insert
  split
  · rename_i hempty
    rw [hline] at hempty
    obtain rfl := hempty.resolve_right Bool.false_ne_true
    simp [Line.insert, hplain]
  refine ⟨rfl, ?_⟩
  have hall := all_take_drop hplain t.cursor t.cursor
  rw [all_append, Bool.and_eq_true] at hall
  simp only [all_append, Bool.and_eq_true]
  exact ⟨⟨hall.1, htext⟩, hall.2⟩

theorem tracks_deleteAt (hin : t.Inside) :
    Tracks t.deleteAt (Line.deleteAt ⟨t.buffer, t.cursor⟩) := by
  intro _
  have hdrop : (t.buffer.drop t.cursor).all (!isSurrogate ·) = true := by
    have hall := all_take_drop hplain 0 t.cursor
    exact hall
  unfold Line.deleteAt Tracker.deleteAt
  dsimp only
  rw [width_eq_one hdrop]
  split
  · exact ⟨rfl, all_take_drop hplain _ _⟩
  rename_i hend
  have hlast : t.cursor = t.buffer.length := le_antisymm hin (not_lt.mp hend)
  refine ⟨?_, hplain⟩
  rw [hlast, take_length, drop_of_length_le (Nat.le_succ _), append_nil]

theorem left_eq : Line.left ⟨t.buffer, t.cursor⟩ = ⟨t.left.buffer, t.left.cursor⟩ := by
  unfold Line.left
  rw [widthBack_eq_one]
  · rfl
  rw [all_reverse]
  have hall := all_take_drop hplain t.cursor t.buffer.length
  rwa [drop_length, append_nil] at hall

end

theorem withoutWord_eq (h : text = [] ∨ ∃ word blanks, text = word ++ blanks ∧ word ≠ [] ∧
      word.all (!isWhite ·) ∧ blanks.all isWhite) :
    withoutWord text = ((text.reverse.dropWhile isWhite).dropWhile (!isWhite ·)).reverse := by
  rcases h with rfl | ⟨word, blanks, rfl, hword, hletters, hblanks⟩
  · rfl
  have hmixed : ¬ (word ++ blanks).all isWhite = true := by
    obtain ⟨u, rest, rfl⟩ := exists_cons_of_ne_nil hword
    intro hall
    have hu := all_eq_true.mp hletters u mem_cons_self
    rw [all_eq_true.mp hall u mem_cons_self] at hu
    cases hu
  have hrest : (((word ++ blanks).reverse.dropWhile isWhite).dropWhile (!isWhite ·)) = [] := by
    rw [reverse_append, dropWhile_append_of_pos
      (fun u hu => all_eq_true.mp hblanks u (mem_reverse.mp hu))]
    apply dropWhile_eq_nil_iff.mpr
    intro u hu
    exact all_eq_true.mp hletters u (mem_reverse.mp ((dropWhile_sublist _).subset hu))
  rw [withoutWord, if_neg hmixed, hrest]
  rfl

theorem tracks_backspace (hin : t.Inside) (hplain : t.buffer.all (!isSurrogate ·) = true) :
    Tracks (if 0 < t.cursor then t.left.deleteAt else t) (Line.backspace ⟨t.buffer, t.cursor⟩) := by
  intro _
  unfold Line.backspace
  rw [left_eq hplain]
  unfold Tracker.Inside at hin
  split
  · rename_i hpositive
    have hlast : t.left.cursor < t.left.buffer.length := by
      simp only [Tracker.left]
      omega
    rw [Tracker.deleteAt, if_pos hlast]
    refine ⟨?_, all_take_drop hplain _ _⟩
    simp only [Tracker.left, Nat.sub_add_cancel hpositive]
  rename_i hzero
  obtain hzero : t.cursor = 0 := Nat.eq_zero_of_not_pos hzero
  refine ⟨?_, hplain⟩
  simp [Tracker.left, hzero]

theorem tracks_type (other : Key → Line → Line) (hin : t.Inside)
    (hplain : t.buffer.all (!isSurrogate ·) = true) {u : UInt16} (hkey : Plain t (.character u))
    (hline : isLineEnd u = false) (hc : u ≠ 0x3) :
    Tracks (t.type u) (Line.type ⟨t.buffer, t.cursor⟩ other u) := by
  have hall := all_take_drop hplain t.cursor t.cursor
  rw [all_append, Bool.and_eq_true] at hall
  unfold Tracker.type Line.type
  by_cases hback : u = 0x7f ∨ u = 0x8
  · rw [if_pos hback, if_pos hback]
    exact tracks_backspace hin hplain
  by_cases hhome : u = 0x1
  · rw [if_neg hback, if_neg hback, if_pos hhome, if_pos hhome]
    exact fun _ => ⟨rfl, hplain⟩
  by_cases hend : u = 0x5
  · rw [if_neg hback, if_neg hback, if_neg hhome, if_neg hhome, if_pos hend, if_pos hend]
    exact fun _ => ⟨rfl, hplain⟩
  rw [if_neg hback, if_neg hback, if_neg hhome, if_neg hhome, if_neg hend, if_neg hend]
  by_cases hfront : u = 0x15
  · rw [if_pos hfront, if_pos hfront]
    exact fun _ => ⟨rfl, hall.2⟩
  by_cases hrest : u = 0xb
  · rw [if_neg hfront, if_neg hfront, if_pos hrest, if_pos hrest]
    refine fun _ => ⟨rfl, hall.1⟩
  rw [if_neg hfront, if_neg hfront, if_neg hrest, if_neg hrest]
  by_cases hword : u = 0x17
  · rw [if_pos hword, if_pos hword]
    intro _
    have hsame := withoutWord_eq (hkey.2 hword)
    refine ⟨?_, ?_⟩
    · simp only [Line.rubout, hsame]
    have hsub : ∀ x ∈ withoutWord (t.buffer.take t.cursor), x ∈ t.buffer.take t.cursor := by
      rw [hsame]
      intro x hx
      exact mem_reverse.mp ((dropWhile_sublist _).subset ((dropWhile_sublist _).subset
        (mem_reverse.mp hx)))
    rw [all_append, Bool.and_eq_true]
    exact ⟨all_eq_true.mpr fun x hx => all_eq_true.mp hall.1 x (hsub x hx), hall.2⟩
  rw [if_neg hword, if_neg hword, if_neg hc]
  by_cases hdelete : u = 0x4
  · rw [if_pos hdelete, if_pos hdelete]
    exact tracks_deleteAt hplain hin
  rw [if_neg hdelete, if_neg hdelete]
  by_cases hcontrol : u < 0x20
  · rw [if_pos hcontrol, if_pos hcontrol]
    exact fun h => by cases h
  rw [if_neg hcontrol, if_neg hcontrol]
  exact tracks_insert hplain (by simp [hkey.1]) (by simp [hline])

theorem reliable_deleteAt : t.deleteAt.reliable = t.reliable := by
  unfold Tracker.deleteAt
  split <;> rfl

/-- Only the end of the line makes the tracker reliable again. -/
theorem reliable_press {r : Round} {key : Key} (h : (r.press key).tracker.reliable = true)
    (hkey : ∀ u, key = .character u → ¬ (isLineEnd u = true ∨ u = 0x3)) :
    r.tracker.reliable = true := by
  cases key with
  | paste text =>
    simp only [Round.press] at h
    split at h
    · cases h
    rwa [reliable_insert] at h
  | unfinished => cases h
  | delete => exact reliable_deleteAt ▸ h
  | character u =>
    obtain ⟨hline, hc⟩ := not_or.mp (hkey u rfl)
    simp only [Round.press, if_neg hline, Tracker.type, if_neg hc] at h
    split at h
    · split at h
      · exact (reliable_deleteAt (t := r.tracker.left)) ▸ h
      exact h
    repeat' split at h
    all_goals first
      | exact h
      | exact reliable_deleteAt ▸ h
      | cases h
      | exact reliable_insert r.tracker [u] ▸ h
  | _ => exact h

theorem Tracks.press (other : Key → Line → Line) {r : Round} {l : Line} (h : Tracks r.tracker l)
    (hin : r.tracker.Inside) {key : Key} (hkey : r.tracker.reliable = true → Plain r.tracker key) :
    Tracks (r.press key).tracker (l.press other key) := by
  intro hafter
  by_cases hends : ∃ u, key = .character u ∧ (isLineEnd u = true ∨ u = 0x3)
  · obtain ⟨u, rfl, hu⟩ := hends
    rw [Line.press, if_pos hu]
    simp only [Round.press]
    split
    · exact ⟨rfl, rfl⟩
    obtain rfl := hu.resolve_left (by assumption)
    exact ⟨rfl, rfl⟩
  have hreliable := reliable_press hafter fun u hu hline => hends ⟨u, hu, hline⟩
  obtain ⟨rfl, hplain⟩ := h hreliable
  cases key with
  | response => exact ⟨rfl, hplain⟩
  | paste text =>
    simp only [Round.press, Line.press] at hafter ⊢
    split at hafter
    · cases hafter
    rename_i hlines
    rw [if_neg hlines, if_neg hlines]
    exact tracks_insert hplain (hkey hreliable) (Bool.eq_false_iff.mpr hlines) hafter
  | unfinished => cases hafter
  | left => exact ⟨left_eq hplain, hplain⟩
  | right =>
    refine ⟨?_, hplain⟩
    have hall : (r.tracker.buffer.drop r.tracker.cursor).all (!isSurrogate ·) = true :=
      all_take_drop hplain 0 r.tracker.cursor
    simp only [Line.press, Line.right]
    rw [width_eq_one hall]
    rfl
  | home => exact ⟨rfl, hplain⟩
  | toEnd => exact ⟨rfl, hplain⟩
  | delete => exact tracks_deleteAt hplain hin hafter
  | character u =>
    have hline : isLineEnd u = false := Bool.eq_false_iff.mpr fun hu => hends ⟨u, rfl, .inl hu⟩
    have hc : u ≠ 0x3 := fun hu => hends ⟨u, rfl, .inr hu⟩
    simp only [Round.press, Line.press, hline, hc, Bool.false_eq_true, or_self, if_false] at hafter ⊢
    exact tracks_type other hin hplain (hkey hreliable) hline hc hafter

theorem tracks_foldl (other : Key → Line → Line) {r : Round} {l : Line} {keys : List Key}
    (h : Tracks r.tracker l) (hin : r.tracker.Inside) (hkeys : PlainRun r keys) :
    Tracks (keys.foldl Round.press r).tracker (keys.foldl (Line.press · other ·) l) := by
  induction keys generalizing r l with
  | nil => exact h
  | cons key keys ih => exact ih (h.press other hin hkeys.1) (inside_press hin key) hkeys.2

end

end ImApp.CommandTracker
