import ImApp.Library.JsonText

/-!
UTF-8 as texts are encoded, and as bytes are decoded where nothing is an error: the
longest start of a character that cannot go on becomes one replacement character.
-/

namespace Utf8

open List
open JsonText (Text)

abbrev Bytes := List UInt8

def encodeChar (c : Char) : Bytes :=
  let n := c.toNat
  if n < 0x80 then [UInt8.ofNat n]
  else if n < 0x800 then [UInt8.ofNat (0xc0 + n / 0x40), UInt8.ofNat (0x80 + n % 0x40)]
  else if n < 0x10000 then
    [UInt8.ofNat (0xe0 + n / 0x1000), UInt8.ofNat (0x80 + n / 0x40 % 0x40),
      UInt8.ofNat (0x80 + n % 0x40)]
  else
    [UInt8.ofNat (0xf0 + n / 0x40000), UInt8.ofNat (0x80 + n / 0x1000 % 0x40),
      UInt8.ofNat (0x80 + n / 0x40 % 0x40), UInt8.ofNat (0x80 + n % 0x40)]

def encode (text : Text) : Bytes := text.flatMap encodeChar

/-- A character that was begun: the bytes it still needs, the bounds of the next one, and
its value so far. -/
structure Pending where
  needed : Nat
  lower : Nat
  upper : Nat
  value : Nat

def replacement : Char := '\ufffd'

/-- The start of a character of several bytes. -/
def lead (byte : Nat) : Option Pending :=
  if 0xc2 ≤ byte ∧ byte ≤ 0xdf then some ⟨1, 0x80, 0xbf, byte - 0xc0⟩
  else if 0xe0 ≤ byte ∧ byte ≤ 0xef then
    some ⟨2, if byte = 0xe0 then 0xa0 else 0x80, if byte = 0xed then 0x9f else 0xbf, byte - 0xe0⟩
  else if 0xf0 ≤ byte ∧ byte ≤ 0xf4 then
    some ⟨3, if byte = 0xf0 then 0x90 else 0x80, if byte = 0xf4 then 0x8f else 0xbf, byte - 0xf0⟩
  else none

/-- The characters that a byte between characters gives, and what it begins. -/
def first (byte : UInt8) : Text × Option Pending :=
  if byte.toNat < 0x80 then ([Char.ofNat byte.toNat], none)
  else match lead byte.toNat with
    | some pending => ([], some pending)
    | none => ([replacement], none)

def next (pending : Pending) (byte : UInt8) : Text × Option Pending :=
  if pending.lower ≤ byte.toNat ∧ byte.toNat ≤ pending.upper then
    let value := pending.value * 0x40 + (byte.toNat - 0x80)
    if pending.needed = 1 then ([Char.ofNat value], none)
    else ([], some ⟨pending.needed - 1, 0x80, 0xbf, value⟩)
  else
    let (chars, begun) := first byte
    (replacement :: chars, begun)

def decodeFrom : Option Pending → Bytes → Text
  | none, [] => []
  | some _, [] => [replacement]
  | none, byte :: rest => (first byte).1 ++ decodeFrom (first byte).2 rest
  | some pending, byte :: rest => (next pending byte).1 ++ decodeFrom (next pending byte).2 rest

def decode (bytes : Bytes) : Text := decodeFrom none bytes

def IsAscii (bytes : Bytes) : Prop := ∀ byte ∈ bytes, byte.toNat < 0x80

/-- The characters of ASCII bytes. -/
def chars (bytes : Bytes) : Text := bytes.map fun byte => Char.ofNat byte.toNat

variable {pending : Pending} {bytes : Bytes} {byte : UInt8}

theorem toNat_char (h : byte.toNat < 0x80) : (Char.ofNat byte.toNat).toNat = byte.toNat := by
  have hvalid : byte.toNat.isValidChar := .inl (by omega)
  rw [Char.ofNat, dif_pos hvalid]
  rfl

theorem decode_ascii (h : IsAscii bytes) : decode bytes = chars bytes := by
  unfold decode
  induction bytes with
  | nil => rfl
  | cons byte rest ih =>
    have hbyte : byte.toNat < 0x80 := h byte mem_cons_self
    have hrest := ih fun b hb => h b (mem_cons_of_mem _ hb)
    rw [decodeFrom, first, if_pos hbyte, hrest]
    rfl

theorem encode_chars (h : IsAscii bytes) : encode (chars bytes) = bytes := by
  unfold encode chars
  induction bytes with
  | nil => rfl
  | cons byte rest ih =>
    have hbyte : byte.toNat < 0x80 := h byte mem_cons_self
    have hrest := ih fun b hb => h b (mem_cons_of_mem _ hb)
    rw [map_cons, flatMap_cons, hrest, encodeChar, toNat_char hbyte, if_pos hbyte,
      UInt8.ofNat_toNat]
    rfl

theorem encodeChar_ascii {c : Char} (h : c.toNat < 0x80) : encodeChar c = [UInt8.ofNat c.toNat] :=
  if_pos h

theorem ascii_of_encodeChar {c : Char} (h : IsAscii (encodeChar c)) : c.toNat < 0x80 := by
  by_contra hgreat
  have hvalid : c.toNat < 0x110000 := by
    rcases c.valid with hlow | hhigh
    · exact lt_trans hlow (by decide)
    exact hhigh.2
  have hfirst : ∀ n, 0x80 ≤ n → n < 0x100 → UInt8.ofNat n ∉ encodeChar c := by
    intro n hn hbyte hmem
    have hsmall := h _ hmem
    rw [UInt8.toNat_ofNat', Nat.mod_eq_of_lt hbyte] at hsmall
    omega
  unfold encodeChar at hfirst
  simp only [if_neg hgreat] at hfirst
  split at hfirst
  · exact hfirst _ (by omega) (by omega) mem_cons_self
  split at hfirst <;> exact hfirst _ (by omega) (by omega) mem_cons_self

theorem chars_encode {text : Text} (h : IsAscii (encode text)) : chars (encode text) = text := by
  unfold encode at h ⊢
  induction text with
  | nil => rfl
  | cons c rest ih =>
    rw [flatMap_cons] at h ⊢
    have hc : c.toNat < 0x80 :=
      ascii_of_encodeChar fun b hb => h b (mem_append_left _ hb)
    have hrest := ih fun b hb => h b (mem_append_right _ hb)
    have hbyte : (UInt8.ofNat c.toNat).toNat = c.toNat := by
      rw [UInt8.toNat_ofNat', Nat.mod_eq_of_lt (by omega)]
    unfold chars at hrest ⊢
    rw [map_append, hrest, encodeChar_ascii hc, map_cons, hbyte, Char.ofNat_toNat]
    rfl

/-- The characters of the bytes that are complete, and the one that is begun. -/
def scan : Option Pending → Bytes → Text × Option Pending
  | pending, [] => ([], pending)
  | none, byte :: rest =>
    ((first byte).1 ++ (scan (first byte).2 rest).1, (scan (first byte).2 rest).2)
  | some pending, byte :: rest =>
    ((next pending byte).1 ++ (scan (next pending byte).2 rest).1, (scan (next pending byte).2 rest).2)

theorem decodeFrom_append (pending : Option Pending) (bytes rest : Bytes) :
    decodeFrom pending (bytes ++ rest) =
      (scan pending bytes).1 ++ decodeFrom (scan pending bytes).2 rest := by
  induction bytes generalizing pending with
  | nil => rfl
  | cons byte bytes ih =>
    cases pending <;> simp only [cons_append, decodeFrom, scan, ih, append_assoc]

/-- The next byte goes on with the character. -/
def Pending.GoesOn (pending : Pending) (rest : Bytes) : Prop :=
  ∃ byte after, rest = byte :: after ∧ pending.lower ≤ byte.toNat ∧ byte.toNat ≤ pending.upper

/-- The end of these bytes is inside a character, which the other bytes go on with. -/
def Splits (bytes rest : Bytes) : Prop :=
  ∃ pending, (scan none bytes).2 = some pending ∧ pending.GoesOn rest

/-- No chunk ends inside a character. -/
def Whole : List Bytes → Prop
  | [] => True
  | chunk :: chunks => ¬ Splits chunk chunks.flatten ∧ Whole chunks

/-- Bytes that go on with a character begin none. -/
def Pending.Inner (pending : Pending) : Prop := 0x80 ≤ pending.lower ∧ pending.upper ≤ 0xbf

theorem inner_of_first (h : (first byte).2 = some pending) : pending.Inner := by
  unfold first lead at h
  split at h
  · cases h
  split at h
  case h_2 => cases h
  case h_1 begun hlead =>
    cases h
    split at hlead
    · cases hlead
      exact ⟨le_refl _, le_refl _⟩
    split at hlead
    · cases hlead
      constructor <;> dsimp only <;> split <;> omega
    split at hlead
    · cases hlead
      constructor <;> dsimp only <;> split <;> omega
    cases hlead

theorem inner_of_next {pending begun : Pending} (h : (next pending byte).2 = some begun) :
    begun.Inner := by
  unfold next at h
  split at h
  · split at h
    · cases h
    cases h
    exact ⟨le_refl _, le_refl _⟩
  exact inner_of_first h

theorem inner_of_scan {from_ : Option Pending}
    (hfrom : ∀ p, from_ = some p → p.Inner) (h : (scan from_ bytes).2 = some pending) :
    pending.Inner := by
  induction bytes generalizing from_ with
  | nil => exact hfrom pending (by cases from_ <;> exact h)
  | cons byte bytes ih =>
    cases from_ with
    | none => exact ih (fun p hp => inner_of_first hp) h
    | some p => exact ih (fun p hp => inner_of_next hp) h

theorem first_inner (hlow : 0x80 ≤ byte.toNat) (hhigh : byte.toNat ≤ 0xbf) :
    first byte = ([replacement], none) := by
  have hlead : lead byte.toNat = none := by
    unfold lead
    rw [if_neg (by omega), if_neg (by omega), if_neg (by omega)]
  rw [first, if_neg (by omega), hlead]

/-- Where the bytes do not go on with it, a begun character is decoded by itself. -/
theorem decodeFrom_stopped (h : ¬ pending.GoesOn bytes) :
    decodeFrom (some pending) bytes = replacement :: decode bytes := by
  cases bytes with
  | nil => rfl
  | cons byte bytes =>
    have hbyte : ¬ (pending.lower ≤ byte.toNat ∧ byte.toNat ≤ pending.upper) :=
      fun hgoes => h ⟨byte, bytes, rfl, hgoes⟩
    rw [decodeFrom, next, if_neg hbyte, decode, decodeFrom]
    rfl

theorem length_decodeFrom (h : pending.Inner) (bytes : Bytes) :
    (decodeFrom (some pending) bytes).length ≤ (decode bytes).length + 1 ∧ (pending.GoesOn bytes →
      (decodeFrom (some pending) bytes).length ≤ (decode bytes).length) := by
  induction bytes generalizing pending with
  | nil => exact ⟨le_refl _, fun ⟨_, _, hbytes, _⟩ => by cases hbytes⟩
  | cons byte bytes ih =>
    by_cases hgoes : pending.lower ≤ byte.toNat ∧ byte.toNat ≤ pending.upper
    · have hdecode : (decode (byte :: bytes)).length = (decode bytes).length + 1 := by
        rw [decode, decodeFrom, first_inner (le_trans h.1 hgoes.1) (le_trans hgoes.2 h.2)]
        rfl
      have hless : (decodeFrom (some pending) (byte :: bytes)).length ≤ (decode bytes).length + 1 := by
        rw [decodeFrom, next, if_pos hgoes]
        dsimp only
        split
        · exact le_refl _
        exact (ih ⟨le_refl _, le_refl _⟩).1
      exact ⟨by omega, fun _ => by omega⟩
    have hstopped : ¬ pending.GoesOn (byte :: bytes) := by
      rintro ⟨_, _, hbytes, hgoes'⟩
      cases hbytes
      exact hgoes hgoes'
    rw [decodeFrom_stopped hstopped]
    exact ⟨le_refl _, fun hgoes' => absurd hgoes' hstopped⟩

theorem decode_append (bytes rest : Bytes) :
    (¬ Splits bytes rest → decode (bytes ++ rest) = decode bytes ++ decode rest) ∧
    (Splits bytes rest → (decode (bytes ++ rest)).length < (decode bytes ++ decode rest).length) := by
  have hleft := decodeFrom_append none bytes []
  rw [append_nil] at hleft
  unfold decode
  rw [decodeFrom_append, hleft]
  cases hscan : (scan none bytes).2 with
  | none =>
    refine ⟨fun _ => by simp [decodeFrom], ?_⟩
    rintro ⟨p, hp, -⟩
    rw [hscan] at hp
    cases hp
  | some pending =>
    have hinner : pending.Inner := inner_of_scan (fun p hp => by cases hp) hscan
    constructor
    · intro h
      rw [decodeFrom_stopped fun hgoes => h ⟨pending, hscan, hgoes⟩]
      simp [decodeFrom, decode]
    rintro ⟨p, hp, hgoes⟩
    rw [hscan] at hp
    cases hp
    have hless := (length_decodeFrom hinner rest).2 hgoes
    simp only [decodeFrom, length_append, length_cons, length_nil]
    unfold decode at hless
    omega

/-- Chunks that are decoded on their own give the text of all bytes exactly if no chunk ends
inside a character. -/
theorem decode_flatten (chunks : List Bytes) :
    (decode chunks.flatten).length ≤ (chunks.flatMap decode).length ∧
      (chunks.flatMap decode = decode chunks.flatten ↔ Whole chunks) := by
  induction chunks with
  | nil => exact ⟨le_refl _, by simp [Whole, decode, decodeFrom]⟩
  | cons chunk chunks ih =>
    obtain ⟨hlen, hwhole⟩ := ih
    obtain ⟨happend, hsplit⟩ := decode_append chunk chunks.flatten
    rw [flatten_cons, flatMap_cons]
    by_cases h : Splits chunk chunks.flatten
    · have hless := hsplit h
      rw [length_append] at hless ⊢
      refine ⟨by omega, fun heq => ?_, fun hwhole => absurd h hwhole.1⟩
      have hlengths := congrArg List.length heq
      rw [length_append] at hlengths
      omega
    rw [happend h, length_append, length_append]
    refine ⟨by omega, ?_⟩
    rw [append_cancel_left_eq, hwhole]
    exact ⟨fun hrest => ⟨h, hrest⟩, fun hall => hall.2⟩

end Utf8
