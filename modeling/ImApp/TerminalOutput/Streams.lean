import ImApp.Library.TailBroadcast
import ImApp.Library.Utf8

/-!
What terminal sessions and log streams do with the output of a remote channel: they record
or send each chunk as text of its own, and keep a tail of it for viewers that attach later.
-/

namespace ImApp.TerminalOutput

open JsonText (Text)
open Utf8 TailBroadcast List

def sessionBufferLimit : ℕ := 512 * 1024

structure ManagedSession where
  outputBuffer : Bytes
  /-- The texts of the recorded events, without their times. -/
  recording : List Text

def ManagedSession.onOutput (session : ManagedSession) (data : Bytes) : ManagedSession :=
  let buffered := session.outputBuffer ++ data
  { outputBuffer :=
      if sessionBufferLimit < buffered.length then
        buffered.drop (buffered.length - sessionBufferLimit)
      else buffered
    recording := session.recording ++ [decode data] }

/-- The viewers of a session get bytes. -/
def session : Buffering Bytes ManagedSession UInt8 where
  empty := ⟨[], []⟩
  push := ManagedSession.onOutput
  kept := ManagedSession.outputBuffer
  message data := data
  kept_empty := rfl
  kept_push session data := by
    unfold ManagedSession.onOutput
    dsimp only
    split
    · exact drop_suffix _ _
    exact suffix_refl _

def recorded (events : List (Event Bytes)) : Text := (run session events).buffer.recording.flatten

theorem recorded_eq (events : List (Event Bytes)) : recorded events = (chunks events).flatMap decode := by
  have hfold : ∀ (cs : List Bytes) (s : ManagedSession),
      (cs.foldl ManagedSession.onOutput s).recording = s.recording ++ cs.map decode := by
    intro cs
    induction cs with
    | nil => exact fun s => (append_nil _).symm
    | cons chunk cs ih =>
      intro s
      rw [foldl_cons, ih]
      simp [ManagedSession.onOutput]
  rw [recorded, run_buffer]
  change ((chunks events).foldl ManagedSession.onOutput _).recording.flatten = _
  rw [hfold, flatMap_def]
  rfl

def logBufferLimit : ℤ := 256 * 1024

inductive OutputType where
  | output
  | stderr
  deriving DecidableEq

structure LogItem where
  type : OutputType
  data : Text

def byteLength (data : Text) : ℤ := (encode data).length

structure ManagedLogStream where
  outputBuffer : List LogItem
  outputBufferBytes : ℤ

/-- Items are dropped from the front until the rest is short enough or the last one. -/
def trim : List LogItem → ℤ → ManagedLogStream
  | removed :: item :: rest, bytes =>
    if logBufferLimit < bytes then trim (item :: rest) (bytes - byteLength removed.data)
    else ⟨removed :: item :: rest, bytes⟩
  | items, bytes => ⟨items, bytes⟩

def logItem (type : OutputType) (chunk : Bytes) : LogItem := ⟨type, decode chunk⟩

def ManagedLogStream.onOutput (stream : ManagedLogStream) (type : OutputType) (chunk : Bytes) :
    ManagedLogStream :=
  let item := logItem type chunk
  trim (stream.outputBuffer ++ [item]) (stream.outputBufferBytes + byteLength item.data)

theorem trim_suffix (items : List LogItem) (bytes : ℤ) : (trim items bytes).outputBuffer <:+ items := by
  fun_induction trim items bytes with
  | case1 removed item rest bytes _ ih => exact ih.trans (suffix_cons _ _)
  | case2 => exact suffix_refl _
  | case3 => exact suffix_refl _

/-- The viewers of a stream get items. -/
def logStream : Buffering (OutputType × Bytes) ManagedLogStream LogItem where
  empty := ⟨[], 0⟩
  push stream chunk := stream.onOutput chunk.1 chunk.2
  kept := ManagedLogStream.outputBuffer
  message chunk := [logItem chunk.1 chunk.2]
  kept_empty := rfl
  kept_push _ _ := trim_suffix _ _

def logText (type : OutputType) (items : List LogItem) : Text :=
  (items.filter fun item => item.type = type).flatMap LogItem.data

def chunksOf (type : OutputType) (events : List (Event (OutputType × Bytes))) : List Bytes :=
  ((chunks events).filter fun chunk => chunk.1 = type).map Prod.snd

theorem logText_sent (type : OutputType) (events : List (Event (OutputType × Bytes))) :
    logText type (sent logStream events) = (chunksOf type events).flatMap decode := by
  unfold logText chunksOf sent
  induction chunks events with
  | nil => rfl
  | cons chunk cs ih =>
    rw [flatMap_cons, filter_append, flatMap_append, ih, filter_cons]
    by_cases h : chunk.1 = type <;> simp [logStream, logItem, h]

/-- Every viewer of a run gets an end of what was sent when it attached, and all that came
after. -/
def AttachLaw {Chunk Buffer Item : Type} (b : Buffering Chunk Buffer Item)
    (events : List (Event Chunk)) : Prop :=
  ∀ before after, events = before ++ .attach :: after → .close ∉ before →
    .leave (run b before).viewers ∉ after → ∃ tail, tail <:+ sent b before ∧
      (run b events).received (run b before).viewers = tail ++ sent b after

theorem attachLaw {Chunk Buffer Item : Type} (b : Buffering Chunk Buffer Item)
    (events : List (Event Chunk)) : AttachLaw b events := by
  rintro before after rfl hopen hstays
  exact attach_received before after hopen hstays

/-- Viewers are served well in every run. The text of a recording, and the text of a kind
that a viewer of a stream gets, is the decoding of all bytes exactly if no chunk ends inside
a character. -/
theorem terminal_output (terminal : List (Event Bytes)) (log : List (Event (OutputType × Bytes))) :
    (recorded terminal = decode (chunks terminal).flatten ∧ AttachLaw session terminal ↔
      Whole (chunks terminal)) ∧
    (.leave 0 ∉ log → ((∀ type, logText type ((run logStream (.attach :: log)).received 0) =
        decode (chunksOf type log).flatten) ∧ AttachLaw logStream (.attach :: log) ↔
      ∀ type, Whole (chunksOf type log))) := by
  constructor
  · rw [recorded_eq, (decode_flatten (chunks terminal)).2]
    exact and_iff_left (attachLaw session terminal)
  intro hstays
  rw [and_iff_left (attachLaw logStream (.attach :: log))]
  obtain ⟨tail, htail, hreceived⟩ := attach_received (b := logStream) [] log (by simp) hstays
  have hall : (run logStream (.attach :: log)).received 0 = sent logStream log := by
    rw [eq_nil_of_suffix_nil htail] at hreceived
    exact hreceived
  apply forall_congr'
  intro type
  rw [hall, logText_sent, (decode_flatten (chunksOf type log)).2]

/-- The sign € in two chunks: replacement characters are recorded and sent. -/
theorem split_sign : let parts : List Bytes := [[0xe2], [0x82, 0xac]]
    let log := parts.map fun chunk => Event.output (OutputType.output, chunk)
    decode parts.flatten = ['€'] ∧ recorded (parts.map Event.output) ≠ ['€'] ∧
      logText .output ((run logStream (.attach :: log)).received 0) ≠ ['€'] := by
  decide +kernel

end ImApp.TerminalOutput
