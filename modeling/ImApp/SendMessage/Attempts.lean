import ImApp.Library.JsonText
import Mathlib.Data.List.Infix
import ImApp.Library.StepSystem

/-!
The sending of one created message: up to four attempts, each with the same id,
with a pause or a reopening of the local database between them. An attempt that
is given up locally may still be under way in the SDK. What settles a wait and what
runs after it are two steps, so anything else may come in between.

Errors of a send, and what the client reads from their codes and texts.
-/

namespace ImApp.SendMessage

open JsonText (Text)

/-- An error, with the code of an `IMCallError`. -/
structure SendError where
  code : Option Int
  message : Text

def lowerASCII (c : Char) : Char := if 'A' ≤ c ∧ c ≤ 'Z' then Char.ofNat (c.toNat + 32) else c

/-- The message contains `text`, in any case. -/
def mentions (text message : Text) : Bool :=
  decide (text.map lowerASCII <:+: message.map lowerASCII)

def isWordChar (c : Char) : Bool :=
  ('a' ≤ c && c ≤ 'z') || ('A' ≤ c && c ≤ 'Z') || c.isDigit || c = '_'

/-- The word stands in the message as a word of its own; `joined` tells whether a
character of a word stands in front. -/
def hasWord (word : Text) : Bool → Text → Bool
  | _, [] => false
  | joined, c :: rest => (!joined && word.isPrefixOf (c :: rest) &&
        !((c :: rest).drop word.length).head?.any isWordChar) || hasWord word (isWordChar c) rest

def isPatternSpace (c : Char) : Bool :=
  (0x09 ≤ c.toNat && c.toNat ≤ 0x0d) || c = ' ' || c.toNat = 0xa0 || c.toNat = 0x1680 ||
    (0x2000 ≤ c.toNat && c.toNat ≤ 0x200a) || c.toNat = 0x2028 || c.toNat = 0x2029 ||
    c.toNat = 0x202f || c.toNat = 0x205f || c.toNat = 0x3000 || c.toNat = 0xfeff

/-- `init` and `database` with nothing but blanks between them. -/
def initDatabase : Text → Bool
  | [] => false
  | c :: rest => ("init".toList.isPrefixOf ((c :: rest).map lowerASCII) &&
      "database".toList.isPrefixOf
        ((((c :: rest).drop 4).dropWhile isPatternSpace).map lowerASCII)) || initDatabase rest

/-- The local wait for an answer ended. -/
def sendWaitTimeout : Int := -1

def retryableSendCodes : List Int := [10000, 10001, 10003, 10004, 10005, sendWaitTimeout]

def disconnectCodes : List Int := [10000]

def duplicateSendCodes : List Int := [10204, 1003]

/-- The message was sent already, or is being sent. -/
def isDuplicateSendError (err : SendError) : Bool :=
  err.code.any duplicateSendCodes.contains || hasWord "10204".toList false err.message ||
    mentions "Only failed messages can be resent".toList err.message

def isDatabaseClosedError (err : SendError) : Bool := mentions "database is closed".toList err.message

def isLocalDatabaseWriteError (err : SendError) : Bool :=
  isDatabaseClosedError err || mentions "readonly database".toList err.message ||
    mentions "disk i/o error".toList err.message ||
    (initDatabase err.message || mentions "initdb failed".toList err.message ||
      mentions "open db failed".toList err.message) ||
    mentions "unable to open database file".toList err.message ||
    mentions "no such file or directory".toList err.message ||
    (mentions "insertmessage".toList err.message && mentions "failed".toList err.message)

def isRetryable (err : SendError) : Bool := err.code.any retryableSendCodes.contains

def isDisconnect (err : SendError) : Bool := err.code.any disconnectCodes.contains

def sendFailed : SendError := { code := none, message := "发送失败".toList }

def timedOut : SendError := { code := some sendWaitTimeout, message := "发送超时".toList }

def pluginMissing : SendError where
  code := none
  message := "App 端缺少 OpenIM 原生插件，请用自定义调试基座运行".toList

def localWriteFailureMessage : Text := "本地存储写入失败，请检查手机存储空间后重试".toList

end ImApp.SendMessage

namespace ImApp.SendMessage

open JsonText (Text)
open StepSystem

inductive MessageStatus where
  | sending
  | succeed
  | failed
  deriving DecidableEq

/-- What a send reads of a message; a content type that is missing reads as 0. -/
structure Message where
  clientMsgID : Text
  contentType : Int
  status : Option MessageStatus
  deriving DecidableEq

/-- A progress report may carry an id, but it completes nothing. -/
def Message.isComplete (m : Message) : Bool :=
  m.clientMsgID ≠ [] && m.contentType ≠ 0 && m.status ≠ some .sending && m.status ≠ some .failed

/-- The answer of the native plugin. `text` is the text of the error that it
amounts to where its code is not 0. -/
structure NativeReply where
  progress : Bool
  errCode : Option Int
  text : Text
  message : Option Message

/-- How the reply settles the attempt, if it does. -/
def NativeReply.outcome (reply : NativeReply) : Option (Except SendError Message) :=
  if reply.progress then none
  else if reply.errCode ≠ some 0 then
    some (.error { code := some (reply.errCode.getD 0), message := reply.text })
  else match reply.message with
    | none => none
    | some m =>
      if m.status = some .sending then none
      else if m.status = some .failed then some (.error sendFailed)
      else if !m.isComplete then none
      else some (.ok m)

/-- The answer of the web SDK; it may be no message at all. -/
def webOutcome : Except SendError (Option Message) → Except SendError Message
  | .error err => .error err
  | .ok none => .error sendFailed
  | .ok (some m) => if m.status = some .failed then .error sendFailed else .ok m

/-- The plugin may lack at any attempt. -/
structure Call where
  app : Bool
  message : Message
  timeoutMs : Option Nat
  plugin : Nat → Bool

/-- Videos are tried less often. -/
def Call.attempts (call : Call) : Nat := if call.timeoutMs.getD 0 ≥ 60000 then 2 else 4

inductive Phase where
  | sending (attempt : Nat)
  | settled (attempt : Nat) (outcome : Except SendError Message)
  | reopening (attempt : Nat)
  | reopened (attempt : Nat) (result : Except (Option SendError) Unit)
  /-- `wakes` tells whether a connection ends the pause. -/
  | pausing (attempt : Nat) (wakes : Bool)
  | paused (attempt : Nat) (keepGoing : Bool)
  | resolved (message : Message)
  | rejected (failure : SendError) (reported : Bool)

/-- A call of the SDK, with the login epoch of its time. -/
structure Issue where
  clientMsgID : Text
  epoch : Nat

/-- `epoch` is the login epoch at the start. `issued`, `accepted`, `duplicates` and
`moves` are what an observer notes: the calls of the SDK, those that the server
accepted, the answers that were taken for a duplicate, and the steps of the call. -/
structure State where
  epoch : Nat
  loginEpoch : Nat
  connected : Bool
  phase : Phase
  lastErr : Option SendError
  reopenedDatabase : Bool
  issued : List Issue
  accepted : List Nat
  duplicates : List SendError
  moves : Nat

variable (call : Call)

/-- The failure is reported unless the login changed. -/
def fail (s : State) : State :=
  let failure := s.lastErr.getD sendFailed
  let shown := if isLocalDatabaseWriteError failure then
      { failure with message := localWriteFailureMessage } else failure
  { s with phase := .rejected shown (s.epoch = s.loginEpoch) }

/-- The head of the loop, up to the call of the SDK. -/
def beginAttempt (attempt : Nat) (s : State) : State :=
  if attempt < call.attempts ∧ s.epoch = s.loginEpoch then
    if call.app && !call.plugin attempt then
      { s with phase := .settled attempt (.error pluginMissing) }
    else
      { s with
        phase := .sending attempt
        issued := s.issued ++ [{ clientMsgID := call.message.clientMsgID, epoch := s.loginEpoch }] }
  else fail s

/-- What follows an attempt that failed. -/
def catchError (attempt : Nat) (err : SendError) (s : State) : State :=
  let s := { s with lastErr := some err }
  if isDuplicateSendError err then
    { s with
      phase := .resolved { call.message with status := some .succeed }
      duplicates := s.duplicates ++ [err] }
  else if s.epoch ≠ s.loginEpoch then fail s
  else if !s.reopenedDatabase && decide (attempt + 1 < call.attempts) &&
      isLocalDatabaseWriteError err then
    { s with reopenedDatabase := true, phase := .reopening attempt }
  else
    let s := { s with connected := s.connected && !isDisconnect err }
    if attempt + 1 < call.attempts ∧ isRetryable err then
      { s with phase := .pausing attempt (!s.connected) }
    else fail s

/-- What runs once a wait is settled. -/
def resume (s : State) : Option State :=
  match s.phase with
  | .settled _ (.ok m) => some { s with phase := .resolved m }
  | .settled attempt (.error err) => some (catchError call attempt err s)
  | .reopened _ (.error recoverErr) => some (fail { s with lastErr := recoverErr.or s.lastErr })
  | .reopened attempt (.ok _) =>
    some (if s.epoch ≠ s.loginEpoch then fail s else beginAttempt call (attempt + 1) s)
  | .paused attempt keepGoing =>
    some (if !keepGoing then fail s else beginAttempt call (attempt + 1) s)
  | _ => none

/-- Settles the attempt under way; it is settled once. -/
def settle (outcome : Except SendError Message) (s : State) : State :=
  match s.phase with
  | .sending attempt => { s with phase := .settled attempt outcome, moves := s.moves + 1 }
  | _ => s

/-- Ends a pause that waits for the connection. -/
def wake (s : State) : State :=
  match s.phase with
  | .pausing attempt true =>
    { s with phase := .paused attempt (s.epoch = s.loginEpoch), moves := s.moves + 1 }
  | _ => s

inductive Action where
  | accept (attempt : Nat)
  | callback (reply : NativeReply)
  | threw (err : SendError)
  | sendMessageSuccess (message : Message)
  | sendMessageFailed (clientMsgID : Text) (err : SendError)
  | timeout
  | answered (outcome : Except SendError (Option Message))
  | reopenEnded (result : Except (Option SendError) Unit)
  | pauseOver
  | resume
  | connectSuccess
  | connectFailed
  | loginChanged

/-- The SDK reports a success only for a message that the server accepted. -/
def reports (outcome : Except SendError Message) (s : State) : Option State :=
  match outcome with
  | .ok _ => if s.accepted = [] then none else some (settle outcome s)
  | .error _ => some (settle outcome s)

def step (s : State) : Action → Option State
  | .accept attempt =>
    if attempt < s.issued.length then some { s with accepted := s.accepted ++ [attempt] } else none
  | .callback reply =>
    if !call.app then none
    else match reply.outcome with
      | none => some s
      | some outcome => reports outcome s
  | .threw err => if !call.app then none else some (settle (.error err) s)
  | .sendMessageSuccess m =>
    if !call.app then none
    else if m.clientMsgID ≠ call.message.clientMsgID ∨ !m.isComplete then some s
    else reports (.ok m) s
  | .sendMessageFailed clientMsgID err =>
    if !call.app then none
    else if clientMsgID = [] ∨ clientMsgID ≠ call.message.clientMsgID then some s
    else some (settle (.error err) s)
  | .timeout => if !call.app then none else some (settle (.error timedOut) s)
  | .answered outcome => if call.app then none else reports (webOutcome outcome) s
  | .reopenEnded result =>
    match s.phase with
    | .reopening attempt =>
      some { s with phase := .reopened attempt result, moves := s.moves + 1 }
    | _ => none
  | .pauseOver =>
    match s.phase with
    | .pausing attempt _ =>
      some { s with
        phase := .paused attempt (s.epoch = s.loginEpoch), moves := s.moves + 1 }
    | _ => none
  | .resume => resume call { s with moves := s.moves + 1 }
  | .connectSuccess => some (wake { s with connected := true })
  | .connectFailed => some { s with connected := false }
  | .loginChanged => some (wake { s with loginEpoch := s.loginEpoch + 1, connected := false })

/-- The state before the call. -/
def idle (epoch : Nat) (connected : Bool) : State where
  epoch := epoch
  loginEpoch := epoch
  connected := connected
  phase := .paused 0 false
  lastErr := none
  reopenedDatabase := false
  issued := []
  accepted := []
  duplicates := []
  moves := 0

def machine : Machine State Action where
  initial s := ∃ epoch connected, s = beginAttempt call 0 (idle epoch connected)
  step := step call

end ImApp.SendMessage
