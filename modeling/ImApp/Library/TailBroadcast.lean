import Mathlib.Data.List.Infix

/-!
A channel that sends every chunk to its viewers and keeps a tail of what it sent for those
that attach later.
-/

namespace TailBroadcast

open List Function

/-- How a channel keeps chunks: what it keeps is always an end of what was sent. -/
structure Buffering (Chunk Buffer Item : Type) where
  empty : Buffer
  push : Buffer → Chunk → Buffer
  kept : Buffer → List Item
  message : Chunk → List Item
  kept_empty : kept empty = []
  kept_push (buffer chunk) : kept (push buffer chunk) <:+ kept buffer ++ message chunk

/-- Viewers are numbered in the order in which they attach. -/
inductive Event (Chunk : Type) where
  | output (chunk : Chunk)
  | attach
  | leave (viewer : ℕ)
  | close
  deriving DecidableEq

structure Channel (Buffer Item : Type) where
  closed : Bool
  buffer : Buffer
  viewers : ℕ
  attached : ℕ → Bool
  received : ℕ → List Item

variable {Chunk Buffer Item : Type} (b : Buffering Chunk Buffer Item)

def step (c : Channel Buffer Item) : Event Chunk → Channel Buffer Item
  | .output chunk =>
    if c.closed then c
    else
      { c with
        buffer := b.push c.buffer chunk
        received := fun viewer =>
          if c.attached viewer then c.received viewer ++ b.message chunk else c.received viewer }
  | .attach =>
    if c.closed then { c with viewers := c.viewers + 1 }
    else
      { c with
        viewers := c.viewers + 1
        attached := Function.update c.attached c.viewers true
        received := Function.update c.received c.viewers (b.kept c.buffer) }
  | .leave viewer => { c with attached := Function.update c.attached viewer false }
  | .close => { c with closed := true, attached := fun _ => false }

def start : Channel Buffer Item := ⟨false, b.empty, 0, fun _ => false, fun _ => []⟩

def run (events : List (Event Chunk)) : Channel Buffer Item := events.foldl (step b) (start b)

/-- The chunks until the channel is closed. -/
def chunks : List (Event Chunk) → List Chunk
  | [] => []
  | .close :: _ => []
  | .output chunk :: events => chunk :: chunks events
  | _ :: events => chunks events

/-- What is sent for these chunks. -/
def sent (events : List (Event Chunk)) : List Item := (chunks events).flatMap b.message

variable {b} {c : Channel Buffer Item} {events : List (Event Chunk)} {v : ℕ}

theorem step_closed (h : c.closed = true) (e : Event Chunk) : (step b c e).closed = true ∧
    (step b c e).buffer = c.buffer ∧
    (c.attached v = false → v < c.viewers → (step b c e).attached v = false ∧
      v < (step b c e).viewers ∧ (step b c e).received v = c.received v) := by
  cases e with
  | output chunk =>
    rw [step, if_pos h]
    exact ⟨h, rfl, fun hattached hviewer => ⟨hattached, hviewer, rfl⟩⟩
  | attach =>
    rw [step, if_pos h]
    exact ⟨h, rfl, fun hattached hviewer => ⟨hattached, Nat.lt_succ_of_lt hviewer, rfl⟩⟩
  | leave other =>
    refine ⟨h, rfl, fun hattached hviewer => ⟨?_, hviewer, rfl⟩⟩
    simp only [step, update_apply, hattached, ite_self]
  | close => exact ⟨rfl, rfl, fun _ hviewer => ⟨rfl, hviewer, rfl⟩⟩

theorem foldl_closed (events : List (Event Chunk)) (h : c.closed = true) :
    (events.foldl (step b) c).buffer = c.buffer ∧ (c.attached v = false → v < c.viewers →
      (events.foldl (step b) c).received v = c.received v) := by
  induction events generalizing c with
  | nil => exact ⟨rfl, fun _ _ => rfl⟩
  | cons e events ih =>
    obtain ⟨hclosed, hbuffer, hviewer⟩ := step_closed (b := b) (v := v) h e
    obtain ⟨hbuffer', hviewer'⟩ := ih hclosed
    refine ⟨hbuffer'.trans hbuffer, fun hattached hlt => ?_⟩
    obtain ⟨hattached', hlt', hreceived⟩ := hviewer hattached hlt
    exact (hviewer' hattached' hlt').trans hreceived

theorem chunks_cons {e : Event Chunk} (h : e ≠ .close) (events : List (Event Chunk)) :
    chunks (e :: events) = chunks [e] ++ chunks events := by
  cases e with
  | close => exact absurd rfl h
  | _ => rfl

theorem step_open (h : c.closed = false) {e : Event Chunk} (he : e ≠ .close) :
    (step b c e).closed = false ∧
    (step b c e).buffer = (chunks [e]).foldl b.push c.buffer ∧
    (c.attached v = true → v < c.viewers → e ≠ .leave v →
      (step b c e).attached v = true ∧ v < (step b c e).viewers ∧
        (step b c e).received v = c.received v ++ sent b [e]) := by
  cases e with
  | output chunk =>
    rw [step, h, if_neg Bool.false_ne_true]
    refine ⟨rfl, rfl, fun hattached hviewer _ => ⟨hattached, hviewer, ?_⟩⟩
    simp [hattached, sent, chunks]
  | attach =>
    rw [step, h, if_neg Bool.false_ne_true]
    refine ⟨rfl, rfl, fun hattached hviewer _ => ⟨?_, Nat.lt_succ_of_lt hviewer, ?_⟩⟩
    · exact (update_of_ne (Nat.ne_of_lt hviewer) _ _).trans hattached
    exact (update_of_ne (Nat.ne_of_lt hviewer) _ _).trans (append_nil _).symm
  | leave other =>
    refine ⟨h, rfl, fun hattached hviewer hne => ⟨?_, hviewer, (append_nil _).symm⟩⟩
    have hother : v ≠ other := fun heq => hne (heq ▸ rfl)
    exact (update_of_ne hother _ _).trans hattached
  | close => exact absurd rfl he

theorem foldl_buffer (h : c.closed = false) :
    (events.foldl (step b) c).buffer = (chunks events).foldl b.push c.buffer := by
  induction events generalizing c with
  | nil => rfl
  | cons e events ih =>
    by_cases he : e = .close
    · subst he
      exact (foldl_closed (b := b) (v := 0) (c := step b c .close) events rfl).1
    obtain ⟨hclosed, hbuffer, -⟩ := step_open (b := b) (v := 0) h he
    rw [foldl_cons, ih hclosed, chunks_cons he events, foldl_append, hbuffer]

theorem run_buffer : (run b events).buffer = (chunks events).foldl b.push b.empty :=
  foldl_buffer rfl

theorem foldl_received (h : c.closed = false) (hattached : c.attached v = true)
    (hviewer : v < c.viewers) (hstays : .leave v ∉ events) :
    (events.foldl (step b) c).received v = c.received v ++ sent b events := by
  induction events generalizing c with
  | nil => exact (append_nil _).symm
  | cons e events ih =>
    obtain ⟨hhead, hrest⟩ := not_or.mp (mt mem_cons.mpr hstays)
    by_cases he : e = .close
    · subst he
      have hlast := (foldl_closed (b := b) (c := step b c .close) events rfl).2 rfl hviewer
      exact hlast.trans (append_nil _).symm
    obtain ⟨hclosed, -, hnext⟩ := step_open (b := b) (v := v) h he
    obtain ⟨hattached', hviewer', hreceived⟩ := hnext hattached hviewer (Ne.symm hhead)
    rw [foldl_cons, ih hclosed hattached' hviewer' hrest, hreceived, append_assoc]
    unfold sent
    rw [chunks_cons he events, flatMap_append]

theorem foldl_open (h : c.closed = false) (hopen : .close ∉ events) :
    (events.foldl (step b) c).closed = false := by
  induction events generalizing c with
  | nil => exact h
  | cons e events ih =>
    obtain ⟨hhead, hrest⟩ := not_or.mp (mt mem_cons.mpr hopen)
    exact ih (step_open (v := 0) h (Ne.symm hhead)).1 hrest

theorem kept_foldl (cs : List Chunk) (buffer : Buffer) :
    b.kept (cs.foldl b.push buffer) <:+ b.kept buffer ++ cs.flatMap b.message := by
  induction cs generalizing buffer with
  | nil => exact ⟨[], (append_nil _).symm⟩
  | cons chunk cs ih =>
    obtain ⟨before, hpre⟩ := ih (b.push buffer chunk)
    obtain ⟨dropped, hdropped⟩ := b.kept_push buffer chunk
    refine ⟨dropped ++ before, ?_⟩
    rw [foldl_cons, append_assoc, hpre, ← append_assoc, hdropped, append_assoc, flatMap_cons]

/-- A v gets an end of what was sent before it attached, and all that is sent after. -/
theorem attach_received (before after : List (Event Chunk)) (hopen : .close ∉ before)
    (hstays : .leave (run b before).viewers ∉ after) :
    ∃ tail, tail <:+ sent b before ∧
      (run b (before ++ .attach :: after)).received (run b before).viewers =
        tail ++ sent b after := by
  have hclosed : (run b before).closed = false := foldl_open rfl hopen
  refine ⟨b.kept (run b before).buffer, ?_, ?_⟩
  · have hkept := kept_foldl (b := b) (chunks before) b.empty
    rwa [b.kept_empty, nil_append, ← run_buffer] at hkept
  have hrun : run b (before ++ .attach :: after) =
      after.foldl (step b) (step b (run b before) .attach) := by
    rw [run, foldl_append, foldl_cons, run]
  rw [hrun, step, hclosed, if_neg Bool.false_ne_true,
    foldl_received rfl (update_self _ _ _) (Nat.lt_succ_self _) hstays]
  simp only [update_self]

end TailBroadcast
