import ImApp.SqliteClient.Client

/-!
The journal of a connection. A reader goes through it event by event and keeps
which transaction is open; a journal it can read to the end is serial.
-/

namespace ImApp.SqliteClient

open List

variable {D : Type*}

/-- The statements between the BEGIN and the COMMIT of a transaction are those
that were issued in its context before its callback settled, the callback
returned, and after a ROLLBACK the data are those of BEGIN. -/
structure Serial (journal : List (Event D)) : Prop where
  inside : ∀ before between after call data,
    journal = before ++ .began call data :: (between ++ .committed call :: after) →
      ∃ own : List Nat, between =
        own.map (fun id => .executed id (some call)) ++ [.settled call false]
  complete : ∀ before after id call, journal = before ++ .executed id (some call) :: after →
    (∀ threw, .settled call threw ∉ before) →
      ∃ earlier data, ∃ own : List Nat, before = earlier ++ .began call data ::
        own.map (fun id => .executed id (some call))
  restored : ∀ before between after call data last,
    journal = before ++ .began call data :: (between ++ .rolledBack call last :: after) →
      last = data ∧ ∃ (own : List Nat) (threw : Bool), between =
        own.map (fun id => .executed id (some call)) ++ [.settled call threw]

/-- A transaction that began: its data at BEGIN and how its callback settled. -/
structure Block (D : Type*) where
  call : Nat
  data : D
  settled : Option Bool

structure Scan (D : Type*) where
  began : List Nat
  block : Option (Block D)

namespace Scan

inductive Next : Scan D → Event D → Scan D → Prop
  | began {began : List Nat} {call : Nat} {data : D} (hnew : call ∉ began) :
      Next ⟨began, none⟩ (.began call data) ⟨call :: began, some ⟨call, data, none⟩⟩
  | alone {began : List Nat} {id : Nat} {context : Option Nat}
      (hcontext : ∀ call, context = some call → call ∈ began) :
      Next ⟨began, none⟩ (.executed id context) ⟨began, none⟩
  | within {began : List Nat} {call id : Nat} {data : D} :
      Next ⟨began, some ⟨call, data, none⟩⟩ (.executed id (some call))
        ⟨began, some ⟨call, data, none⟩⟩
  | settled {began : List Nat} {call : Nat} {data : D} {threw : Bool} :
      Next ⟨began, some ⟨call, data, none⟩⟩ (.settled call threw)
        ⟨began, some ⟨call, data, some threw⟩⟩
  | committed {began : List Nat} {call : Nat} {data : D} :
      Next ⟨began, some ⟨call, data, some false⟩⟩ (.committed call) ⟨began, none⟩
  | rolledBack {began : List Nat} {call : Nat} {data : D} {threw : Bool} :
      Next ⟨began, some ⟨call, data, some threw⟩⟩ (.rolledBack call data) ⟨began, none⟩

def Reads : Scan D → List (Event D) → Scan D → Prop
  | scan, [], last => scan = last
  | scan, event :: rest, last => ∃ next, Next scan event next ∧ Reads next rest last

variable {scan last : Scan D} {front back between after : List (Event D)} {call : Nat} {data : D}

theorem reads_append : Reads scan (front ++ back) last ↔
    ∃ middle, Reads scan front middle ∧ Reads middle back last := by
  induction front generalizing scan with
  | nil => simp [Reads]
  | cons event rest ih =>
    simp only [cons_append, Reads, ih]
    constructor
    · rintro ⟨next, hnext, middle, hfront, hback⟩
      exact ⟨middle, ⟨next, hnext, hfront⟩, hback⟩
    rintro ⟨middle, ⟨next, hnext, hfront⟩, hback⟩
    exact ⟨next, hnext, middle, hfront, hback⟩

variable {event : Event D}

theorem Reads.snoc {next : Scan D} (hreads : Reads scan front last)
    (hnext : Next last event next) : Reads scan (front ++ [event]) next :=
  reads_append.mpr ⟨last, hreads, next, hnext, rfl⟩

/-- A transaction is over: it began, and another one or none is open. -/
def Over (scan : Scan D) (call : Nat) : Prop :=
  call ∈ scan.began ∧ ∀ block, scan.block = some block → block.call ≠ call

/-- `event` ends the transaction. -/
def Ends (call : Nat) (event : Event D) : Prop :=
  event = .committed call ∨ ∃ data, event = .rolledBack call data

theorem Over.next (hover : scan.Over call) (hnext : Next scan event last) :
    last.Over call ∧ ¬ Ends call event := by
  obtain ⟨hbegan, hother⟩ := hover
  cases hnext with
  | began hnew =>
    refine ⟨⟨mem_cons_of_mem _ hbegan, ?_⟩, by simp [Ends]⟩
    rintro _ ⟨⟩ rfl
    exact hnew hbegan
  | alone | within => exact ⟨⟨hbegan, hother⟩, by simp [Ends]⟩
  | settled =>
    refine ⟨⟨hbegan, ?_⟩, by simp [Ends]⟩
    rintro _ ⟨⟩
    exact hother ⟨_, _, none⟩ rfl
  | committed =>
    refine ⟨⟨hbegan, fun _ hnone => nomatch hnone⟩, ?_⟩
    rintro (⟨⟨⟩⟩ | ⟨_, heq⟩)
    · exact hother _ rfl rfl
    cases heq
  | rolledBack =>
    refine ⟨⟨hbegan, fun _ hnone => nomatch hnone⟩, ?_⟩
    rintro (heq | ⟨_, ⟨⟩⟩)
    · cases heq
    exact hother _ rfl rfl

theorem Over.not_ends (hover : scan.Over call)
    (hreads : Reads scan front last) (hends : Ends call event) : event ∉ front := by
  induction front generalizing scan with
  | nil => exact not_mem_nil
  | cons first rest ih =>
    obtain ⟨next, hnext, hrest⟩ := hreads
    obtain ⟨hstill, hnot⟩ := hover.next hnext
    rintro hmem
    rcases mem_cons.mp hmem with rfl | hmem
    · exact hnot hends
    exact ih hstill hrest hmem

/-- From a settled callback to the event that ends its transaction nothing
happens. -/
theorem reads_settled {began : List Nat} {threw : Bool}
    (hbegan : call ∈ began) (hends : Ends call event)
    (hreads : Reads ⟨began, some ⟨call, data, some threw⟩⟩ (between ++ event :: after) last) :
    between = [] ∧ Next ⟨began, some ⟨call, data, some threw⟩⟩ event ⟨began, none⟩ := by
  cases between with
  | nil =>
    obtain ⟨next, hnext, _⟩ := hreads
    cases hnext with
    | committed => exact ⟨rfl, .committed⟩
    | rolledBack => exact ⟨rfl, .rolledBack⟩
  | cons first rest =>
    exfalso
    obtain ⟨next, hnext, hrest⟩ := hreads
    have hover : next.Over call := by
      cases hnext with
      | committed | rolledBack => exact ⟨hbegan, fun _ hnone => nomatch hnone⟩
    exact hover.not_ends hrest hends (mem_append_right _ mem_cons_self)

/-- From BEGIN to the event that ends the transaction there are statements of its
context and the end of its callback. -/
theorem reads_block {began : List Nat} (hbegan : call ∈ began) (hends : Ends call event)
    (hreads : Reads ⟨began, some ⟨call, data, none⟩⟩ (between ++ event :: after) last) :
    ∃ (own : List Nat) (threw : Bool), between =
        own.map (fun id => .executed id (some call)) ++ [.settled call threw] ∧
      Next ⟨began, some ⟨call, data, some threw⟩⟩ event ⟨began, none⟩ := by
  induction between with
  | nil =>
    obtain ⟨next, hnext, _⟩ := hreads
    rcases hends with rfl | ⟨_, rfl⟩ <;> cases hnext
  | cons first rest ih =>
    obtain ⟨next, hnext, hrest⟩ := hreads
    cases hnext with
    | @within _ _ id =>
      obtain ⟨own, threw, rfl, hlast⟩ := ih hrest
      exact ⟨id :: own, threw, rfl, hlast⟩
    | @settled _ _ _ threw =>
      obtain ⟨rfl, hlast⟩ := reads_settled hbegan hends hrest
      exact ⟨[], threw, rfl, hlast⟩

/-- What the reader knows of the transaction that is open: where it began, and
that nothing but its own statements happened since. -/
structure Follows (journal : List (Event D)) (scan : Scan D) : Prop where
  opened : ∀ call data, scan.block = some ⟨call, data, none⟩ → ∃ earlier, ∃ own : List Nat,
    journal = earlier ++ .began call data :: own.map (fun id => .executed id (some call))
  ended : ∀ call ∈ scan.began, (∀ data, scan.block ≠ some ⟨call, data, none⟩) →
    ∃ threw, .settled call threw ∈ journal

theorem follows_start : Follows ([] : List (Event D)) ⟨[], none⟩ :=
  ⟨fun _ _ hblock => (nomatch hblock), fun _ hmem => (nomatch hmem)⟩

theorem Follows.next {journal : List (Event D)} (h : Follows journal scan)
    (hnext : Next scan event last) : Follows (journal ++ [event]) last := by
  have hkeep : ∀ call, (∃ threw, .settled call threw ∈ journal) →
      ∃ threw, .settled call threw ∈ journal ++ [event] :=
    fun call ⟨threw, hmem⟩ => ⟨threw, mem_append_left _ hmem⟩
  cases hnext with
  | @began _ call data hnew =>
    refine ⟨?_, ?_⟩
    · rintro _ _ ⟨⟩
      exact ⟨journal, [], rfl⟩
    intro other hother hopen
    rcases mem_cons.mp hother with rfl | hother
    · exact absurd rfl (hopen data)
    exact hkeep other (h.ended other hother (fun _ hnone => nomatch hnone))
  | alone =>
    exact ⟨fun _ _ hblock => (nomatch hblock), fun call hcall hopen =>
      hkeep call (h.ended call hcall hopen)⟩
  | @within _ call id data =>
    refine ⟨?_, fun call hcall hopen => hkeep call (h.ended call hcall hopen)⟩
    rintro _ _ ⟨⟩
    obtain ⟨earlier, own, rfl⟩ := h.opened call data rfl
    refine ⟨earlier, own ++ [id], ?_⟩
    rw [map_append, append_assoc]
    rfl
  | @settled _ call data threw =>
    refine ⟨fun _ _ hblock => (nomatch hblock), fun other hother _ => ?_⟩
    by_cases hsame : other = call
    · rw [hsame]
      exact ⟨threw, mem_append_right _ mem_cons_self⟩
    refine hkeep other (h.ended other hother ?_)
    rintro _ ⟨⟩
    exact hsame rfl
  | committed | rolledBack =>
    exact ⟨fun _ _ hblock => (nomatch hblock), fun call hcall _ =>
      hkeep call (h.ended call hcall (fun _ hnone => nomatch hnone))⟩

theorem Follows.reads {journal : List (Event D)} (h : Follows journal scan)
    (hreads : Reads scan front last) : Follows (journal ++ front) last := by
  induction front generalizing journal scan with
  | nil =>
    obtain rfl := hreads
    rwa [append_nil]
  | cons event rest ih =>
    obtain ⟨next, hnext, hrest⟩ := hreads
    have hlast := ih (h.next hnext) hrest
    rwa [append_assoc] at hlast

end Scan

theorem serial_of_reads {journal : List (Event D)} {last : Scan D}
    (hreads : Scan.Reads ⟨[], none⟩ journal last) : Serial journal := by
  have hblock : ∀ before between after call data event, Scan.Ends call event →
      journal = before ++ .began call data :: (between ++ event :: after) →
      ∃ (own : List Nat) (threw : Bool), between =
          own.map (fun id => .executed id (some call)) ++ [.settled call threw] ∧
        ∃ began, Scan.Next ⟨began, some ⟨call, data, some threw⟩⟩ event ⟨began, none⟩ := by
    rintro before between after call data event hends rfl
    obtain ⟨middle, _, next, hnext, hrest⟩ := Scan.reads_append.mp hreads
    cases hnext with
    | began hnew =>
      obtain ⟨own, threw, hown, hlast⟩ := Scan.reads_block mem_cons_self hends hrest
      exact ⟨own, threw, hown, _, hlast⟩
  refine ⟨?_, ?_, ?_⟩
  · intro before between after call data hjournal
    obtain ⟨own, threw, hown, _, hlast⟩ := hblock _ _ _ _ _ _ (.inl rfl) hjournal
    cases hlast
    exact ⟨own, hown⟩
  · rintro before after id call rfl hnever
    obtain ⟨middle, hpre, next, hnext, _⟩ := Scan.reads_append.mp hreads
    have hfollows := Scan.follows_start.reads hpre
    cases hnext with
    | alone hcontext =>
      obtain ⟨threw, hmem⟩ := hfollows.ended call (hcontext call rfl) (fun _ hnone => nomatch hnone)
      exact absurd hmem (hnever threw)
    | within =>
      obtain ⟨earlier, own, hown⟩ := hfollows.opened call _ rfl
      exact ⟨earlier, _, own, hown⟩
  intro before between after call data final hjournal
  obtain ⟨own, threw, hown, _, hlast⟩ := hblock _ _ _ _ _ _ (.inr ⟨final, rfl⟩) hjournal
  cases hlast
  exact ⟨rfl, own, threw, hown⟩

end ImApp.SqliteClient
