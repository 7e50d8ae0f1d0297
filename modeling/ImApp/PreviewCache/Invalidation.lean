import ImApp.PreviewCache.Calls

/-!
What the cache guarantees in every run, whatever the order in which its reads,
validations, downloads and writes complete, and whichever of them fail.
-/

namespace ImApp.PreviewCache

open Option

open JsonText (Text)
open StepSystem (Machine)

variable {s t : State} {platform : Platform}

theorem opened_sound {disk : Key → Option Row}
    (hdisk : ∀ key row, disk key = some row → row.producer = 0) : Sound platform (opened disk) where
  scheduled := {
    done_le := le_refl _
    running := by
      intro hcur
      cases hcur
    queued := by
      intro r m hm
      cases hm
    awaiting := by
      intro r n hn
      cases hn
    unstarted := fun _ _ => rfl
    asked := by
      intro c hc
      cases hc
    after := by
      intro c hc
      cases hc
    ahead := by
      intro c hc
      cases hc }
  guarded := {
    pending := by
      intro key r hr
      cases hr
    live := by
      intro r hvalid
      cases hvalid
    fenced := by
      intro c hc
      cases hc
    cause := by
      intro r hin
      have hle : r ≤ 0 := hin.2
      have hpos := hin.1
      omega
    stale := by
      intro c hc
      cases hc
    apart := by
      intro a b ha
      have hle : a ≤ 0 := ha.2
      have hpos := ha.1
      omega
    upgraded := by
      intro r row n hstage
      cases hstage }
  stocked := {
    memory := by
      intro entry hentry
      cases hentry
    memoryFresh := by
      intro entry hentry
      cases hentry
    held := by
      intro r row hrow
      cases hrow
    disk := fun key row hrow => .inl (hdisk key row hrow)
    diskFresh := by
      intro key row _ c hc
      cases hc }
  queued := {
    writes := by
      intro n r row _ htask
      cases htask
    removes := by
      intro n r key _ htask
      cases htask
    removesOld := by
      intro n r _ htask
      cases htask
    writing := by
      intro r row hcur
      cases hcur
    removing := by
      intro r keys hcur
      cases hcur
    gone := by
      intro op hcur
      cases hcur }
  logged := {
    dropped := by
      intro entry hentry
      cases hentry
    spared := by
      intro c hc
      cases hc
    downloads := by
      intro r hr
      cases hr
    once := List.nodup_nil }
  keyed := {
    runs := by
      intro r hin
      have hle : r ≤ 0 := hin.2
      have hpos := hin.1
      omega
    calls := by
      intro c hc
      cases hc
    memory := by
      intro entry hentry
      cases hentry }
  fits := ⟨List.nodup_nil, Nat.zero_le _, .inl (Nat.zero_le _)⟩

theorem step_sound (hlaw : platform.Lawful) {action : Action} (h : Sound platform s)
    (hstep : step platform s action = some t) : Sound platform t := by
  cases action with
  | get url owner =>
    cases hstep
    exact get_sound h
  | forget url owner =>
    cases hstep
    exact forget_sound h
  | clear =>
    cases hstep
    exact clear_sound h
  | settled r => exact settled_sound h hstep
  | resume r => exact resume_sound h hstep
  | read r ok => exact read_sound h hstep
  | validated r fresh => exact validated_sound h hstep
  | downloaded r result => exact downloaded_sound h hstep
  | start => exact start_sound h hstep
  | written stored evicted => exact written_sound hlaw h hstep
  | removed ok => exact removed_sound hlaw h hstep
  | cleared ok => exact cleared_sound h hstep
  | finish => exact finish_sound h hstep

theorem reachable_sound (hlaw : platform.Lawful)
    (h : (previewImageCache platform).Reachable s) : Sound platform s := by
  apply h.invariant (Sound platform)
  · rintro s ⟨disk, hdisk, rfl⟩
    exact opened_sound hdisk
  intro s action t _ hs hstep
  exact step_sound hlaw hs hstep

/-- The asset is from before the call: it is under a key of the call, or was
produced by a get that the call covers. -/
def Outdated (s : State) (c : Call) (key : Key) (producer : Nat) : Prop :=
  producer ≤ c.before ∧ (clears c.keys key = true ∨
    Started s producer ∧ covers c.keys (s.runs producer).key = true)

theorem clears_of_covers {keys : Option (Key × Key)} {key : Key}
    (h : covers keys key = true) : clears keys key = true := by
  cases keys with
  | none => rfl
  | some pair =>
    simp only [covers, decide_eq_true_eq] at h
    simp [clears, h]

theorem Known.clears_of_outdated {c : Call} {key : Key} {p : Nat} (h : Known s key p)
    (hold : Outdated s c key p) : clears c.keys key = true := by
  cases hold.2 with
  | inl hclears => exact hclears
  | inr hrun =>
    obtain ⟨hin, hcovers⟩ := hrun
    cases h with
    | inl hzero =>
      have hpos := hin.1
      omega
    | inr hown =>
      rw [hown.2.1] at hcovers
      exact clears_of_covers hcovers

theorem Sound.disk_fresh {c : Call} {key : Key} {row : Row} (h : Sound platform s)
    (hc : c ∈ s.calls) (hdone : c.task < s.done) (hvoided : c.task ∉ s.voided)
    (hrow : s.disk key = some row) : ¬Outdated s c key row.producer := by
  intro hold
  have hclears := (h.stocked.disk key row hrow).clears_of_outdated hold
  have hlt := h.stocked.diskFresh key row hrow c hc hclears hvoided hdone
  have hle := hold.1
  omega

theorem Sound.memory_fresh (hlaw : platform.Lawful) {c : Call} {entry : Key × Asset}
    (h : Sound platform s) (hc : c ∈ s.calls) (hvoided : c.task ∉ s.voided)
    (hentry : entry ∈ s.memory) : ¬Outdated s c entry.1 entry.2.producer := by
  intro hold
  have hclears := (h.stocked.memory entry hentry).2.clears_of_outdated hold
  have hcovers :=
    h.keyed.covers_of_clears hlaw (h.keyed.memory entry hentry) hc hclears
  have hlt := h.stocked.memoryFresh entry hentry c hc hcovers hvoided
  have hle := hold.1
  omega

theorem Sound.stale_threw {c : Call} {r : Nat} (h : Sound platform s) (hc : c ∈ s.calls)
    (hr : r ∈ c.stale) (hover : (s.runs r).stage.isOver = true) : (s.runs r).stage = .threw := by
  obtain ⟨-, -, -, hreturned⟩ := h.guarded.stale c hc r hr
  cases hstage : (s.runs r).stage with
  | threw => rfl
  | returned row => exact (hreturned row hstage).elim
  | _ =>
    rw [hstage] at hover
    cases hover

/-- In every state of every run: after a call has resolved with its removals made,
neither memory nor storage holds an asset from before it; a get that it met
unfinished ends only by throwing, and released or removed nothing of a later get;
two runs of one key overlap only over a call about the key, and no run downloads
twice; the memory keeps its limits. -/
theorem preview_cache_invalidation (hlaw : platform.Lawful)
    (h : (previewImageCache platform).Reachable s) :
    (∀ c ∈ s.calls, c.task < s.done → c.task ∉ s.voided →
      (∀ entry ∈ s.memory, ¬Outdated s c entry.1 entry.2.producer) ∧
        ∀ key row, s.disk key = some row → ¬Outdated s c key row.producer) ∧
    (∀ c ∈ s.calls, ∀ r ∈ c.stale, ((s.runs r).stage.isOver = true → (s.runs r).stage = .threw) ∧
        ∀ p, (r, p) ∈ s.dropped → p ≤ c.before) ∧
    (∀ a b, Started s a → Started s b → a < b → (s.runs a).key = (s.runs b).key →
      (s.runs a).stage.isOver = false →
        ∃ c ∈ s.calls, covers c.keys (s.runs a).key = true ∧ a ≤ c.before ∧ c.before < b) ∧
    s.downloads.Nodup ∧ s.memory.length ≤ 64 ∧
    (totalBytes s.memory ≤ previewCacheBytes ∨ ∃ entry, s.memory = [entry]) := by
  have hsound := reachable_sound hlaw h
  refine ⟨?_, ?_, hsound.guarded.apart, hsound.logged.once, hsound.fits.count, hsound.fits.budget⟩
  · intro c hc hdone hvoided
    constructor
    · intro entry hentry
      exact hsound.memory_fresh hlaw hc hvoided hentry
    intro key row hrow
    exact hsound.disk_fresh hc hdone hvoided hrow
  intro c hc r hr
  constructor
  · intro hover
    exact hsound.stale_threw hc hr hover
  intro p hp
  exact hsound.logged.spared c hc r hr p hp

def signedUrl : Text := "https://h/a?Signature=x".toList

def plainUrl : Text := "https://h/a".toList

def signature : Text × Text := ("Signature".toList, "x".toList)

/-- A platform that knows one signed address and its plain form. -/
def twoUrls : Platform where
  origin := []
  parse url :=
    if url = signedUrl then some ⟨"https:".toList, "https://h".toList, "/a".toList, [signature]⟩
    else if url = plainUrl then some ⟨"https:".toList, "https://h".toList, "/a".toList, []⟩
    else none
  resolve _ := none
  print _ params := if params = [] then plainUrl else signedUrl
  localeCompare a b := if a = b then 0 else if a < b then -1 else 1

theorem twoUrls_parse {raw : Text} {parsed : Parsed} (h : twoUrls.parse raw = some parsed) :
    (parsed.protocol = "https:".toList ∧ parsed.origin = "https://h".toList ∧
      parsed.pathname = "/a".toList) ∧ (parsed.params = [signature] ∨ parsed.params = []) := by
  simp only [twoUrls] at h
  split at h
  · rw [← some.inj h]
    exact ⟨⟨rfl, rfl, rfl⟩, .inl rfl⟩
  split at h
  · rw [← some.inj h]
    exact ⟨⟨rfl, rfl, rfl⟩, .inr rfl⟩
  cases h

theorem twoUrls_params {raw : Text} {parsed : Parsed} {params : List (Text × Text)}
    (h : twoUrls.parse raw = some parsed) (hsub : params.Subperm parsed.params) :
    params = [signature] ∨ params = [] := by
  obtain ⟨sorted, hperm, hsub⟩ := hsub
  have hone : sorted = [signature] ∨ sorted = [] := by
    rcases (twoUrls_parse h).2 with hp | hp
    · rw [hp] at hsub
      exact (List.sublist_singleton.mp hsub).symm
    rw [hp] at hsub
    exact .inr (List.sublist_nil.mp hsub)
  rcases hone with rfl | rfl
  · exact .inl (List.singleton_perm.mp hperm).symm
  exact .inr (List.nil_perm.mp hperm)

theorem twoUrls_lawful : twoUrls.Lawful where
  readsBack := by
    intro raw parsed params hparse _ hsub
    obtain ⟨⟨hprotocol, horigin, hpathname⟩, -⟩ := twoUrls_parse hparse
    rw [Parsed.site, hprotocol, horigin, hpathname]
    rcases twoUrls_params hparse hsub with rfl | rfl <;> decide +kernel
  printed := by
    intro raw parsed params hparse _ hsub
    obtain ⟨⟨-, horigin, hpathname⟩, -⟩ := twoUrls_parse hparse
    rw [Parsed.site, horigin, hpathname]
    rcases twoUrls_params hparse hsub with rfl | rfl <;> decide +kernel
  reversed a b := compareText_reversed a b
  ordered := by
    intro a b c hab hbc
    exact compareText_ordered hab hbc

/-- The image is asked for, `clear` comes while it is downloaded, and the download
ends after `clear` has resolved. -/
def overtaken : List Action :=
  [.get signedUrl [], .resume 1, .read 1 true, .resume 1, .read 1 true, .resume 1, .clear,
    .start, .cleared true, .finish, .downloaded 1 (some ⟨5, true, false⟩)]

theorem preview_cache_invalidation_overtaken : ∃ s : State, s.downloads = [1] ∧
    s.calls = [⟨none, 1, 0, [1]⟩] ∧ s.done = 1 ∧ (s.runs 1).stage = .threw ∧
    s.memory.length ≤ 64 := by
  have hrun : ((previewImageCache twoUrls).execute (opened fun _ => none) overtaken).any
      (fun s => s.downloads = [1] && s.calls = [⟨none, 1, 0, [1]⟩] && s.done = 1 &&
        (s.runs 1).stage.isOver) = true := by
    decide +kernel
  obtain ⟨s, hs, hchecked⟩ := (any_eq_true _ _).mp hrun
  simp only [Bool.and_eq_true, decide_eq_true_eq] at hchecked
  obtain ⟨⟨⟨hdownloads, hcalls⟩, hdone⟩, hover⟩ := hchecked
  have hstart : (previewImageCache twoUrls).initial (opened fun _ => none) :=
    ⟨fun _ => none, by simp, rfl⟩
  have hall := preview_cache_invalidation twoUrls_lawful (Machine.reachable_of_execute hstart hs)
  have hstale := hall.2.1 ⟨none, 1, 0, [1]⟩ (by simp [hcalls]) 1 (by simp)
  exact ⟨s, hdownloads, hcalls, hdone, hstale.1 hover, hall.2.2.2.2.1⟩

end ImApp.PreviewCache
