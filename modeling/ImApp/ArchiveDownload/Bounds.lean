import ImApp.ArchiveDownload.Copy

/-!
What an archive fetches lies under its prefixes, whatever the servers answer, and
the copies of one snapshot share one budget. A copy that does not fit is found out
by one byte more than is left, so the temporary files of a snapshot that fails may
hold that byte; those of one that succeeds hold what is copied.
-/

namespace ImApp.ArchiveDownload

open JsonText (Text)

variable {a : Archive}

theorem follow_allowed {url : Text} (hurl : a.allowed url = true) (via : Nat) (replies : List Reply) :
    ∀ fetched ∈ (a.follow via url replies).1, a.allowed fetched = true := by
  induction replies generalizing via url with
  | nil => simpa [Archive.follow] using hurl
  | cons reply replies ih =>
    cases reply with
    | failed | response response => simpa [Archive.follow] using hurl
    | redirect target =>
      cases target with
      | none => simpa [Archive.follow] using hurl
      | some target =>
        rw [Archive.follow]
        split
        · simpa using hurl
        case isFalse hgoes =>
          have htgt : a.allowed target = true := by
            cases hallow : a.allowed target with
            | true => rfl
            | false => exact absurd (by simp [hallow]) hgoes
          intro fetched hfetched
          rcases List.mem_cons.mp hfetched with rfl | hlater
          · exact hurl
          exact ih htgt (via + 1) fetched hlater

/-- What a copy may have written, and what it may hand back, against its limit. -/
structure Fits (limit written : Int) (saved : Option (Text × Int)) : Prop where
  nonneg : 0 ≤ written
  bound : written ≤ limit + 1
  exact : ∀ stable size, saved = some (stable, size) → size = written ∧ size ≤ limit

theorem Fits.failed {limit written : Int} (hnonneg : 0 ≤ written) (hbound : written ≤ limit + 1) :
    Fits limit written none where
  nonneg := hnonneg
  bound := hbound
  exact _ _ h := by cases h

theorem store_size {target : Target} {digest : Text} {size : Int} {answers : Answers}
    {stable : Text} {kept : Int} (h : a.store target digest size answers = some (stable, kept)) :
    kept = size := by
  rw [Archive.store] at h
  split at h
  · cases h
  split at h
  · cases h
  split at h
  · obtain ⟨-, rfl⟩ := Prod.mk.inj (Option.some.inj h)
    rfl
  cases h

theorem read_bounds (body : Body) {limit : Int} (hlimit : 0 ≤ limit) :
    0 ≤ (body.read limit).1 ∧ (body.read limit).1 ≤ limit + 1 := by
  have havailable : (0 : Int) ≤ body.available := Int.natCast_nonneg _
  constructor
  · exact le_min havailable (by omega)
  exact min_le_right _ _

theorem take_fits (target : Target) {limit : Int} (hlimit : 0 ≤ limit) (answers : Answers)
    (response : Response) :
    Fits limit (a.take target limit answers response).1 (a.take target limit answers response).2 := by
  obtain ⟨hnonneg, hbound⟩ := read_bounds response.body hlimit
  rw [Archive.take]
  split
  · exact Fits.failed (le_refl 0) (by omega)
  split
  · exact Fits.failed (le_refl 0) (by omega)
  dsimp only
  split
  · exact Fits.failed hnonneg hbound
  case isFalse hgood =>
    push Not at hgood
    split
    · exact Fits.failed hnonneg hbound
    refine ⟨hnonneg, hbound, ?_⟩
    intro stable size hsaved
    obtain rfl := store_size hsaved
    exact ⟨rfl, hgood.2.2.1⟩

/-- What holds of every copy. -/
structure Copied.Sound (a : Archive) (limit : Int) (result : Copied) : Prop where
  allowed : ∀ url ∈ result.fetched, a.allowed url = true
  fits : Fits limit result.written result.saved

theorem Copied.Sound.nothing {limit : Int} (hlimit : 0 ≤ limit) :
    Copied.Sound a limit { fetched := [], written := 0, saved := none } where
  allowed := by simp
  fits := Fits.failed (le_refl 0) (by dsimp only; omega)

theorem copy_sound (target : Target) (source : Text) {limit : Int} (hlimit : 0 ≤ limit)
    (answers : Answers) : (a.copy target source limit answers).Sound a limit := by
  rw [Archive.copy]
  split
  · exact Copied.Sound.nothing hlimit
  split
  · exact Copied.Sound.nothing hlimit
  case isFalse hpasses =>
    have hsrc : a.allowed (a.cdnSource source) = true := by
      cases hallow : a.allowed (a.cdnSource source) with
      | true => rfl
      | false => exact absurd (by simp [hallow]) hpasses
    have hfetched := follow_allowed hsrc 0 answers.replies
    split
    case h_1 fetched heq =>
      rw [heq] at hfetched
      exact ⟨hfetched, Fits.failed (le_refl 0) (by dsimp only; omega)⟩
    case h_2 fetched response heq =>
      rw [heq] at hfetched
      exact ⟨hfetched, take_fits target hlimit answers response⟩

/-- What holds after copies that all succeeded. -/
structure Download.Sound (a : Archive) (d : Download) : Prop where
  allowed : ∀ url ∈ d.fetched, a.allowed url = true
  budget : d.copied + d.remaining = maxArchiveBytes
  left : 0 ≤ d.remaining
  written : d.written = d.copied

/-- What holds after the copy that failed, too. -/
structure Download.Spent (a : Archive) (d : Download) : Prop where
  allowed : ∀ url ∈ d.fetched, a.allowed url = true
  copied : d.copied ≤ maxArchiveBytes
  written : d.written ≤ maxArchiveBytes + 1

theorem Download.Sound.spent {d : Download} (h : d.Sound a) : d.Spent a where
  allowed := h.allowed
  copied := by
    have hbudget := h.budget
    have hleft := h.left
    omega
  written := by
    have hbudget := h.budget
    have hleft := h.left
    rw [h.written]
    omega

theorem Download.start_sound : Download.start.Sound a where
  allowed := by simp [Download.start]
  budget := by simp [Download.start]
  left := by decide
  written := rfl

theorem replace_leaves (target : Target) (answers : Nat → Answers) (d : Download) (source : Text)
    (h : d.Sound a) :
    Media.Leaves (Download.Sound a) (Download.Spent a) (a.replace target answers d source).1
      (a.replace target answers d source).2 := by
  have hcopy : (a.copy target source d.remaining (answers d.copies)).Sound a d.remaining :=
    copy_sound target source h.left (answers d.copies)
  have hfetched : ∀ url ∈ d.fetched ++ (a.copy target source d.remaining (answers d.copies)).fetched,
      a.allowed url = true := by
    intro url hurl
    rcases List.mem_append.mp hurl with hpre | hnow
    · exact h.allowed url hpre
    exact hcopy.allowed url hnow
  have hbudget := h.budget
  have hwritten := h.written
  have hleft := h.left
  have hbound := hcopy.fits.bound
  rw [Archive.replace]
  split
  · exact h
  dsimp only
  split
  · constructor
    · exact hfetched
    · dsimp only
      omega
    dsimp only
    omega
  case h_2 saved size hsaved =>
    obtain ⟨hsize, hfits⟩ := hcopy.fits.exact saved size hsaved
    constructor
    · exact hfetched
    · dsimp only
      omega
    · dsimp only
      omega
    dsimp only
    omega

theorem preserve_run (available : Bool) (target : Target) (answers : Nat → Answers)
    (mode : Media.Mode) (requireURL : Bool) (content : Text) :
    (a.preserve available target answers mode requireURL content).1.Spent a ∧
      ((a.preserve available target answers mode requireURL content).2.isSome →
        (a.preserve available target answers mode requireURL content).1.Sound a) := by
  obtain ⟨hspent, hsound⟩ := Media.rewriteWith_leaves mode (fun _ hd => Download.Sound.spent hd)
    (replace_leaves (a := a) target answers) content Download.start Download.start_sound
  rw [Archive.preserve]
  split
  · exact ⟨Download.start_sound.spent, fun _ => Download.start_sound⟩
  split
  case h_1 heq =>
    rw [heq] at hspent
    exact ⟨hspent, by simp⟩
  case h_2 heq =>
    rw [heq] at hspent hsound
    exact ⟨hspent, fun _ => hsound rfl⟩

/-- Every URL that is fetched for a snapshot lies under a prefix by its decoded path,
what is copied fits the budget, and what is written exceeds it by a byte at most, and
only where the snapshot fails. -/
theorem archive_scope_and_budget (a : Archive) (available : Bool) (target : Target)
    (answers : Nat → Answers) (mode : Media.Mode) (requireURL : Bool) (content : Text) :
    let (download, out) := a.preserve available target answers mode requireURL content
    (∀ url ∈ download.fetched, ∃ scope ∈ a.prefixes, Under a.fold scope url) ∧
      download.copied ≤ maxArchiveBytes ∧ download.written ≤ maxArchiveBytes + 1 ∧
      (out.isSome → download.written = download.copied) := by
  obtain ⟨hspent, hsound⟩ := preserve_run (a := a) available target answers mode requireURL content
  refine ⟨?_, hspent.copied, hspent.written, ?_⟩
  · intro url hurl
    exact under_of_allowed (hspent.allowed url hurl)
  intro hsome
  exact (hsound hsome).written

def chatArchive : Archive where
  prefixes := ["https://chat.example/chat/".toList]
  cdnRewrites := []
  fold := UnicodeText.foldChar
  messageHash := id
  newKey := some
  fileURL := fun key => "https://media.example/".toList ++ key

def bodyOf (available : Nat) (contentLength : Int) : Answers where
  beforeCopy := true
  replies := [.response
    { status := 200, contentLength, body := { available, broken := false, digest := ['d'] } }]
  createTemp := true
  seek := true
  stat := .missing
  put := true
  statAfterPut := .failed

def slashContent : Text := "\x7b\"url\":\"https://chat.example/chat%2Fa\"\x7d".toList

def slashRun (available : Nat) (contentLength : Int) : Download × Option Text :=
  chatArchive.preserve true { nameSpace := "favorites".toList, userID := ['u'], messageID := ['m'] }
    (fun _ => bodyOf available contentLength) Media.rewriteMode true slashContent

/-- An escaped slash passes: the decoded path lies in the directory, the written one
does not. A body of unknown length is read one byte beyond the budget. -/
theorem escaped_slash_fetched :
    (slashRun 5 5).1.fetched = ["https://chat.example/chat%2Fa".toList] ∧ (slashRun 5 5).2.isSome ∧
      UrlText.writtenPath "https://chat.example/chat%2Fa".toList = some "/chat%2Fa".toList ∧
      ¬"/chat/".toList <+: "/chat%2Fa".toList ∧
      (slashRun (2 ^ 30) (-1)).1.written = maxArchiveBytes + 1 := by
  decide +kernel

end ImApp.ArchiveDownload
