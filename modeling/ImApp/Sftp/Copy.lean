import ImApp.Sftp.Plan

/-!
What copying an entry does. The overlay says what a source puts at and below its target,
and where it leaves alone what is there. A copy that ends well has laid the overlay over
the target's files, and however it ends it touched nothing else.
-/

namespace ImApp.Sftp

open FileSystem

open FileTree (names)

def Node.copied : Node → Node
  | .file content mode => .file content (permissions mode)
  | .directory mode => .directory (permissions mode)
  | .link => .link

/-- What stands at the target stays there, and the source's entry is skipped. -/
def kept (options : TransferOptions) (node : Node) (existing : Option Node) (path : Path) : Bool :=
  match existing with
  | none => false
  | some other =>
    !(node.isDirectory && other.isDirectory) && decide (conflictDecision options path = .skip)

/-- What a source lays over its target, by the path below both: nothing where it leaves
the target alone, else the node that stands there afterwards, if any. -/
def overlay (options : TransferOptions) (source target : FileSystem) :
    Path → Path → Path → Path → Option (Option Node)
  | sourcePlace, targetPath, targetPlace, [] => match source.lookup sourcePlace with
    | none => none
    | some node => if kept options node (target.lookup targetPlace) targetPath then none
      else some (some node.copied)
  | sourcePlace, targetPath, targetPlace, name :: rest => match source.lookup sourcePlace with
    | none => none
    | some node => if kept options node (target.lookup targetPlace) targetPath then none
      else if node.isDirectory then
        overlay options source target (sourcePlace ++ [name]) (targetPath ++ [name])
          (targetPlace ++ [name]) rest else some none

section

variable {options : TransferOptions} {source original : FileSystem} {node : Node}
  {sourcePlace targetPath targetPlace rest : Path} {name : String}

theorem overlay_none (h : source.lookup sourcePlace = none) :
    overlay options source original sourcePlace targetPath targetPlace rest = none := by
  cases rest <;> simp [overlay, h]

section

variable (h : source.lookup sourcePlace = some node)
include h

theorem overlay_kept (hkept : kept options node (original.lookup targetPlace) targetPath = true) :
    overlay options source original sourcePlace targetPath targetPlace rest = none := by
  cases rest <;> simp [overlay, h, hkept]

theorem overlay_nil (hkept : kept options node (original.lookup targetPlace) targetPath = false) :
    overlay options source original sourcePlace targetPath targetPlace [] =
      some (some node.copied) := by
  simp [overlay, h, hkept]

theorem overlay_below_file
    (hkept : kept options node (original.lookup targetPlace) targetPath = false)
    (hnode : node.isDirectory = false) :
    overlay options source original sourcePlace targetPath targetPlace (name :: rest) =
      some none := by
  simp [overlay, h, hkept, hnode]

theorem overlay_child (hkept : kept options node (original.lookup targetPlace) targetPath = false)
    (hnode : node.isDirectory = true) :
    overlay options source original sourcePlace targetPath targetPlace (name :: rest) =
      overlay options source original (sourcePlace ++ [name]) (targetPath ++ [name])
        (targetPlace ++ [name]) rest := by
  simp [overlay, h, hkept, hnode]

end

/-- The paths a source lays something over. -/
def Touched (options : TransferOptions) (source original : FileSystem)
    (sourcePlace targetPath targetPlace : Path) (path : Path) : Prop :=
  ∃ rest, path = targetPlace ++ rest ∧
    (overlay options source original sourcePlace targetPath targetPlace rest).isSome

/-- The overlay lies over the original files. -/
def Copied (options : TransferOptions) (source original : FileSystem)
    (sourcePlace targetPath targetPlace : Path) (fs : FileSystem) : Prop :=
  ∀ rest, fs.lookup (targetPlace ++ rest) =
    (overlay options source original sourcePlace targetPath targetPlace rest).getD
      (original.lookup (targetPlace ++ rest))

end

theorem Spec.framed {α : Type} {target : Connection} {touch : Path → Prop} {m : Transfer α}
    {s : State} {post : α → State → Prop} (h : Spec target touch m s post) :
    Spec target touch m s (fun a t => Frame target touch s t ∧ post a t) :=
  h.imp fun _ _ hframe hpost => ⟨hframe, hpost⟩

variable {place : Connection → Path → Path} {environment : Environment} {s : State}
  {target : Connection} {path : Path}

theorem removeEntry_unlink {depth : ℕ} {attributes : Node}
    (hattributes : attributes.isDirectory = false)
    (hsound : FileTree.WellFormed Node.isDirectory (s.world target)) :
    Spec target (· = place target path)
      (removeEntry place environment target depth path attributes) s (fun _ t =>
        (t.world target).lookup (place target path) = none ∧ t.done = s.done) := by
  cases depth with
  | zero => exact Spec.stop
  | succ depth =>
    rw [removeEntry, if_pos (by rw [hattributes]; rfl)]
    refine (action_spec fun fs hfs => ?_).imp fun _ t _ ht => ?_
    · obtain ⟨hnode, rfl⟩ := unlink_some hfs
      exact Keeps.remove rfl (names_eq_nil hsound hnode)
    obtain ⟨fs, hfs, ht, hdone⟩ := ht
    obtain ⟨_, rfl⟩ := unlink_some hfs
    rw [ht]
    exact ⟨FileTree.lookup_remove_self, hdone⟩

theorem mkdir_spec : Spec target (· = place target path)
      (action place environment target path FileSystem.mkdir) s (fun _ t =>
        (t.world target).lookup (place target path) = some (.directory defaultMode) ∧
          t.done = s.done) := by
  refine (action_spec fun fs hfs => ?_).imp fun _ t _ ht => ?_
  · obtain ⟨_, hpar, rfl⟩ := mkdir_some hfs
    exact Keeps.put rfl (.inr hpar) (.inl rfl)
  obtain ⟨fs, hfs, ht, hdone⟩ := ht
  obtain ⟨_, _, rfl⟩ := mkdir_some hfs
  rw [ht]
  exact ⟨FileTree.lookup_put_self, hdone⟩

theorem ensureDirectory_spec {options : TransferOptions} {depth : ℕ} {node : Node} {keep : Bool}
    (hnode : node.isDirectory = true)
    (hsound : FileTree.WellFormed Node.isDirectory (s.world options.targetConnection))
    (hkeep : kept options node ((s.world options.targetConnection).lookup
      (place options.targetConnection path)) path = keep) : Spec options.targetConnection
      (fun other => other = place options.targetConnection path ∧ keep = false)
      (ensureDirectory place environment options depth path) s (fun merged t =>
        t.done = s.done ∧ merged = !keep ∧ (merged = true → ∃ mode,
          (t.world options.targetConnection).lookup (place options.targetConnection path) =
            some (.directory mode))) := by
  refine ask_spec.bind fun existing t hframe ht => ?_
  obtain ⟨hexisting, hworld, hdone⟩ := ht
  cases hexisting
  have hsound' : FileTree.WellFormed Node.isDirectory (t.world options.targetConnection) := by
    rw [hworld]
    exact hsound
  split
  case h_1 hlook =>
    obtain rfl : keep = false := by simp [← hkeep, kept, hlook]
    refine (mkdir_spec.mono fun other hother => ⟨hother, rfl⟩).bind fun _ u _ hu => Spec.pure ?_
    exact ⟨hu.2.trans hdone, rfl, fun _ => ⟨_, hu.1⟩⟩
  case h_2 existing hlook =>
    split
    case isTrue hdir =>
      obtain rfl : keep = false := by simp [← hkeep, kept, hlook, hnode, hdir]
      refine Spec.pure ⟨hdone, rfl, fun _ => ?_⟩
      rw [hworld, hlook]
      cases existing with
      | directory mode => exact ⟨mode, rfl⟩
      | file content mode | link => cases hdir
    case isFalse hdir =>
      rw [Bool.not_eq_true] at hdir
      split
      case isTrue hskip =>
        obtain rfl : keep = true := by simp [← hkeep, kept, hlook, hdir, hskip]
        exact Spec.pure ⟨hdone, rfl, fun h => by cases h⟩
      case isFalse hskip =>
        obtain rfl : keep = false := by simp [← hkeep, kept, hlook, hskip]
        refine ((removeEntry_unlink hdir hsound').mono fun other hother =>
          ⟨hother, rfl⟩).bind fun _ u hu hremoved => ?_
        refine (mkdir_spec.mono fun other hother => ⟨hother, rfl⟩).bind fun _ v _ hv => Spec.pure ?_
        exact ⟨hv.2.trans (hremoved.2.trans hdone), rfl, fun _ => ⟨_, hv.1⟩⟩

theorem Source.frame {connection : Connection} {host : Host} {region touch : Path → Prop}
    {t : State} (h : Source place connection host region path s)
    (hclosed : ∀ path name, region path → region (path ++ [name])) (hframe : Frame target touch s t)
    (hclear : connection = target → ∀ path, region path → ¬ touch path) :
    Source place connection host region path t := { h with
    still := by
      by_cases heq : connection = target
      · subst heq
        exact h.still.keeps hclosed hframe.files (hclear rfl)
      rw [hframe.others connection heq]
      exact h.still }

/-- Ready to copy a source entry: its tree is as it was, and so is the target where the
overlay goes, away from the source. -/
structure Ready (place : Connection → Path → Path) (options : TransferOptions) (host : Host)
    (original : FileSystem) (region : Path → Prop) (sourcePath targetPath : Path) (s : State) :
    Prop where
  source : Source place options.sourceConnection host region sourcePath s
  closed : ∀ path name, region path → region (path ++ [name])
  steady : Steady place options.targetConnection targetPath
  sound : FileTree.WellFormed Node.isDirectory (s.world options.targetConnection)
  same : ∀ rest, (s.world options.targetConnection).lookup
    (place options.targetConnection targetPath ++ rest) =
      original.lookup (place options.targetConnection targetPath ++ rest)
  clear : options.sourceConnection = options.targetConnection → ∀ path, region path →
    ¬ Touched options host.files original (place options.sourceConnection sourcePath) targetPath
      (place options.targetConnection targetPath) path

theorem Ready.here {options : TransferOptions} {host : Host} {original : FileSystem}
    {region : Path → Prop} {sourcePath targetPath : Path}
    (h : Ready place options host original region sourcePath targetPath s) :
    (s.world options.targetConnection).lookup (place options.targetConnection targetPath) =
      original.lookup (place options.targetConnection targetPath) := by
  simpa using h.same []

theorem flow_spec {options : TransferOptions} {touch : Path → Prop} {content : List UInt8}
    (hkeeps : ∀ bytes fs, (s.world options.targetConnection).write
        (place options.targetConnection path) bytes = some fs →
      Keeps touch (s.world options.targetConnection) fs) :
    Spec options.targetConnection touch (flow place environment options path content) s
      (fun _ t => t.done = s.done ∧ (s.world options.targetConnection).write
        (place options.targetConnection path) content =
          some (t.world options.targetConnection)) := by
  unfold flow
  cases hfails : environment.fails s.requests with
  | true =>
    cases hwrite : (s.world options.targetConnection).write (place options.targetConnection path)
        (content.take (min (environment.written s.requests) content.length)) with
    | none =>
      refine ⟨?_, fun a ha => ?_⟩
      · simp only [exec, hfails, if_true, hwrite]
        exact Frame.of_world touch rfl
      simp [exec, hfails, hwrite] at ha
    | some fs =>
      refine ⟨?_, fun a ha => ?_⟩
      · simpa [exec, hfails, hwrite] using Frame.update rfl (hkeeps _ fs hwrite)
      simp [exec, hfails, hwrite] at ha
  | false =>
    cases hwrite : (s.world options.targetConnection).write (place options.targetConnection path)
        content with
    | none =>
      refine ⟨?_, fun a ha => ?_⟩
      · simp only [exec, hfails, Bool.false_eq_true, if_false, List.take_length, hwrite]
        exact Frame.of_world touch rfl
      simp [exec, hfails, hwrite] at ha
    | some fs =>
      refine ⟨?_, fun a ha => ?_⟩
      · simpa [exec, hfails, hwrite] using Frame.update rfl (hkeeps _ fs hwrite)
      simp [exec, hfails, hwrite, State.done]

theorem pipeline_spec {options : TransferOptions} {sourcePath : Path} {mode : ℕ}
    {content : List UInt8}
    (hsound : FileTree.WellFormed Node.isDirectory (s.world options.targetConnection))
    (hsrc : ∀ t, Frame options.targetConnection (· = place options.targetConnection path) s t →
      ∀ bytes, (t.world options.sourceConnection).read
        (place options.sourceConnection sourcePath) = some bytes → bytes = content) :
    Spec options.targetConnection (· = place options.targetConnection path)
      (pipeline place environment options sourcePath path mode) s (fun _ t =>
        t.done = s.done ∧ ∃ stored, (t.world options.targetConnection).lookup
          (place options.targetConnection path) = some (.file content stored)) := by
  unfold pipeline
  have hopen : Spec options.targetConnection (· = place options.targetConnection path)
      (action place environment options.targetConnection path fun fs found =>
        fs.openWrite found mode) s (fun _ t => t.done = s.done ∧ ∃ stored,
          (t.world options.targetConnection).lookup (place options.targetConnection path) =
            some (.file [] stored)) := by
    refine (action_spec fun fs hfs => ?_).imp fun _ t _ ht => ?_
    · rcases openWrite_some hfs with ⟨content, old, hlook, rfl⟩ | ⟨hnone, hpar, rfl⟩
      · refine Keeps.put rfl (.inl (by rw [hlook]; rfl)) (.inr (names_eq_nil hsound ?_))
        intro node hnode
        cases hlook.symm.trans hnode
        rfl
      refine Keeps.put rfl (.inr hpar) (.inr (names_eq_nil hsound ?_))
      intro node hnode
      cases hnone.symm.trans hnode
    obtain ⟨fs, hfs, ht, hdone⟩ := ht
    rcases openWrite_some hfs with ⟨content, old, hlook, rfl⟩ | ⟨hnone, hpar, rfl⟩
    · exact ⟨hdone, old, ht ▸ FileTree.lookup_put_self⟩
    exact ⟨hdone, mode, ht ▸ FileTree.lookup_put_self⟩
  refine hopen.bind fun _ t hframe ht => ?_
  obtain ⟨hdone, stored, hlook⟩ := ht
  have hsound' := hframe.files.sound hsound
  refine ask_spec.bind fun bytes u _ hu => ?_
  obtain ⟨hread, hworld, hdone'⟩ := hu
  obtain rfl := hsrc t hframe bytes hread
  have hwrite : ∀ bytes, (u.world options.targetConnection).write
      (place options.targetConnection path) bytes =
        some (FileTree.put (u.world options.targetConnection)
          (place options.targetConnection path) (.file bytes stored)) := by
    intro bytes
    rw [hworld, FileSystem.write, hlook]
  refine (flow_spec fun written fs hfs => ?_).imp fun _ v _ hv => ?_
  · rw [hwrite written] at hfs
    cases hfs
    rw [hworld]
    refine Keeps.put rfl (.inl (by rw [hlook]; rfl)) (.inr (names_eq_nil hsound' ?_))
    intro node hnode
    cases hlook.symm.trans hnode
    rfl
  rw [hwrite bytes] at hv
  refine ⟨hv.1.trans (hdone'.trans hdone), stored, ?_⟩
  rw [← Option.some.inj hv.2]
  exact FileTree.lookup_put_self

theorem chmod_spec {mode : ℕ} {node : Node}
    (hsound : FileTree.WellFormed Node.isDirectory (s.world target))
    (hlook : (s.world target).lookup (place target path) = some node) :
    Spec target (· = place target path)
      (action place environment target path fun fs found => fs.chmod found (permissions mode)) s
      (fun _ t => t.done = s.done ∧ (t.world target).lookup (place target path) = match node with
        | .file content _ => some (.file content (permissions mode))
        | .directory _ => some (.directory (permissions mode))
        | .link => none) := by
  refine (action_spec fun fs hfs => ?_).imp fun _ t _ ht => ?_
  · rcases chmod_some hfs with ⟨content, old, hfound, rfl⟩ | ⟨old, hfound, rfl⟩
    · refine Keeps.put rfl (.inl (by rw [hfound]; rfl)) (.inr (names_eq_nil hsound ?_))
      intro other hother
      cases hfound.symm.trans hother
      rfl
    exact Keeps.put rfl (.inl (by rw [hfound]; rfl)) (.inl rfl)
  obtain ⟨fs, hfs, ht, hdone⟩ := ht
  refine ⟨hdone, ?_⟩
  rcases chmod_some hfs with ⟨content, old, hfound, rfl⟩ | ⟨old, hfound, rfl⟩ <;>
  · cases hlook.symm.trans hfound
    rw [ht]
    exact FileTree.lookup_put_self

end ImApp.Sftp
