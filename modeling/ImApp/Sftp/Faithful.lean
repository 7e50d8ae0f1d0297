import ImApp.Sftp.CopyEntry

/-!
What a transfer promises. A successful one has copied every file that was not skipped,
left alone what was skipped and what the source does not have, and counted all files it
planned; and no transfer changes its source. The code keeps this as long as the selected
entries have different names and nothing is copied onto the source: it checks only that
the target does not lie in the source, never that the source lies in what is replaced.
-/

namespace ImApp.Sftp

open List

section

variable (options : TransferOptions) (source target : FileSystem)

/-- The user decided to skip a source entry, itself or with a directory it is in. -/
def Skipped (sourcePlace targetPath targetPlace rest : Path) : Prop :=
  ∃ front node, front <+: rest ∧ source.lookup (sourcePlace ++ front) = some node ∧
    kept options node (target.lookup (targetPlace ++ front)) (targetPath ++ front) = true

end

section

variable {options : TransferOptions} {source target : FileSystem} {node : Node}
  {sourcePlace targetPath targetPlace rest : Path} {name : String}

theorem Skipped.here (h : source.lookup sourcePlace = some node)
    (hkept : kept options node (target.lookup targetPlace) targetPath = true) :
    Skipped options source target sourcePlace targetPath targetPlace rest :=
  ⟨[], node, nil_prefix, by rwa [append_nil], by simpa using hkept⟩

theorem Skipped.child (h : Skipped options source target (sourcePlace ++ [name])
      (targetPath ++ [name]) (targetPlace ++ [name]) rest) :
    Skipped options source target sourcePlace targetPath targetPlace (name :: rest) := by
  obtain ⟨front, node, hfront, hlook, hkept⟩ := h
  simp only [append_assoc] at hlook hkept
  exact ⟨name :: front, node, cons_prefix_cons.mpr ⟨rfl, hfront⟩, hlook, hkept⟩

theorem isDirectory_of_below (name : String) (rest : Path)
    (hsound : FileTree.WellFormed Node.isDirectory source)
    (hsome : (source.lookup (sourcePlace ++ name :: rest)).isSome) :
    ∃ node, source.lookup sourcePlace = some node ∧ node.isDirectory = true := by
  cases hlook : source.lookup sourcePlace with
  | none =>
    have hgone := gone_of_none hsound hlook (name :: rest)
    rw [hgone] at hsome
    cases hsome
  | some node =>
    refine ⟨node, rfl, ?_⟩
    by_contra hnode
    rw [Bool.not_eq_true] at hnode
    have hnone : source.lookup (sourcePlace ++ name :: rest) = none := by
      refine hsound.nothing_below (fun other hother => ?_) _ (cons_ne_nil _ _)
      cases hlook.symm.trans hother
      exact hnode
    rw [hnone] at hsome
    cases hsome

theorem overlay_of_not_skipped (hsound : FileTree.WellFormed Node.isDirectory source)
    (h : source.lookup (sourcePlace ++ rest) = some node)
    (hskipped : ¬ Skipped options source target sourcePlace targetPath targetPlace rest) :
    overlay options source target sourcePlace targetPath targetPlace rest =
      some (some node.copied) := by
  induction rest generalizing sourcePlace targetPath targetPlace with
  | nil =>
    rw [append_nil] at h
    exact overlay_nil h (Bool.eq_false_iff.mpr fun hkept => hskipped (Skipped.here h hkept))
  | cons name rest ih =>
    obtain ⟨directory, hlook, hdir⟩ :=
      isDirectory_of_below name rest hsound (by rw [h]; rfl)
    have hkept := Bool.eq_false_iff.mpr fun hkept => hskipped (Skipped.here hlook hkept)
    rw [overlay_child hlook hkept hdir]
    refine ih ?_ fun hchild => hskipped hchild.child
    rw [append_assoc]
    exact h

theorem overlay_of_skipped (hsound : FileTree.WellFormed Node.isDirectory source)
    (h : Skipped options source target sourcePlace targetPath targetPlace rest) :
    overlay options source target sourcePlace targetPath targetPlace rest = none := by
  obtain ⟨front, node, ⟨back, rfl⟩, hlook, hkept⟩ := h
  induction front generalizing sourcePlace targetPath targetPlace with
  | nil =>
    simp only [append_nil] at hlook hkept
    exact overlay_kept hlook hkept
  | cons name front ih =>
    obtain ⟨directory, hfound, hdir⟩ :=
      isDirectory_of_below name front hsound (by rw [hlook]; rfl)
    cases hhere : kept options directory (target.lookup targetPlace) targetPath with
    | true => exact overlay_kept hfound hhere
    | false =>
      rw [cons_append, overlay_child hfound hhere hdir]
      refine ih ?_ ?_
      · rw [append_assoc]
        exact hlook
      simp only [append_assoc]
      exact hkept

theorem overlay_of_missing {below : Path} (hsound : FileTree.WellFormed Node.isDirectory source)
    (hnode : source.lookup (sourcePlace ++ rest) = some node) (hdir : node.isDirectory = true)
    (hnone : source.lookup (sourcePlace ++ rest ++ [name]) = none) :
    overlay options source target sourcePlace targetPath targetPlace (rest ++ name :: below) =
      none := by
  induction rest generalizing sourcePlace targetPath targetPlace with
  | nil =>
    rw [append_nil] at hnode hnone
    rw [nil_append]
    cases hkept : kept options node (target.lookup targetPlace) targetPath with
    | true => exact overlay_kept hnode hkept
    | false =>
      rw [overlay_child hnode hkept hdir]
      exact overlay_none hnone
  | cons first rest ih =>
    obtain ⟨parent, hfound, hpar⟩ :=
      isDirectory_of_below first rest hsound (by rw [hnode]; rfl)
    cases hkept : kept options parent (target.lookup targetPlace) targetPath with
    | true => exact overlay_kept hfound hkept
    | false =>
      rw [cons_append, overlay_child hfound hkept hpar]
      refine ih ?_ ?_
      · rw [append_assoc]
        exact hnode
      rw [append_assoc sourcePlace]
      exact hnone

/-- What is touched belongs to a source entry that is not skipped: a directory itself, or
anything at and below the place of a file. -/
theorem entry_of_touched
    (h : (overlay options source target sourcePlace targetPath targetPlace rest).isSome) :
    ∃ front back node, rest = front ++ back ∧ source.lookup (sourcePlace ++ front) = some node ∧
      ¬ Skipped options source target sourcePlace targetPath targetPlace front ∧
        (node.isDirectory = true → back = []) := by
  have hhere : ∀ (node : Node) (sourcePlace targetPath targetPlace : Path),
      source.lookup sourcePlace = some node →
      kept options node (target.lookup targetPlace) targetPath = false →
      ¬ Skipped options source target sourcePlace targetPath targetPlace [] := by
    rintro node sourcePlace targetPath targetPlace hlook hkept ⟨front, other, hfront, hother, h⟩
    obtain rfl := prefix_nil.mp hfront
    rw [append_nil] at hother
    cases hlook.symm.trans hother
    simp [hkept] at h
  induction rest generalizing sourcePlace targetPath targetPlace with
  | nil =>
    cases hlook : source.lookup sourcePlace with
    | none => simp [overlay_none hlook] at h
    | some node =>
      cases hkept : kept options node (target.lookup targetPlace) targetPath with
      | true => simp [overlay_kept hlook hkept] at h
      | false =>
        refine ⟨[], [], node, rfl, ?_, hhere node _ _ _ hlook hkept, fun _ => rfl⟩
        rw [append_nil]
        exact hlook
  | cons name rest ih =>
    cases hlook : source.lookup sourcePlace with
    | none => simp [overlay_none hlook] at h
    | some node =>
      cases hkept : kept options node (target.lookup targetPlace) targetPath with
      | true => simp [overlay_kept hlook hkept] at h
      | false =>
        cases hdir : node.isDirectory with
        | false =>
          refine ⟨[], name :: rest, node, rfl, ?_, hhere node _ _ _ hlook hkept, ?_⟩
          · rw [append_nil]
            exact hlook
          rw [hdir]
          exact fun hfalse => by cases hfalse
        | true =>
          rw [overlay_child hlook hkept hdir] at h
          obtain ⟨front, back, entry, rfl, hentry, hskipped, hback⟩ := ih h
          rw [append_assoc] at hentry
          refine ⟨name :: front, back, entry, rfl, hentry, ?_, hback⟩
          rintro ⟨first, other, hfirst, hother, hskip⟩
          cases first with
          | nil =>
            rw [append_nil] at hother
            cases hlook.symm.trans hother
            simp [hkept] at hskip
          | cons head first =>
            obtain ⟨rfl, hrest⟩ := cons_prefix_cons.mp hfirst
            refine hskipped ⟨first, other, hrest, ?_, ?_⟩
            · rw [append_assoc]
              exact hother
            simp only [append_assoc]
            exact hskip

end

section

variable (place : Connection → Path → Path) (options : TransferOptions)
  (hosts : Connection → Host)

def sourceFiles : FileSystem := (hosts options.sourceConnection).files

def targetFiles : FileSystem := (hosts options.targetConnection).files

/-- Where a selected path is, and where the entry it is copied to. -/
def sourcePlace (path : Path) : Path := place options.sourceConnection path

def entryTarget (path : Path) : Path := targetPath (normalizePath options.targetDirectory) path

def targetPlace (path : Path) : Path := place options.targetConnection (entryTarget options path)

def SkippedBelow (path rest : Path) : Prop :=
  Skipped options (sourceFiles options hosts) (targetFiles options hosts)
    (sourcePlace place options path) (entryTarget options path) (targetPlace place options path) rest

/-- The target after a transfer that succeeded. -/
structure Faithful (task : Task) : Prop where
  /-- Files that were not skipped are there, with their content and permissions. -/
  files : ∀ path ∈ normalizedSourcePaths options, ∀ rest content mode,
    (sourceFiles options hosts).lookup (sourcePlace place options path ++ rest) =
      some (.file content mode) →
    ¬ SkippedBelow place options hosts path rest →
    (task.final.world options.targetConnection).lookup (targetPlace place options path ++ rest) =
      some (.file content (permissions mode))
  /-- So are directories. -/
  directories : ∀ path ∈ normalizedSourcePaths options, ∀ rest mode,
    (sourceFiles options hosts).lookup (sourcePlace place options path ++ rest) =
      some (.directory mode) →
    ¬ SkippedBelow place options hosts path rest →
    (task.final.world options.targetConnection).lookup (targetPlace place options path ++ rest) =
      some (.directory (permissions mode))
  /-- What was skipped is unchanged, with all below it. -/
  skipped : ∀ path ∈ normalizedSourcePaths options, ∀ rest,
    SkippedBelow place options hosts path rest → ∀ below,
    (task.final.world options.targetConnection).lookup
        (targetPlace place options path ++ (rest ++ below)) =
      (targetFiles options hosts).lookup (targetPlace place options path ++ (rest ++ below))
  /-- So is what a merged directory has beside the source's entries. -/
  merged : ∀ path ∈ normalizedSourcePaths options, ∀ rest mode name,
    (sourceFiles options hosts).lookup (sourcePlace place options path ++ rest) =
      some (.directory mode) →
    (sourceFiles options hosts).lookup (sourcePlace place options path ++ rest ++ [name]) = none →
    ∀ below, (task.final.world options.targetConnection).lookup
        (targetPlace place options path ++ (rest ++ name :: below)) =
      (targetFiles options hosts).lookup (targetPlace place options path ++ (rest ++ name :: below))
  counted : task.final.completedFiles + task.final.skippedFiles = task.totalFiles
  planned : task.totalFiles = ((normalizedSourcePaths options).map fun path =>
    filesBelow (sourceFiles options hosts) (sourcePlace place options path)).sum
  /-- No two source entries have one place in the target. -/
  apart : ∀ path ∈ normalizedSourcePaths options, ∀ other ∈ normalizedSourcePaths options,
    ∀ rest rest', targetPlace place options path ++ rest = targetPlace place options other ++ rest' →
      path = other ∧ rest = rest'

/-- No source entry was deleted or changed. -/
def Unharmed (task : Task) : Prop :=
  ∀ path ∈ normalizedSourcePaths options, ∀ rest,
    ((sourceFiles options hosts).lookup (sourcePlace place options path ++ rest)).isSome →
    (task.final.world options.sourceConnection).lookup (sourcePlace place options path ++ rest) =
      (sourceFiles options hosts).lookup (sourcePlace place options path ++ rest)

/-- A successful transfer is faithful and none harms its source. -/
def Safe (task : Task) : Prop :=
  (task.status = .success → Faithful place options hosts task) ∧
    Unharmed place options hosts task

/-- When the code is safe: the selected entries have different names, and no entry is copied
onto a selected one, nor a file to where a directory has a selected entry below it. -/
structure Separate : Prop where
  names : (normalizedSourcePaths options).Pairwise fun a b => a.getLast? ≠ b.getLast?
  clear : options.sourceConnection = options.targetConnection →
    ∀ path ∈ normalizedSourcePaths options, ∀ other ∈ normalizedSourcePaths options,
    ∀ rest node,
      (sourceFiles options hosts).lookup (sourcePlace place options path ++ rest) = some node →
      ¬ SkippedBelow place options hosts path rest →
      ¬ sourcePlace place options other <+: targetPlace place options path ++ rest ∧
        (node.isDirectory = false →
          ¬ targetPlace place options path ++ rest <+: sourcePlace place options other)

/-- Below a path the server follows no more links. -/
def Leads (connection : Connection) (path : Path) : Prop :=
  ∃ found, ∀ name rest, place connection (path ++ name :: rest) = found ++ name :: rest

end

variable {place : Connection → Path → Path} {environment : Environment}
  {options : TransferOptions} {hosts : Connection → Host} {target : Connection}
  {touch : Path → Prop} {s : State} {α : Type}

variable {path : Path}

theorem assertSafeDestination_spec {other : Path} {directory : Bool} :
    Spec target touch (assertSafeDestination options path other directory) s
      (fun _ t => t = s) := by
  unfold assertSafeDestination
  split
  · exact Spec.pure rfl
  split
  · exact Spec.stop
  split
  · exact Spec.stop
  exact Spec.pure rfl

theorem buildPlans_spec {connection : Connection} {host : Host} {region : Path → Prop} {depth : ℕ}
    {paths : List Path} (hconn : options.sourceConnection = connection)
    (h : ∀ path ∈ paths, Source place connection host region path s) :
    Spec target touch (buildPlans place environment options depth paths) s (fun plans t =>
      t.world = s.world ∧ t.done = s.done ∧ (plans.map TransferPlan.totalFiles).sum =
        (paths.map fun path => filesBelow host.files (place connection path)).sum) := by
  subst hconn
  induction paths generalizing s with
  | nil => exact Spec.pure ⟨rfl, rfl, rfl⟩
  | cons path paths ih =>
    refine (buildPlan_spec (h path mem_cons_self)).bind fun plan t _ ht => ?_
    obtain ⟨hworld, hdone, hfiles⟩ := ht
    have hrest := ih (s := t) fun other hother =>
      (h other (mem_cons_of_mem _ hother)).of_world hworld
    refine hrest.bind fun plans u _ hu => Spec.pure ?_
    obtain ⟨hworld', hdone', hsum⟩ := hu
    refine ⟨hworld'.trans hworld, hdone'.trans hdone, ?_⟩
    rw [map_cons, sum_cons, map_cons, sum_cons, hfiles, hsum]

/-- The part of the source that is selected. -/
def selected (place : Connection → Path → Path) (options : TransferOptions) (path : Path) : Prop :=
  ∃ other ∈ normalizedSourcePaths options, sourcePlace place options other <+: path

theorem entryTarget_of_ne (h : path ≠ []) :
    entryTarget options path = normalizePath options.targetDirectory ++ [path.getLast h] := by
  rw [entryTarget, targetPath, getLast?_eq_some_getLast h]
  rfl

theorem steady_entryTarget (h : path ≠ [])
    (hleads : Leads place options.targetConnection (normalizePath options.targetDirectory)) :
    Steady place options.targetConnection (entryTarget options path) := by
  obtain ⟨found, hfound⟩ := hleads
  intro rest
  rw [entryTarget_of_ne h, append_assoc, singleton_append, hfound, hfound,
    append_assoc, singleton_append]

theorem apart_of_names {other : Path} (h : path ≠ []) (h' : other ≠ [])
    (hleads : Leads place options.targetConnection (normalizePath options.targetDirectory))
    (hne : path.getLast? ≠ other.getLast?) :
    Apart place options (entryTarget options path) (entryTarget options other) := by
  obtain ⟨found, hfound⟩ := hleads
  intro below hbelow hbelow'
  rw [entryTarget_of_ne h, hfound] at hbelow
  rw [entryTarget_of_ne h', hfound] at hbelow'
  refine hne ?_
  rw [getLast?_eq_some_getLast h, getLast?_eq_some_getLast h', name_unique hbelow hbelow']

theorem Separate.untouched (h : Separate place options hosts)
    (hsame : options.sourceConnection = options.targetConnection)
    (hpath : path ∈ normalizedSourcePaths options) {below : Path}
    (hbelow : selected place options below) :
    ¬ touches place options (hosts options.sourceConnection) (targetFiles options hosts) path
      (entryTarget options path) below := by
  rintro ⟨rest, rfl, hsome⟩
  obtain ⟨other, hother, hprefix⟩ := hbelow
  obtain ⟨front, back, node, rfl, hlook, hskipped, hback⟩ := entry_of_touched hsome
  obtain ⟨honto, habove⟩ := h.clear hsame path hpath other hother front node hlook hskipped
  rw [← append_assoc] at hprefix
  cases hdir : node.isDirectory with
  | true =>
    rw [hback hdir, append_nil] at hprefix
    exact honto hprefix
  | false =>
    rcases prefix_or_prefix_of_prefix hprefix (prefix_append _ back) with hle | hle
    · exact honto hle
    exact habove hdir hle

theorem ready_of_separate (h : Separate place options hosts)
    (hsteady : ∀ path ∈ normalizedSourcePaths options, Steady place options.sourceConnection path)
    (hleads : Leads place options.targetConnection (normalizePath options.targetDirectory))
    (hworld : ∀ connection, s.world connection = (hosts connection).files)
    (hpath : path ∈ normalizedSourcePaths options) (hne : path ≠ []) :
    Ready place options (hosts options.sourceConnection) (targetFiles options hosts)
      (selected place options) path (entryTarget options path) s where
  source :=
    { steady := hsteady path hpath
      inside := fun rest => ⟨path, hpath, prefix_append _ _⟩
      still := by
        rw [hworld]
        exact ⟨fun _ _ => rfl, fun _ _ => rfl⟩ }
  closed := by
    rintro below name ⟨other, hother, hprefix⟩
    exact ⟨other, hother, hprefix.trans (prefix_append _ _)⟩
  steady := steady_entryTarget hne hleads
  sound := by
    rw [hworld]
    exact (hosts options.targetConnection).sound
  same rest := by rw [hworld, targetFiles]
  clear hsame below hbelow := h.untouched hsame hpath hbelow

/-- A run touches only what its entries are copied to, and on success has copied them all. -/
theorem run_spec (environment : Environment) (depth : ℕ) (h : Separate place options hosts)
    (hsteady : ∀ path ∈ normalizedSourcePaths options, Steady place options.sourceConnection path)
    (hleads : Leads place options.targetConnection (normalizePath options.targetDirectory))
    (hworld : ∀ connection, s.world connection = (hosts connection).files) :
    Spec options.targetConnection (fun path => ∃ a ∈ normalizedSourcePaths options,
        touches place options (hosts options.sourceConnection) (targetFiles options hosts) a
          (entryTarget options a) path) (run place environment options depth) s (fun total t =>
        [] ∉ normalizedSourcePaths options ∧
        (∀ a ∈ normalizedSourcePaths options, Copied options (sourceFiles options hosts)
          (targetFiles options hosts) (sourcePlace place options a) (entryTarget options a)
          (targetPlace place options a) (t.world options.targetConnection)) ∧
        t.done = s.done + total ∧ total = ((normalizedSourcePaths options).map fun path =>
          filesBelow (sourceFiles options hosts) (sourcePlace place options path)).sum) := by
  unfold run
  dsimp only
  split
  case isTrue => exact Spec.stop
  case isFalse hpaths =>
    rw [Bool.or_eq_true, not_or, contains_iff_mem] at hpaths
    have hne : ∀ path ∈ normalizedSourcePaths options, path ≠ [] := by
      rintro path hpath rfl
      exact hpaths.2 hpath
    have hready : ∀ t : State, t.world = s.world → ∀ path ∈ normalizedSourcePaths options,
        Ready place options (hosts options.sourceConnection) (targetFiles options hosts)
          (selected place options) path (entryTarget options path) t := by
      intro t ht path hpath
      refine ready_of_separate h hsteady hleads (fun connection => ?_) hpath (hne path hpath)
      rw [ht]
      exact hworld connection
    refine (forEach_spec (I := (· = s)) (fun path _ t ht => ?_) rfl).bind fun _ t _ ht => ?_
    · exact assertSafeDestination_spec.imp fun _ u _ hu => hu.trans ht
    subst ht
    refine (buildPlans_spec rfl fun path hpath => (hready t rfl path hpath).source).bind
      fun plans u _ hu => ?_
    obtain ⟨hworld', hdone, htotal⟩ := hu
    refine (forEach_spec (I := (· = u)) (fun entry _ v hv => ?_) rfl).bind fun _ v _ hv => ?_
    · exact assertSafeDestination_spec.imp fun _ w _ hw => hw.trans hv
    subst hv
    have hapart : (normalizedSourcePaths options).Pairwise fun a b =>
        Apart place options (entryTarget options a) (entryTarget options b) :=
      h.names.imp_of_mem fun ha hb hnames => apart_of_names (hne _ ha) (hne _ hb) hleads hnames
    have hall := copyAll_spec (s := v)
      (fun path => copyEntry place environment options depth path (entryTarget options path))
      (fun path => path) (entryTarget options) (fun _ _ hcopy => copyEntry_spec hcopy) hapart
      (hready v hworld')
    refine hall.bind fun _ w _ hw => Spec.pure ⟨hpaths.2, hw.1, ?_, htotal⟩
    rw [hw.2, htotal, hdone]

section

variable {world : Connection → FileSystem} {depth : ℕ}

theorem transfer_final : (transfer place environment options depth world).final =
      (exec (run place environment options depth) ⟨world, 0, 0, 0, 0⟩).2 := by
  unfold transfer exec
  split
  case h_1 heq => rw [heq]
  case h_2 heq => rw [heq]

theorem transfer_success (h : (transfer place environment options depth world).status = .success) :
    (exec (run place environment options depth) ⟨world, 0, 0, 0, 0⟩).1 =
      .ok (transfer place environment options depth world).totalFiles := by
  unfold transfer at h ⊢
  unfold exec
  split at h
  case h_1 heq => rw [heq]
  case h_2 =>
    dsimp only at h
    split at h <;> cases h

end

/-- A transfer to the root of a host that overwrites what is there. -/
def toRoot (sourceConnection targetConnection : Connection) (sourcePaths : List String) :
    TransferOptions where
  sourceConnection
  targetConnection
  sourcePath := none
  sourcePaths
  targetDirectory := "/"
  conflict := .overwrite
  conflictDecisions := fun _ => none

/-- Nothing fails. -/
def calm : Environment := ⟨fun _ => false, fun _ => false, fun _ => 0, false⟩

/-- A host with the file `/x/x`. -/
def nestedHost : Host :=
  Host.ofTree [([], .directory 493), (["x"], .directory 493), (["x", "x"], .file [1] 420)]
    (by decide)

/-- A host with the files `/a/f` and `/b/f`. -/
def twinHost : Host :=
  Host.ofTree [([], .directory 493), (["a"], .directory 493), (["b"], .directory 493),
    (["a", "f"], .file [1] 420), (["b", "f"], .file [2] 420)] (by decide)

end ImApp.Sftp
