import ImApp.Sftp.Transfer

/-!
What a part of a transfer can change. Only the target's files change, and of these only
those at the paths it touches, however the part ends. What it does on success is stated
beside that.
-/

namespace ImApp.Sftp

open List Function Option
open FileTree (names)

/-- From `fs` to `fs'` only paths in `touch` changed, and the tree stayed one. -/
structure Keeps (touch : Path → Prop) (fs fs' : FileSystem) : Prop where
  lookup : ∀ path, ¬ touch path → fs'.lookup path = fs.lookup path
  names : ∀ path, (∀ name, ¬ touch (path ++ [name])) → names fs' path = names fs path
  sound : FileTree.WellFormed Node.isDirectory fs → FileTree.WellFormed Node.isDirectory fs'

variable {touch more : Path → Prop} {fs fs' fs'' : FileSystem} {path : Path}

namespace Keeps

theorem refl (touch : Path → Prop) (fs : FileSystem) : Keeps touch fs fs :=
  ⟨fun _ _ => rfl, fun _ _ => rfl, fun h => h⟩

theorem trans (h : Keeps touch fs fs') (h' : Keeps touch fs' fs'') : Keeps touch fs fs'' where
  lookup path hpath := (h'.lookup path hpath).trans (h.lookup path hpath)
  names path hpath := (h'.names path hpath).trans (h.names path hpath)
  sound hsound := h'.sound (h.sound hsound)

theorem mono (h : Keeps touch fs fs') (hsub : ∀ path, touch path → more path) :
    Keeps more fs fs' where
  lookup path hpath := h.lookup path fun htouch => hpath (hsub path htouch)
  names path hpath := h.names path fun name htouch => hpath name (hsub _ htouch)
  sound := h.sound

/-- Putting a node in place of one that is no directory with content, or where its parent
is a directory. -/
theorem put {node : Node} (htouch : touch path)
    (hpar : (fs.lookup path).isSome ∨ fs.hasParent path = true)
    (hnode : node.isDirectory = true ∨ FileTree.names fs path = []) :
    Keeps touch fs (FileTree.put fs path node) where
  lookup _ hother := FileTree.lookup_put_of_ne (fun heq => hother (heq ▸ htouch))
  names _ hdirectory := FileTree.names_put_of_ne (fun name heq => hdirectory name (heq ▸ htouch))
  sound hsound := by
    refine hsound.put (fun directory name heq => ?_) hnode
    subst heq
    rcases hpar with hsome | hpar
    · exact hsound.parents directory name hsome
    simp only [FileSystem.hasParent, dropLast_concat, Bool.and_eq_true] at hpar
    cases hlook : fs.lookup directory with
    | none => simp [hlook] at hpar
    | some other => exact ⟨other, hlook, by simpa [hlook] using hpar.2⟩

theorem remove (htouch : touch path) (hnone : FileTree.names fs path = []) :
    Keeps touch fs (FileTree.remove fs path) where
  lookup _ hother := FileTree.lookup_remove_of_ne (fun heq => hother (heq ▸ htouch))
  names _ hdirectory :=
    FileTree.names_remove_of_ne (fun name heq => hdirectory name (heq ▸ htouch))
  sound hsound := hsound.remove hnone

end Keeps

theorem names_eq_nil (hsound : FileTree.WellFormed Node.isDirectory fs)
    (hnode : ∀ node, fs.lookup path = some node → node.isDirectory = false) :
    names fs path = [] := by
  refine eq_nil_iff_forall_not_mem.mpr fun name hname => ?_
  rw [FileTree.mem_names] at hname
  obtain ⟨node, hlook, hdir⟩ := hsound.parents path name hname
  rw [hnode node hlook] at hdir
  cases hdir

theorem FileSystem.mkdir_some (h : fs.mkdir path = some fs') :
    fs.lookup path = none ∧ fs.hasParent path = true ∧
      fs' = FileTree.put fs path (.directory defaultMode) := by
  unfold FileSystem.mkdir at h
  split at h
  case isTrue hcond =>
    rw [Bool.and_eq_true, isNone_iff_eq_none] at hcond
    exact ⟨hcond.1, hcond.2, (some.inj h).symm⟩
  case isFalse => cases h

theorem FileSystem.rmdir_some (h : fs.rmdir path = some fs') :
    names fs path = [] ∧ fs' = FileTree.remove fs path := by
  unfold FileSystem.rmdir at h
  split at h
  · split at h
    case isTrue hcond => exact ⟨hcond.2, (some.inj h).symm⟩
    case isFalse => cases h
  cases h

theorem FileSystem.unlink_some (h : fs.unlink path = some fs') :
    (∀ node, fs.lookup path = some node → node.isDirectory = false) ∧
      fs' = FileTree.remove fs path := by
  unfold FileSystem.unlink at h
  split at h
  case h_1 hlook | h_2 hlook =>
    refine ⟨fun node hnode => ?_, (some.inj h).symm⟩
    rw [hlook] at hnode
    cases hnode
    rfl
  case h_3 => cases h

theorem FileSystem.chmod_some {mode : ℕ} (h : fs.chmod path mode = some fs') :
    (∃ content old, fs.lookup path = some (.file content old) ∧
      fs' = FileTree.put fs path (.file content mode)) ∨
    ∃ old, fs.lookup path = some (.directory old) ∧
      fs' = FileTree.put fs path (.directory mode) := by
  unfold FileSystem.chmod at h
  split at h
  case h_1 content old hlook => exact .inl ⟨content, old, hlook, (some.inj h).symm⟩
  case h_2 old hlook => exact .inr ⟨old, hlook, (some.inj h).symm⟩
  case h_3 => cases h

theorem FileSystem.openWrite_some {mode : ℕ} (h : fs.openWrite path mode = some fs') :
    (∃ content old, fs.lookup path = some (.file content old) ∧
      fs' = FileTree.put fs path (.file [] old)) ∨
    (fs.lookup path = none ∧ fs.hasParent path = true ∧
      fs' = FileTree.put fs path (.file [] mode)) := by
  unfold FileSystem.openWrite at h
  split at h
  case h_1 content old hlook => exact .inl ⟨content, old, hlook, (some.inj h).symm⟩
  case h_2 hlook =>
    split at h
    case isTrue hpar => exact .inr ⟨hlook, hpar, (some.inj h).symm⟩
    case isFalse => cases h
  case h_3 => cases h

/-- The files processed so far. -/
def State.done (s : State) : ℕ := s.completedFiles + s.skippedFiles

/-- From `s` to `t` only the target's files changed, and only in `touch`. -/
structure Frame (target : Connection) (touch : Path → Prop) (s t : State) : Prop where
  others : ∀ connection, connection ≠ target → t.world connection = s.world connection
  files : Keeps touch (s.world target) (t.world target)

variable {target : Connection} {s t u : State} {α β : Type}

namespace Frame

theorem of_world (touch : Path → Prop) (h : t.world = s.world) : Frame target touch s t where
  others _ _ := by rw [h]
  files := by
    rw [h]
    exact Keeps.refl touch _

theorem trans (h : Frame target touch s t) (h' : Frame target touch t u) :
    Frame target touch s u where
  others connection hne := (h'.others connection hne).trans (h.others connection hne)
  files := h.files.trans h'.files

theorem mono (h : Frame target touch s t) (hsub : ∀ path, touch path → more path) :
    Frame target more s t :=
  ⟨h.others, h.files.mono hsub⟩

theorem update {fs : FileSystem} (hworld : t.world = Function.update s.world target fs)
    (h : Keeps touch (s.world target) fs) : Frame target touch s t where
  others connection hne := by rw [hworld, update_of_ne hne]
  files := by
    rw [hworld, update_self]
    exact h

end Frame

def exec (m : Transfer α) (s : State) : Except Stop α × State := m s

/-- Run from `s`, `m` changes only `touch` and on success ends as `post` says. -/
structure Spec (target : Connection) (touch : Path → Prop) (m : Transfer α) (s : State)
    (post : α → State → Prop) : Prop where
  frame : Frame target touch s (exec m s).2
  result : ∀ a, (exec m s).1 = .ok a → post a (exec m s).2

variable {m : Transfer α} {f : α → Transfer β} {mid post : α → State → Prop}
  {goal : β → State → Prop}

theorem exec_bind (m : Transfer α) (f : α → Transfer β) (s : State) : exec (m >>= f) s =
      match exec m s with
      | (.ok a, t) => exec (f a) t
      | (.error e, t) => (.error e, t) := by
  change (ExceptT.bind m f : Transfer β) s = _
  simp only [ExceptT.bind, ExceptT.mk, ExceptT.bindCont, exec, bind, StateT.bind]
  cases h : m s with
  | mk result t => cases result <;> rfl

namespace Spec

theorem bind (hm : Spec target touch m s mid)
    (hf : ∀ a t, Frame target touch s t → mid a t → Spec target touch (f a) t goal) :
    Spec target touch (m >>= f) s goal := by
  obtain ⟨hframe, hres⟩ := hm
  cases h : exec m s with
  | mk result t =>
    rw [h] at hframe hres
    cases result with
    | ok a =>
      obtain ⟨hframe', hresult'⟩ := hf a t hframe (hres a rfl)
      refine ⟨?_, fun b hb => ?_⟩
      · rw [exec_bind, h]
        exact hframe.trans hframe'
      rw [exec_bind, h] at hb ⊢
      exact hresult' b hb
    | error e =>
      refine ⟨?_, fun b hb => ?_⟩
      · rw [exec_bind, h]
        exact hframe
      rw [exec_bind, h] at hb
      cases hb

theorem imp (hm : Spec target touch m s mid)
    (h : ∀ a t, Frame target touch s t → mid a t → post a t) : Spec target touch m s post :=
  ⟨hm.frame, fun a ha => h a _ hm.frame (hm.result a ha)⟩

theorem mono (hm : Spec target touch m s post) (hsub : ∀ path, touch path → more path) :
    Spec target more m s post :=
  ⟨hm.frame.mono hsub, hm.result⟩

theorem pure {a : α} (h : post a s) : Spec target touch (Pure.pure a : Transfer α) s post := by
  refine ⟨Frame.of_world touch rfl, fun b hb => ?_⟩
  obtain rfl : a = b := Except.ok.inj hb
  exact h

theorem stop {reason : Stop} : Spec target touch (Sftp.stop reason : Transfer α) s post :=
  ⟨Frame.of_world touch rfl, fun _ hb => by cases hb⟩

end Spec

variable {place : Connection → Path → Path} {environment : Environment} {connection : Connection}

theorem checkAborted_spec : Spec target touch (checkAborted environment) s (fun _ t => t = s) := by
  unfold checkAborted
  cases h : environment.aborted s.requests with
  | true =>
    refine ⟨?_, fun a ha => ?_⟩
    · simpa [exec, h] using Frame.of_world touch rfl
    simp [exec, h] at ha
  | false =>
    refine ⟨?_, fun a ha => ?_⟩
    · simpa [exec, h] using Frame.of_world touch rfl
    simp [exec, h]

theorem ask_spec {answer : FileSystem → Path → Option α} :
    Spec target touch (ask place environment connection path answer) s (fun a t =>
      answer (s.world connection) (place connection path) = some a ∧ t.world = s.world ∧
        t.done = s.done) := by
  have hworld : ∀ fs, fs = s.world connection →
      Function.update s.world connection fs = s.world := by
    rintro fs rfl
    exact update_eq_self connection s.world
  unfold ask request
  refine ⟨?_, fun a ha => ?_⟩
  · unfold exec
    dsimp only
    split
    · exact Frame.of_world touch rfl
    cases h : answer (s.world connection) (place connection path) with
    | none => exact Frame.of_world touch rfl
    | some a => exact Frame.of_world touch (hworld _ rfl)
  unfold exec at ha ⊢
  dsimp only at ha ⊢
  split at ha
  · cases ha
  case isFalse hfails =>
    rw [if_neg hfails]
    cases h : answer (s.world connection) (place connection path) with
    | none =>
      rw [h] at ha
      cases ha
    | some b =>
      rw [h] at ha
      obtain rfl : b = a := Except.ok.inj ha
      exact ⟨rfl, hworld _ rfl, rfl⟩

theorem action_spec {change : FileSystem → Path → Option FileSystem}
    (hkeeps : ∀ fs, change (s.world target) (place target path) = some fs →
      Keeps touch (s.world target) fs) :
    Spec target touch (action place environment target path change) s (fun _ t =>
      ∃ fs, change (s.world target) (place target path) = some fs ∧ t.world target = fs ∧
        t.done = s.done) := by
  unfold action request
  refine ⟨?_, fun a ha => ?_⟩
  · unfold exec
    dsimp only
    split
    · exact Frame.of_world touch rfl
    cases h : change (s.world target) (place target path) with
    | none => exact Frame.of_world touch rfl
    | some fs => exact Frame.update rfl (hkeeps fs h)
  unfold exec at ha ⊢
  dsimp only at ha ⊢
  split at ha
  · cases ha
  case isFalse hfails =>
    rw [if_neg hfails]
    cases h : change (s.world target) (place target path) with
    | none =>
      rw [h] at ha
      cases ha
    | some fs => exact ⟨fs, rfl, update_self _ _ _, rfl⟩

/-- Below the path the server follows no more links. -/
def Steady (place : Connection → Path → Path) (connection : Connection) (path : Path) : Prop :=
  ∀ rest, place connection (path ++ rest) = place connection path ++ rest

theorem Steady.append (h : Steady place connection path) (rest : Path) :
    Steady place connection (path ++ rest) := by
  intro more
  rw [append_assoc, h, h, append_assoc]

/-- Nothing is left at a path or below it. -/
def Gone (fs : FileSystem) (path : Path) : Prop := ∀ rest, fs.lookup (path ++ rest) = none

theorem gone_of_none (hsound : FileTree.WellFormed Node.isDirectory fs)
    (hnone : fs.lookup path = none) : Gone fs path := by
  intro rest
  by_cases hrest : rest = []
  · rw [hrest, append_nil]
    exact hnone
  refine hsound.nothing_below (fun node hnode => ?_) rest hrest
  rw [show FileTree.lookup fs path = none from hnone] at hnode
  cases hnode

theorem forEach_spec {run : α → Transfer Unit} {l : List α} {I : State → Prop}
    (hrun : ∀ a ∈ l, ∀ s, I s → Spec target touch (run a) s (fun _ t => I t)) (hs : I s) :
    Spec target touch (forEach run l) s (fun _ t => I t) := by
  induction l generalizing s with
  | nil => exact Spec.pure hs
  | cons a l ih =>
    refine (hrun a mem_cons_self s hs).bind fun _ t _ ht => ?_
    exact ih (fun b hb => hrun b (mem_cons_of_mem _ hb)) ht

theorem readdir_spec :
    Spec target touch (readdir place environment connection path) s (fun listed t =>
      (∃ mode, (s.world connection).lookup (place connection path) = some (.directory mode)) ∧
        listed = (names (s.world connection) (place connection path)).filter
          (fun name => ¬ (name = "." ∨ name = "..")) ∧ t.world = s.world ∧ t.done = s.done) := by
  refine ask_spec.bind fun listed t _ h => Spec.pure ?_
  obtain ⟨hlisted, hworld, hdone⟩ := h
  unfold FileSystem.readdir at hlisted
  split at hlisted
  case h_1 mode hlook =>
    cases hlisted
    exact ⟨⟨mode, hlook⟩, by simp, hworld, hdone⟩
  case h_2 => cases hlisted

theorem removeEntry_spec {depth : ℕ} {attributes : Node}
    (hsound : FileTree.WellFormed Node.isDirectory (s.world target))
    (hsteady : Steady place target path) : Spec target (place target path <+: ·)
      (removeEntry place environment target depth path attributes) s (fun _ t =>
        Gone (t.world target) (place target path) ∧ t.done = s.done) := by
  induction depth generalizing s path attributes with
  | zero => exact Spec.stop
  | succ depth ih =>
    rw [removeEntry]
    split
    case isTrue =>
      refine (action_spec fun fs hfs => ?_).imp fun _ t hframe ht => ?_
      · obtain ⟨hnode, rfl⟩ := FileSystem.unlink_some hfs
        exact Keeps.remove (prefix_refl _) (names_eq_nil hsound hnode)
      obtain ⟨fs, hfs, ht, hdone⟩ := ht
      obtain ⟨_, rfl⟩ := FileSystem.unlink_some hfs
      refine ⟨gone_of_none (hframe.files.sound hsound) ?_, hdone⟩
      rw [ht]
      exact FileTree.lookup_remove_self
    case isFalse =>
      refine readdir_spec.bind fun listed t hframe ht => ?_
      obtain ⟨_, _, hworld, hdone⟩ := ht
      let Ready := fun u : State =>
        FileTree.WellFormed Node.isDirectory (u.world target) ∧ u.done = s.done
      have hloop : Spec target (place target path <+: ·) (forEach (fun name => do
          let child ← lstat place environment target (path ++ [name])
          removeEntry place environment target depth (path ++ [name]) child) listed) t
          (fun _ u => Ready u) := by
        refine forEach_spec (fun name _ u hu => ?_) ⟨hframe.files.sound hsound, hdone⟩
        refine ask_spec.bind fun child v hv hask => ?_
        obtain ⟨_, hworld', hdone'⟩ := hask
        refine ((ih (hv.files.sound hu.1) (hsteady.append [name])).mono ?_).imp
          fun _ w hw hremoved => ⟨?_, hremoved.2.trans (hdone'.trans hu.2)⟩
        · intro other hother
          rw [hsteady] at hother
          exact (prefix_append _ _).trans hother
        exact hw.files.sound (hv.files.sound hu.1)
      refine hloop.bind fun _ u _ hu => ?_
      refine (action_spec fun fs hfs => ?_).imp fun _ v hv hrmdir => ?_
      · obtain ⟨hnone, rfl⟩ := FileSystem.rmdir_some hfs
        exact Keeps.remove (prefix_refl _) hnone
      obtain ⟨fs, hfs, hv', hdone'⟩ := hrmdir
      obtain ⟨_, rfl⟩ := FileSystem.rmdir_some hfs
      refine ⟨gone_of_none (hv.files.sound hu.1) ?_, hdone'.trans hu.2⟩
      rw [hv']
      exact FileTree.lookup_remove_self

end ImApp.Sftp
