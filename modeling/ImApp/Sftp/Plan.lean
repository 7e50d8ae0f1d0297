import ImApp.Sftp.Frames

/-!
What a plan counts. The source's files stay as they were in a region that nothing
touches, and a plan made there counts the files of the original tree.
-/

namespace ImApp.Sftp

open List Bool
open FileTree (names)

/-- The files of a host: a tree whose names are none of the two a listing skips. -/
structure Host where
  files : FileSystem
  sound : FileTree.WellFormed Node.isDirectory files
  named : ∀ path name, name ∈ names files path → ¬ (name = "." ∨ name = "..")

/-- A table is a tree when each path is in it once, under a directory and with a name. -/
def isTree (fs : FileSystem) : Bool :=
  decide (fs.map Prod.fst).Nodup && fs.all fun entry => decide (entry.1 = []) ||
    (fs.hasParent entry.1 && !decide (entry.1.getLast? = some "." ∨ entry.1.getLast? = some ".."))

theorem isTree_entry {fs : FileSystem} (h : isTree fs = true) {path : Path} {name : String}
    (hname : name ∈ names fs path) :
    fs.hasParent (path ++ [name]) = true ∧ ¬ (name = "." ∨ name = "..") := by
  rw [isTree, and_eq_true, all_eq_true] at h
  obtain ⟨entry, hentry, hpath⟩ := mem_filterMap.mp hname
  have hcheck := h.2 entry hentry
  rw [FileTree.childName_eq_some.mp hpath] at hcheck
  simpa using hcheck

def Host.ofTree (fs : FileSystem) (h : isTree fs = true) : Host where
  files := fs
  sound :=
    { unique := by
        rw [isTree, Bool.and_eq_true] at h
        exact of_decide_eq_true h.1
      parents := by
        intro directory name hsome
        have hpar := (isTree_entry h (FileTree.mem_names.mpr hsome)).1
        simp only [FileSystem.hasParent, dropLast_concat, Bool.and_eq_true] at hpar
        cases hlook : fs.lookup directory with
        | none => simp [hlook] at hpar
        | some node => exact ⟨node, hlook, by simpa [hlook] using hpar.2⟩ }
  named _ _ hname := (isTree_entry h hname).2

def Node.isFile : Node → Bool
  | .file _ _ => true
  | _ => false

/-- The number of files at a path and below it. -/
def filesBelow (fs : FileSystem) (path : Path) : ℕ :=
  fs.countP fun entry => decide (path <+: entry.1) && entry.2.isFile

/-- In the region everything is as it was. -/
structure Static (region : Path → Prop) (original fs : FileSystem) : Prop where
  lookup : ∀ path, region path → fs.lookup path = original.lookup path
  names : ∀ path, region path → names fs path = names original path

variable {region touch : Path → Prop} {original fs fs' : FileSystem} {path : Path}

theorem Static.keeps (h : Static region original fs)
    (hclosed : ∀ path name, region path → region (path ++ [name])) (hkeeps : Keeps touch fs fs')
    (hclear : ∀ path, region path → ¬ touch path) : Static region original fs' where
  lookup path hpath := (hkeeps.lookup path (hclear path hpath)).trans (h.lookup path hpath)
  names path hpath := by
    refine (hkeeps.names path fun name => ?_).trans (h.names path hpath)
    exact hclear _ (hclosed path name hpath)

theorem lookup_of_mem (hunique : (fs.map Prod.fst).Nodup) {entry : Path × Node} (h : entry ∈ fs) :
    fs.lookup entry.1 = some entry.2 := by
  unfold FileSystem.lookup FileTree.lookup
  induction fs with
  | nil => cases h
  | cons first fs ih =>
    rw [map_cons, nodup_cons] at hunique
    rcases mem_cons.mp h with rfl | hrest
    · simp
    have hne : first.1 ≠ entry.1 := fun heq =>
      hunique.1 (mem_map.mpr ⟨entry, hrest, heq.symm⟩)
    rw [find?_cons_of_neg (by simpa using hne)]
    exact ih hunique.2 hrest

theorem mem_of_lookup {node : Node} (h : fs.lookup path = some node) : (path, node) ∈ fs := by
  unfold FileSystem.lookup FileTree.lookup at h
  obtain ⟨entry, hentry, rfl⟩ := Option.map_eq_some_iff.mp h
  have hpath := find?_some hentry
  rw [decide_eq_true_eq] at hpath
  exact hpath ▸ mem_of_find?_eq_some hentry

theorem filesBelow_file (hsound : FileTree.WellFormed Node.isDirectory fs)
    {content : List UInt8} {mode : ℕ} (h : fs.lookup path = some (.file content mode)) :
    filesBelow fs path = 1 := by
  have hbelow : ∀ rest, rest ≠ [] → FileTree.lookup fs (path ++ rest) = none := by
    refine hsound.nothing_below fun node hnode => ?_
    rw [show FileTree.lookup fs path = _ from h] at hnode
    cases hnode
    rfl
  have hiff : ∀ entry ∈ fs, (decide (path <+: entry.1) && entry.2.isFile) = true ↔
      decide (entry.1 = path) = true := by
    intro entry hentry
    have hlook := lookup_of_mem hsound.unique hentry
    rw [and_eq_true, decide_eq_true_eq, decide_eq_true_eq]
    constructor
    · rintro ⟨⟨rest, hrest⟩, _⟩
      by_cases hnil : rest = []
      · rw [← hrest, hnil, append_nil]
      rw [← hrest] at hlook
      rw [show fs.lookup (path ++ rest) = none from hbelow rest hnil] at hlook
      cases hlook
    intro heq
    rw [heq, h] at hlook
    rw [heq, ← Option.some.inj hlook]
    exact ⟨prefix_refl _, rfl⟩
  have hcount : (fs.map Prod.fst).count path = 1 :=
    count_eq_one_of_mem hsound.unique (mem_map.mpr ⟨_, mem_of_lookup h, rfl⟩)
  rw [filesBelow, countP_congr hiff, ← hcount, List.count, countP_map]
  refine countP_congr fun entry _ => ?_
  simp

theorem countP_add {α : Type*} {p q : α → Bool} {l : List α}
    (h : ∀ a ∈ l, p a = true → q a = false) :
    l.countP p + l.countP q = l.countP fun a => p a || q a := by
  induction l with
  | nil => rfl
  | cons a l ih =>
    have hrest := ih fun b hb => h b (mem_cons_of_mem _ hb)
    have hhead := h a mem_cons_self
    simp only [countP_cons]
    cases hp : p a with
    | false => cases hq : q a <;> simp <;> omega
    | true => simp [hhead hp]; omega

theorem name_unique {entry path : Path} {name other : String}
    (h : path ++ [name] <+: entry) (h' : path ++ [other] <+: entry) : name = other := by
  have hlen : (path ++ [name]).length = (path ++ [other]).length := by simp
  have heq := (prefix_of_prefix_length_le h h' hlen.le).eq_of_length hlen
  simpa using heq

theorem sum_filesBelow (fs : FileSystem) (path : Path) {listed : List String}
    (hnodup : listed.Nodup) : (listed.map fun name => filesBelow fs (path ++ [name])).sum =
      fs.countP fun entry =>
        listed.any (fun name => decide (path ++ [name] <+: entry.1)) && entry.2.isFile := by
  induction listed with
  | nil => simp
  | cons name listed ih =>
    obtain ⟨hname, hrest⟩ := nodup_cons.mp hnodup
    rw [map_cons, sum_cons, ih hrest, filesBelow, countP_add]
    · refine countP_congr fun entry _ => ?_
      rw [any_cons, and_or_distrib_right]
    intro entry _ hbelow
    rw [and_eq_true, decide_eq_true_eq] at hbelow
    rw [and_eq_false_iff, ← not_eq_true, any_eq_true]
    refine .inl ?_
    rintro ⟨other, hother, hprefix⟩
    obtain rfl := name_unique hbelow.1 (of_decide_eq_true hprefix)
    exact hname hother

theorem filesBelow_directory (hsound : FileTree.WellFormed Node.isDirectory fs) {mode : ℕ}
    (h : fs.lookup path = some (.directory mode)) :
    filesBelow fs path = ((names fs path).map fun name => filesBelow fs (path ++ [name])).sum := by
  rw [sum_filesBelow fs path (hsound.names_nodup path), filesBelow]
  refine countP_congr fun entry hentry => ?_
  have hlook := lookup_of_mem hsound.unique hentry
  rw [and_eq_true, and_eq_true, decide_eq_true_eq, any_eq_true]
  constructor
  · rintro ⟨⟨rest, hrest⟩, hfile⟩
    cases rest with
    | nil =>
      rw [append_nil] at hrest
      rw [← hrest, h] at hlook
      rw [← Option.some.inj hlook] at hfile
      cases hfile
    | cons name rest =>
      have hpath : path ++ [name] ++ rest = entry.1 := by rw [← hrest]; simp
      refine ⟨⟨name, ?_, decide_eq_true ⟨rest, hpath⟩⟩, hfile⟩
      rw [FileTree.mem_names]
      by_contra hnone
      rw [Option.not_isSome_iff_eq_none] at hnone
      have hgone := gone_of_none hsound hnone rest
      rw [hpath, hlook] at hgone
      cases hgone
  rintro ⟨⟨name, _, hprefix⟩, hfile⟩
  exact ⟨(prefix_append _ _).trans (of_decide_eq_true hprefix), hfile⟩

variable {place : Connection → Path → Path} {environment : Environment} {target connection : Connection}
  {s : State} {host : Host}

/-- The source of a walk: its connection, its region and the files it started with. -/
structure Source (place : Connection → Path → Path) (connection : Connection) (host : Host)
    (region : Path → Prop) (path : Path) (s : State) : Prop where
  steady : Steady place connection path
  inside : ∀ rest, region (place connection path ++ rest)
  still : Static region host.files (s.world connection)

section

variable (h : Source place connection host region path s)
include h

theorem Source.lookup : (s.world connection).lookup (place connection path) =
      host.files.lookup (place connection path) := by
  have hinside := h.inside []
  rw [append_nil] at hinside
  exact h.still.lookup _ hinside

theorem Source.names : (FileTree.names (s.world connection) (place connection path)).filter
        (fun name => ¬ (name = "." ∨ name = "..")) =
      FileTree.names host.files (place connection path) := by
  have hinside := h.inside []
  rw [append_nil] at hinside
  rw [h.still.names _ hinside]
  exact filter_eq_self.mpr fun name hname => decide_eq_true (host.named _ name hname)

theorem Source.child (name : String) : Source place connection host region (path ++ [name]) s where
  steady := h.steady.append [name]
  inside rest := by
    rw [h.steady, append_assoc]
    exact h.inside _
  still := h.still

theorem Source.of_world {t : State}
    (hworld : t.world = s.world) : Source place connection host region path t :=
  ⟨h.steady, h.inside, hworld ▸ h.still⟩

end

theorem sumPlans_spec {plan : String → Transfer TransferPlan} {listed : List String}
    (count : String → ℕ) (hplan : ∀ name t, t.world = s.world → t.done = s.done →
      Spec target touch (plan name) t (fun result u =>
        u.world = t.world ∧ u.done = t.done ∧ result.totalFiles = count name)) {t : State}
    (hworld : t.world = s.world) (hdone : t.done = s.done) :
    Spec target touch (sumPlans plan listed) t (fun total u =>
      u.world = t.world ∧ u.done = t.done ∧ total.2 = (listed.map count).sum) := by
  induction listed generalizing t with
  | nil => exact Spec.pure ⟨rfl, rfl, rfl⟩
  | cons name listed ih =>
    refine (hplan name t hworld hdone).bind fun child u _ hu => ?_
    refine (ih (hu.1.trans hworld) (hu.2.1.trans hdone)).bind fun rest v _ hv => Spec.pure ?_
    refine ⟨hv.1.trans hu.1, hv.2.1.trans hu.2.1, ?_⟩
    rw [map_cons, sum_cons, ← hu.2.2, ← hv.2.2]

theorem buildPlan_spec {depth : ℕ} (h : Source place connection host region path s) :
    Spec target touch (buildPlan place environment connection depth path) s (fun plan t =>
      t.world = s.world ∧ t.done = s.done ∧
        plan.totalFiles = filesBelow host.files (place connection path)) := by
  induction depth generalizing s path with
  | zero => exact Spec.stop
  | succ depth ih =>
    rw [buildPlan]
    refine checkAborted_spec.bind fun _ t _ ht => ?_
    subst ht
    refine ask_spec.bind fun node u _ hu => ?_
    obtain ⟨hlook, hworld, hdone⟩ := hu
    rw [h.lookup] at hlook
    cases node with
    | link => exact Spec.stop
    | file content mode =>
      exact Spec.pure ⟨hworld, hdone, (filesBelow_file host.sound hlook).symm⟩
    | directory mode =>
      refine readdir_spec.bind fun listed v _ hv => ?_
      obtain ⟨_, hlisted, hworld', hdone'⟩ := hv
      rw [(h.of_world hworld).names] at hlisted
      subst hlisted
      have hsrc := h.of_world (hworld'.trans hworld)
      refine (sumPlans_spec (s := v)
        (fun name => filesBelow host.files (place connection path ++ [name]))
        (fun name w hw hdone'' => ?_) rfl rfl).bind fun total w _ hw => Spec.pure ?_
      · refine (ih ((hsrc.of_world hw).child name)).imp fun plan x _ hx => ?_
        refine ⟨hx.1, hx.2.1, ?_⟩
        rw [hx.2.2, h.steady]
      refine ⟨hw.1.trans (hworld'.trans hworld), hw.2.1.trans (hdone'.trans hdone), ?_⟩
      rw [filesBelow_directory host.sound hlook]
      exact hw.2.2

end ImApp.Sftp
