import ImApp.Sftp.Copy

/-!
Copying an entry with all below it. A file is copied when its source is as it was, a
directory when all its names are: these lie apart from each other, so what one of them
lays down stays.
-/

namespace ImApp.Sftp

open List Option
open FileTree (names)

variable {place : Connection → Path → Path} {environment : Environment} {s : State}
  {options : TransferOptions} {host : Host} {original : FileSystem} {region : Path → Prop}
  {sourcePath targetPath : Path}

/-- The paths a copy of one entry touches. -/
abbrev touches (place : Connection → Path → Path) (options : TransferOptions) (host : Host)
    (original : FileSystem) (sourcePath targetPath : Path) : Path → Prop :=
  Touched options host.files original (place options.sourceConnection sourcePath) targetPath
    (place options.targetConnection targetPath)

/-- What a successful copy of one entry leaves behind. -/
def Laid (place : Connection → Path → Path) (options : TransferOptions) (host : Host)
    (original : FileSystem) (sourcePath targetPath : Path) (s t : State) : Prop :=
  Copied options host.files original (place options.sourceConnection sourcePath) targetPath
      (place options.targetConnection targetPath) (t.world options.targetConnection) ∧
    t.done = s.done + filesBelow host.files (place options.sourceConnection sourcePath)

section

variable (h : Ready place options host original region sourcePath targetPath s)
include h

theorem Ready.of_world {t : State} (hworld : t.world = s.world) :
    Ready place options host original region sourcePath targetPath t := { h with
    source := h.source.of_world hworld
    sound := hworld ▸ h.sound
    same := hworld ▸ h.same }

theorem Ready.clear_of {touch : Path → Prop}
    (hsub : ∀ path, touch path → touches place options host original sourcePath targetPath path) :
    options.sourceConnection = options.targetConnection → ∀ path, region path → ¬ touch path :=
  fun heq path hpath htouch => h.clear heq path hpath (hsub path htouch)

end

theorem clearTarget_spec {depth : ℕ} {existing : Option Node}
    (hsound : FileTree.WellFormed Node.isDirectory (s.world options.targetConnection))
    (hsteady : Steady place options.targetConnection targetPath) :
    Spec options.targetConnection (place options.targetConnection targetPath <+: ·)
      (clearTarget place environment options depth targetPath existing) s
      (fun _ t => t.done = s.done) := by
  cases existing with
  | none => exact Spec.pure rfl
  | some node =>
    rw [clearTarget]
    split
    · exact (removeEntry_spec hsound hsteady).imp fun _ t _ ht => ht.2
    exact Spec.pure rfl

theorem copyFile_spec {depth : ℕ} {content : List UInt8} {mode : ℕ}
    (h : Ready place options host original region sourcePath targetPath s)
    (hfile : host.files.lookup (place options.sourceConnection sourcePath) =
      some (.file content mode)) :
    Spec options.targetConnection (touches place options host original sourcePath targetPath)
      (copyFile place environment options depth sourcePath targetPath mode) s
      (fun _ t => Laid place options host original sourcePath targetPath s t) := by
  have hbelow : filesBelow host.files (place options.sourceConnection sourcePath) = 1 :=
    filesBelow_file host.sound hfile
  unfold copyFile
  refine ask_spec.bind fun existing t _ ht => ?_
  obtain ⟨hexisting, hworld, hdone⟩ := ht
  cases hexisting
  have ht := h.of_world hworld
  rw [h.here]
  have hkept_iff : ∀ existing : Option Node,
      kept options (.file content mode) existing targetPath = true ↔
        (existing.isSome && conflictDecision options targetPath = .skip) = true := by
    intro existing
    cases existing <;> simp [kept, Node.isDirectory]
  split
  case isTrue hskip =>
    have hkept := (hkept_iff _).mpr hskip
    refine ⟨Frame.of_world _ rfl, fun _ _ => ⟨fun rest => ?_, ?_⟩⟩
    · rw [overlay_kept hfile hkept]
      exact ht.same rest
    rw [hbelow, ← hdone]
    change t.completedFiles + (t.skippedFiles + 1) = t.completedFiles + t.skippedFiles + 1
    omega
  case isFalse hskip =>
    have hkept := Bool.eq_false_iff.mpr fun hkept => hskip ((hkept_iff _).mp hkept)
    -- everything at and below the target is the file's
    have hall : ∀ path, place options.targetConnection targetPath <+: path →
        touches place options host original sourcePath targetPath path := by
      rintro _ ⟨rest, rfl⟩
      refine ⟨rest, rfl, ?_⟩
      cases rest with
      | nil => rw [overlay_nil hfile hkept]; rfl
      | cons name rest => rw [overlay_below_file hfile hkept rfl]; rfl
    have hself : ∀ path, path = place options.targetConnection targetPath →
        touches place options host original sourcePath targetPath path := by
      rintro _ rfl
      exact hall _ (prefix_refl _)
    refine ((clearTarget_spec ht.sound ht.steady).mono hall).bind fun _ u hu hcleared => ?_
    have hsound := hu.files.sound ht.sound
    have hsrc := ht.source.frame ht.closed hu (ht.clear_of fun _ htouch => htouch)
    have hread : ∀ v, Frame options.targetConnection
        (· = place options.targetConnection targetPath) u v →
      ∀ bytes, (v.world options.sourceConnection).read
        (place options.sourceConnection sourcePath) = some bytes → bytes = content := by
      intro v hv bytes hbytes
      have hthen := hsrc.frame ht.closed hv (ht.clear_of hself)
      rw [FileSystem.read, hthen.lookup, hfile] at hbytes
      exact (some.inj hbytes).symm
    refine ((pipeline_spec hsound hread).mono hself).bind fun _ v hv hwritten => ?_
    obtain ⟨hflowed, stored, hstored⟩ := hwritten
    have hsound' := hv.files.sound hsound
    refine ((chmod_spec hsound' hstored).mono hself).bind fun _ w hw hchmod => ?_
    obtain ⟨hmoded, hmode⟩ := hchmod
    refine ⟨Frame.of_world _ rfl, fun _ _ => ⟨fun rest => ?_, ?_⟩⟩
    · change (w.world options.targetConnection).lookup _ = _
      cases rest with
      | nil =>
        rw [append_nil, overlay_nil hfile hkept]
        exact hmode
      | cons name rest =>
        rw [overlay_below_file hfile hkept rfl]
        refine (hw.files.sound hsound').nothing_below (fun node hnode => ?_) _ (cons_ne_nil _ _)
        cases hmode.symm.trans hnode
        rfl
    rw [hbelow]
    change w.completedFiles + 1 + w.skippedFiles = s.done + 1
    have hcount : w.completedFiles + w.skippedFiles = s.done :=
      hmoded.trans (hflowed.trans (hcleared.trans hdone))
    omega

theorem prefix_of_touches {path : Path}
    (h : touches place options host original sourcePath targetPath path) :
    place options.targetConnection targetPath <+: path := by
  obtain ⟨rest, rfl, _⟩ := h
  exact prefix_append _ _

/-- Nothing lies at or below both targets. -/
def Apart (place : Connection → Path → Path) (options : TransferOptions) (a b : Path) : Prop :=
  ∀ path, place options.targetConnection a <+: path → ¬ place options.targetConnection b <+: path

theorem Ready.frame {otherSource otherTarget : Path} {t : State}
    (h : Ready place options host original region sourcePath targetPath s)
    (hother : Ready place options host original region otherSource otherTarget s)
    (hframe : Frame options.targetConnection
      (touches place options host original otherSource otherTarget) s t)
    (hapart : Apart place options otherTarget targetPath) :
    Ready place options host original region sourcePath targetPath t := { h with
    source := h.source.frame h.closed hframe hother.clear
    sound := hframe.files.sound h.sound
    same rest := by
      rw [hframe.files.lookup _ fun htouch => ?_]
      · exact h.same rest
      exact hapart _ (prefix_of_touches htouch) (prefix_append _ _) }

theorem copyAll_spec {α : Type} (run : α → Transfer Unit) (source target : α → Path)
    (hrun : ∀ a s, Ready place options host original region (source a) (target a) s →
      Spec options.targetConnection (touches place options host original (source a) (target a))
        (run a) s (fun _ t => Laid place options host original (source a) (target a) s t))
    {entries : List α} (hapart : entries.Pairwise fun a b => Apart place options (target a) (target b))
    (hready : ∀ a ∈ entries, Ready place options host original region (source a) (target a) s) :
    Spec options.targetConnection
      (fun path => ∃ a ∈ entries, touches place options host original (source a) (target a) path)
      (forEach run entries) s (fun _ t => (∀ a ∈ entries, Copied options host.files original
          (place options.sourceConnection (source a)) (target a)
          (place options.targetConnection (target a)) (t.world options.targetConnection)) ∧
        t.done = s.done + (entries.map fun a =>
          filesBelow host.files (place options.sourceConnection (source a))).sum) := by
  induction entries generalizing s with
  | nil => exact Spec.pure ⟨fun a ha => absurd ha not_mem_nil, rfl⟩
  | cons a entries ih =>
    obtain ⟨hhead, htail⟩ := pairwise_cons.mp hapart
    have hself := hready a mem_cons_self
    refine ((hrun a s hself).framed.mono fun path hpath => ⟨a, mem_cons_self, hpath⟩).bind
      fun _ t _ ht => ?_
    obtain ⟨hframe, hcopied, hdone⟩ := ht
    have hrest := ih htail fun b hb =>
      (hready b (mem_cons_of_mem _ hb)).frame hself hframe (hhead b hb)
    refine (hrest.framed.mono ?_).imp fun _ u _ hu => ?_
    · rintro path ⟨b, hb, hpath⟩
      exact ⟨b, mem_cons_of_mem _ hb, hpath⟩
    obtain ⟨hframe', hcopied', hdone'⟩ := hu
    refine ⟨fun b hb => ?_, ?_⟩
    · rcases mem_cons.mp hb with rfl | hb
      · intro rest
        rw [hframe'.files.lookup _ ?_]
        · exact hcopied rest
        rintro ⟨c, hc, htouch⟩
        exact hhead c hc _ (prefix_append _ _) (prefix_of_touches htouch)
      exact hcopied' b hb
    rw [hdone', hdone, map_cons, sum_cons, Nat.add_assoc]

theorem touches_child {node : Node} {name : String} {path : Path}
    (h : Ready place options host original region sourcePath targetPath s)
    (hnode : host.files.lookup (place options.sourceConnection sourcePath) = some node)
    (hkept : kept options node
      (original.lookup (place options.targetConnection targetPath)) targetPath = false)
    (hdir : node.isDirectory = true)
    (htouch : touches place options host original (sourcePath ++ [name]) (targetPath ++ [name])
      path) : touches place options host original sourcePath targetPath path := by
  obtain ⟨rest, rfl, hsome⟩ := htouch
  rw [h.source.steady, h.steady] at hsome
  refine ⟨name :: rest, by rw [h.steady, append_assoc]; rfl, ?_⟩
  rw [overlay_child hnode hkept hdir]
  exact hsome

theorem Ready.child {node : Node} {t : State} (name : String)
    (h : Ready place options host original region sourcePath targetPath s)
    (hnode : host.files.lookup (place options.sourceConnection sourcePath) = some node)
    (hkept : kept options node
      (original.lookup (place options.targetConnection targetPath)) targetPath = false)
    (hdir : node.isDirectory = true) (hframe : Frame options.targetConnection
      (· = place options.targetConnection targetPath) s t) :
    Ready place options host original region (sourcePath ++ [name]) (targetPath ++ [name]) t where
  source := by
    refine (h.source.frame h.closed hframe fun heq path hpath htouch => ?_).child name
    subst htouch
    refine h.clear heq _ hpath ⟨[], (append_nil _).symm, ?_⟩
    rw [overlay_nil hnode hkept]
    rfl
  closed := h.closed
  steady := h.steady.append [name]
  sound := hframe.files.sound h.sound
  same rest := by
    rw [h.steady, append_assoc, hframe.files.lookup _ fun htouch => ?_]
    · exact h.same _
    simp at htouch
  clear heq path hpath htouch :=
    h.clear heq path hpath (touches_child h hnode hkept hdir htouch)

theorem apart_children {a b : String}
    (hsteady : Steady place options.targetConnection targetPath) (hne : a ≠ b) :
    Apart place options (targetPath ++ [a]) (targetPath ++ [b]) := by
  intro path ha hb
  rw [hsteady] at ha hb
  exact hne (name_unique ha hb)

section

variable (h : Ready place options host original region sourcePath targetPath s)
include h

/-- A directory that is skipped counts its files, any other is made and its entries copied. -/
theorem copyDirectory_spec {depth mode : ℕ}
    (hlook : host.files.lookup (place options.sourceConnection sourcePath) =
      some (.directory mode)) (hcopy : ∀ name t,
      Ready place options host original region (sourcePath ++ [name]) (targetPath ++ [name]) t →
      Spec options.targetConnection
        (touches place options host original (sourcePath ++ [name]) (targetPath ++ [name]))
        (copyEntry place environment options depth (sourcePath ++ [name]) (targetPath ++ [name])) t
        (fun _ u => Laid place options host original (sourcePath ++ [name]) (targetPath ++ [name])
          t u)) :
    Spec options.targetConnection (touches place options host original sourcePath targetPath) (do
        let merged ← ensureDirectory place environment options depth targetPath if merged then do
          let names ← readdir place environment options.sourceConnection sourcePath
          forEach (fun name => copyEntry place environment options depth (sourcePath ++ [name])
            (targetPath ++ [name])) names
          action place environment options.targetConnection targetPath fun fs found =>
            fs.chmod found (permissions mode) else do
          let skipped ← buildPlan place environment options.sourceConnection depth sourcePath
          noteSkipped skipped.totalFiles) s
      (fun _ t => Laid place options host original sourcePath targetPath s t) := by
  cases hkept : kept options (.directory mode)
      (original.lookup (place options.targetConnection targetPath)) targetPath with
  | true =>
    have hensure : Spec options.targetConnection _
        (ensureDirectory place environment options depth targetPath) s _ :=
      ensureDirectory_spec rfl h.sound (by rw [h.here, hkept])
    refine (hensure.framed.mono fun path hpath => absurd hpath.2 Bool.noConfusion).bind
      fun merged t _ ht => ?_
    obtain ⟨hframe, hdone, rfl, _⟩ := ht
    have hsrc := h.source.frame h.closed hframe fun _ _ _ hpath =>
      absurd hpath.2 Bool.noConfusion
    refine (buildPlan_spec hsrc).bind fun plan u _ hu => ?_
    obtain ⟨hworld, hdone', hfiles⟩ := hu
    refine ⟨Frame.of_world _ rfl, fun _ _ => ⟨fun rest => ?_, ?_⟩⟩
    · rw [overlay_kept hlook hkept]
      change (u.world options.targetConnection).lookup _ = _
      rw [hworld, hframe.files.lookup _ fun hpath => absurd hpath.2 Bool.noConfusion]
      exact h.same rest
    change u.completedFiles + (u.skippedFiles + plan.totalFiles) = _
    have hcount : u.completedFiles + u.skippedFiles = s.done := hdone'.trans hdone
    omega
  | false =>
    have hself : ∀ path, path = place options.targetConnection targetPath →
        touches place options host original sourcePath targetPath path := by
      rintro _ rfl
      exact ⟨[], (append_nil _).symm, by rw [overlay_nil hlook hkept]; rfl⟩
    have hensure : Spec options.targetConnection _
        (ensureDirectory place environment options depth targetPath) s _ :=
      ensureDirectory_spec rfl h.sound (by rw [h.here, hkept])
    refine ((hensure.mono fun path hpath => hpath.1).framed.mono hself).bind fun merged t _ ht => ?_
    obtain ⟨hframe, hdone, rfl, hdir⟩ := ht
    obtain ⟨made, hmade⟩ := hdir rfl
    refine readdir_spec.bind fun listed u _ hu => ?_
    obtain ⟨_, hlisted, hworld, hdone'⟩ := hu
    have hsrc := h.source.frame h.closed hframe (h.clear_of hself)
    rw [hsrc.names] at hlisted
    subst hlisted
    have hready : ∀ name, Ready place options host original region (sourcePath ++ [name])
        (targetPath ++ [name]) u := fun name =>
      (h.child name hlook hkept rfl hframe).of_world hworld
    have hchildren := copyAll_spec (s := u) _ _ _ hcopy
      ((host.sound.names_nodup (place options.sourceConnection sourcePath)).imp fun hne => apart_children h.steady hne)
      fun name _ => hready name
    refine (hchildren.framed.mono ?_).bind fun _ v _ hv => ?_
    · rintro path ⟨name, _, htouch⟩
      exact touches_child h hlook hkept rfl htouch
    obtain ⟨hframe', hcopied, hdone''⟩ := hv
    have hhere : (v.world options.targetConnection).lookup
        (place options.targetConnection targetPath) = some (.directory made) := by
      rw [hframe'.files.lookup _ ?_, hworld, hmade]
      rintro ⟨name, _, htouch⟩
      have hprefix := prefix_of_touches htouch
      rw [h.steady] at hprefix
      have hlen := hprefix.length_le
      rw [length_append, length_singleton] at hlen
      omega
    have hsound : FileTree.WellFormed Node.isDirectory (v.world options.targetConnection) := by
      refine hframe'.files.sound ?_
      rw [hworld]
      exact hframe.files.sound h.sound
    refine ((chmod_spec hsound hhere).framed.mono hself).imp fun _ w _ hw => ⟨fun rest => ?_, ?_⟩
    · obtain ⟨hframe'', _, hmode⟩ := hw
      cases rest with
      | nil =>
        rw [append_nil, overlay_nil hlook hkept]
        exact hmode
      | cons name rest =>
        rw [hframe''.files.lookup _ (by simp), overlay_child hlook hkept rfl]
        by_cases hname : name ∈ names host.files (place options.sourceConnection sourcePath)
        · have hchild := hcopied name hname rest
          rw [h.steady, h.source.steady, append_assoc] at hchild
          exact hchild
        rw [FileTree.mem_names, not_isSome_iff_eq_none] at hname
        rw [overlay_none hname, hframe'.files.lookup _ ?_]
        · have hsame := (hready name).same rest
          rw [h.steady, append_assoc] at hsame
          exact hsame
        rintro ⟨other, hother, htouch⟩
        have hprefix := prefix_of_touches htouch
        rw [h.steady] at hprefix
        have heq := name_unique hprefix
          (⟨rest, by simp⟩ : place options.targetConnection targetPath ++ [name] <+: _)
        subst heq
        rw [FileTree.mem_names] at hother
        rw [show FileTree.lookup host.files _ = none from hname] at hother
        cases hother
    rw [hw.2.1, hdone'', hdone', hdone, filesBelow_directory host.sound hlook]
    simp only [h.source.steady [_]]

theorem copyEntry_spec {depth : ℕ} :
    Spec options.targetConnection (touches place options host original sourcePath targetPath)
      (copyEntry place environment options depth sourcePath targetPath) s
      (fun _ t => Laid place options host original sourcePath targetPath s t) := by
  induction depth generalizing s sourcePath targetPath with
  | zero => exact Spec.stop
  | succ depth ih =>
    rw [copyEntry]
    refine checkAborted_spec.bind fun _ t _ ht => ?_
    subst ht
    refine ask_spec.bind fun node u _ hu => ?_
    obtain ⟨hlook, hworld, hdone⟩ := hu
    rw [h.source.lookup] at hlook
    have hu := h.of_world hworld
    cases node with
    | link => exact Spec.stop
    | file content mode =>
      refine (copyFile_spec hu hlook).imp fun _ v _ hv => ⟨hv.1, ?_⟩
      rw [hv.2, hdone]
    | directory mode =>
      refine (copyDirectory_spec hu hlook fun _ _ h => ih h).imp fun _ v _ hv => ⟨hv.1, ?_⟩
      rw [hv.2, hdone]

end

end ImApp.Sftp
