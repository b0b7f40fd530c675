import Vdev.Device

/-!
What an ADD request returns for every outcome of its steps (vdevd/device.c). A step is given by
the error number that it fails with, and 0 stands for success; the handler on a file tree is the
case in which the tree decides. A step that fails stops the request: no metadata is written and
no command is run. But the handler ends in `return 0`, so that a failed `mknod`, and metadata that
could not be looked up, are not reported.
-/
namespace Vdev.AddOutcome

open CString FileTree SystemCalls Paths Directories Data Vdev.Action Metadata Device

def ENOENT : ℕ := 2
def EACCES : ℕ := 13
def EEXIST : ℕ := 17

/-- What the steps come to: `vdev_action_create_path`, which may return the status of a command,
with the path that it sets, `vdev_mkdirs` and `mknod` for the node, `stat` on the metadata,
`vdev_mkdirs` for the metadata, `vdev_device_put_metadata_item` with `O_CREAT` and without, and
`vdev_action_run_commands`. -/
structure Outcomes where
  createPath : Int := 0
  newPath : Option CStr := none
  mkdirs : ℕ := 0
  mknod : ℕ := 0
  stat : ℕ := 0
  metadataDirs : ℕ := 0
  create : ℕ := 0
  update : ℕ := 0
  runCommands : Int := 0

/-- What a request did: its return code, what `vdev_device_put_metadata` returned if it was called,
and what `vdev_action_run_commands` was called with and returned. -/
structure Result where
  rc : Int
  put : Option Int := none
  ran : Option (Bool × Int) := none
  deriving DecidableEq

variable (o : Outcomes) (st : VdevState) (req : Request)

/-- `vdev_device_mkdirs`. -/
def deviceMkdirs (renamed : CStr) : Int := if '/' ∈ renamed then -o.mkdirs else 0

/-- `vdev_device_has_metadata`. -/
def deviceHasMetadata : Int := -o.stat

/-- `vdev_device_put_metadata`. -/
def devicePutMetadata (renamed : CStr) : Int :=
  if renamed = unknownPath then Errno.einval.rc
  else if o.metadataDirs ≠ 0 then -o.metadataDirs
  else if o.create = EEXIST then -o.update
  else -o.create

/-- The part of `vdev_device_add` that makes the node: `rc` and `device_exists`. -/
def addNode : Int × Bool :=
  if configHasOSQuirk st.config.osQuirks VDEV_OS_QUIRK_DEVICE_EXISTS then
    (0, deviceHasMetadata o ≠ 0)
  else if !req.existsFlag then
    if o.mknod = 0 then (0, false)
    else if o.mknod = EEXIST then (0, true)
    else (-o.mknod, false)
  else (0, false)

/-- The part for a request without a device number or mode. -/
def addEvent : Int × Bool :=
  if deviceHasMetadata o ≠ 0 then
    if deviceHasMetadata o = -ENOENT then (0, false) else (deviceHasMetadata o, false)
  else (0, true)

/-- The part behind the node, up to the end. -/
def addFinish (renamed : CStr) (entered : Int × Bool) : Result :=
  if entered.1 ≠ 0 then { rc := 0 }
  else if devicePutMetadata o renamed ≠ 0 then
    { rc := 0, put := some (devicePutMetadata o renamed) }
  else { rc := 0, put := some 0, ran := some (entered.2, o.runCommands) }

/-- `vdev_device_add`. -/
def deviceAdd : Result :=
  if o.createPath ≠ 0 then { rc := o.createPath }
  else
    match o.newPath <|> req.path with
    | none => { rc := 0 }
    | some renamed =>
      if renamed ≠ unknownPath then
        if req.dev ≠ 0 ∧ req.mode ≠ 0 then
          if deviceMkdirs o renamed ≠ 0 then { rc := deviceMkdirs o renamed }
          else addFinish o renamed (addNode o st req)
        else addFinish o renamed (addEvent o)
      else { rc := 0, ran := some (false, o.runCommands) }

def newName : Option CStr := o.newPath <|> req.path

def HasNode : Prop :=
  (∃ name, newName o req = some name ∧ name ≠ unknownPath) ∧ req.dev ≠ 0 ∧ req.mode ≠ 0

/-- The nodes are not made by vdevd. -/
def Quirk : Prop := configHasOSQuirk st.config.osQuirks VDEV_OS_QUIRK_DEVICE_EXISTS = true

def DirectoriesFail : Prop :=
  o.createPath = 0 ∧ HasNode o req ∧ (∃ name, newName o req = some name ∧ '/' ∈ name) ∧ o.mkdirs ≠ 0

/-- `mknod` is called. -/
def MakesNode : Prop :=
  o.createPath = 0 ∧ HasNode o req ∧ ¬DirectoriesFail o req ∧ ¬Quirk st ∧ req.existsFlag = false

def LooksUp : Prop :=
  o.createPath = 0 ∧ (∃ name, newName o req = some name ∧ name ≠ unknownPath) ∧
    (HasNode o req → ¬DirectoriesFail o req ∧ Quirk st)

def MknodFails : Prop := MakesNode o st req ∧ o.mknod ≠ 0 ∧ o.mknod ≠ EEXIST

def LookupFails : Prop := LooksUp o st req ∧ o.stat ≠ 0 ∧ o.stat ≠ ENOENT

/-- A step failed that is not the write of the metadata and not a command. -/
def Failed : Prop :=
  o.createPath ≠ 0 ∨ DirectoriesFail o req ∨ MknodFails o st req ∨ LookupFails o st req

def NodeReady : Prop :=
  MakesNode o st req ∧ (o.mknod = 0 ∨ o.mknod = EEXIST) ∨ req.existsFlag = true ∨ ¬HasNode o req ∨
    Quirk st

structure Contract (r : Result) : Prop where
  inert : r.put ≠ none ∨ r.ran ≠ none →
    o.createPath = 0 ∧ ¬DirectoriesFail o req ∧ NodeReady o st req
  recorded : r.ran ≠ none → r.put = some 0 ∨ newName o req = some unknownPath
  zero : r.rc = 0 ↔ ¬Failed o st req
  negative : Failed o st req → r.rc < 0
  eacces : MakesNode o st req → o.mknod = EACCES → r.rc = -EACCES

variable {o st req}

theorem addFinish_rc (name : CStr) (entered : Int × Bool) : (addFinish o name entered).rc = 0 := by
  unfold addFinish
  split_ifs <;> rfl

theorem addFinish_failed {name : CStr} {entered : Int × Bool} (h : entered.1 ≠ 0) :
    addFinish o name entered = { rc := 0 } := if_pos h

theorem addFinish_recorded (name : CStr) (entered : Int × Bool)
    (h : (addFinish o name entered).ran ≠ none) : (addFinish o name entered).put = some 0 := by
  unfold addFinish at h ⊢
  split_ifs at h ⊢
  · exact absurd rfl h
  · exact absurd rfl h
  · rfl

theorem deviceMkdirs_eq_zero_iff (name : CStr) :
    deviceMkdirs o name = 0 ↔ ¬('/' ∈ name ∧ o.mkdirs ≠ 0) := by
  unfold deviceMkdirs
  split_ifs with h <;> simp [h]

inductive Ending (o : Outcomes) (st : VdevState) (req : Request) : Result → Prop
  | rename (h : o.createPath ≠ 0) : Ending o st req { rc := o.createPath }
  | unnamed (hrename : o.createPath = 0) (h : newName o req = none) : Ending o st req { rc := 0 }
  | unknown (hrename : o.createPath = 0) (h : newName o req = some unknownPath) :
      Ending o st req { rc := 0, ran := some (false, o.runCommands) }
  | directories (h : DirectoriesFail o req) : Ending o st req { rc := -o.mkdirs }
  | node (name : CStr) (hrename : o.createPath = 0) (hname : newName o req = some name)
      (hnode : HasNode o req) (h : ¬DirectoriesFail o req) :
      Ending o st req (addFinish o name (addNode o st req))
  | event (name : CStr) (hrename : o.createPath = 0) (hname : newName o req = some name)
      (hknown : name ≠ unknownPath) (h : ¬HasNode o req) :
      Ending o st req (addFinish o name (addEvent o))

theorem deviceAdd_ending (o : Outcomes) (st : VdevState) (req : Request) :
    Ending o st req (deviceAdd o st req) := by
  unfold deviceAdd
  by_cases hrename : o.createPath = 0
  swap
  · rw [if_pos hrename]
    exact .rename hrename
  rw [if_neg (not_not.mpr hrename)]
  cases hname : o.newPath <|> req.path with
  | none => exact .unnamed hrename hname
  | some name =>
    dsimp only
    by_cases hunknown : name = unknownPath
    · rw [if_neg (not_not.mpr hunknown)]
      exact .unknown hrename (hname.trans (congrArg some hunknown))
    rw [if_pos hunknown]
    by_cases hnode : req.dev ≠ 0 ∧ req.mode ≠ 0
    swap
    · rw [if_neg hnode]
      exact .event name hrename hname hunknown (fun h => hnode h.2)
    rw [if_pos hnode]
    have hhas : HasNode o req := ⟨⟨name, hname, hunknown⟩, hnode⟩
    have hiff := deviceMkdirs_eq_zero_iff (o := o) name
    by_cases hdirs : '/' ∈ name ∧ o.mkdirs ≠ 0
    · rw [if_pos (fun h => hiff.mp h hdirs), deviceMkdirs, if_pos hdirs.1]
      exact .directories ⟨hrename, hhas, ⟨name, hname, hdirs.1⟩, hdirs.2⟩
    · rw [if_neg (not_not.mpr (hiff.mpr hdirs))]
      refine .node name hrename hname hhas ?_
      rintro ⟨-, -, ⟨name', hname', hslash⟩, hfail⟩
      cases hname.symm.trans hname'
      exact hdirs ⟨hslash, hfail⟩

/-- Where a failure is reported, and where it is not. -/
theorem deviceAdd_rc (o : Outcomes) (st : VdevState) (req : Request) :
    (o.createPath ≠ 0 → (deviceAdd o st req).rc = o.createPath) ∧
      (DirectoriesFail o req → (deviceAdd o st req).rc = -o.mkdirs) ∧
      (o.createPath = 0 → ¬DirectoriesFail o req → (deviceAdd o st req).rc = 0) := by
  have hending := deviceAdd_ending o st req
  generalize deviceAdd o st req = r at hending ⊢
  cases hending with
  | rename h => exact ⟨fun _ => rfl, fun hdirs => absurd hdirs.1 h, fun h' => absurd h' h⟩
  | unnamed hrename hname =>
    refine ⟨fun h => absurd hrename h, fun hdirs => ?_, fun _ _ => rfl⟩
    obtain ⟨-, -, ⟨name, hname', -⟩, -⟩ := hdirs
    cases hname.symm.trans hname'
  | unknown hrename hname =>
    refine ⟨fun h => absurd hrename h, fun hdirs => ?_, fun _ _ => rfl⟩
    obtain ⟨-, ⟨⟨name, hname', hknown⟩, -⟩, -⟩ := hdirs
    cases hname.symm.trans hname'
    exact absurd rfl hknown
  | directories h => exact ⟨fun h' => absurd h.1 h', fun _ => rfl, fun _ hnot => absurd h hnot⟩
  | node name hrename hname hnode h =>
    exact ⟨fun h' => absurd hrename h', fun hdirs => absurd hdirs h, fun _ _ => addFinish_rc _ _⟩
  | event name hrename hname hknown h =>
    exact ⟨fun h' => absurd hrename h', fun hdirs => absurd hdirs.2.1 h,
      fun _ _ => addFinish_rc _ _⟩

/-- Nothing is recorded and nothing is run after a step that failed. -/
theorem deviceAdd_inert (o : Outcomes) (st : VdevState) (req : Request)
    (hacts : (deviceAdd o st req).put ≠ none ∨ (deviceAdd o st req).ran ≠ none) :
    o.createPath = 0 ∧ ¬DirectoriesFail o req ∧ NodeReady o st req := by
  have hready : ∀ {name : CStr} {entered : Int × Bool},
      (addFinish o name entered).put ≠ none ∨ (addFinish o name entered).ran ≠ none →
        entered.1 = 0 := by
    intro name entered h
    by_contra hne
    rw [addFinish_failed hne] at h
    exact h.elim (fun h => h rfl) (fun h => h rfl)
  have hending := deviceAdd_ending o st req
  generalize deviceAdd o st req = r at hending hacts
  cases hending with
  | rename h => exact absurd hacts (by simp)
  | unnamed hrename hname => exact absurd hacts (by simp)
  | unknown hrename hname =>
    have hno : ¬HasNode o req := by
      rintro ⟨⟨name, hname', hknown⟩, -⟩
      cases hname.symm.trans hname'
      exact hknown rfl
    exact ⟨hrename, fun h => hno h.2.1, Or.inr (Or.inr (Or.inl hno))⟩
  | directories h => exact absurd hacts (by simp)
  | node name hrename hname hnode h =>
    refine ⟨hrename, h, ?_⟩
    have hrc := hready hacts
    unfold addNode at hrc
    split_ifs at hrc with hquirk hexists hmade hold
    · exact Or.inr (Or.inr (Or.inr hquirk))
    · exact Or.inl ⟨⟨hrename, hnode, h, hquirk, by simpa using hexists⟩, Or.inl hmade⟩
    · exact Or.inl ⟨⟨hrename, hnode, h, hquirk, by simpa using hexists⟩, Or.inr hold⟩
    · dsimp only at hrc
      omega
    · exact Or.inr (Or.inl (by simpa using hexists))
  | event name hrename hname hknown h =>
    exact ⟨hrename, fun hdirs => h hdirs.2.1, Or.inr (Or.inr (Or.inl h))⟩

/-- Commands are run after the metadata were written. -/
theorem deviceAdd_recorded (o : Outcomes) (st : VdevState) (req : Request)
    (hran : (deviceAdd o st req).ran ≠ none) :
    (deviceAdd o st req).put = some 0 ∨ newName o req = some unknownPath := by
  have hending := deviceAdd_ending o st req
  generalize deviceAdd o st req = r at hending hran ⊢
  cases hending with
  | rename h => exact absurd rfl hran
  | unnamed hrename hname => exact absurd rfl hran
  | unknown hrename hname => exact Or.inr hname
  | directories h => exact absurd rfl hran
  | node name hrename hname hnode h => exact Or.inl (addFinish_recorded _ _ hran)
  | event name hrename hname hknown h => exact Or.inl (addFinish_recorded _ _ hran)

/-- The contract is kept exactly when the rename step returns no positive status, `mknod` is not
called or succeeds or finds the node, and the metadata are not looked for, or found, or missing. -/
theorem deviceAdd_contract_iff (o : Outcomes) (st : VdevState) (req : Request) :
    Contract o st req (deviceAdd o st req) ↔
      ¬0 < o.createPath ∧ ¬MknodFails o st req ∧ ¬LookupFails o st req := by
  obtain ⟨hrename, hdirs, hzero⟩ := deviceAdd_rc o st req
  constructor
  · intro h
    refine ⟨fun hpos => ?_, fun hmknod => ?_, fun hlookup => ?_⟩
    · have hne : o.createPath ≠ 0 := by omega
      have hneg := h.negative (Or.inl hne)
      rw [hrename hne] at hneg
      omega
    · have hrc := hzero hmknod.1.1 hmknod.1.2.2.1
      have hneg := h.negative (Or.inr (Or.inr (Or.inl hmknod)))
      omega
    · have hnodirs : ¬DirectoriesFail o req := fun hd => (hlookup.1.2.2 hd.2.1).1 hd
      have hrc := hzero hlookup.1.1 hnodirs
      have hneg := h.negative (Or.inr (Or.inr (Or.inr hlookup)))
      omega
  · rintro ⟨hpos, hmknod, hlookup⟩
    have hnegative : Failed o st req → (deviceAdd o st req).rc < 0 := by
      rintro (h | h | h | h)
      · rw [hrename h]
        omega
      · have hne := h.2.2.2
        rw [hdirs h]
        omega
      · exact absurd h hmknod
      · exact absurd h hlookup
    refine ⟨deviceAdd_inert o st req, deviceAdd_recorded o st req, ?_, hnegative, ?_⟩
    · constructor
      · intro hrc hfailed
        have hneg := hnegative hfailed
        omega
      · intro hfine
        exact hzero (by_contra fun h => hfine (Or.inl h)) (fun h => hfine (Or.inr (Or.inl h)))
    · intro hmakes heacces
      refine absurd ⟨hmakes, ?_, ?_⟩ hmknod
      · rw [heacces]
        decide
      · rw [heacces]
        decide

section OnTree

variable {σ : Type} (c : Commands (FS × σ))

/-- The directories on the way to a node, and the tree that the rest of the request finds. -/
def enteredTree (st : VdevState) (req : Request) (name : CStr) (T : FS) : FS :=
  if req.dev ≠ 0 ∧ req.mode ≠ 0 then (Device.deviceMkdirs st name T).2 else T

/-- What the tree comes to when the node has been made. -/
def nodeTree (st : VdevState) (req : Request) (name : CStr) (T : FS) : FS :=
  if req.dev ≠ 0 ∧ req.mode ≠ 0 then
    (Device.addNode st { req with renamedPath := some name } name T).2.2
  else (Device.addEvent st name T).2.2

def treeOutcomes (st : VdevState) (req : Request) (name : CStr) (w : FS × σ) : Outcomes :=
  let dirp := dirname (fullpath st.mountpoint name)
  let dirs := Directories.mkdirs dirp st.mountpoint.length 0o755 w.1
  let T := enteredTree st req name w.1
  let node := SystemCalls.mknod T (fullpath st.mountpoint name) (req.mode ||| st.config.defaultMode)
    req.dev
  let U := nodeTree st req name T
  let baseDir := metadataFullpath st.mountpoint name
  let made := Directories.mkdirs baseDir st.mountpoint.length 0o755 U
  let written := putMetadataItem baseDir paramInstance st.config.instanceStr true 0o644 made.2
  let updated := putMetadataItem baseDir paramInstance st.config.instanceStr false 0o644 written.2
  { newPath := some name
    mkdirs := dirs.1.natAbs
    mknod := match node with
      | .ok _ => 0
      | .error e => e.rc.natAbs
    stat := (hasMetadata st name T).natAbs
    metadataDirs := made.1.natAbs
    create := written.1.natAbs
    update := updated.1.natAbs }

theorem mkdirs_nonpos (dirp : CStr) (start mode : ℕ) (T : FS) :
    (Directories.mkdirs dirp start mode T).1 ≤ 0 := by
  have hstep : ∀ (U : FS) (currdir : CStr), (mkdirsStep U currdir mode).1 ≤ 0 := by
    intro U currdir
    unfold mkdirsStep
    split
    · exact le_refl _
    · exact Errno.enotdir.rc_neg.le
    · split
      · rename_i e _
        exact e.rc_neg.le
      · exact le_refl _
  rw [Directories.mkdirs]
  generalize dirp.length + 1 - start = fuel
  induction fuel generalizing start T with
  | zero => exact le_refl _
  | succ fuel ih =>
    rw [mkdirsLoop]
    split
    · split
      · generalize dirp.take (if start = 0 then 1 else start) = currdir
        dsimp only
        split
        · exact hstep T currdir
        · exact ih _ _
      · exact ih _ _
    · exact le_refl _

theorem putMetadataItem_nonpos (baseDir name value : CStr) (create : Bool) (mode : ℕ) (T : FS) :
    (putMetadataItem baseDir name value create mode T).1 ≤ 0 := by
  unfold putMetadataItem
  split
  · rename_i e _
    exact e.rc_neg.le
  · exact le_refl _

theorem neg_natAbs {rc : Int} (h : rc ≤ 0) : -(rc.natAbs : Int) = rc := by
  omega

theorem deviceMkdirs_tree (st : VdevState) (req : Request) (name : CStr) (w : FS × σ) :
    (Device.deviceMkdirs st name w.1).1 = deviceMkdirs (treeOutcomes st req name w) name := by
  unfold Device.deviceMkdirs deviceMkdirs
  dsimp only
  split_ifs with h
  · exact (neg_natAbs (mkdirs_nonpos _ _ _ _)).symm
  · rfl

theorem hasMetadata_nonpos (st : VdevState) (name : CStr) (T : FS) : hasMetadata st name T ≤ 0 := by
  unfold hasMetadata
  split
  · rename_i e _
    exact e.rc_neg.le
  · exact le_refl _

theorem hasMetadata_tree (st : VdevState) (req : Request) (name : CStr) (w : FS × σ) :
    hasMetadata st name (enteredTree st req name w.1) =
      deviceHasMetadata (treeOutcomes st req name w) :=
  (neg_natAbs (hasMetadata_nonpos _ _ _)).symm

theorem addNode_tree (st : VdevState) (req : Request) (name : CStr) (w : FS × σ)
    (hnode : req.dev ≠ 0 ∧ req.mode ≠ 0) :
    let entered := Device.addNode st { req with renamedPath := some name } name
      (Device.deviceMkdirs st name w.1).2
    (entered.1, entered.2.1) = addNode (treeOutcomes st req name w) st req := by
  have hT : enteredTree st req name w.1 = (Device.deviceMkdirs st name w.1).2 := if_pos hnode
  have hmeta := hasMetadata_tree st req name w
  rw [hT] at hmeta
  have hmknod : (treeOutcomes st req name w).mknod =
      match SystemCalls.mknod (Device.deviceMkdirs st name w.1).2 (fullpath st.mountpoint name)
        (req.mode ||| st.config.defaultMode) req.dev with
      | .ok _ => 0
      | .error e => e.rc.natAbs := by
    rw [← hT]
    rfl
  unfold Device.addNode addNode
  rw [hmeta, hmknod]
  dsimp only
  by_cases hquirk : configHasOSQuirk st.config.osQuirks VDEV_OS_QUIRK_DEVICE_EXISTS = true
  · rw [if_pos hquirk, if_pos hquirk]
    split_ifs with hhas
    · rw [decide_eq_true hhas]
    · rw [decide_eq_false hhas]
  rw [if_neg hquirk, if_neg hquirk]
  by_cases hexists : (!req.existsFlag) = true
  · rw [if_pos hexists, if_pos hexists]
    cases SystemCalls.mknod (Device.deviceMkdirs st name w.1).2 (fullpath st.mountpoint name)
        (req.mode ||| st.config.defaultMode) req.dev with
    | ok U => rfl
    | error e => cases e <;> rfl
  · rw [if_neg hexists, if_neg hexists]

theorem addEvent_tree (st : VdevState) (req : Request) (name : CStr) (w : FS × σ)
    (hnode : ¬(req.dev ≠ 0 ∧ req.mode ≠ 0)) :
    let entered := Device.addEvent st name w.1
    (entered.1, entered.2.1) = addEvent (treeOutcomes st req name w) := by
  have hT : enteredTree st req name w.1 = w.1 := if_neg hnode
  have hmeta := hasMetadata_tree st req name w
  rw [hT] at hmeta
  unfold Device.addEvent addEvent
  rw [hmeta]
  dsimp only
  split_ifs with h₁ h₂ h₃ h₃
  · rfl
  · exact absurd h₂ h₃
  · exact absurd h₃ h₂
  · rfl
  · rfl

theorem putMetadata_tree (st : VdevState) (req : Request) (name : CStr) (w : FS × σ) :
    (putMetadata st name (nodeTree st req name (enteredTree st req name w.1))).1 =
      devicePutMetadata (treeOutcomes st req name w) name := by
  have hdirs : (treeOutcomes st req name w).metadataDirs =
      (Directories.mkdirs (metadataFullpath st.mountpoint name) st.mountpoint.length 0o755
        (nodeTree st req name (enteredTree st req name w.1))).1.natAbs := rfl
  have hcreate : (treeOutcomes st req name w).create = (putMetadataItem
      (metadataFullpath st.mountpoint name) paramInstance st.config.instanceStr true 0o644
      (Directories.mkdirs (metadataFullpath st.mountpoint name) st.mountpoint.length 0o755
        (nodeTree st req name (enteredTree st req name w.1))).2).1.natAbs := rfl
  have hupdate : (treeOutcomes st req name w).update = (putMetadataItem
      (metadataFullpath st.mountpoint name) paramInstance st.config.instanceStr false 0o644
      (putMetadataItem (metadataFullpath st.mountpoint name) paramInstance st.config.instanceStr
        true 0o644 (Directories.mkdirs (metadataFullpath st.mountpoint name) st.mountpoint.length
          0o755 (nodeTree st req name (enteredTree st req name w.1))).2).2).1.natAbs := rfl
  unfold putMetadata devicePutMetadata
  by_cases hunknown : name = unknownPath
  · rw [if_pos hunknown, if_pos hunknown]
  rw [if_neg hunknown, if_neg hunknown, hdirs, hcreate, hupdate]
  dsimp only
  clear hdirs hcreate hupdate
  generalize metadataFullpath st.mountpoint name = baseDir
  generalize nodeTree st req name (enteredTree st req name w.1) = T
  have hmade := mkdirs_nonpos baseDir st.mountpoint.length 0o755 T
  generalize Directories.mkdirs baseDir st.mountpoint.length 0o755 T = made at hmade ⊢
  have hwritten :=
    putMetadataItem_nonpos baseDir paramInstance st.config.instanceStr true 0o644 made.2
  generalize putMetadataItem baseDir paramInstance st.config.instanceStr true 0o644 made.2 = written
    at hwritten ⊢
  have hupdated :=
    putMetadataItem_nonpos baseDir paramInstance st.config.instanceStr false 0o644 written.2
  by_cases hdirs : made.1 = 0
  swap
  · rw [if_pos hdirs, if_pos (Int.natAbs_ne_zero.mpr hdirs), neg_natAbs hmade]
  rw [if_neg (not_not.mpr hdirs), if_neg (not_not.mpr (Int.natAbs_eq_zero.mpr hdirs))]
  have hexists : written.1 = Errno.eexist.rc ↔ written.1.natAbs = EEXIST := by
    have hrc : Errno.eexist.rc = -17 := rfl
    rw [hrc, EEXIST]
    omega
  by_cases hold : written.1 = Errno.eexist.rc
  · rw [if_pos hold, if_pos (hexists.mp hold), neg_natAbs hupdated]
  · rw [if_neg hold, if_neg (fun h => hold (hexists.mpr h)), neg_natAbs hwritten]

theorem addFinish_tree (st : VdevState) (req : Request) (name : CStr) (w : FS × σ)
    (entered : Int × Bool × FS)
    (hentered : entered.2.2 = nodeTree st req name (enteredTree st req name w.1)) :
    let r := addFinish (treeOutcomes st req name w) name (entered.1, entered.2.1)
    let h := Device.addFinish c st { req with renamedPath := some name } name w.2 entered
    h.rc = r.rc ∧ h.ran.map Prod.fst = r.ran.map Prod.fst := by
  obtain ⟨rc, devExists, T⟩ := entered
  have hput := putMetadata_tree st req name w
  have hT : T = nodeTree st req name (enteredTree st req name w.1) := hentered
  rw [← hT] at hput
  unfold Device.addFinish addFinish
  dsimp only
  rw [hput]
  split_ifs
  · exact ⟨rfl, rfl⟩
  · exact ⟨rfl, rfl⟩
  · exact ⟨rfl, rfl⟩

/-- The handler on a file tree is the handler with the outcomes that the tree gives. -/
theorem deviceAdd_tree (st : VdevState) (req : Request) (w : FS × σ) (name : CStr)
    (h : renameOutcome c st req w = (0, some name)) :
    let o := treeOutcomes st req name (actionCreatePath c req st.acts w).2.2
    (Device.deviceAdd c st req w).rc = (deviceAdd o st req).rc ∧
      (Device.deviceAdd c st req w).ran.map Prod.fst = (deviceAdd o st req).ran.map Prod.fst := by
  rw [deviceAdd_named c st req w name h]
  generalize (actionCreatePath c req st.acts w).2.2 = w'
  dsimp only
  have hname : ((treeOutcomes st req name w').newPath <|> req.path) = some name := rfl
  have hrename : ¬(treeOutcomes st req name w').createPath ≠ 0 := fun hne => hne rfl
  unfold addRenamed deviceAdd
  rw [if_neg hrename, hname]
  dsimp only
  by_cases hunknown : name = unknownPath
  · rw [if_neg (not_not.mpr hunknown), if_neg (not_not.mpr hunknown)]
    exact ⟨rfl, rfl⟩
  rw [if_pos hunknown, if_pos hunknown]
  by_cases hnode : req.dev ≠ 0 ∧ req.mode ≠ 0
  · rw [if_pos hnode, if_pos hnode, deviceMkdirs_tree st req name w']
    by_cases hdirs : deviceMkdirs (treeOutcomes st req name w') name = 0
    · rw [if_neg (not_not.mpr hdirs), if_neg (not_not.mpr hdirs),
        ← addNode_tree st req name w' hnode]
      refine addFinish_tree c st req name w' _ ?_
      rw [nodeTree, if_pos hnode, enteredTree, if_pos hnode]
    · rw [if_pos hdirs, if_pos hdirs]
      exact ⟨rfl, rfl⟩
  · rw [if_neg hnode, if_neg hnode, ← addEvent_tree st req name w' hnode]
    refine addFinish_tree c st req name w' _ ?_
    rw [nodeTree, if_neg hnode, enteredTree, if_neg hnode]

end OnTree

def diskRequest : Request :=
  { type := .add, path := some "sda".toList, dev := 2049, mode := S_IFBLK }

/-- A disk for which `mknod` fails with `EACCES`. -/
theorem not_contract_eacces :
    ¬Contract { mknod := EACCES } bareState diskRequest
      (deviceAdd { mknod := EACCES } bareState diskRequest) := by
  have hnode : HasNode { mknod := EACCES } diskRequest :=
    ⟨⟨"sda".toList, rfl, by decide⟩, by decide, by decide⟩
  have hdirs : ¬DirectoriesFail { mknod := EACCES } diskRequest := fun h => h.2.2.2 rfl
  intro h
  have hrc := h.eacces ⟨rfl, hnode, hdirs, by unfold Quirk; decide, rfl⟩ rfl
  have hzero : (deviceAdd { mknod := EACCES } bareState diskRequest).rc = 0 := by decide
  rw [hzero] at hrc
  exact absurd hrc (by decide)

end Vdev.AddOutcome
