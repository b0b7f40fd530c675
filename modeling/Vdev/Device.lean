import Vdev.Action
import Vdev.Metadata

/-!
The handlers for ADD, REMOVE and CHANGE requests (vdevd/device.c). The world of a
handler is the file tree together with everything else that the helper commands
act on. A handler reports what it returned, the world it left behind, and the
call of `vdev_action_run_commands`, if it made one: the `exists` argument and the
commands that were run.
-/
namespace Vdev.Device

open CString FileTree SystemCalls CallEffects Paths Directories Data Vdev.Action Metadata

variable {σ : Type}

structure Handled (σ : Type) where
  rc : Int
  world : FS × σ
  ran : Option (Bool × List Call)

/-- `vdev_device_mkdirs`. -/
def deviceMkdirs (st : VdevState) (renamed : CStr) (T : FS) : Int × FS :=
  let fp := fullpath st.mountpoint renamed
  if '/' ∈ renamed then mkdirs (dirname fp) st.mountpoint.length 0o755 T
  else (0, T)

/-- The part of `vdev_device_add` that makes the node, or finds that it exists:
`rc`, `device_exists` and the tree. -/
def addNode (st : VdevState) (req : Request) (renamed : CStr) (T : FS) : Int × Bool × FS :=
  if configHasOSQuirk st.config.osQuirks VDEV_OS_QUIRK_DEVICE_EXISTS then
    if hasMetadata st renamed T ≠ 0 then (0, true, T) else (0, false, T)
  else if !req.existsFlag then
    match mknod T (fullpath st.mountpoint renamed) (req.mode ||| st.config.defaultMode) req.dev with
    | .ok T => (0, false, T)
    | .error e => if e.rc = Errno.eexist.rc then (0, true, T) else (e.rc, false, T)
  else (0, false, T)

/-- The part of `vdev_device_add` for a request without a device number or mode. -/
def addEvent (st : VdevState) (renamed : CStr) (T : FS) : Int × Bool × FS :=
  let rc := hasMetadata st renamed T
  if rc ≠ 0 then
    if rc = Errno.enoent.rc then (0, false, T) else (rc, false, T)
  else (0, true, T)

def runAll (c : Commands (FS × σ)) (st : VdevState) (req : Request) (devExists : Bool)
    (w : FS × σ) : Handled σ :=
  let d := actionRunCommands c req st.acts devExists w
  ⟨0, d.world, some (devExists, d.calls)⟩

/-- The end of `vdev_device_add` for a known path: record the metadata and run
the actions, unless something went wrong. -/
def addFinish (c : Commands (FS × σ)) (st : VdevState) (req : Request) (renamed : CStr) (s : σ)
    (entered : Int × Bool × FS) : Handled σ :=
  let (rc, devExists, T) := entered
  if rc ≠ 0 then ⟨0, (T, s), none⟩
  else
    let (rc, T) := putMetadata st renamed T
    if rc ≠ 0 then ⟨0, (T, s), none⟩
    else runAll c st req devExists (T, s)

/-- `vdev_device_add`, once the request has a name. -/
def addRenamed (c : Commands (FS × σ)) (st : VdevState) (req : Request) (renamed : CStr)
    (w : FS × σ) : Handled σ :=
  let req := { req with renamedPath := some renamed }
  if renamed ≠ unknownPath then
    if req.dev ≠ 0 ∧ req.mode ≠ 0 then
      let (rc, T) := deviceMkdirs st renamed w.1
      if rc ≠ 0 then ⟨rc, (T, w.2), none⟩
      else addFinish c st req renamed w.2 (addNode st req renamed T)
    else addFinish c st req renamed w.2 (addEvent st renamed w.1)
  else runAll c st req false w

/-- `vdev_device_add`. -/
def deviceAdd (c : Commands (FS × σ)) (st : VdevState) (req : Request) (w : FS × σ) : Handled σ :=
  let (rc, path, w) := actionCreatePath c req st.acts w
  if rc ≠ 0 then ⟨rc, w, none⟩
  else
    match path <|> req.path with
    | none => ⟨0, w, none⟩
    | some renamed => addRenamed c st req renamed w

/-- The part of `vdev_device_remove` that removes the node and its directories. -/
def removeNode (st : VdevState) (req : Request) (renamed : CStr) (T : FS) : FS :=
  if req.dev ≠ 0 ∧ req.mode ≠ 0 ∧
      !configHasOSQuirk st.config.osQuirks VDEV_OS_QUIRK_DEVICE_EXISTS then
    let fp := fullpath st.mountpoint renamed
    let T := match unlink T fp with
      | .ok T => T
      | .error _ => T
    (rmdirs fp T).2
  else T

/-- What `sprintf` prints for a NULL string. -/
def nullText : CStr := "(null)".toList

/-- `vdev_device_remove`, once the request has a name. The metadata is looked for
under the path of the request, not under its new name. -/
def removeRenamed (c : Commands (FS × σ)) (st : VdevState) (req : Request) (renamed : CStr)
    (w : FS × σ) : Handled σ :=
  let req := { req with renamedPath := some renamed }
  let h := runAll c st req true w
  if renamed ≠ unknownPath then
    let T := removeNode st req renamed h.world.1
    let T := (removeMetadata st (req.path.getD nullText) T).2
    { h with world := (T, h.world.2) }
  else h

/-- `vdev_device_remove`. -/
def deviceRemove (c : Commands (FS × σ)) (st : VdevState) (req : Request) (w : FS × σ) :
    Handled σ :=
  let (rc, path, w) := actionCreatePath c req st.acts w
  if rc ≠ 0 then ⟨rc, w, none⟩
  else
    match path <|> req.path with
    | none => ⟨Errno.enomem.rc, w, none⟩
    | some renamed => removeRenamed c st req renamed w

/-- `vdev_device_change`, once the request has a name. -/
def changeRenamed (c : Commands (FS × σ)) (st : VdevState) (req : Request) (renamed : CStr)
    (w : FS × σ) : Handled σ :=
  let req := { req with renamedPath := some renamed }
  if hasMetadata st renamed w.1 ≠ 0 then runAll c st req true w
  else ⟨0, w, none⟩

/-- `vdev_device_change`. -/
def deviceChange (c : Commands (FS × σ)) (st : VdevState) (req : Request) (w : FS × σ) :
    Handled σ :=
  let (rc, path, w) := actionCreatePath c req st.acts w
  if rc ≠ 0 then ⟨rc, w, none⟩
  else
    match path <|> req.path with
    | none => ⟨0, w, none⟩
    | some renamed => changeRenamed c st req renamed w

/-- What renaming a request comes to: the return value of `vdev_action_create_path`
and the name that the handlers go on with. -/
def renameOutcome (c : Commands (FS × σ)) (st : VdevState) (req : Request) (w : FS × σ) :
    Int × Option CStr :=
  ((actionCreatePath c req st.acts w).1, (actionCreatePath c req st.acts w).2.1 <|> req.path)

structure KeepsTree (c : Commands (FS × σ)) : Prop where
  run : ∀ runner req i act w, (c.run runner req i act w).2.1 = w.1
  rename : ∀ req i act w, (c.rename req i act w).2.1 = w.1

theorem renameOutcome_eq (c : Commands (FS × σ)) (st : VdevState) (req : Request) (w : FS × σ)
    (rc : Int) (name : Option CStr) (h : renameOutcome c st req w = (rc, name)) :
    (actionCreatePath c req st.acts w).1 = rc ∧
      ((actionCreatePath c req st.acts w).2.1 <|> req.path) = name :=
  Prod.mk_inj.mp h

section Named

variable (c : Commands (FS × σ)) (st : VdevState) (req : Request) (w : FS × σ) (p : CStr)
  (h : renameOutcome c st req w = (0, some p))

include h

theorem deviceAdd_named :
    deviceAdd c st req w = addRenamed c st req p (actionCreatePath c req st.acts w).2.2 := by
  obtain ⟨hrc, hname⟩ := renameOutcome_eq c st req w _ _ h
  rw [deviceAdd]
  dsimp only
  rw [if_neg (fun hne => hne hrc), hname]

theorem deviceRemove_named :
    deviceRemove c st req w = removeRenamed c st req p (actionCreatePath c req st.acts w).2.2 := by
  obtain ⟨hrc, hname⟩ := renameOutcome_eq c st req w _ _ h
  rw [deviceRemove]
  dsimp only
  rw [if_neg (fun hne => hne hrc), hname]

end Named

section Respects

variable (R : FS → FS → Prop) (c : Commands (FS × σ)) (req : Request)

structure Respects : Prop where
  run : ∀ runner req i act w, R w.1 (c.run runner req i act w).2.1
  rename : ∀ req i act w, R w.1 (c.rename req i act w).2.1

variable (hrefl : ∀ T, R T T) (htrans : ∀ T U V, R T U → R U V → R T V)

include hrefl htrans

theorem createPathLoop_respects (acts : List Action)
    (hc : ∀ req i act w, R w.1 (c.rename req i act w).2.1) (fuel off : ℕ) (rc : Int)
    (path : Option CStr) (w : FS × σ) :
    R w.1 (createPathLoop c req acts fuel off rc path w).2.2.1 := by
  induction fuel generalizing off rc path w with
  | zero => exact hrefl _
  | succ fuel ih =>
    rw [createPathLoop]
    split
    · exact hrefl _
    · split_ifs
      · exact ih _ _ _ _
      · dsimp only
        split_ifs
        · exact hrefl _
        · exact hrefl _
        · split
          · exact hrefl _
          · split_ifs
            · exact ih _ _ _ _
            · exact hc _ _ _ _
            · exact htrans _ _ _ (hc _ _ _ _) (ih _ _ _ _)

theorem actionCreatePath_respects (acts : List Action)
    (hc : ∀ req i act w, R w.1 (c.rename req i act w).2.1) (w : FS × σ) :
    R w.1 (actionCreatePath c req acts w).2.2.1 := by
  have h := createPathLoop_respects R c req hrefl htrans acts hc acts.length 0 0 none w
  rw [actionCreatePath]
  dsimp only
  split_ifs
  · exact h
  · exact h
  · exact h

theorem runCommandsLoop_respects (acts : List Action) (devExists : Bool) (hc : Respects R c)
    (fuel off : ℕ) (w : FS × σ) (calls : List Call) :
    R w.1 (runCommandsLoop c req acts devExists fuel off w calls).world.1 := by
  induction fuel generalizing off w calls with
  | zero => exact hrefl _
  | succ fuel ih =>
    rw [runCommandsLoop]
    split
    · exact hrefl _
    · split_ifs
      · exact ih _ _ _
      · dsimp only
        split_ifs
        · exact hrefl _
        · exact hrefl _
        · split
          · exact hrefl _
          · split_ifs
            · exact ih _ _ _
            · exact hrefl _
            · exact ih _ _ _
            · exact hc.run _ _ _ _ _
            · exact htrans _ _ _ (hc.run _ _ _ _ _) (ih _ _ _)

theorem runAll_respects (st : VdevState) (devExists : Bool) (hc : Respects R c) (w : FS × σ) :
    R w.1 (runAll c st req devExists w).world.1 :=
  runCommandsLoop_respects R c req hrefl htrans st.acts devExists hc _ _ w []

end Respects

theorem actionCreatePath_tree (c : Commands (FS × σ)) (req : Request) (acts : List Action)
    (hc : ∀ req i act w, (c.rename req i act w).2.1 = w.1) (w : FS × σ) :
    (actionCreatePath c req acts w).2.2.1 = w.1 :=
  actionCreatePath_respects (fun T U => U = T) c req (fun _ => rfl)
    (fun _ _ _ hTU hUV => hUV.trans hTU) acts hc w

theorem runAll_tree (c : Commands (FS × σ)) (st : VdevState) (req : Request) (devExists : Bool)
    (hc : KeepsTree c) (w : FS × σ) : (runAll c st req devExists w).world.1 = w.1 :=
  runAll_respects (fun T U => U = T) c req (fun _ => rfl) (fun _ _ _ hTU hUV => hUV.trans hTU) st
    devExists ⟨hc.run, hc.rename⟩ w

theorem addEvent_tree (st : VdevState) (p : CStr) (T : FS) : (addEvent st p T).2.2 = T := by
  unfold addEvent
  dsimp only
  split
  · split
    · rfl
    · rfl
  · rfl

def quietCommands : Commands (FS × Unit) where
  regexec _ _ := 0
  run _ _ _ _ w := (0, w)
  rename _ _ _ w := ((0, []), w)

theorem quietCommands_keepsTree : KeepsTree quietCommands := by
  constructor
  · intro _ _ _ _ w
    rfl
  · intro _ _ _ w
    rfl

theorem bareState_mountedAt : MountedAt bareState.mountpoint [nameDev] :=
  ⟨⟨by decide, by decide⟩, fun h => absurd h (by decide)⟩

/-- `/dev` with the directory of all metadata and nothing else. -/
def bareTree : FS :=
  (((Tree.bare 0o755).put nameDev [] (.dir 0o755)).put nameMetadata [nameDev] (.dir 0o755)).put
    nameDev [nameMetadata, nameDev] (.dir 0o755)

def sdaName : Name := ⟨"sda".toList, by decide⟩

end Vdev.Device
