import Vdev.DeviceUndo
import Vdev.Runs

/-!
What REMOVE does to other devices. The daemon adds and removes devices in any
order; the devices that are plugged in have different names. REMOVE prunes the
metadata directory of the path that its request came with. This touches the
record of another device exactly when that path is a prefix of the other device's
name, or when the node of the one is the record of the other; so names and kernel
paths have to be kept apart.
-/
namespace Vdev.DeviceFrame

open CString FileTree SystemCalls CallEffects Paths Directories Data Vdev.Action Metadata Device DeviceUndo

variable {σ : Type}

/-- A device: its request, and the name that its rename commands give it. -/
structure Device where
  req : Request
  path : CStr
  name : CStr
  pathLoc : Location
  nameLoc : Location
  req_path : req.path = some path
  path_denotes : Denotes path pathLoc
  name_denotes : Denotes name nameLoc
  nameLoc_ne_nil : nameLoc ≠ []

def Device.addRequest (d : Device) : Request := { d.req with type := .add }

def Device.removeRequest (d : Device) : Request := { d.req with type := .remove }

def Device.node (mp : Location) (d : Device) : Location := d.nameLoc ++ mp

/-- The file with the instance that processed the device. -/
def Device.instance (mp : Location) (d : Device) : Location := instanceFile mp d.nameLoc

/-- The world, and the devices that have been added and not removed. -/
structure Plugged (σ : Type) where
  world : FS × σ
  devices : List Device

inductive Label
  | plug (d : Device)
  | unplug (i : ℕ)

/-- One request is handled. A device is renamed to its name, which no other
device has; when it is removed it is renamed in the same way. -/
def step (c : Commands (FS × σ)) (st : VdevState) : Label → Plugged σ → Option (Plugged σ)
  | .plug d, s =>
    if renameOutcome c st d.addRequest s.world = (0, some d.name) ∧
        ∀ o ∈ s.devices, o.nameLoc ≠ d.nameLoc then
      some ⟨(deviceAdd c st d.addRequest s.world).world, d :: s.devices⟩
    else none
  | .unplug i, s =>
    match s.devices[i]? with
    | none => none
    | some d =>
      if renameOutcome c st d.removeRequest s.world = (0, some d.name) then
        some ⟨(deviceRemove c st d.removeRequest s.world).world,
          s.devices.eraseIdx i⟩
      else none

/-- Apart from directories, `k` is the same in both trees. -/
def Keeps (T U : FS) (k : Location) : Prop := ¬T.IsDir k → U.get k = T.get k

theorem Keeps.trans {T U V : FS} {k : Location} (h₁ : Keeps T U k) (h₂ : Keeps U V k) :
    Keeps T V k := by
  intro hk
  have hU := h₁ hk
  have hnd : ¬U.IsDir k := by
    rintro ⟨a, ha⟩
    exact hk ⟨a, by rw [← hU, ha]⟩
  rw [h₂ hnd, hU]

theorem Keeps.refl (T : FS) (k : Location) : Keeps T T k := fun _ => rfl

/-- REMOVE unlinks the node of a device that has one, where the kernel does not do it. -/
def UnlinksNode (st : VdevState) (req : Request) : Prop :=
  req.dev ≠ 0 ∧ req.mode ≠ 0 ∧
    configHasOSQuirk st.config.osQuirks VDEV_OS_QUIRK_DEVICE_EXISTS = false

def IsFile (T : FS) (k : Location) : Prop := ∃ c, T.get k = some (.leaf c)

/-- REMOVE of `d` removes the file at `k`: it is the node, or it lies in the metadata of the
kernel path. -/
def Removes (st : VdevState) (mp : Location) (d : Device) (T : FS) (k : Location) : Prop :=
  d.name ≠ unknownPath ∧ IsFile T k ∧
    (UnlinksNode st d.req ∧ k = d.node mp ∨
      metadataDir mp d.pathLoc <:+ k ∧ metadataDir mp d.pathLoc ≠ k)

theorem unlink_keeps (T U : FS) (s : CStr) (n : Name) (l k : Location) (hs : Denotes s (n :: l))
    (hk : IsFile T k → k ≠ n :: l) (h : unlink T s = .ok U) : Keeps T U k := by
  intro _
  cases hget : T.get (n :: l) with
  | none =>
    obtain ⟨e, he⟩ := hs.toDir.unlink_error T (fun c hc => by rw [hget] at hc; cases hc)
    rw [he] at h
    cases h
  | some e =>
    cases e with
    | dir a =>
      obtain ⟨e, he⟩ := hs.toDir.unlink_error T (fun c hc => by rw [hget] at hc; cases hc)
      rw [he] at h
      cases h
    | leaf c =>
      rw [hs.unlink_leaf T c hget] at h
      cases h
      have hnd : ¬T.IsDir (n :: l) := T.not_isDir_of_leaf _ c hget
      have hne : k ≠ n :: l := by
        rintro rfl
        exact hk ⟨c, hget⟩ rfl
      rw [T.get_remove n l (T.childless_of_not_isDir _ hnd), if_neg hne]

section Files

variable (st : VdevState) (req : Request) (mp : Location) (d : Device) (T : FS)
  (hm : DenotesDir st.mountpoint mp)

include hm

/-- Removing a node keeps every other file. -/
theorem removeNode_keeps (k : Location) (hk : UnlinksNode st req → IsFile T k → k ≠ d.node mp) :
    Keeps T (removeNode st req d.name T) k := by
  obtain ⟨n, r, hr⟩ := List.exists_cons_of_ne_nil d.nameLoc_ne_nil
  have hden := denotes_node st.mountpoint d.name mp r n hm (hr ▸ d.name_denotes)
  rw [Device.node, hr] at hk
  rw [removeNode]
  split_ifs with hunlinks
  · dsimp only
    have hrm : ∀ U : FS, Keeps U (rmdirs (fullpath st.mountpoint d.name) U).2 k :=
      fun U hU => rmdirsLoop_get _ _ U k hU
    have hnode := hk ⟨hunlinks.1, hunlinks.2.1, by simpa using hunlinks.2.2⟩
    cases hul : unlink T (fullpath st.mountpoint d.name) with
    | error e => exact hrm T
    | ok U => exact (unlink_keeps T U _ n (r ++ mp) k hden hnode hul).trans (hrm U)
  · exact Keeps.refl T k

theorem removeNode_unlinks (hw : UnlinksNode st req) (hfile : IsFile T (d.node mp)) :
    (removeNode st req d.name T).get (d.node mp) = none := by
  obtain ⟨n, r, hr⟩ := List.exists_cons_of_ne_nil d.nameLoc_ne_nil
  have hden := denotes_node st.mountpoint d.name mp r n hm (hr ▸ d.name_denotes)
  rw [Device.node, hr] at hfile ⊢
  obtain ⟨c, hc⟩ := hfile
  have hnd : ¬T.IsDir (n :: (r ++ mp)) := T.not_isDir_of_leaf _ c hc
  have hgone : (T.remove n (r ++ mp)).get (n :: (r ++ mp)) = none := by
    rw [T.get_remove n _ (T.childless_of_not_isDir _ hnd), if_pos rfl]
  rw [removeNode, if_pos ⟨hw.1, hw.2.1, by rw [hw.2.2]; rfl⟩]
  dsimp only
  rw [hden.unlink_leaf T c hc]
  exact (rmdirsLoop_get _ _ _ _ (Tree.not_isDir_of_none _ _ hgone)).trans hgone

variable (path : CStr) (q : Location) (hq : Denotes path q)

include hq

/-- Removing metadata keeps every file outside the pruned directory. -/
theorem removeMetadata_keeps (k : Location)
    (hk : IsFile T k → metadataDir mp q <:+ k → metadataDir mp q = k) :
    Keeps T (removeMetadata st path T).2 k := by
  intro hnd
  by_cases hd : T.IsDir (metadataDir mp q)
  · obtain ⟨U, hU, hprune⟩ := removeMetadata_pruned st path mp q T hm hq hd
    rw [hU]
    dsimp only
    rw [hprune]
    split_ifs with hsuf
    · cases hget : T.get k with
      | none => rfl
      | some e =>
        cases e with
        | dir a => exact absurd ⟨a, hget⟩ hnd
        | leaf c => exact absurd (hk ⟨c, hget⟩ hsuf ▸ hd) hnd
    · rfl
  · rw [removeMetadata_absent st path mp q T hm hq hd]

theorem removeMetadata_gone (k : Location) (hk : T.get k = none) :
    (removeMetadata st path T).2.get k = none := by
  rw [removeMetadata_keeps st mp T hm path q hq k _ (T.not_isDir_of_none _ hk), hk]
  rintro ⟨c, hc⟩
  rw [hk] at hc
  cases hc

theorem removeMetadata_prunes (k : Location) (hfile : IsFile T k) (hsuf : metadataDir mp q <:+ k)
    (hne : metadataDir mp q ≠ k) : (removeMetadata st path T).2.get k = none := by
  obtain ⟨c, hc⟩ := hfile
  have hd : T.IsDir (metadataDir mp q) :=
    T.isDir_of_suffix hsuf hne (by rw [hc]; exact Option.some_ne_none _)
  obtain ⟨U, hU, hprune⟩ := removeMetadata_pruned st path mp q T hm hq hd
  rw [hU]
  exact (hprune k).trans (if_pos hsuf)

end Files

/-- One REMOVE request, in any tree, keeps what it does not remove. -/
theorem deviceRemove_keeps_iff (c : Commands (FS × σ)) (hc : KeepsTree c) (st : VdevState)
    (mp : Location) (d : Device) (w : FS × σ) (hm : DenotesDir st.mountpoint mp)
    (hname : renameOutcome c st d.removeRequest w = (0, some d.name)) (k : Location) :
    Keeps w.1 (deviceRemove c st d.removeRequest w).world.1 k ↔ ¬Removes st mp d w.1 k := by
  rw [deviceRemove_named c st _ w d.name hname]
  have hw := actionCreatePath_tree c d.removeRequest st.acts hc.rename w
  by_cases hknown : d.name = unknownPath
  · rw [hknown, removeRenamed_unknown_tree c hc, hw]
    exact iff_of_true (Keeps.refl w.1 k) (fun hremoves => hremoves.1 hknown)
  · rw [removeRenamed_tree c hc st d.removeRequest d.name d.path d.req_path hknown, hw]
    constructor
    · rintro hkeeps ⟨_, ⟨f, hf⟩, hwhere⟩
      have hnd : ¬w.1.IsDir k := w.1.not_isDir_of_leaf _ f hf
      have hgone : (removeMetadata st d.path
          (removeNode st d.removeRequest d.name w.1)).2.get k = none := by
        by_cases hnode : UnlinksNode st d.req ∧ k = d.node mp
        · obtain ⟨hw, rfl⟩ := hnode
          exact removeMetadata_gone st mp _ hm d.path d.pathLoc d.path_denotes _
            (removeNode_unlinks st d.removeRequest mp d w.1 hm hw ⟨f, hf⟩)
        · obtain ⟨hsuf, hne⟩ := hwhere.resolve_left hnode
          have hthere := removeNode_keeps st d.removeRequest mp d w.1 hm k
            (fun hw _ heq => hnode ⟨hw, heq⟩) hnd
          exact removeMetadata_prunes st mp _ hm d.path d.pathLoc d.path_denotes k
            ⟨f, hthere.trans hf⟩ hsuf hne
      have hsame := hkeeps hnd
      rw [hgone, hf] at hsame
      cases hsame
    · intro hremoves
      have hnode := removeNode_keeps st d.removeRequest mp d w.1 hm k
        (fun hw hfile heq => hremoves ⟨hknown, hfile, Or.inl ⟨hw, heq⟩⟩)
      intro hnd
      have hthere := hnode hnd
      refine (hnode.trans (removeMetadata_keeps st mp _ hm d.path d.pathLoc d.path_denotes k ?_)) hnd
      rintro ⟨f, hf⟩ hsuf
      rw [hthere] at hf
      by_contra hne
      exact hremoves ⟨hknown, ⟨f, hf⟩, Or.inr ⟨hsuf, hne⟩⟩

def Distinct (s : Plugged σ) : Prop := s.devices.Pairwise (fun o d => o.nameLoc ≠ d.nameLoc)

theorem step_distinct (c : Commands (FS × σ)) (st : VdevState) (l : Label) (s s' : Plugged σ)
    (hs : Distinct s) (h : step c st l s = some s') : Distinct s' := by
  cases l with
  | plug d =>
    rw [step] at h
    split_ifs at h with hd
    cases h
    exact List.pairwise_cons.mpr ⟨fun o ho heq => hd.2 o ho heq.symm, hs⟩
  | unplug i =>
    rw [step] at h
    split at h
    · cases h
    · split_ifs at h
      cases h
      exact hs.sublist (List.eraseIdx_sublist _ _)

theorem step_unplug (c : Commands (FS × σ)) (st : VdevState) (i : ℕ) (s s' : Plugged σ)
    (h : step c st (.unplug i) s = some s') :
    ∃ d, s.devices[i]? = some d ∧ renameOutcome c st d.removeRequest s.world = (0, some d.name) ∧
      s' = ⟨(deviceRemove c st d.removeRequest s.world).world, s.devices.eraseIdx i⟩ := by
  rw [step] at h
  split at h
  · cases h
  · rename_i d hd
    split_ifs at h with hname
    cases h
    exact ⟨d, hd, hname, rfl⟩

/-- The devices that stay have other names than the one that is removed. -/
theorem nameLoc_ne_of_mem_eraseIdx (s : Plugged σ) (hs : Distinct s) (i : ℕ) (d o : Device)
    (hd : s.devices[i]? = some d) (ho : o ∈ s.devices.eraseIdx i) : o.nameLoc ≠ d.nameLoc := by
  obtain ⟨j, hji, hj⟩ := List.mem_eraseIdx_iff_getElem?.mp ho
  have hrel := List.pairwise_iff_getElem.mp hs
  obtain ⟨hi, rfl⟩ := List.getElem?_eq_some_iff.mp hd
  obtain ⟨hj', rfl⟩ := List.getElem?_eq_some_iff.mp hj
  rcases Nat.lt_or_gt_of_ne hji with hlt | hlt
  · exact hrel j i hj' hi hlt
  · exact (hrel i j hi hj' hlt).symm

/-- REMOVE of `d` reaches `o`: a kernel path that leads to the name of `o` or to a directory
above it, or the node of `d` in the place of the record of `o`; or a node of `o` that lies in
the metadata of the kernel path. What is not there is not reached. -/
def Reaches (st : VdevState) (mp : Location) (T : FS) (d o : Device) : Prop :=
  d.name ≠ unknownPath ∧
    (IsFile T (o.instance mp) ∧
        (d.pathLoc <:+ o.nameLoc ∨ UnlinksNode st d.req ∧ d.node mp = o.instance mp) ∨
      IsFile T (o.node mp) ∧ metadataDir mp d.pathLoc <:+ o.node mp ∧
        metadataDir mp d.pathLoc ≠ o.node mp)

theorem metadataDir_above_instance_iff (mp : Location) (d o : Device) :
    (metadataDir mp d.pathLoc <:+ o.instance mp ∧ metadataDir mp d.pathLoc ≠ o.instance mp) ↔
      d.pathLoc <:+ o.nameLoc := by
  constructor
  · rintro ⟨hsuf, hne⟩
    obtain ⟨t, ht⟩ := (List.suffix_cons_iff.mp hsuf).resolve_left hne
    rw [metadataDir, metadataDir, ← List.append_assoc] at ht
    exact ⟨t, List.append_cancel_right ht⟩
  · rintro ⟨t, ht⟩
    have hsuf : metadataDir mp d.pathLoc <:+ metadataDir mp o.nameLoc :=
      ⟨t, by rw [metadataDir, metadataDir, ← List.append_assoc, ht]⟩
    refine ⟨hsuf.trans (List.suffix_cons _ _), fun heq => ?_⟩
    rw [heq] at hsuf
    have hlen := hsuf.length_le
    simp [Device.instance, instanceFile] at hlen

theorem reaches_iff (st : VdevState) (mp : Location) (T : FS) (d o : Device)
    (hne : o.nameLoc ≠ d.nameLoc) :
    Reaches st mp T d o ↔
      Removes st mp d T (o.node mp) ∨ Removes st mp d T (o.instance mp) := by
  have hnode : o.node mp ≠ d.node mp := fun heq => hne (List.append_cancel_right heq)
  unfold Reaches Removes
  rw [metadataDir_above_instance_iff, eq_comm (a := o.instance mp)]
  tauto

/-- In every state that adding and removing devices leads to, a REMOVE request leaves the node
and the recorded instance of every other device as they are exactly when it reaches none. -/
theorem unplug_keeps_others_iff (c : Commands (FS × σ)) (hc : KeepsTree c) (st : VdevState)
    (mp : Location) (hm : DenotesDir st.mountpoint mp) (w : FS × σ) (labels : List Label)
    (s s' : Plugged σ) (hrun : Runs.run (step c st) labels ⟨w, []⟩ = some s) (i : ℕ)
    (hstep : step c st (.unplug i) s = some s') :
    (∀ o ∈ s'.devices,
        Keeps s.world.1 s'.world.1 (o.node mp) ∧ Keeps s.world.1 s'.world.1 (o.instance mp)) ↔
      ∀ d o, s.devices[i]? = some d → o ∈ s.devices.eraseIdx i →
        ¬Reaches st mp s.world.1 d o := by
  have hinit : Distinct (⟨w, []⟩ : Plugged σ) := List.Pairwise.nil
  have hdistinct : Distinct s :=
    Runs.run_invariant (step c st) Distinct (step_distinct c st) hinit hrun
  obtain ⟨d, hd, hname, rfl⟩ := step_unplug c st i s s' hstep
  have hkeeps : ∀ o ∈ s.devices.eraseIdx i,
      (Keeps s.world.1 (deviceRemove c st d.removeRequest s.world).world.1 (o.node mp) ∧
        Keeps s.world.1 (deviceRemove c st d.removeRequest s.world).world.1 (o.instance mp)) ↔
          ¬Reaches st mp s.world.1 d o := by
    intro o ho
    rw [reaches_iff st mp _ d o (nameLoc_ne_of_mem_eraseIdx s hdistinct i d o hd ho), not_or,
      deviceRemove_keeps_iff c hc st mp d s.world hm hname,
      deviceRemove_keeps_iff c hc st mp d s.world hm hname]
  constructor
  · rintro hall d' o hd' ho
    rw [hd] at hd'
    cases hd'
    exact (hkeeps o ho).mp (hall o ho)
  · exact fun hall o ho => (hkeeps o ho).mpr (hall d o hd ho)

def sdbName : Name := ⟨"sdb".toList, by decide⟩

/-- Rename commands that exchange the names `sda` and `sdb`. -/
def swapCommands : Commands (FS × Unit) :=
  { quietCommands with
    rename := fun req _ _ w =>
      ((0, if req.path = some "sda".toList then "sdb".toList else "sda".toList), w) }

theorem swapCommands_keepsTree : KeepsTree swapCommands := by
  constructor
  · intro _ _ _ _ w
    rfl
  · intro _ _ _ w
    rfl

def swapState : VdevState :=
  { bareState with acts := [{ trigger := .any, renameCommand := some "swap".toList }] }

def diskAt (path name : CStr) (pathName newName : Name) (hpath : Denotes path [pathName])
    (hname : Denotes name [newName]) : Device where
  req := { type := .add, path := some path, dev := 2048, mode := S_IFBLK ||| 0o600 }
  path := path
  name := name
  pathLoc := [pathName]
  nameLoc := [newName]
  req_path := rfl
  path_denotes := hpath
  name_denotes := hname
  nameLoc_ne_nil := List.cons_ne_nil _ _

theorem denotes_sdb : Denotes "sdb".toList [sdbName] := ⟨by decide, by decide, by decide⟩

/-- The disk that the kernel calls `sda`, under the name `sdb`, and vice versa. -/
def firstDisk : Device := diskAt "sda".toList "sdb".toList sdaName sdbName denotes_sda denotes_sdb
def secondDisk : Device := diskAt "sdb".toList "sda".toList sdbName sdaName denotes_sdb denotes_sda

section TwoDisks

variable (c : Commands (FS × Unit)) (st : VdevState) (o d : Device)

/-- The world after adding `o` and then `d` in `/dev`. -/
def bothAdded : FS × Unit :=
  (deviceAdd c st d.addRequest (deviceAdd c st o.addRequest (bareTree, ())).world).world

theorem bothAdded_run (hne : o.nameLoc ≠ d.nameLoc)
    (ho : renameOutcome c st o.addRequest (bareTree, ()) = (0, some o.name))
    (hd : renameOutcome c st d.addRequest (deviceAdd c st o.addRequest (bareTree, ())).world =
      (0, some d.name)) :
    Runs.run (step c st) [.plug o, .plug d] ⟨(bareTree, ()), []⟩ =
      some ⟨bothAdded c st o d, [d, o]⟩ := by
  have hfirst : step c st (.plug o) ⟨(bareTree, ()), []⟩ =
      some ⟨(deviceAdd c st o.addRequest (bareTree, ())).world, [o]⟩ :=
    if_pos ⟨ho, fun _ h => absurd h List.not_mem_nil⟩
  have hsecond : step c st (.plug d) ⟨(deviceAdd c st o.addRequest (bareTree, ())).world, [o]⟩ =
      some ⟨bothAdded c st o d, [d, o]⟩ :=
    if_pos ⟨hd, fun o' h => by rw [List.mem_singleton.mp h]; exact hne⟩
  simp [Runs.run, hfirst, hsecond]

theorem bothAdded_unplug
    (hd : renameOutcome c st d.removeRequest (bothAdded c st o d) = (0, some d.name)) :
    step c st (.unplug 0) ⟨bothAdded c st o d, [d, o]⟩ =
      some ⟨(deviceRemove c st d.removeRequest (bothAdded c st o d)).world, [o]⟩ := by
  have h : step c st (.unplug 0) ⟨bothAdded c st o d, [d, o]⟩ =
      if renameOutcome c st d.removeRequest (bothAdded c st o d) = (0, some d.name) then
        some ⟨(deviceRemove c st d.removeRequest (bothAdded c st o d)).world, [o]⟩
      else none := rfl
  rw [h, if_pos hd]

end TwoDisks

def plainSda : Device := diskAt "sda".toList "sda".toList sdaName sdaName denotes_sda denotes_sda
def plainSdb : Device := diskAt "sdb".toList "sdb".toList sdbName sdbName denotes_sdb denotes_sdb

theorem unplug_keeps_sdb :
    Keeps (bothAdded quietCommands bareState plainSdb plainSda).1
      (deviceRemove quietCommands bareState plainSda.removeRequest
        (bothAdded quietCommands bareState plainSdb plainSda)).world.1
      (plainSdb.instance [nameDev]) := by
  have hrun := bothAdded_run quietCommands bareState plainSdb plainSda (by decide +kernel)
    (by decide +kernel) (by decide +kernel)
  have hstep := bothAdded_unplug quietCommands bareState plainSdb plainSda (by decide +kernel)
  have h := (unplug_keeps_others_iff quietCommands quietCommands_keepsTree bareState [nameDev]
    bareState_mountedAt.toDenotesDir (bareTree, ()) _ _ _ hrun 0 hstep).mpr (by
      intro d o hd ho
      obtain rfl : plainSda = d := Option.some.inj hd
      obtain rfl : o = plainSdb := List.mem_singleton.mp ho
      rintro ⟨_, ⟨_, hpath | ⟨_, hnode⟩⟩ | ⟨_, hsuf, _⟩⟩
      · exact absurd hpath (by decide +kernel)
      · exact absurd hnode (by decide +kernel)
      · exact absurd hsuf (by decide +kernel))
  exact (h plainSdb (List.mem_singleton_self _)).2

/-- Removing the disk that the kernel calls `sda` deletes the record of the disk
that is named `sda`. -/
theorem unplug_deletes_other_record :
    KeepsTree swapCommands ∧
    Runs.run (step swapCommands swapState) [.plug secondDisk, .plug firstDisk]
      ⟨(bareTree, ()), []⟩ =
        some ⟨bothAdded swapCommands swapState secondDisk firstDisk, [firstDisk, secondDisk]⟩ ∧
    step swapCommands swapState (.unplug 0)
      ⟨bothAdded swapCommands swapState secondDisk firstDisk, [firstDisk, secondDisk]⟩ =
        some ⟨(deviceRemove swapCommands swapState firstDisk.removeRequest
          (bothAdded swapCommands swapState secondDisk firstDisk)).world, [secondDisk]⟩ ∧
    (bothAdded swapCommands swapState secondDisk firstDisk).1.get
      (secondDisk.instance [nameDev]) = some (.leaf (.file 0o644 (instanceText swapState))) ∧
    (deviceRemove swapCommands swapState firstDisk.removeRequest
      (bothAdded swapCommands swapState secondDisk firstDisk)).world.1.get
        (secondDisk.instance [nameDev]) = none := by
  refine ⟨swapCommands_keepsTree, ?_, ?_, by decide +kernel, by decide +kernel⟩
  · exact bothAdded_run swapCommands swapState secondDisk firstDisk (by decide +kernel)
      (by decide +kernel) (by decide +kernel)
  · exact bothAdded_unplug swapCommands swapState secondDisk firstDisk (by decide +kernel)

end Vdev.DeviceFrame
