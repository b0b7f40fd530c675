import Vdev.Environment
import Vdev.Sweep

/-!
The paths to the metadata of a device. vdevd puts them together in three ways: for its own
use, for the environment of the helpers, and for the sweep, which starts from the full path of
a node. They differ in the slashes they repeat, and in nothing else. The block for vdevd's own
path is too small by one byte when the mountpoint is the root.
-/
namespace Vdev.MetadataPaths

open CString FileTree SystemCalls Paths Directories Data Metadata Environment Sweep

/-- A character in front of a text without repeated slashes. -/
def addChar (c : Char) (s : CStr) : CStr := if c = '/' ∧ s.head? = some '/' then s else c :: s

def collapse (s : CStr) : CStr := s.foldr addChar []

/-- The directory from which `vdev_device_read_vdevd_instance` reads. -/
def instanceDir (st : VdevState) (path : CStr) : CStr :=
  fullpath st.mountpoint (fullpath (metadataPrefix ++ "/dev".toList) (devPath st path))

theorem addChar_slash (s : CStr) : (addChar '/' s).head? = some '/' := by
  unfold addChar
  split_ifs with h
  · exact h.2
  · rfl

theorem addChar_slash_slash (s : CStr) : addChar '/' (addChar '/' s) = addChar '/' s := by
  conv_lhs => rw [addChar]
  exact if_pos ⟨rfl, addChar_slash s⟩

theorem collapse_append (a b : CStr) : collapse (a ++ b) = a.foldr addChar (collapse b) := by
  unfold collapse
  rw [List.foldr_append]

theorem collapse_slashes (a b : CStr) :
    collapse (a ++ '/' :: '/' :: b) = collapse (a ++ '/' :: b) := by
  rw [collapse_append, collapse_append]
  exact congrArg (fun s => a.foldr addChar s) (addChar_slash_slash (collapse b))

/-- Only the slashes between two parts of a path depend on how it is joined. -/
theorem collapse_fullpath (root path : CStr) (hroot : root ≠ []) :
    collapse (fullpath root path) = collapse (root ++ '/' :: path) := by
  have hdir : root.getLast? = some '/' →
      ∀ p, collapse (root ++ '/' :: p) = collapse (root ++ p) := by
    intro hlast p
    obtain ⟨r, rfl⟩ := List.getLast?_eq_some_iff.mp hlast
    rw [List.append_assoc, List.append_assoc]
    exact collapse_slashes r p
  rw [fullpath, if_neg hroot]
  split_ifs with h₁ h₂
  · rfl
  · obtain ⟨p, rfl⟩ := List.head?_eq_some_iff.mp h₂.2
    rw [collapse_slashes, hdir h₂.1, List.tail_cons]
  · by_cases hlast : root.getLast? = some '/'
    · exact (hdir hlast path).symm
    · have hpath : path.head? = some '/' := by
        by_contra hpath
        exact h₁ ⟨hlast, hpath⟩
      obtain ⟨p, rfl⟩ := List.head?_eq_some_iff.mp hpath
      exact (collapse_slashes root p).symm

theorem collapse_append_congr (a : CStr) {b c : CStr} (h : collapse b = collapse c) :
    collapse (a ++ b) = collapse (a ++ c) := by
  rw [collapse_append, collapse_append, h]

/-- What is left of the path of a node behind its mountpoint. -/
theorem collapse_devPath (st : VdevState) (p : CStr) (hm : st.mountpoint ≠ []) :
    collapse ('/' :: devPath st (fullpath st.mountpoint p)) = collapse ('/' :: p) := by
  unfold devPath fullpath
  rw [if_neg hm]
  split_ifs with h₁ h₂
  · rw [List.drop_left]
    exact collapse_slashes [] p
  · obtain ⟨q, rfl⟩ := List.head?_eq_some_iff.mp h₂.2
    rw [List.drop_left, List.tail_cons]
    exact (collapse_slashes [] q).symm
  · rw [List.drop_left]

/-- The path that all components mean. -/
def metadataPath (st : VdevState) (p : CStr) : CStr :=
  st.mountpoint ++ '/' :: metadataPrefix ++ "/dev/".toList ++ p

theorem collapse_metadataFullpath (st : VdevState) (p : CStr) (hm : st.mountpoint ≠ []) :
    collapse (metadataFullpath st.mountpoint p) = collapse (metadataPath st p) := by
  rw [metadataFullpath, collapse_fullpath _ _ hm, metadataPath]
  simp only [List.append_assoc, List.cons_append]

theorem collapse_instanceDir (st : VdevState) (p : CStr) (hm : st.mountpoint ≠ []) :
    collapse (instanceDir st (fullpath st.mountpoint p)) = collapse (metadataPath st p) := by
  have hdev : metadataPath st p =
      st.mountpoint ++ ('/' :: metadataPrefix ++ "/dev".toList) ++ '/' :: p := by
    simp [metadataPath]
  have hrel : collapse (fullpath (metadataPrefix ++ "/dev".toList)
      (devPath st (fullpath st.mountpoint p))) =
        collapse (metadataPrefix ++ "/dev".toList ++ '/' :: p) := by
    rw [collapse_fullpath _ _ (by decide)]
    exact collapse_append_congr _ (collapse_devPath st p hm)
  rw [instanceDir, collapse_fullpath _ _ hm, hdev, List.append_assoc]
  exact collapse_append_congr _ (congrArg (addChar '/') hrel)

theorem mem_requestEnv_metadata (st : VdevState) (req : Request) (helperVars : Params)
    (isDaemonlet : Bool) (p : CStr) (hp : envPath req = some p) :
    ("VDEV_METADATA".toList, snprintf PATH_MAX (metadataPath st p)) ∈
      requestEnv st req helperVars isDaemonlet := by
  unfold requestEnv
  iterate 8 apply List.mem_append_left
  rw [hp]
  refine List.mem_cons_of_mem _ (List.mem_cons_of_mem _ (List.mem_cons_of_mem _ ?_))
  exact List.mem_singleton.mpr rfl

theorem names_append_collapse (pre s : CStr) : names (pre ++ collapse s) = names (pre ++ s) := by
  induction s generalizing pre with
  | nil => rfl
  | cons c t ih =>
    change names (pre ++ addChar c (collapse t)) = _
    unfold addChar
    split_ifs with h
    · obtain ⟨rfl, hhead⟩ := h
      obtain ⟨u, hu⟩ := List.head?_eq_some_iff.mp hhead
      have ht : names t = names ('/' :: u) := by
        rw [← hu]
        exact (ih []).symm
      rw [names_append_slash, ht, hu, names_append_slash]
      exact congrArg _ (names_append_slash [] u).symm
    · have h := ih (pre ++ [c])
      rwa [List.append_assoc, List.append_assoc] at h

theorem collapse_eq_nil_iff (s : CStr) : collapse s = [] ↔ s = [] := by
  cases s with
  | nil => exact Iff.rfl
  | cons c t =>
    refine iff_of_false ?_ (List.cons_ne_nil c t)
    change addChar c (collapse t) ≠ []
    unfold addChar
    split_ifs with h
    · intro hnil
      rw [hnil] at h
      exact absurd h.2 (by simp)
    · exact List.cons_ne_nil _ _

theorem getLast?_collapse (s : CStr) : (collapse s).getLast? = s.getLast? := by
  induction s with
  | nil => rfl
  | cons c t ih =>
    change (addChar c (collapse t)).getLast? = _
    by_cases ht : t = []
    · subst ht
      simp [addChar, collapse]
    · have hne : collapse t ≠ [] := fun h => ht ((collapse_eq_nil_iff t).mp h)
      unfold addChar
      split_ifs with h
      · rw [ih, List.getLast?_cons_of_ne_nil ht]
      · rw [List.getLast?_cons_of_ne_nil hne, ih, List.getLast?_cons_of_ne_nil ht]

/-- Repeated slashes do not matter to the kernel. -/
theorem resolve_collapse (T : FS) (s : CStr) : resolve T (collapse s) = resolve T s := by
  have hnames : names (collapse s) = names s := names_append_collapse [] s
  rw [resolve, resolve, hnames, slashed, slashed, getLast?_collapse]
  simp only [collapse_eq_nil_iff]

/-- Two paths are equal up to repeated slashes, and lead to the same file in every tree. -/
structure SameFile (a b : CStr) : Prop where
  text : collapse a = collapse b
  file : ∀ T, resolve T a = resolve T b

theorem SameFile.of_collapse {a b : CStr} (h : collapse a = collapse b) : SameFile a b := by
  refine ⟨h, fun T => ?_⟩
  rw [← resolve_collapse T a, h, resolve_collapse]

/-- The rest of `vdev_device_put_metadata`, from `base_dir` on. -/
def putMetadataIn (st : VdevState) (baseDir : CStr) (T : FS) : Int × FS :=
  let (rc, T) := mkdirs baseDir st.mountpoint.length 0o755 T
  if rc ≠ 0 then (rc, T)
  else
    let (rc, T) := putMetadataItem baseDir paramInstance st.config.instanceStr true 0o644 T
    if rc = Errno.eexist.rc then
      putMetadataItem baseDir paramInstance st.config.instanceStr false 0o644 T
    else (rc, T)

/-- The rest of `vdev_device_has_metadata`, from `md_fp` on. -/
def hasMetadataIn (dir : CStr) (T : FS) : Int :=
  match stat T dir with
  | .error e => e.rc
  | .ok _ => 0

/-- The components of vdevd and its helpers name the metadata of a device alike: where vdevd
puts it and looks for it, what the helpers are told, and where the sweep reads the instance. -/
structure NamedAlike (st : VdevState) (req : Request) (helperVars : Params) (isDaemonlet : Bool)
    (p : CStr) : Prop where
  fits : MetadataFits st.mountpoint p
  put : ∀ T, putMetadata st p T =
    if p = unknownPath then (Errno.einval.rc, T)
    else putMetadataIn st (metadataFullpath st.mountpoint p) T
  has : ∀ T, hasMetadata st p T = hasMetadataIn (metadataFullpath st.mountpoint p) T
  read : ∀ T, readVdevdInstance st (fullpath st.mountpoint p) T =
    readFile T (fullpath (instanceDir st (fullpath st.mountpoint p)) paramInstance) 64
  told : ∃ value, ("VDEV_METADATA".toList, value) ∈ requestEnv st req helperVars isDaemonlet
  helpers : ∀ value, ("VDEV_METADATA".toList, value) ∈ requestEnv st req helperVars isDaemonlet →
    SameFile value (metadataFullpath st.mountpoint p)
  sweep : SameFile (instanceDir st (fullpath st.mountpoint p)) (metadataFullpath st.mountpoint p)

/-- The metadata is named alike exactly when the path to it has room, which it has below every
mountpoint but the root. -/
theorem metadata_named_alike_iff (st : VdevState) (req : Request) (helperVars : Params)
    (isDaemonlet : Bool) (p : CStr) (hm : st.mountpoint.head? = some '/')
    (hp : envPath req = some p) (hlen : (metadataPath st p).length < PATH_MAX) :
    NamedAlike st req helperVars isDaemonlet p ↔ 2 ≤ st.mountpoint.length := by
  have hne : st.mountpoint ≠ [] := by
    intro hnil
    rw [hnil] at hm
    cases hm
  have hmem := mem_requestEnv_metadata st req helperVars isDaemonlet p hp
  rw [← metadataFits_iff st.mountpoint p]
  refine ⟨fun h => h.fits, fun hfits => ?_⟩
  refine ⟨hfits, fun T => rfl, fun T => rfl, fun T => rfl, ⟨_, hmem⟩, fun value hvalue => ?_, ?_⟩
  · have hnodup := requestEnv_nodup st req helperVars isDaemonlet
    have heq : value = snprintf PATH_MAX (metadataPath st p) :=
      congrArg Prod.snd (List.inj_on_of_nodup_map hnodup hvalue hmem rfl)
    apply SameFile.of_collapse
    rw [heq, snprintf_of_lt _ _ hlen, collapse_metadataFullpath st p hne]
  · apply SameFile.of_collapse
    rw [collapse_instanceDir st p hne, collapse_metadataFullpath st p hne]

theorem metadata_named_alike_dev :
    let p : CStr := "disk/by-id/ata".toList
    let req : Request := { type := .add, path := some "sda".toList, renamedPath := some p }
    NamedAlike bareState req Params.empty false p :=
  (metadata_named_alike_iff bareState
    { type := .add, path := some "sda".toList, renamedPath := some "disk/by-id/ata".toList }
    Params.empty false "disk/by-id/ata".toList rfl rfl (by decide)).mpr (by decide)

/-- Below the root, the path to the metadata of `sda` needs 18 bytes and gets 17. -/
theorem root_block_too_small :
    let st : VdevState := { bareState with mountpoint := "/".toList }
    let req : Request := { type := .add, path := some "sda".toList }
    metadataBlock st.mountpoint "sda".toList = 17 ∧
      (metadataPrefix ++ "/dev/".toList ++ "sda".toList).length + 1 = 18 ∧
      ¬NamedAlike st req Params.empty false "sda".toList := by
  refine ⟨by decide, by decide, fun h => ?_⟩
  have hlen := (metadataFits_iff _ _).mp h.fits
  exact absurd hlen (by decide)

end Vdev.MetadataPaths
