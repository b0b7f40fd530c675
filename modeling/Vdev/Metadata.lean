import Vdev.Data
import Vdev.Directories

/-!
The metadata that vdevd keeps about the devices it has processed
(vdevd/device.c). Below the mountpoint, the directory `metadata/dev` has one
directory for each device path, with the nonce of the vdevd instance in a file.
Each operation is described on the locations that the strings denote.
-/
namespace Vdev.Metadata

open CString FileTree SystemCalls CallEffects Paths Directories Data

/-- `VDEV_METADATA_PREFIX`. -/
def metadataPrefix : CStr := "metadata/".toList

/-- `VDEV_METADATA_PARAM_INSTANCE`. -/
def paramInstance : CStr := "vdev_instance".toList

/-- The block that `vdev_device_metadata_fullpath` allocates for the part below the mountpoint. -/
def metadataBlock (mountpoint devicePath : CStr) : ℕ :=
  mountpoint.length + 1 + metadataPrefix.length + 2 + devicePath.length + 1

/-- What `sprintf` writes there, with the zero at its end, stays in the block. -/
def MetadataFits (mountpoint devicePath : CStr) : Prop :=
  (metadataPrefix ++ "/dev/".toList ++ devicePath).length + 1 ≤ metadataBlock mountpoint devicePath

/-- `vdev_device_metadata_fullpath`. For a mountpoint of one character the code writes past its
block before it has this string (`metadataFits_iff`). -/
def metadataFullpath (mountpoint devicePath : CStr) : CStr :=
  fullpath mountpoint (metadataPrefix ++ "/dev/".toList ++ devicePath)

/-- `vdev_device_put_metadata_item`; the flags are `O_WRONLY | O_TRUNC`, with
`O_CREAT` if `create` is set. -/
def putMetadataItem (baseDir name value : CStr) (create : Bool) (mode : ℕ) (T : FS) : Int × FS :=
  match writeFile T (fullpath baseDir name) (value ++ "\n".toList) create mode with
  | .error e => (e.rc, T)
  | .ok T => (0, T)

/-- `vdev_device_put_metadata`, for a request that has been renamed to `renamed`. -/
def putMetadata (st : VdevState) (renamed : CStr) (T : FS) : Int × FS :=
  if renamed = unknownPath then (Errno.einval.rc, T)
  else
    let baseDir := metadataFullpath st.mountpoint renamed
    let (rc, T) := mkdirs baseDir st.mountpoint.length 0o755 T
    if rc ≠ 0 then (rc, T)
    else
      let (rc, T) := putMetadataItem baseDir paramInstance st.config.instanceStr true 0o644 T
      if rc = Errno.eexist.rc then
        putMetadataItem baseDir paramInstance st.config.instanceStr false 0o644 T
      else (rc, T)

/-- `vdev_device_remove_metadata_file`, which calls itself through
`vdev_load_all` on the entries of a directory. -/
def removeMetadataFile : ℕ → CStr → FS → Int × FS
  | 0, _, T => (0, T)
  | fuel + 1, fp, T =>
    let name := basename fp
    if name = ['.'] ∨ name = ['.', '.'] then (0, T)
    else
      match stat T fp with
      | .error e => (e.rc, T)
      | .ok (.dir _) =>
        let (rc, T) := loadAll id (removeMetadataFile fuel) fp T
        if rc ≠ 0 then (rc, T)
        else
          match rmdir T fp with
          | .error e => (e.rc, T)
          | .ok T => (0, T)
      | .ok (.leaf _) =>
        match unlink T fp with
        | .error e => (e.rc, T)
        | .ok T => (0, T)

/-- `vdev_device_remove_metadata`, for a request with the given path. The
recursion goes down one directory at a time. -/
def removeMetadata (st : VdevState) (path : CStr) (T : FS) : Int × FS :=
  let baseDir := fullpath st.mountpoint (metadataPrefix ++ "/dev/".toList ++ path)
  let T := (loadAll id (removeMetadataFile (T.depth + 1)) baseDir T).2
  match rmdir T baseDir with
  | .error e => (e.rc, T)
  | .ok T => (0, T)

/-- `vdev_device_has_metadata`. -/
def hasMetadata (st : VdevState) (renamed : CStr) (T : FS) : Int :=
  match stat T (metadataFullpath st.mountpoint renamed) with
  | .error e => e.rc
  | .ok _ => 0

def nameMetadata : Name := ⟨"metadata".toList, by decide⟩
def nameDev : Name := ⟨"dev".toList, by decide⟩
def nameInstance : Name := ⟨paramInstance, by decide⟩

/-- The directory of all metadata, below a mountpoint at `mp`. -/
def metadataRoot (mp : Location) : Location := nameDev :: nameMetadata :: mp

/-- The metadata directory of the device path `r`. -/
def metadataDir (mp r : Location) : Location := r ++ metadataRoot mp

def instanceFile (mp r : Location) : Location := nameInstance :: metadataDir mp r

theorem metadataFits_iff (m p : CStr) : MetadataFits m p ↔ 2 ≤ m.length := by
  have hprefix : metadataPrefix.length = 9 := by decide
  have hwritten : (metadataPrefix ++ "/dev/".toList).length = 14 := by decide
  rw [MetadataFits, metadataBlock, List.length_append, hwritten, hprefix]
  omega

theorem metadataDir_cons (mp r : Location) : ∃ n l, metadataDir mp r = n :: l := by
  cases r with
  | nil => exact ⟨nameDev, nameMetadata :: mp, rfl⟩
  | cons n r => exact ⟨n, r ++ metadataRoot mp, rfl⟩

theorem steps_append (r l : Location) : steps (r ++ l) = steps l ++ steps r := by
  simp [steps]

theorem metadataPrefix_dev : metadataPrefix ++ "/dev/".toList = "metadata//dev".toList ++ ['/'] := by
  decide

theorem names_metadata (p : CStr) :
    names (metadataPrefix ++ "/dev/".toList ++ p) = [nameMetadata.val, nameDev.val] ++ names p := by
  have h : names "metadata//dev".toList = [nameMetadata.val, nameDev.val] := by decide
  rw [metadataPrefix_dev, List.append_assoc, List.singleton_append, names_append_slash, h]

theorem denotes_metadataFullpath (m p : CStr) (mp r : Location) (hm : DenotesDir m mp)
    (hp : Denotes p r) : Denotes (metadataFullpath m p) (metadataDir mp r) := by
  refine ⟨fullpath_ne_nil _ _ hm.ne_nil, ?_, ?_⟩
  · rw [metadataFullpath, names_fullpath _ _ hm.ne_nil, names_metadata, hm.names_eq, hp.names_eq,
      metadataDir, steps_append, metadataRoot, steps_cons, steps_cons]
    simp only [List.append_assoc, List.cons_append, List.nil_append]
  · have hne : metadataPrefix ++ "/dev/".toList ++ p ≠ [] := by
      intro h
      exact hp.ne_nil (List.append_eq_nil_iff.mp h).2
    have hslash : metadataPrefix ++ "/dev/".toList ++ p ≠ ['/'] := by
      intro h
      have hlen := congrArg List.length h
      have hconst : (metadataPrefix ++ "/dev/".toList).length = 14 := by decide
      rw [List.length_append, hconst, List.length_singleton] at hlen
      omega
    rw [metadataFullpath, slashed_fullpath _ _ hne hslash, slashed_append _ p hp.ne_nil,
      hp.not_slashed]

/-- Make the directories down to the metadata of a device. -/
theorem mkdirs_metadata (m p : CStr) (mp r : Location) (mode : ℕ) (T : FS) (hm : DenotesDir m mp)
    (hp : Denotes p r) (hmp : T.IsDir mp) :
    MadeDirs T (metadataDir mp r) mode (mkdirs (metadataFullpath m p) m.length mode T) := by
  obtain ⟨rest, hrest, hnames, hhead⟩ :=
    fullpath_split m (metadataPrefix ++ "/dev/".toList ++ p) hm.ne_nil
  have hcs : names rest = ([nameMetadata, nameDev] ++ r.reverse).map Subtype.val := by
    rw [hnames, names_metadata, hp.names_eq, List.map_append, List.map_reverse]
    rfl
  have h := mkdirs_spec m rest mp ([nameMetadata, nameDev] ++ r.reverse) mode T hm hmp
    (Or.inr hhead) hcs
  rw [metadataFullpath, hrest]
  simpa [metadataDir, metadataRoot] using h

/-- Entry names as `scandir` reports them: `.`, `..` and proper names. -/
def Listed (c : CStr) : Prop := Plain c ∨ c = ['.'] ∨ c = ['.', '.']

theorem listed_dot_iff (c : CStr) (h : Listed c) : (c = ['.'] ∨ c = ['.', '.']) ↔ ¬Plain c := by
  constructor
  · rintro (rfl | rfl)
    · decide
    · decide
  · intro hc
    exact h.resolve_left hc

/-- `U` is `T` without what stands at or below the entries of `m` named in `L`. -/
structure Emptied (T : FS) (m : Location) (L : List CStr) (U : FS) : Prop where
  gone : ∀ (n : Name) (k : Location), n.val ∈ L → n :: m <:+ k → U.get k = none
  kept : ∀ k : Location, (∀ n : Name, n.val ∈ L → ¬n :: m <:+ k) → U.get k = T.get k

/-- A loader that prunes each entry it is given empties a directory. -/
theorem loadAllLoop_emptied (loader : CStr → FS → Int × FS) (dir : CStr) (m : Location)
    (good : FS → Prop) (L : List CStr) (T : FS) (hgood : good T) (hL : ∀ c ∈ L, Listed c)
    (hnodup : L.Nodup) (hthere : ∀ n : Name, n.val ∈ L → T.get (n :: m) ≠ none)
    (hdots : ∀ c U, c = ['.'] ∨ c = ['.', '.'] → loader (fullpath dir c) U = (0, U))
    (hname : ∀ (n : Name) (U : FS), good U → U.get (n :: m) ≠ none →
      ∃ V, loader (fullpath dir n.val) U = (0, V) ∧ U.Pruned (n :: m) V ∧ good V) :
    ∃ U, loadAllLoop loader dir L T = (0, U) ∧ Emptied T m L U := by
  induction L generalizing T with
  | nil =>
    refine ⟨T, rfl, ?_, fun k _ => rfl⟩
    intro n k hn
    cases hn
  | cons c L ih =>
    rw [List.nodup_cons] at hnodup
    have hL' : ∀ d ∈ L, Listed d := fun d hd => hL d (List.mem_cons_of_mem _ hd)
    by_cases hc : Plain c
    · obtain ⟨V, hV, hprune, hgoodV⟩ := hname ⟨c, hc⟩ T hgood (hthere ⟨c, hc⟩ List.mem_cons_self)
      have hthere' : ∀ n : Name, n.val ∈ L → V.get (n :: m) ≠ none := by
        intro n hn
        rw [hprune, if_neg]
        · exact hthere n (List.mem_cons_of_mem _ hn)
        · intro hsuf
          have heq : (⟨c, hc⟩ : Name) :: m = n :: m := hsuf.eq_of_length (by simp)
          rw [List.cons.injEq] at heq
          rw [← heq.1] at hn
          exact hnodup.1 hn
      obtain ⟨U, hU, hgone, hkept⟩ := ih V hgoodV hL' hnodup.2 hthere'
      refine ⟨U, ?_, ?_, ?_⟩
      · simp only [loadAllLoop, hV]
        simpa using hU
      · intro n k hn hk
        by_cases hnL : ∃ n' : Name, n'.val ∈ L ∧ n' :: m <:+ k
        · obtain ⟨n', hn', hk'⟩ := hnL
          exact hgone n' k hn' hk'
        · rcases List.mem_cons.mp hn with heq | hn
          · have hnc : n = ⟨c, hc⟩ := Subtype.ext heq
            rw [hkept k (fun n' hn' hk' => hnL ⟨n', hn', hk'⟩), hprune, if_pos (hnc ▸ hk)]
          · exact absurd ⟨n, hn, hk⟩ hnL
      · intro k hk
        rw [hkept k (fun n hn => hk n (List.mem_cons_of_mem _ hn)), hprune,
          if_neg (hk ⟨c, hc⟩ List.mem_cons_self)]
    · have hdot := (listed_dot_iff c (hL c List.mem_cons_self)).mpr hc
      obtain ⟨U, hU, hgone, hkept⟩ := ih T hgood hL' hnodup.2
        (fun n hn => hthere n (List.mem_cons_of_mem _ hn))
      refine ⟨U, ?_, ?_, ?_⟩
      · simp only [loadAllLoop, hdots c T hdot]
        simpa using hU
      · intro n k hn hk
        rcases List.mem_cons.mp hn with heq | hn
        · exact absurd (heq ▸ n.property) hc
        · exact hgone n k hn hk
      · intro k hk
        exact hkept k (fun n hn => hk n (List.mem_cons_of_mem _ hn))

theorem listed_of_mem_entryNames (T : FS) (m : Location) (c : CStr) (h : c ∈ entryNames T m) :
    Listed c := by
  rcases (mem_entryNames T m c).mp h with h | h | ⟨n, rfl, _⟩
  · exact Or.inr (Or.inl h)
  · exact Or.inr (Or.inr h)
  · exact Or.inl n.property

/-- Everything strictly below `m` is gone from `U`. -/
theorem Emptied.below {T U : FS} {m : Location} (h : Emptied T m (entryNames T m) U)
    (k : Location) : U.get k = if m <:+ k ∧ m ≠ k then none else T.get k := by
  split_ifs with hk
  · obtain ⟨⟨t, rfl⟩, hne⟩ := hk
    rcases List.eq_nil_or_concat t with rfl | ⟨t, n, rfl⟩
    · exact absurd rfl hne
    · have hsuf : n :: m <:+ t.concat n ++ m := by simp
      by_cases hn : T.get (n :: m) = none
      · rw [h.kept]
        · exact T.get_eq_none_of_suffix hsuf hn
        · intro n' hn' hsuf'
          have heq : n' :: m = n :: m := by
            rcases List.suffix_or_suffix_of_suffix hsuf hsuf' with h' | h'
            · exact (h'.eq_of_length (by simp)).symm
            · exact h'.eq_of_length (by simp)
          exact (val_mem_entryNames T m n').mp hn' (heq ▸ hn)
      · exact h.gone n _ ((val_mem_entryNames T m n).mpr hn) hsuf
  · apply h.kept
    intro n _ hsuf
    refine hk ⟨(List.suffix_cons n m).trans hsuf, ?_⟩
    rintro rfl
    have hlen := hsuf.length_le
    simp at hlen

/-- No entry at or below `m` is `fuel` levels deeper. -/
def Shallow (T : FS) (m : Location) (fuel : ℕ) : Prop :=
  ∀ k, m <:+ k → T.get k ≠ none → k.length < m.length + fuel

theorem Shallow.child {T U : FS} {m : Location} {fuel : ℕ} (n : Name)
    (h : Shallow T m (fuel + 1)) (hsub : ∀ k, U.get k ≠ none → T.get k ≠ none) :
    Shallow U (n :: m) fuel := by
  intro k hk hget
  have hlen := h k ((List.suffix_cons n m).trans hk) (hsub k hget)
  simp only [List.length_cons]
  omega

def PrunesFiles (fuel : ℕ) : Prop :=
  ∀ (d : CStr) (l : Location) (n : Name) (T : FS), DenotesDir d l → T.get (n :: l) ≠ none →
    Shallow T (n :: l) fuel →
    ∃ U, removeMetadataFile fuel (fullpath d n.val) T = (0, U) ∧ T.Pruned (n :: l) U

theorem removeMetadataFile_dots (fuel : ℕ) (d c : CStr) (T : FS) (hd : d ≠ [])
    (hc : c = ['.'] ∨ c = ['.', '.']) : removeMetadataFile fuel (fullpath d c) T = (0, T) := by
  cases fuel with
  | zero => rfl
  | succ fuel =>
    rw [removeMetadataFile, basename_fullpath d c hd (Or.inr hc)]
    exact if_pos hc

theorem loadAll_emptied (fuel : ℕ) (hfuel : PrunesFiles fuel) (s : CStr) (m : Location) (T : FS)
    (hs : DenotesDir s m) (hm : T.IsDir m) (hshallow : Shallow T m (fuel + 1)) :
    ∃ U, loadAll id (removeMetadataFile fuel) s T = (0, U) ∧ Emptied T m (entryNames T m) U := by
  rw [loadAll, id_eq, hs.scandir_dir T hm]
  apply loadAllLoop_emptied _ s m (fun U => ∀ k, U.get k ≠ none → T.get k ≠ none) _ T
    (fun k hk => hk) (listed_of_mem_entryNames T m) (nodup_entryNames T m)
    (fun n => (val_mem_entryNames T m n).mp)
    (fun c U => removeMetadataFile_dots fuel s c U hs.ne_nil)
  intro n U hsub hn
  obtain ⟨V, hV, hprune⟩ := hfuel s m n U hs hn (hshallow.child n hsub)
  refine ⟨V, hV, hprune, ?_⟩
  intro k hk
  rw [hprune k] at hk
  split_ifs at hk
  · exact absurd rfl hk
  · exact hsub k hk

/-- Removing the directory that was emptied prunes the tree. -/
theorem Emptied.rmdir {T U : FS} {n : Name} {l : Location}
    (h : Emptied T (n :: l) (entryNames T (n :: l)) U) (hd : T.IsDir (n :: l)) (s : CStr)
    (hs : DenotesDir s (n :: l)) : ∃ V, rmdir U s = .ok V ∧ T.Pruned (n :: l) V := by
  have hget := h.below
  have hdir : U.IsDir (n :: l) := by
    obtain ⟨a, ha⟩ := hd
    exact ⟨a, by rw [hget, if_neg (by simp), ha]⟩
  have hchildless : U.Childless (n :: l) := by
    apply (U.childless_iff _).mpr
    intro c
    rw [hget, if_pos ⟨List.suffix_cons c (n :: l), by simp⟩]
  refine ⟨U.remove n l, hs.rmdir_empty U hdir hchildless, ?_⟩
  intro k
  rw [U.get_remove n l hchildless, hget]
  by_cases hk : k = n :: l
  · simp [hk]
  · simp [hk, Ne.symm hk]

theorem prunesFiles (fuel : ℕ) : PrunesFiles fuel := by
  induction fuel with
  | zero =>
    intro d l n T hd hn hshallow
    have hlt := hshallow (n :: l) List.suffix_rfl hn
    omega
  | succ fuel ih =>
    intro d l n T hd hn hshallow
    have hbase : basename (fullpath d n.val) = n.val :=
      basename_fullpath d n.val hd.ne_nil (Or.inl n.property)
    have hdots : ¬(n.val = ['.'] ∨ n.val = ['.', '.']) := by
      rintro (h | h)
      · exact n.property.2.2.1 h
      · exact n.property.2.2.2 h
    have hden := denotes_fullpath d l n hd
    obtain ⟨e, he⟩ := Option.ne_none_iff_exists'.mp hn
    rw [removeMetadataFile]
    simp only [hbase, if_neg hdots, hden.stat T, he]
    cases e with
    | dir a =>
      obtain ⟨U, hU, hemptied⟩ := loadAll_emptied fuel ih _ _ T hden.toDir ⟨a, he⟩ hshallow
      obtain ⟨V, hV, hprune⟩ := hemptied.rmdir ⟨a, he⟩ _ hden.toDir
      exact ⟨V, by simp [hU, hV], hprune⟩
    | leaf c =>
      have hnd : ¬T.IsDir (n :: l) := T.not_isDir_of_leaf _ c he
      refine ⟨T.remove n l, by simp only [hden.unlink_leaf T c he], ?_⟩
      intro k
      rw [T.get_remove n l (T.childless_of_not_isDir _ hnd)]
      by_cases hk : k = n :: l
      · simp [hk]
      · rw [if_neg hk]
        split_ifs with hsuf
        · exact T.get_eq_none_of_leaf hsuf (Ne.symm hk) hnd
        · rfl

/-- Removing the metadata of a path prunes the whole directory, with what other
devices have in it. -/
theorem removeMetadata_pruned (st : VdevState) (p : CStr) (mp r : Location) (T : FS)
    (hm : DenotesDir st.mountpoint mp) (hp : Denotes p r) (hd : T.IsDir (metadataDir mp r)) :
    ∃ U, removeMetadata st p T = (0, U) ∧ T.Pruned (metadataDir mp r) U := by
  have hden := denotes_metadataFullpath st.mountpoint p mp r hm hp
  have hshallow : Shallow T (metadataDir mp r) (T.depth + 1 + 1) := by
    intro k _ hk
    have h := T.length_le_depth k hk
    omega
  obtain ⟨U, hU, hemptied⟩ := loadAll_emptied _ (prunesFiles _) _ _ T hden.toDir hd hshallow
  obtain ⟨n, l, hnl⟩ := metadataDir_cons mp r
  rw [hnl] at hemptied hd hden ⊢
  obtain ⟨V, hV, hprune⟩ := hemptied.rmdir hd _ hden.toDir
  refine ⟨V, ?_, hprune⟩
  rw [metadataFullpath] at hU hV
  simp only [removeMetadata, hU, hV]

/-- Without a metadata directory there is nothing to remove. -/
theorem removeMetadata_absent (st : VdevState) (p : CStr) (mp r : Location) (T : FS)
    (hm : DenotesDir st.mountpoint mp) (hp : Denotes p r) (hd : ¬T.IsDir (metadataDir mp r)) :
    (removeMetadata st p T).2 = T := by
  have hden := denotes_metadataFullpath st.mountpoint p mp r hm hp
  obtain ⟨n, l, hnl⟩ := metadataDir_cons mp r
  rw [hnl] at hden hd
  obtain ⟨e, he⟩ := hden.scandir_error T hd
  obtain ⟨e', he'⟩ := hden.toDir.rmdir_error T (fun hand => hd hand.1)
  rw [metadataFullpath] at he he'
  simp only [removeMetadata, loadAll, id_eq, he, he']

def instanceText (st : VdevState) : CStr := st.config.instanceStr ++ "\n".toList

def writeInstance (st : VdevState) (mp r : Location) (T : FS) : Int × FS :=
  match T.get (instanceFile mp r) with
  | none =>
    (0, T.put nameInstance (metadataDir mp r) (.leaf (.file 0o644 (instanceText st))))
  | some (.leaf (.file mode _)) =>
    (0, T.put nameInstance (metadataDir mp r) (.leaf (.file mode (instanceText st))))
  | some (.leaf (.device _ _)) => (Errno.enxio.rc, T)
  | some (.dir _) => (Errno.eisdir.rc, T)

theorem writeInstance_rc_ne_eexist (st : VdevState) (mp r : Location) (T : FS) :
    (writeInstance st mp r T).1 ≠ Errno.eexist.rc := by
  unfold writeInstance
  split
  · change (0 : Int) ≠ Errno.eexist.rc
    decide
  · change (0 : Int) ≠ Errno.eexist.rc
    decide
  · change Errno.enxio.rc ≠ Errno.eexist.rc
    decide
  · change Errno.eisdir.rc ≠ Errno.eexist.rc
    decide

theorem putMetadataItem_eq (st : VdevState) (s : CStr) (mp r : Location) (T : FS)
    (hs : DenotesDir s (metadataDir mp r)) (hd : T.IsDir (metadataDir mp r)) :
    putMetadataItem s paramInstance st.config.instanceStr true 0o644 T =
      writeInstance st mp r T := by
  have hden : Denotes (fullpath s paramInstance) (nameInstance :: metadataDir mp r) :=
    denotes_fullpath s _ nameInstance hs
  rw [putMetadataItem, writeInstance, writeFile, hden.toDir.target T, if_pos hd, instanceFile]
  dsimp only
  cases T.get (nameInstance :: metadataDir mp r) with
  | none =>
    simp only [hden.not_slashed]
    rfl
  | some e =>
    cases e with
    | dir a => rfl
    | leaf c =>
      cases c with
      | file mode content =>
        simp only [hden.not_slashed]
        rfl
      | device mode dev => rfl

/-- Recording metadata makes the missing directories and writes the nonce. -/
theorem putMetadata_clear (st : VdevState) (p : CStr) (mp r : Location) (T : FS)
    (hm : DenotesDir st.mountpoint mp) (hp : Denotes p r) (hmp : T.IsDir mp)
    (hknown : p ≠ unknownPath) (hclear : T.Clear (metadataDir mp r)) :
    ∃ U, T.Grown (metadataDir mp r) 0o755 U ∧ putMetadata st p T = writeInstance st mp r U := by
  have hmade := mkdirs_metadata st.mountpoint p mp r 0o755 T hm hp hmp
  obtain ⟨hrc, hgrown⟩ := hmade.1 hclear
  have hden := denotes_metadataFullpath st.mountpoint p mp r hm hp
  refine ⟨_, hgrown, ?_⟩
  rw [putMetadata, if_neg hknown]
  dsimp only
  rw [if_neg (by simpa using hrc),
    putMetadataItem_eq st _ mp r _ hden.toDir (hgrown.isDir hclear List.suffix_rfl)]
  exact if_neg (writeInstance_rc_ne_eexist st mp r _)

theorem putMetadata_blocked (st : VdevState) (p : CStr) (mp r : Location) (T : FS)
    (hm : DenotesDir st.mountpoint mp) (hp : Denotes p r) (hmp : T.IsDir mp)
    (hknown : p ≠ unknownPath) (hblocked : ¬T.Clear (metadataDir mp r)) :
    putMetadata st p T = (Errno.enotdir.rc, T) := by
  have hmade := mkdirs_metadata st.mountpoint p mp r 0o755 T hm hp hmp
  rw [putMetadata, if_neg hknown]
  dsimp only
  rw [hmade.2 hblocked, if_pos (Errno.rc_ne_zero _)]

end Vdev.Metadata
