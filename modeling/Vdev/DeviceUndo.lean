import Vdev.Device

/-!
What ADD followed by REMOVE leaves behind. ADD makes the directories on the way
to the node, the node, the directories down to the metadata of the new name, and
the instance file. REMOVE unlinks the node and prunes the metadata directory of
the path that the request came with. The two cancel when every directory that
ADD has to make lies in what REMOVE prunes. At the root, ADD writes past the block
for the path to the metadata as soon as it needs that path.
-/
namespace Vdev.DeviceUndo

open CString FileTree SystemCalls CallEffects Paths Directories Data Vdev.Action Metadata Device

variable {σ : Type}

section

variable (st : VdevState) (req : Request) (mp r : Location) (n : Name) (T : FS)

def WantsNode : Prop := req.dev ≠ 0 ∧ req.mode ≠ 0

def MakesNode : Prop :=
  WantsNode req ∧ T.Clear (r ++ mp) ∧ req.existsFlag = false ∧
    mknodRefuses (req.mode ||| st.config.defaultMode) = none

/-- ADD records metadata. The node itself can stand in the way of the directories
of its metadata, when its path leads to them. -/
def Records : Prop :=
  T.Clear (metadataDir mp (n :: r)) ∧
    (WantsNode req → T.Clear (r ++ mp) ∧
      (req.existsFlag = true ∨
        mknodRefuses (req.mode ||| st.config.defaultMode) = none ∧
          ¬n :: (r ++ mp) <:+ metadataDir mp (n :: r)))

/-- ADD makes a directory at `k`. -/
def MakesDir (k : Location) : Prop :=
  T.get k = none ∧
    (WantsNode req ∧ T.Clear (r ++ mp) ∧ k <:+ r ++ mp ∨
      Records st req mp r n T ∧ k <:+ metadataDir mp (n :: r))

structure Fresh (p : CStr) : Prop where
  mounted : MountedAt st.mountpoint mp
  mountpoint : T.IsDir mp
  noQuirk : configHasOSQuirk st.config.osQuirks VDEV_OS_QUIRK_DEVICE_EXISTS = false
  renamed : Denotes p (n :: r)
  known : p ≠ unknownPath
  noNode : T.get (n :: (r ++ mp)) = none
  noMetadata : T.get (metadataDir mp (n :: r)) = none

structure Added (U : FS) : Prop where
  made : ∀ k, MakesDir st req mp r n T k → U.IsDir k
  node : MakesNode st req mp r T → ∃ c, U.get (n :: (r ++ mp)) = some (.leaf c)
  kept : ∀ k, ¬MakesDir st req mp r n T k → ¬(MakesNode st req mp r T ∧ k = n :: (r ++ mp)) →
    ¬(Records st req mp r n T ∧ k = instanceFile mp (n :: r)) → U.get k = T.get k

end

section Lengths

variable (mp r : Location) (n : Name)

theorem instanceFile_not_suffix : ¬instanceFile mp (n :: r) <:+ metadataDir mp (n :: r) := by
  intro h
  have hlen := h.length_le
  simp [instanceFile] at hlen

end Lengths

/-- Recording metadata in a tree that has none for the device. -/
theorem putMetadata_fresh (st : VdevState) (mp r : Location) (n : Name) (p : CStr) (T : FS)
    (hm : MountedAt st.mountpoint mp) (hmp : T.IsDir mp) (hp : Denotes p (n :: r))
    (hknown : p ≠ unknownPath) (hnone : T.get (metadataDir mp (n :: r)) = none) (k : Location) :
    (T.Clear (metadataDir mp (n :: r)) → T.get k = none → k <:+ metadataDir mp (n :: r) →
      (putMetadata st p T).2.IsDir k) ∧
    (¬(T.Clear (metadataDir mp (n :: r)) ∧
        (T.get k = none ∧ k <:+ metadataDir mp (n :: r) ∨ k = instanceFile mp (n :: r))) →
      (putMetadata st p T).2.get k = T.get k) := by
  by_cases hclear : T.Clear (metadataDir mp (n :: r))
  · obtain ⟨U, hgrown, hput⟩ :=
      putMetadata_clear st p mp (n :: r) T hm.toDenotesDir hp hmp hknown hclear
    have hI : U.get (instanceFile mp (n :: r)) = none := by
      rw [hgrown.get_of_not_suffix (instanceFile_not_suffix mp r n)]
      exact T.get_eq_none_of_suffix (List.suffix_cons _ _) hnone
    have hdir := hgrown.isDir hclear List.suffix_rfl
    have hget := U.get_put nameInstance (metadataDir mp (n :: r))
      (.leaf (.file 0o644 (instanceText st))) hdir (U.not_isDir_of_none _ hI)
    rw [hput, writeInstance, hI]
    refine ⟨fun _ hk hsuf => ?_, fun hnot => ?_⟩
    · obtain ⟨a, ha⟩ := hgrown.isDir hclear hsuf
      refine ⟨a, ?_⟩
      have hne : k ≠ nameInstance :: metadataDir mp (n :: r) := by
        rintro rfl
        exact instanceFile_not_suffix mp r n hsuf
      rw [hget, if_neg hne, ha]
    · have hne : k ≠ nameInstance :: metadataDir mp (n :: r) :=
        fun heq => hnot ⟨hclear, Or.inr heq⟩
      rw [hget, if_neg hne, hgrown k, if_neg]
      rintro ⟨hsuf, hk⟩
      exact hnot ⟨hclear, Or.inl ⟨hk, hsuf⟩⟩
  · rw [putMetadata_blocked st p mp (n :: r) T hm.toDenotesDir hp hmp hknown hclear]
    exact ⟨fun h => absurd h hclear, fun _ => rfl⟩

theorem addFinish_tree (c : Commands (FS × σ)) (hc : KeepsTree c) (st : VdevState)
    (req : Request) (p : CStr) (s : σ) (rc : Int) (devExists : Bool) (T : FS) :
    (addFinish c st req p s (rc, devExists, T)).world.1 =
      if rc ≠ 0 then T else (putMetadata st p T).2 := by
  rw [addFinish]
  dsimp only
  split_ifs
  · rfl
  · rfl
  · exact runAll_tree c st req devExists hc _

/-- The tree before the metadata is recorded: the directories on the way to the
node and the node are there. -/
structure Entered (st : VdevState) (req : Request) (mp r : Location) (n : Name) (T U : FS) :
    Prop where
  mountpoint : U.IsDir mp
  noMetadata : U.get (metadataDir mp (n :: r)) = none
  clear_iff : U.Clear (metadataDir mp (n :: r)) ↔ Records st req mp r n T
  made : ∀ k, T.get k = none → WantsNode req → T.Clear (r ++ mp) → k <:+ r ++ mp → U.IsDir k
  node : MakesNode st req mp r T → ∃ c, U.get (n :: (r ++ mp)) = some (.leaf c)
  kept : ∀ k, ¬(T.get k = none ∧ WantsNode req ∧ T.Clear (r ++ mp) ∧ k <:+ r ++ mp) →
    ¬(MakesNode st req mp r T ∧ k = n :: (r ++ mp)) → U.get k = T.get k

theorem Entered.added {st : VdevState} {req : Request} {mp r : Location} {n : Name} {p : CStr}
    {T U : FS} (hU : Entered st req mp r n T U) (h : Fresh st mp r n T p) :
    Added st req mp r n T (putMetadata st p U).2 := by
  have hput := putMetadata_fresh st mp r n p U h.mounted hU.mountpoint h.renamed h.known
    hU.noMetadata
  have hnoI : U.get (instanceFile mp (n :: r)) = none :=
    U.get_eq_none_of_suffix (List.suffix_cons _ _) hU.noMetadata
  have hkeep : ∀ k, U.get k ≠ none → (putMetadata st p U).2.get k = U.get k := by
    intro k hk
    apply (hput k).2
    rintro ⟨_, ⟨hnone, _⟩ | rfl⟩
    · exact hk hnone
    · exact hk hnoI
  have hdir : ∀ k, U.IsDir k → (putMetadata st p U).2.IsDir k := by
    intro k hk
    obtain ⟨a, ha⟩ := hk
    exact ⟨a, by rw [hkeep k (by rw [ha]; exact Option.some_ne_none _), ha]⟩
  refine ⟨?_, ?_, ?_⟩
  · rintro k ⟨hk, ⟨hw, hclear, hsuf⟩ | ⟨hrec, hsuf⟩⟩
    · exact hdir k (hU.made k hk hw hclear hsuf)
    · have hclear := hU.clear_iff.mpr hrec
      rcases (U.clear_iff _).mp hclear k hsuf with hnone | hd
      · exact (hput k).1 hclear hnone hsuf
      · exact hdir k hd
  · intro hnode
    obtain ⟨c, hc⟩ := hU.node hnode
    exact ⟨c, by rw [hkeep _ (by rw [hc]; exact Option.some_ne_none _), hc]⟩
  · intro k hmade hnode hinst
    have hk : U.get k = T.get k := by
      apply hU.kept k _ hnode
      rintro ⟨hk, hw, hclear, hsuf⟩
      exact hmade ⟨hk, Or.inl ⟨hw, hclear, hsuf⟩⟩
    rw [(hput k).2, hk]
    rintro ⟨hclear, ⟨hnone, hsuf⟩ | hI⟩
    · rw [hk] at hnone
      exact hmade ⟨hnone, Or.inr ⟨hU.clear_iff.mp hclear, hsuf⟩⟩
    · exact hinst ⟨hU.clear_iff.mp hclear, hI⟩

theorem denotes_node (m p : CStr) (mp r : Location) (n : Name) (hm : DenotesDir m mp)
    (hp : Denotes p (n :: r)) : Denotes (fullpath m p) (n :: (r ++ mp)) := by
  refine ⟨fullpath_ne_nil _ _ hm.ne_nil, ?_, ?_⟩
  · rw [names_fullpath _ _ hm.ne_nil, hm.names_eq, hp.names_eq, ← steps_append]
    rfl
  · have hslash : p ≠ ['/'] := by
      rintro rfl
      exact absurd hp.not_slashed (by decide)
    rw [slashed_fullpath _ _ hp.ne_nil hslash, hp.not_slashed]

theorem removeRenamed_unknown_tree (c : Commands (FS × σ)) (hc : KeepsTree c) (st : VdevState)
    (req : Request) (w : FS × σ) : (removeRenamed c st req unknownPath w).world.1 = w.1 := by
  rw [removeRenamed, if_neg (by simp)]
  exact runAll_tree c st _ true hc w

theorem removeRenamed_tree (c : Commands (FS × σ)) (hc : KeepsTree c) (st : VdevState)
    (req : Request) (p path : CStr) (hpath : req.path = some path) (hp : p ≠ unknownPath)
    (w : FS × σ) :
    (removeRenamed c st req p w).world.1 =
      (removeMetadata st path (removeNode st req p w.1)).2 := by
  rw [removeRenamed, if_pos hp]
  dsimp only
  rw [runAll_tree c st _ true hc, hpath]
  rfl

def diskRequest : Request :=
  { type := .add, path := some "sda".toList, dev := 2048, mode := S_IFBLK ||| 0o600 }

theorem denotes_sda : Denotes "sda".toList [sdaName] := ⟨by decide, by decide, by decide⟩

def eventName : Name := ⟨"event0".toList, by decide⟩

end Vdev.DeviceUndo
