import Vdev.Device

/-!
The records of vdevd: the files with the nonce of an instance, one for each device.
A record is found through a path of any shape. In a tree without symbolic links
the location it leads to can be read off its components, so two names are the
same device when they lead to the same metadata directory.

No call of the handlers makes a record, or writes to one, except the one that
writes the nonce of this vdevd.
-/
namespace Vdev.Records

open CString FileTree SystemCalls CallEffects Paths Directories Data Vdev.Action Metadata Device

variable {σ : Type}

/-- Every regular file of `U` is one of `T`. -/
def NoNewFiles (T U : FS) : Prop :=
  ∀ l m x, U.get l = some (.leaf (.file m x)) → T.get l = some (.leaf (.file m x))

theorem NoNewFiles.refl (T : FS) : NoNewFiles T T := fun _ _ _ h => h

theorem NoNewFiles.trans {T U V : FS} (h : NoNewFiles T U) (h' : NoNewFiles U V) :
    NoNewFiles T V := fun l m x hfile => h l m x (h' l m x hfile)

def deviceDir (st : VdevState) (p : CStr) : Location :=
  follow (metadataRoot (follow [] (names st.mountpoint))) (names p)

/-- The path of the record of a device, as `vdev_device_put_metadata` makes it. -/
def recordPath (st : VdevState) (p : CStr) : CStr :=
  fullpath (metadataFullpath st.mountpoint p) paramInstance

theorem names_fullpath_any (root path : CStr) :
    names (fullpath root path) = names root ++ names path := by
  by_cases hroot : root = []
  · rw [hroot]
    rfl
  · exact names_fullpath root path hroot

theorem follow_steps (l k : Location) : follow l (steps k) = k ++ l := by
  induction k with
  | nil => rfl
  | cons n k ih =>
    rw [steps_cons, follow_append, ih, follow, dif_pos n.property]
    rfl

/-- For a name that denotes a location, this is the directory below the metadata
of the mountpoint. -/
theorem deviceDir_of_denotes (st : VdevState) (p : CStr) (mp r : Location)
    (hm : DenotesDir st.mountpoint mp) (hp : Denotes p r) : deviceDir st p = metadataDir mp r := by
  rw [deviceDir, hm.names_eq, hp.names_eq, follow_steps, follow_steps, List.append_nil]
  rfl

/-- A record with this content carries the nonce of this vdevd. -/
def Ours (st : VdevState) (content : CStr) : Prop :=
  untilNul (content.take 64) = untilNul st.config.instanceStr

/-- Every record in `U` was there in `T`, or carries the nonce of this vdevd. -/
def KeepsRecords (st : VdevState) (T U : FS) : Prop :=
  ∀ l m x, U.get (nameInstance :: l) = some (.leaf (.file m x)) →
    Ours st x ∨ ∃ m', T.get (nameInstance :: l) = some (.leaf (.file m' x))

theorem NoNewFiles.keepsRecords {T U : FS} (st : VdevState) (h : NoNewFiles T U) :
    KeepsRecords st T U := fun _ m x hfile => Or.inr ⟨m, h _ m x hfile⟩

theorem KeepsRecords.refl (st : VdevState) (T : FS) : KeepsRecords st T T :=
  (NoNewFiles.refl T).keepsRecords st

theorem KeepsRecords.trans (st : VdevState) (T U V : FS) (h : KeepsRecords st T U)
    (h' : KeepsRecords st U V) : KeepsRecords st T V := by
  intro l m x hfile
  rcases h' l m x hfile with hours | ⟨m', hfile'⟩
  · exact Or.inl hours
  · exact h l m' x hfile'

/-- The record in the directory `d`, if there is one, carries the nonce of this vdevd. -/
def NotStale (st : VdevState) (T : FS) (d : Location) : Prop :=
  ∀ m x, T.get (nameInstance :: d) = some (.leaf (.file m x)) → Ours st x

end Vdev.Records
