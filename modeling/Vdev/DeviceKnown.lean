import Vdev.Dispatch
import Vdev.DeviceGrowth
import Mathlib.Data.List.TakeWhile

/-!
How the handlers tell a device that has been processed from a new one. The
metadata directory of the renamed path says so, and `vdev_device_has_metadata`
returns 0 when it is there. Two callers take a non-zero result for "present":
the branch of ADD for systems whose kernel makes the nodes, and CHANGE.
-/
namespace Vdev.DeviceKnown

open CString FileTree SystemCalls CallEffects Paths Directories Data Vdev.Action Dispatch Metadata
open Device DeviceUndo DeviceGrowth

variable {σ : Type}

/-- Nothing that cannot be written stands in the place of the instance file. -/
def InstanceWritable (T : FS) (mp r : Location) : Prop :=
  T.get (instanceFile mp r) = none ∨ ∃ m text, T.get (instanceFile mp r) = some (.leaf (.file m text))

theorem writeInstance_eq_zero (st : VdevState) (mp r : Location) (T : FS) :
    (writeInstance st mp r T).1 = 0 ↔ InstanceWritable T mp r := by
  rw [writeInstance, InstanceWritable]
  cases T.get (instanceFile mp r) with
  | none => simp
  | some e =>
    cases e with
    | dir a => simp [Errno.rc]
    | leaf f =>
      cases f with
      | file m text => simp
      | device m d => simp [Errno.rc]

theorem putMetadata_eq_zero (st : VdevState) (mp r : Location) (p : CStr) (T : FS)
    (hm : DenotesDir st.mountpoint mp) (hp : Denotes p r) (hmp : T.IsDir mp)
    (hknown : p ≠ unknownPath) :
    (putMetadata st p T).1 = 0 ↔ T.Clear (metadataDir mp r) ∧ InstanceWritable T mp r := by
  by_cases hclear : T.Clear (metadataDir mp r)
  · obtain ⟨U, hgrown, hput⟩ := putMetadata_clear st p mp r T hm hp hmp hknown hclear
    have hget : U.get (instanceFile mp r) = T.get (instanceFile mp r) := by
      apply hgrown.get_of_not_suffix
      intro hsuf
      have hlen := hsuf.length_le
      simp [instanceFile] at hlen
    rw [hput, writeInstance_eq_zero, InstanceWritable, InstanceWritable, hget]
    simp [hclear]
  · rw [putMetadata_blocked st p mp r T hm hp hmp hknown hclear]
    simp [hclear, Errno.rc_ne_zero]

theorem putMetadata_records (st : VdevState) (mp r : Location) (p : CStr) (T : FS)
    (hm : DenotesDir st.mountpoint mp) (hp : Denotes p r) (hmp : T.IsDir mp)
    (hknown : p ≠ unknownPath) (h : (putMetadata st p T).1 = 0) :
    (putMetadata st p T).2.IsDir (metadataDir mp r) := by
  have hclear := ((putMetadata_eq_zero st mp r p T hm hp hmp hknown).mp h).1
  obtain ⟨U, hgrown, hput⟩ := putMetadata_clear st p mp r T hm hp hmp hknown hclear
  have hdir := hgrown.isDir hclear List.suffix_rfl
  rw [hput, writeInstance]
  split
  · exact hdir.put _ _ _
  · exact hdir.put _ _ _
  · exact hdir
  · exact hdir

/-- ADD gets to its actions when the metadata could be recorded. -/
theorem addFinish_ran (c : Commands (FS × σ)) (st : VdevState) (req : Request) (p : CStr) (s : σ)
    (rc : Int) (devExists : Bool) (T : FS) :
    (addFinish c st req p s (rc, devExists, T)).ran =
      if rc = 0 ∧ (putMetadata st p T).1 = 0 then
        some (devExists,
          (actionRunCommands c req st.acts devExists ((putMetadata st p T).2, s)).calls)
      else none := by
  rw [addFinish]
  dsimp only
  by_cases hrc : rc = 0
  · by_cases hput : (putMetadata st p T).1 = 0
    · simp [hrc, hput, runAll]
    · simp [hrc, hput]
  · simp [hrc]

/-- The actions that match a request and have a command, whatever they say about
devices that exist. -/
def matching (regexec : CStr → Option CStr → Int) (vreq : Request) (acts : List Action) :
    List (Action × ℕ) :=
  acts.zipIdx.filter (fun x => actionMatch regexec vreq x.1 = 1 ∧ x.1.command ≠ none)

/-- The place where a device is known: its name is not UNKNOWN, and the mountpoint
is there. -/
structure Named (st : VdevState) (mp r : Location) (n : Name) (p : CStr) (T : FS) : Prop where
  mounted : MountedAt st.mountpoint mp
  mountpoint : T.IsDir mp
  renamed : Denotes p (n :: r)
  known : p ≠ unknownPath

theorem addFinish_recorded {st : VdevState} {mp r : Location} {n : Name} {p : CStr} {T : FS}
    (c : Commands (FS × σ)) (hc : KeepsTree c) (h : Named st mp r n p T) (req : Request) (s : σ)
    (rc : Int) (ex : Bool) (hran : (addFinish c st req p s (rc, ex, T)).ran ≠ none) :
    (addFinish c st req p s (rc, ex, T)).world.1.IsDir (metadataDir mp (n :: r)) := by
  rw [addFinish_ran] at hran
  split_ifs at hran with hok
  · rw [addFinish_tree c hc, if_neg (by simpa using hok.1)]
    exact putMetadata_records st mp (n :: r) p T h.mounted.toDenotesDir h.renamed h.mountpoint
      h.known hok.2
  · exact absurd rfl hran

end Vdev.DeviceKnown
