import Vdev.Sweep
import Vdev.Enumeration

/-!
The devices that the sweep of a coldplug-only run removes (vdevd/vdev.c). Their paths
are cut behind the mountpoint, with the slash that the requests to add them do not have.
-/
namespace Vdev.SweptDevices

open CString FileTree SystemCalls CallEffects Paths Directories Data Vdev.Action Metadata Device
  Sweep Enumeration

section DevicePath

/-- The path of a device from the mountpoint on, as it is in a request to add it. -/
def relPath : Location → CStr
  | [] => []
  | [n] => n.val
  | n :: m :: r => relPath (m :: r) ++ '/' :: n.val

/-- What the regex for the path, if there is one, says about a request. -/
def pathVerdict (regexec : CStr → Option CStr → Int) (act : Action) (vreq : Request) : Int :=
  match act.path with
  | some regex => matchRegex regexec vreq.path regex
  | none => 1

theorem actionMatch_eq_pathVerdict (regexec : CStr → Option CStr → Int) (vreq : Request)
    (act : Action) : actionMatch regexec vreq act =
      if act.trigger ≠ vreq.type ∧ act.trigger ≠ .any then 0
      else if pathVerdict regexec act vreq = 0 then 0
      else if pathVerdict regexec act vreq < 0 then pathVerdict regexec act vreq
      else if !matchType vreq.mode act then 0
      else matchParams vreq.params act.devParams.entries := rfl

theorem relPath_ne_nil {r : Location} (hr : r ≠ []) : relPath r ≠ [] := by
  match r with
  | [] => exact absurd rfl hr
  | [n] => exact n.property.1
  | n :: m :: r => exact List.append_ne_nil_of_right_ne_nil _ (List.cons_ne_nil _ _)

theorem head_name_ne_slash (n : Name) : n.val.head? ≠ some '/' :=
  fun h => n.property.2.1 (List.mem_of_head? h)

theorem relPath_head (r : Location) : (relPath r).head? ≠ some '/' := by
  induction r using relPath.induct with
  | case1 => exact nofun
  | case2 n => exact head_name_ne_slash n
  | case3 n m r ih =>
    rw [relPath, List.head?_append_of_ne_nil _ (relPath_ne_nil (List.cons_ne_nil m r))]
    exact ih

theorem fullpath_unslashed (root path : CStr) (h : root ≠ []) (hroot : slashed root = false)
    (hpath : path.head? ≠ some '/') : fullpath root path = root ++ '/' :: path := by
  have hlast : root.getLast? ≠ some '/' := by
    intro hlast
    rw [slashed, hlast] at hroot
    cases hroot
  rw [fullpath, if_neg h, if_pos ⟨hlast, hpath⟩]

/-- The path that the sweep makes for a device is its path joined to the mountpoint. -/
theorem pathFrom_relPath (root : CStr) (l r : Location) (h : root ≠ []) (hr : r ≠ []) :
    pathFrom root l (r ++ l) = fullpath root (relPath r) := by
  induction r using relPath.induct with
  | case1 => exact absurd rfl hr
  | case2 n =>
    rw [List.singleton_append, pathFrom_cons root l l n List.suffix_rfl, pathFrom_self]
    rfl
  | case3 n m r ih =>
    have hhead := relPath_head (m :: r)
    have hne := relPath_ne_nil (List.cons_ne_nil m r)
    have hslash : slashed (fullpath root (relPath (m :: r))) = false := by
      rw [slashed_fullpath root _ hne (fun heq => hhead (by rw [heq]; rfl))]
      cases r with
      | nil => exact slashed_of_plain _ m.property
      | cons k r =>
        rw [relPath, slashed_append _ _ (List.cons_ne_nil _ _)]
        exact (slashed_append ['/'] m.val m.property.1).trans (slashed_of_plain _ m.property)
    have hjoin : fullpath root (relPath (n :: m :: r)) =
        fullpath root (relPath (m :: r)) ++ '/' :: n.val := by
      have hhead' : (relPath (m :: r) ++ '/' :: n.val).head? ≠ some '/' := by
        rw [List.head?_append_of_ne_nil _ hne]
        exact hhead
      rw [relPath, fullpath, fullpath, if_neg h, if_neg h]
      split_ifs with h₁ h₂ h₃ h₄ <;> simp_all
    rw [List.cons_append, pathFrom_cons root l _ n (List.suffix_append _ _),
      ih (List.cons_ne_nil m r), hjoin]
    exact fullpath_unslashed _ _ (fullpath_ne_nil _ _ h) hslash (head_name_ne_slash n)

/-- A request to remove a device has the path of a request to add it, so the regex for
the path says the same about both. -/
def SamePath (remove add : Request) : Prop :=
  remove.path = add.path ∧
    ∀ regexec act, pathVerdict regexec act remove = pathVerdict regexec act add

/-- A device is swept under the path that it was added with exactly if the mountpoint is
the root. -/
theorem toDelete_samePath_iff (st : VdevState) (mp r : Location)
    (hm : MountedAt st.mountpoint mp) (hr : r ≠ []) (mode dev : ℕ) (add : Request)
    (hadd : add.path = some (relPath r)) :
    SamePath (toDelete st (pathFrom st.mountpoint mp (r ++ mp)) mode dev) add ↔
      st.mountpoint = ['/'] := by
  have hpath : (toDelete st (pathFrom st.mountpoint mp (r ++ mp)) mode dev).path =
      some ((fullpath st.mountpoint (relPath r)).drop st.mountpoint.length) := by
    rw [← pathFrom_relPath st.mountpoint mp r hm.ne_nil hr]
    rfl
  constructor
  · rintro ⟨hsame, -⟩
    by_contra hroot
    have hslash : slashed st.mountpoint = false := by
      rw [Bool.eq_false_iff]
      exact fun hslash => hroot (hm.root hslash)
    -- the slash between the mountpoint and the device stays
    rw [hpath, hadd, fullpath_unslashed _ _ hm.ne_nil hslash (relPath_head r), List.drop_left] at hsame
    have hlen := congrArg List.length (Option.some.inj hsame)
    rw [List.length_cons] at hlen
    omega
  · intro hroot
    have hdrop : (fullpath ['/'] (relPath r)).drop 1 = relPath r := by
      have hhead := relPath_head r
      rw [fullpath, if_neg (List.cons_ne_nil _ _), if_neg (fun h => h.1 rfl),
        if_neg (fun h => hhead h.2)]
      rfl
    have hsame : (toDelete st (pathFrom st.mountpoint mp (r ++ mp)) mode dev).path = add.path := by
      rw [hpath, hadd, hroot]
      exact congrArg some hdrop
    refine ⟨hsame, fun regexec act => ?_⟩
    unfold pathVerdict
    rw [hsame]

/-- A disk that is added as `sda`. -/
def sdaAdd : Request where
  type := .add
  path := some "sda".toList

theorem toDelete_samePath_iff_root :
    SamePath (toDelete { bareState with mountpoint := ['/'] }
      (pathFrom ['/'] [] [sdaName]) S_IFBLK 2048) sdaAdd :=
  (toDelete_samePath_iff { bareState with mountpoint := ['/'] } [] [sdaName]
    ⟨⟨by decide, by decide⟩, fun _ => rfl⟩ (by decide) S_IFBLK 2048 sdaAdd rfl).mpr rfl

/-- The regex `^sda$` for all requests. -/
def anchored : Action where
  trigger := .any
  path := some "^sda$".toList

/-- `regexec` for `^sda$`. -/
def execAnchored (_ : CStr) (path : Option CStr) : Int :=
  if path = some "sda".toList then 0 else REG_NOMATCH

/-- Under `/dev`, an anchored regex matches when the disk is added, and not when it is
swept. -/
theorem not_samePath :
    (toDelete bareState (pathFrom bareState.mountpoint [nameDev] [sdaName, nameDev]) S_IFBLK
      2048).path = some "/sda".toList ∧
    actionMatch execAnchored sdaAdd anchored = 1 ∧
    actionMatch execAnchored (toDelete bareState
      (pathFrom bareState.mountpoint [nameDev] [sdaName, nameDev]) S_IFBLK 2048) anchored = 0 ∧
    ¬SamePath (toDelete bareState (pathFrom bareState.mountpoint [nameDev] [sdaName, nameDev])
      S_IFBLK 2048) sdaAdd := by
  refine ⟨by decide, by decide, by decide, fun h => ?_⟩
  exact absurd h.1 (by decide)

end DevicePath

end Vdev.SweptDevices
