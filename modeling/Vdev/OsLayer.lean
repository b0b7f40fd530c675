import Vdev.Enumeration
import Vdev.Startup

/-!
The start of the OS layer (`vdev_os_init` in vdevd/os/linux.c). It compares paths to
decide whether the mountpoint is on a devtmpfs, and then seeds the devices from sysfs. The
comparison looks for a slash anywhere after the common part, and the seeding returns what
the last device returned.
-/
namespace Vdev.OsLayer

open CString Data SystemCalls Uevent SysfsDevice Enumeration Startup

section Containment

/-- A mountpoint is a directory or lies below it. -/
def Below (t m : CStr) : Prop := m = t ∨ (∃ rest, m = t ++ '/' :: rest) ∨ t = ['/']

/-- The comparison finds a mountpoint below a directory: below the root only if there is
another directory in between. -/
def Seen (t m : CStr) : Prop := m = t ∨ (∃ rest, m = t ++ '/' :: rest) ∨ (t = ['/'] ∧ '/' ∈ m.tail)

/-- The mountpoint is in a directory whose name continues the last name of a path. -/
def Sibling (t m : CStr) : Prop :=
  t ≠ ['/'] ∧ ∃ c rest, m = t ++ c :: rest ∧ c ≠ '/' ∧ '/' ∈ rest

/-- The mountpoint is in the root directory. -/
def InRoot (t m : CStr) : Prop := t = ['/'] ∧ m ≠ t ∧ '/' ∉ m.tail

theorem contained_iff (t m : CStr) :
    contained t m = true ↔ m = t ∨ ∃ rest, m = t ++ rest ∧ '/' ∈ rest := by
  unfold contained
  simp only [Bool.and_eq_true, Bool.or_eq_true, beq_iff_eq, List.contains_iff_mem]
  rcases Nat.le_total t.length m.length with hle | hle
  · rw [Nat.min_eq_left hle, List.take_length]
    constructor
    · rintro ⟨htake, hslash | heq⟩
      · refine Or.inr ⟨m.drop t.length, ?_, hslash⟩
        conv_lhs => rw [← List.take_append_drop t.length m, ← htake]
      · exact Or.inl heq.symm
    · rintro (rfl | ⟨rest, rfl, hslash⟩)
      · exact ⟨List.take_length.symm, Or.inr rfl⟩
      · rw [List.take_left, List.drop_left]
        exact ⟨rfl, Or.inl hslash⟩
  · -- nothing is left of the mountpoint behind the common part
    rw [Nat.min_eq_right hle, List.drop_length]
    constructor
    · rintro ⟨-, hslash | heq⟩
      · cases hslash
      · exact Or.inl heq.symm
    · rintro (rfl | ⟨rest, rfl, hslash⟩)
      · exact ⟨rfl, Or.inr rfl⟩
      · rw [List.length_append] at hle
        have hnil : rest = [] := List.eq_nil_of_length_eq_zero (by omega)
        rw [hnil] at hslash
        cases hslash

theorem Seen.below {t m : CStr} (h : Seen t m) : Below t m := by
  rcases h with heq | hrest | ⟨hroot, -⟩
  · exact Or.inl heq
  · exact Or.inr (Or.inl hrest)
  · exact Or.inr (Or.inr hroot)

theorem below_iff {t m : CStr} : Below t m ↔ Seen t m ∨ InRoot t m := by
  constructor
  · rintro (heq | hrest | hroot)
    · exact Or.inl (Or.inl heq)
    · exact Or.inl (Or.inr (Or.inl hrest))
    · by_cases heq : m = t
      · exact Or.inl (Or.inl heq)
      by_cases hslash : '/' ∈ m.tail
      · exact Or.inl (Or.inr (Or.inr ⟨hroot, hslash⟩))
      · exact Or.inr ⟨hroot, heq, hslash⟩
  · rintro (hseen | ⟨hroot, -⟩)
    · exact hseen.below
    · exact Or.inr (Or.inr hroot)

/-- The comparison of absolute paths. -/
theorem contained_iff_seen {t m : CStr} (ht : t.head? = some '/') (hm : m.head? = some '/') :
    contained t m = true ↔ Seen t m ∨ Sibling t m := by
  rw [contained_iff]
  constructor
  · rintro (heq | ⟨rest, rfl, hslash⟩)
    · exact Or.inl (Or.inl heq)
    by_cases hroot : t = ['/']
    · subst hroot
      exact Or.inl (Or.inr (Or.inr ⟨rfl, hslash⟩))
    cases rest with
    | nil => cases hslash
    | cons c rest =>
      by_cases hc : c = '/'
      · subst hc
        exact Or.inl (Or.inr (Or.inl ⟨rest, rfl⟩))
      · have hrest : '/' ∈ rest := (List.mem_cons.mp hslash).resolve_left (fun h => hc h.symm)
        exact Or.inr ⟨hroot, c, rest, rfl, hc, hrest⟩
  · rintro ((heq | ⟨rest, rfl⟩ | ⟨rfl, hslash⟩) | ⟨-, c, rest, rfl, -, hslash⟩)
    · exact Or.inl heq
    · exact Or.inr ⟨'/' :: rest, rfl, List.mem_cons_self⟩
    · cases m with
      | nil => cases hm
      | cons c rest =>
        cases hm
        exact Or.inr ⟨rest, rfl, hslash⟩
    · exact Or.inr ⟨c :: rest, rfl, List.mem_cons_of_mem c hslash⟩

/-- A mountpoint in the root directory has no directory beside it. -/
theorem InRoot.not_sibling {t m t' : CStr} (h : InRoot t m) (ht' : t'.head? = some '/') :
    ¬Sibling t' m := by
  rintro ⟨-, c, rest, rfl, -, hslash⟩
  obtain ⟨-, -, hno⟩ := h
  cases t' with
  | nil => cases ht'
  | cons d t' => exact hno (List.mem_append_right t' (List.mem_cons_of_mem c hslash))

def devtmpfsDirs (mounts : List (CStr × CStr)) : List CStr :=
  (mounts.filter (fun entry => entry.2 = "devtmpfs".toList)).map Prod.fst

theorem devtmpfsDirs_cons (dir type : CStr) (mounts : List (CStr × CStr)) :
    devtmpfsDirs ((dir, type) :: mounts) =
      if type = "devtmpfs".toList then dir :: devtmpfsDirs mounts else devtmpfsDirs mounts := by
  by_cases htype : type = "devtmpfs".toList
  · rw [if_pos htype, devtmpfsDirs, List.filter_cons, if_pos (decide_eq_true htype)]
    rfl
  · rw [if_neg htype, devtmpfsDirs, List.filter_cons,
      if_neg (fun h => htype (of_decide_eq_true h))]
    rfl

structure Resolved (realpath : CStr → Except Errno CStr) (mountpoint : CStr) (dirs : List CStr)
    (m : CStr) (ts : List CStr) : Prop where
  mountpoint : realpath mountpoint = .ok m
  dirs : List.Forall₂ (fun dir t => realpath dir = .ok t) dirs ts
  absolute : ∀ p ∈ m :: ts, p.head? = some '/'

/-- The loop stops at the first file system that passes the comparison. -/
theorem devtmpfsLoop_cases (realpath : CStr → Except Errno CStr) (mountpoint m : CStr)
    (hm : realpath mountpoint = .ok m) (mounts : List (CStr × CStr)) (ts : List CStr)
    (hts : List.Forall₂ (fun dir t => realpath dir = .ok t) (devtmpfsDirs mounts) ts) :
    ((∃ t ∈ ts, contained t m = true) ∧ devtmpfsLoop realpath mountpoint mounts = 1) ∨
      ((¬∃ t ∈ ts, contained t m = true) ∧ devtmpfsLoop realpath mountpoint mounts = 0) := by
  induction mounts generalizing ts with
  | nil =>
    cases hts
    exact Or.inr ⟨fun ⟨t, ht, _⟩ => List.not_mem_nil ht, rfl⟩
  | cons entry mounts ih =>
    obtain ⟨dir, type⟩ := entry
    rw [devtmpfsLoop]
    by_cases htype : type = "devtmpfs".toList
    · rw [devtmpfsDirs_cons, if_pos htype] at hts
      cases hts with
      | @cons _ t _ ts ht hts =>
        rw [if_pos htype, hm, ht]
        dsimp only
        by_cases hc : contained t m = true
        · rw [if_pos hc]
          exact Or.inl ⟨⟨t, List.mem_cons_self, hc⟩, rfl⟩
        · rw [if_neg hc]
          rcases ih ts hts with ⟨⟨t', ht', hc'⟩, hone⟩ | ⟨hnone, hzero⟩
          · exact Or.inl ⟨⟨t', List.mem_cons_of_mem t ht', hc'⟩, hone⟩
          · refine Or.inr ⟨?_, hzero⟩
            rintro ⟨t', ht', hc'⟩
            rcases List.mem_cons.mp ht' with rfl | ht'
            · exact hc hc'
            · exact hnone ⟨t', ht', hc'⟩
    · rw [devtmpfsDirs_cons, if_neg htype] at hts
      rw [if_neg htype]
      exact ih ts hts

def TellsBelow (rc : Int) (ts : List CStr) (m : CStr) : Prop :=
  (rc = 1 ↔ ∃ t ∈ ts, Below t m) ∧ ((¬∃ t ∈ ts, Below t m) → rc = 0)

/-- `vdev_linux_mountpoint_on_devtmpfs` is right exactly if the mountpoint is on one of
the file systems and the comparison finds it, or there is neither a file system that is
mounted beside it nor one at the root with the mountpoint right in it. -/
theorem mountpointOnDevtmpfs_iff (W : World) (cwd mountpoint : CStr) (mounts : List (CStr × CStr))
    (hmounts : W.mounts = .ok mounts) (m : CStr) (ts : List CStr)
    (h : Resolved (W.realpath cwd) mountpoint (devtmpfsDirs mounts) m ts) :
    TellsBelow (mountpointOnDevtmpfs W cwd mountpoint) ts m ↔
      (∃ t ∈ ts, Seen t m) ∨ ∀ t ∈ ts, ¬Sibling t m ∧ ¬InRoot t m := by
  have hm := h.absolute m List.mem_cons_self
  have hts : ∀ t ∈ ts, t.head? = some '/' := fun t ht =>
    h.absolute t (List.mem_cons_of_mem m ht)
  have hcontained : (∃ t ∈ ts, contained t m = true) ↔ ∃ t ∈ ts, Seen t m ∨ Sibling t m :=
    exists_congr (fun t => and_congr_right (fun ht => contained_iff_seen (hts t ht) hm))
  have hrc : mountpointOnDevtmpfs W cwd mountpoint =
      devtmpfsLoop (W.realpath cwd) mountpoint mounts := by
    rw [mountpointOnDevtmpfs, hmounts]
  have hcases := devtmpfsLoop_cases _ _ m h.mountpoint mounts ts h.dirs
  rw [← hrc, hcontained] at hcases
  by_cases hseen : ∃ t ∈ ts, Seen t m
  · obtain ⟨t, ht, hs⟩ := hseen
    have hbelow : ∃ t ∈ ts, Below t m := ⟨t, ht, hs.below⟩
    rcases hcases with ⟨-, hone⟩ | ⟨hnone, -⟩
    · exact iff_of_true ⟨iff_of_true hone hbelow, fun hno => (hno hbelow).elim⟩
        (Or.inl ⟨t, ht, hs⟩)
    · exact (hnone ⟨t, ht, Or.inl hs⟩).elim
  have hbelow : ∀ t ∈ ts, Below t m → InRoot t m := fun t ht hb =>
    (below_iff.mp hb).resolve_left (fun hs => hseen ⟨t, ht, hs⟩)
  rcases hcases with ⟨⟨t, ht, hfound⟩, hone⟩ | ⟨hnone, hzero⟩
  · -- a false positive: nothing is in the root directory
    have hsibling : Sibling t m := hfound.resolve_left (fun hs => hseen ⟨t, ht, hs⟩)
    refine iff_of_false (fun htells => ?_) ?_
    · obtain ⟨t', ht', hb⟩ := htells.1.mp hone
      exact (hbelow t' ht' hb).not_sibling (hts t ht) hsibling
    · rintro (hs | hall)
      · exact hseen hs
      · exact (hall t ht).1 hsibling
  · have hne : mountpointOnDevtmpfs W cwd mountpoint ≠ 1 := by
      rw [hzero]
      exact Int.zero_ne_one
    constructor
    · rintro ⟨hone, -⟩
      refine Or.inr (fun t ht => ⟨fun hs => hnone ⟨t, ht, Or.inr hs⟩, fun hroot => ?_⟩)
      exact hne (hone.mpr ⟨t, ht, Or.inr (Or.inr hroot.1)⟩)
    · rintro (hs | hall)
      · exact (hseen hs).elim
      · have hno : ¬∃ t ∈ ts, Below t m := fun ⟨t, ht, hb⟩ => (hall t ht).2 (hbelow t ht hb)
        exact ⟨iff_of_false hne hno, fun _ => hzero⟩

def mountWorld (mounts : List (CStr × CStr)) : World where
  files := FileTree.Tree.bare 0o755
  realpath := fun _ path => .ok path
  mounts := .ok mounts
  regcomp := fun _ => 0

theorem mountpointOnDevtmpfs_iff_dev :
    TellsBelow (mountpointOnDevtmpfs (mountWorld [("/dev".toList, "devtmpfs".toList)]) ['/']
      "/dev/x".toList) ["/dev".toList] "/dev/x".toList :=
  (mountpointOnDevtmpfs_iff (mountWorld [("/dev".toList, "devtmpfs".toList)]) ['/']
    "/dev/x".toList [("/dev".toList, "devtmpfs".toList)] rfl "/dev/x".toList ["/dev".toList]
    ⟨rfl, .cons rfl .nil, by decide⟩).mpr
    (Or.inl ⟨_, List.mem_cons_self, Or.inr (Or.inl ⟨['x'], rfl⟩)⟩)

/-- A directory beside the file system is taken for one in it, and one in the root for
one that is not. -/
theorem not_tellsBelow :
    (mountpointOnDevtmpfs (mountWorld [("/dev".toList, "devtmpfs".toList)]) ['/']
        "/devices/x".toList = 1 ∧
      ¬TellsBelow (mountpointOnDevtmpfs (mountWorld [("/dev".toList, "devtmpfs".toList)]) ['/']
        "/devices/x".toList) ["/dev".toList] "/devices/x".toList) ∧
    (mountpointOnDevtmpfs (mountWorld [("/".toList, "devtmpfs".toList)]) ['/'] "/dev".toList = 0 ∧
      ¬TellsBelow (mountpointOnDevtmpfs (mountWorld [("/".toList, "devtmpfs".toList)]) ['/']
        "/dev".toList) ["/".toList] "/dev".toList) := by
  refine ⟨⟨by decide, fun h => ?_⟩, by decide, fun h => ?_⟩
  · obtain ⟨t, ht, hbelow⟩ := h.1.mp (by decide)
    rw [List.mem_singleton.mp ht] at hbelow
    rcases hbelow with heq | ⟨rest, heq⟩ | heq
    · exact absurd heq (by decide)
    · have hchar := congrArg (fun s : CStr => s[4]?) heq
      exact absurd hchar (by simp)
    · exact absurd heq (by decide)
  · exact absurd (h.1.mpr ⟨"/".toList, List.mem_cons_self, Or.inr (Or.inr rfl)⟩) (by decide)

end Containment

section Seeding

/-- The body of the loop of `vdev_linux_sysfs_register_devices`, where a device has a
request, or none if its uevent file is empty, or an error. -/
def registerStep (outcome : CStr → Except Errno (Option Request)) (acc : Int × List Request)
    (ueventPath : CStr) : Int × List Request :=
  match outcome ueventPath with
  | .error e => (e.rc, acc.2)
  | .ok none => (0, acc.2)
  | .ok (some req) => (0, acc.2 ++ [req])

/-- `vdev_linux_sysfs_register_devices`, for what `vdev_linux_sysfs_find_devices` finds. -/
def registerFound (outcome : CStr → Except Errno (Option Request)) (found : Int × List CStr)
    (initialRequests : List Request) : Int × List Request :=
  if found.1 ≠ 0 then (found.1, initialRequests)
  else found.2.foldl (registerStep outcome) (0, initialRequests)

/-- `vdev_linux_context_init`, where `before` is the return code of what it does before
it seeds the devices: to set up the netlink socket and to find sysfs. -/
def contextInit (before : Int) (outcome : CStr → Except Errno (Option Request))
    (found : Int × List CStr) : Int × List Request :=
  if before ≠ 0 then (before, []) else registerFound outcome found []

/-- What becomes of a device in sysfs. -/
def outcomeIn (sys : Sysfs) (ueventPath : CStr) : Except Errno (Option Request) :=
  match registerDevice sys ueventPath with
  | .request req => .ok (some req)
  | .failed e => .error e
  | _ => .ok none

def requestsOf (outcome : CStr → Except Errno (Option Request)) (paths : List CStr) :
    List Request :=
  paths.filterMap (fun path => (outcome path).toOption.join)

def LastSucceeds (outcome : CStr → Except Errno (Option Request)) (paths : List CStr) : Prop :=
  ∀ path ∈ paths.getLast?, ∃ req, outcome path = .ok req

theorem registerLoop_eq_foldl (sys : Sysfs) (paths : List CStr)
    (h : ∀ path ∈ paths, registerDevice sys path ≠ .undefined) (rc : Int)
    (requests : List Request) : registerLoop sys paths rc requests =
      some (paths.foldl (registerStep (outcomeIn sys)) (rc, requests)) := by
  induction paths generalizing rc requests with
  | nil => rfl
  | cons path paths ih =>
    have hpath := h path List.mem_cons_self
    have ih := ih (fun path hpath => h path (List.mem_cons_of_mem _ hpath))
    rw [registerLoop, List.foldl_cons, registerStep, outcomeIn]
    cases hreg : registerDevice sys path with
    | request req => exact ih 0 (requests ++ [req])
    | empty => exact ih 0 requests
    | failed e => exact ih e.rc requests
    | undefined => exact (hpath hreg).elim

/-- Without undefined behaviour, seeding depends on the outcomes for the devices only. -/
theorem registerDevices_eq_registerFound (sys : Sysfs) (T : FS)
    (initialRequests : List Request)
    (h : ∀ path ∈ (findDevices T sys.mountpoint).2, registerDevice sys path ≠ .undefined) :
    registerDevices sys T initialRequests =
      some (registerFound (outcomeIn sys) (findDevices T sys.mountpoint) initialRequests) := by
  rw [registerDevices, registerFound]
  generalize findDevices T sys.mountpoint = found at h ⊢
  obtain ⟨rc, paths⟩ := found
  by_cases hrc : rc = 0
  · subst hrc
    rw [if_neg (not_not.mpr rfl)]
    exact registerLoop_eq_foldl sys paths h 0 initialRequests
  · rw [if_pos hrc]
    split
    · next heq =>
      cases heq
      exact (hrc rfl).elim
    · next heq =>
      cases heq
      rfl

theorem registerStep_requests (outcome : CStr → Except Errno (Option Request))
    (acc : Int × List Request) (path : CStr) :
    (registerStep outcome acc path).2 = acc.2 ++ requestsOf outcome [path] := by
  unfold registerStep requestsOf
  rcases h : outcome path with e | _ | req <;> simp [h, Except.toOption]

/-- The devices that succeed are registered, in order, whatever the others do. -/
theorem foldl_registerStep_requests (outcome : CStr → Except Errno (Option Request))
    (paths : List CStr) (acc : Int × List Request) :
    (paths.foldl (registerStep outcome) acc).2 = acc.2 ++ requestsOf outcome paths := by
  induction paths generalizing acc with
  | nil => exact (List.append_nil _).symm
  | cons path paths ih =>
    have hsplit : requestsOf outcome (path :: paths) =
        requestsOf outcome [path] ++ requestsOf outcome paths :=
      List.filterMap_append (l := [path])
    rw [List.foldl_cons, ih, registerStep_requests, hsplit, List.append_assoc]

theorem registerStep_rc_eq_zero_iff (outcome : CStr → Except Errno (Option Request))
    (acc : Int × List Request) (path : CStr) :
    (registerStep outcome acc path).1 = 0 ↔ ∃ req, outcome path = .ok req := by
  unfold registerStep
  rcases outcome path with e | _ | req
  · exact iff_of_false e.rc_ne_zero (fun ⟨req, h⟩ => nomatch h)
  · exact iff_of_true rfl ⟨none, rfl⟩
  · exact iff_of_true rfl ⟨some req, rfl⟩

/-- The return code is that of the last device. -/
theorem foldl_registerStep_rc (outcome : CStr → Except Errno (Option Request))
    (paths : List CStr) (requests : List Request) :
    (paths.foldl (registerStep outcome) (0, requests)).1 = 0 ↔ LastSucceeds outcome paths := by
  rcases List.eq_nil_or_concat paths with rfl | ⟨front, last, rfl⟩
  · exact iff_of_true rfl nofun
  · rw [List.concat_eq_append, List.foldl_append, List.foldl_cons, List.foldl_nil,
      registerStep_rc_eq_zero_iff, LastSucceeds, List.getLast?_concat]
    simp

/-- The devices that succeed are registered, and unless the scan failed, neither seeding
nor the start of the OS layer fails. -/
def Tolerant (outcome : CStr → Except Errno (Option Request)) (found : Int × List CStr)
    (initialRequests : List Request) : Prop :=
  found.1 = 0 →
    registerFound outcome found initialRequests =
      (0, initialRequests ++ requestsOf outcome found.2) ∧
    contextInit 0 outcome found = (0, requestsOf outcome found.2)

/-- Seeding tolerates devices with errors exactly if the last device has none. -/
theorem tolerant_iff (outcome : CStr → Except Errno (Option Request)) (found : Int × List CStr)
    (initialRequests : List Request) : Tolerant outcome found initialRequests ↔
      (found.1 = 0 → LastSucceeds outcome found.2) := by
  refine imp_congr_right (fun hfound => ?_)
  have hregister : ∀ requests, registerFound outcome found requests =
      found.2.foldl (registerStep outcome) (0, requests) :=
    fun requests => if_neg (not_not.mpr hfound)
  have hcontext : contextInit 0 outcome found = registerFound outcome found [] :=
    if_neg (not_not.mpr rfl)
  rw [hcontext, hregister, hregister]
  constructor
  · rintro ⟨hrun, -⟩
    rw [← foldl_registerStep_rc outcome found.2 initialRequests, hrun]
  · intro hlast
    have hrun : ∀ requests, found.2.foldl (registerStep outcome) (0, requests) =
        (0, requests ++ requestsOf outcome found.2) := fun requests =>
      Prod.ext ((foldl_registerStep_rc outcome found.2 requests).mpr hlast)
        (foldl_registerStep_requests outcome found.2 (0, requests))
    exact ⟨hrun initialRequests, hrun []⟩

def badDeviceSys (bad : CStr) : Sysfs :=
  { busSys with
    readFile := fun path => if path = bad then .error .eio else .ok "DRIVER=hub\n".toList }

/-- An unreadable file fails the start for the device that is found last, and not for
the one that is found first. -/
theorem not_tolerant :
    (findDevices busTree "/sys".toList =
      (0, ["/sys/devices/pci0/uevent".toList, "/sys/devices/pci0/usb1/uevent".toList])) ∧
    (contextInit 0 (outcomeIn (badDeviceSys "/sys/devices/pci0/usb1/uevent".toList))
      (findDevices busTree "/sys".toList)).1 = -5 ∧
    (contextInit 0 (outcomeIn (badDeviceSys "/sys/devices/pci0/uevent".toList))
      (findDevices busTree "/sys".toList)).1 = 0 ∧
    (registerDevices (badDeviceSys "/sys/devices/pci0/usb1/uevent".toList) busTree []).map
      Prod.fst = some (-5) ∧
    ¬Tolerant (outcomeIn (badDeviceSys "/sys/devices/pci0/usb1/uevent".toList))
      (findDevices busTree "/sys".toList) [] := by
  have hlast : (contextInit 0 (outcomeIn (badDeviceSys "/sys/devices/pci0/usb1/uevent".toList))
      (findDevices busTree "/sys".toList)).1 = -5 := by decide +kernel
  have hfound : findDevices busTree "/sys".toList =
      (0, ["/sys/devices/pci0/uevent".toList, "/sys/devices/pci0/usb1/uevent".toList]) := by
    decide +kernel
  have hdefined : ∀ path ∈ (findDevices busTree "/sys".toList).2, registerDevice
      (badDeviceSys "/sys/devices/pci0/usb1/uevent".toList) path ≠ .undefined := by
    have hboth : ∀ path ∈ ["/sys/devices/pci0/uevent".toList,
        "/sys/devices/pci0/usb1/uevent".toList], (match registerDevice
          (badDeviceSys "/sys/devices/pci0/usb1/uevent".toList) path with
        | .undefined => false
        | _ => true) = true := by decide +kernel
    rw [hfound]
    intro path hpath hreg
    have hone := hboth path hpath
    rw [hreg] at hone
    cases hone
  have hregister : (registerDevices (badDeviceSys "/sys/devices/pci0/usb1/uevent".toList) busTree
      []).map Prod.fst = some (-5) := by
    rw [registerDevices_eq_registerFound _ busTree [] hdefined]
    exact congrArg some hlast
  refine ⟨hfound, hlast, by decide +kernel, hregister, fun h => ?_⟩
  have hzero := congrArg Prod.fst (h (congrArg Prod.fst hfound)).2
  rw [hlast] at hzero
  cases hzero

end Seeding

end Vdev.OsLayer
