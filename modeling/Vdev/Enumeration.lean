import Vdev.Directories
import Vdev.TreeWalk
import Vdev.SysfsDevice

/-!
Enumerating the devices in sysfs (vdevd/os/linux.c). The walk over `/sys/devices`
keeps the directories that are left in a vector and takes the last one; a context
that the callbacks share carries the path of a uevent file. The requests made of
the uevent files are handed out before any message is read from the netlink
socket. A symbolic link in sysfs is a leaf of the tree, since it is not followed.
-/
namespace Vdev.Enumeration

open CString FileTree SystemCalls Paths Directories TreeWalk Data Parsing Uevent SysfsDevice

/-- `struct vdev_linux_sysfs_scan_context`. -/
structure ScanContext where
  ueventPath : Option CStr := none
  deviceFrontier : List CStr := []

/-- `rindex( fp, '/' )`. -/
def rindexSlash (fp : CStr) : Option CStr := (slashBelow fp fp.length).map fp.drop

/-- `vdev_linux_sysfs_scan_device_directory`. -/
def scanDeviceDirectory (T : FS) (fp : CStr) (ctx : ScanContext) : Int × ScanContext :=
  match rindexSlash fp with
  | none => (0, ctx)
  | some fpBase =>
    if fpBase = "/.".toList ∨ fpBase = "/..".toList then (0, ctx)
    else
      match stat T fp with
      | .error e => (e.rc, ctx)
      | .ok (.dir _) => (0, { ctx with deviceFrontier := ctx.deviceFrontier ++ [fp] })
      | .ok (.leaf _) =>
        if fpBase = "/uevent".toList then (0, { ctx with ueventPath := some fp }) else (0, ctx)

/-- The loop of `vdev_linux_sysfs_find_devices`. -/
def findDevicesLoop (T : FS) : ℕ → ScanContext → List CStr → Int × List CStr
  | 0, _, ueventPaths => (0, ueventPaths)
  | fuel + 1, ctx, ueventPaths =>
    match ctx.deviceFrontier.getLast? with
    | none => (0, ueventPaths)
    | some deviceRoot =>
      let (rc, ctx) := loadAll (fun _ => T) (scanDeviceDirectory T) deviceRoot
        { ctx with deviceFrontier := ctx.deviceFrontier.dropLast }
      if rc ≠ 0 then (rc, ueventPaths)
      else
        match ctx.ueventPath with
        | some ueventPath =>
          findDevicesLoop T fuel { ctx with ueventPath := none } (ueventPaths ++ [ueventPath])
        | none => findDevicesLoop T fuel ctx ueventPaths

/-- `vdev_linux_sysfs_find_devices`. Each directory is taken from the frontier once. -/
def findDevices (T : FS) (mountpoint : CStr) : Int × List CStr :=
  let (rc, ctx) := loadAll (fun _ => T) (scanDeviceDirectory T)
    (fullpath mountpoint "/devices".toList) {}
  if rc ≠ 0 then (rc, []) else findDevicesLoop T (T.entries.keys.card + 1) ctx []

/-- The loop of `vdev_linux_sysfs_register_devices`, with the return code of the last
device. There is no result after undefined behaviour. -/
def registerLoop (sys : Sysfs) : List CStr → Int → List Request → Option (Int × List Request)
  | [], rc, requests => some (rc, requests)
  | path :: paths, _, requests =>
    match registerDevice sys path with
    | .request req => registerLoop sys paths 0 (requests ++ [req])
    | .empty => registerLoop sys paths 0 requests
    | .failed e => registerLoop sys paths e.rc requests
    | .undefined => none

/-- `vdev_linux_sysfs_register_devices`, with the list of initial requests. -/
def registerDevices (sys : Sysfs) (T : FS) (initialRequests : List Request) :
    Option (Int × List Request) :=
  match findDevices T sys.mountpoint with
  | (0, ueventPaths) => registerLoop sys ueventPaths 0 initialRequests
  | (rc, _) => some (rc, initialRequests)

/-- What comes from the netlink socket: an error of `poll` or of `recvmsg`, or a
message with the credentials of its sender, if there are any. -/
inductive NetlinkEvent
  | pollError (e : Errno)
  | recvError (e : Errno)
  | message (buf : CStr) (uid : Option ℕ) (nlPid : ℕ)

/-- The parts of `struct vdev_linux_context` and of `struct vdev_os_context` that
`vdev_os_next_device` uses, and what the socket has to offer. -/
structure OsContext where
  initialRequests : List Request
  coldplugOnly : Bool
  coldplugFinished : Bool := false
  socket : List NetlinkEvent

/-- The part of `vdev_os_next_device` behind `recvmsg`. -/
def receive (sys : Sysfs) (buf : CStr) (uid : Option ℕ) (nlPid : ℕ) : Int × Option Request :=
  let buf := buf.take 4097
  if buf.length < 32 ∨ 4097 ≤ buf.length then (Errno.eagain.rc, none)
  else if uid ≠ some 0 then (Errno.eagain.rc, none)
  else if buf.take 8 = "libudev\x00".toList then (Errno.eagain.rc, none)
  else if 0 < nlPid then (Errno.eagain.rc, none)
  else
    match parseRequest sys buf with
    | .error _ => (Errno.eagain.rc, none)
    | .ok req => (0, some req)

/-- `vdev_os_next_device`: the return code and the request. There is no result when
`poll` waits for a message that does not come. -/
def nextDevice (sys : Sysfs) (ctx : OsContext) : Option ((Int × Option Request) × OsContext) :=
  match ctx.initialRequests with
  | req :: requests =>
    some ((0, some req), { ctx with
      initialRequests := requests
      coldplugFinished := ctx.coldplugFinished || requests.isEmpty })
  | [] =>
    if ctx.coldplugOnly then some ((1, none), ctx)
    else
      match ctx.socket with
      | [] => none
      | .pollError e :: socket =>
        some ((if e = .eintr then Errno.eagain.rc else e.rc, none), { ctx with socket := socket })
      | .recvError e :: socket => some ((e.rc, none), { ctx with socket := socket })
      | .message buf uid nlPid :: socket =>
        some (receive sys buf uid nlPid, { ctx with socket := socket })

/-- The results of a number of calls of `vdev_os_next_device`. -/
def nextDevices (sys : Sysfs) : ℕ → OsContext → Option (List (Int × Option Request) × OsContext)
  | 0, ctx => some ([], ctx)
  | calls + 1, ctx =>
    match nextDevice sys ctx with
    | none => none
    | some (result, ctx) =>
      match nextDevices sys calls ctx with
      | none => none
      | some (results, ctx) => some (result :: results, ctx)

def ueventName : Name := ⟨"uevent".toList, by decide⟩

def devicesName : Name := ⟨"devices".toList, by decide⟩

def hasUevent (T : FS) (m : Location) : Bool :=
  match T.get (ueventName :: m) with
  | some (.leaf _) => true
  | _ => false

def dirName (T : FS) (m : Location) (c : CStr) : Option Name :=
  if h : Plain c then if T.IsDir (⟨c, h⟩ :: m) then some ⟨c, h⟩ else none else none

/-- The directories in a directory, in the order of `scandir`. -/
def dirsOf (T : FS) (m : Location) : List Name := (entryNames T m).filterMap (dirName T m)

theorem dirName_eq_some (T : FS) (m : Location) (c : CStr) (n : Name) :
    dirName T m c = some n ↔ n.val = c ∧ T.IsDir (n :: m) := by
  unfold dirName
  split_ifs with hplain hdir
  · constructor
    · rintro h
      cases h
      exact ⟨rfl, hdir⟩
    · rintro ⟨rfl, _⟩
      rfl
  · refine iff_of_false nofun ?_
    rintro ⟨rfl, h⟩
    exact hdir h
  · refine iff_of_false nofun ?_
    rintro ⟨rfl, _⟩
    exact hplain n.property

theorem listsDirs (T : FS) : ListsDirs T (dirsOf T) where
  nodup m := by
    refine (nodup_entryNames T m).filterMap (fun c c' n hn hn' => ?_)
    rw [← ((dirName_eq_some T m c n).mp hn).1, ((dirName_eq_some T m c' n).mp hn').1]
  mem_iff m n := by
    rw [dirsOf, List.mem_filterMap]
    constructor
    · rintro ⟨c, _, hn⟩
      exact ((dirName_eq_some T m c n).mp hn).2
    · intro hn
      exact ⟨n.val, (val_mem_entryNames T m n).mpr hn.get_ne_none,
        (dirName_eq_some T m n.val n).mpr ⟨rfl, hn⟩⟩

theorem rindexSlash_append (d c : CStr) (hc : '/' ∉ c) :
    rindexSlash (d ++ '/' :: c) = some ('/' :: c) := by
  have hscan := slashBelow_append d c hc c.length (by omega)
  rw [rindexSlash, List.length_append, List.length_cons,
    show d.length + (c.length + 1) = d.length + 1 + c.length by omega, hscan, Option.map_some,
    List.drop_left]

theorem rindexSlash_fullpath (s c : CStr) (hs : s ≠ []) (hc : '/' ∉ c) :
    rindexSlash (fullpath s c) = some ('/' :: c) := by
  obtain ⟨d, hd⟩ := fullpath_plain s c hs (fun hh => hc (List.mem_of_head? hh))
  rw [hd, rindexSlash_append d c hc]

/-- What a callback does for one name in the directory `m`. -/
def scanned (T : FS) (s : CStr) (m : Location) (ctx : ScanContext) (c : CStr) : ScanContext where
  ueventPath := if c = ueventName.val ∧ hasUevent T m then some (fullpath s c) else ctx.ueventPath
  deviceFrontier :=
    ctx.deviceFrontier ++ ((dirName T m c).map (fun n => fullpath s n.val)).toList

/-- The names `.` and `..` are skipped. -/
theorem scanDeviceDirectory_dots (T : FS) (s : CStr) (m : Location) (ctx : ScanContext) (c : CStr)
    (hs : s ≠ []) (hc : c = ['.'] ∨ c = ['.', '.']) :
    scanDeviceDirectory T (fullpath s c) ctx = (0, scanned T s m ctx c) := by
  have hslash : '/' ∉ c := by rcases hc with rfl | rfl <;> decide
  have hname : dirName T m c = none := by rcases hc with rfl | rfl <;> exact dif_neg (by decide)
  have huevent : c ≠ ueventName.val := by rcases hc with rfl | rfl <;> decide
  rw [scanDeviceDirectory, rindexSlash_fullpath s c hs hslash]
  dsimp only
  rw [if_pos (by rcases hc with rfl | rfl <;> decide), scanned, hname,
    if_neg (fun hand => huevent hand.1)]
  simp

theorem scanDeviceDirectory_name (T : FS) (s : CStr) (m : Location) (ctx : ScanContext) (n : Name)
    (hs : DenotesDir s m) (hn : T.get (n :: m) ≠ none) :
    scanDeviceDirectory T (fullpath s n.val) ctx = (0, scanned T s m ctx n.val) := by
  have hstat := (denotes_fullpath s m n hs).stat T
  have hdots : ¬('/' :: n.val = "/.".toList ∨ '/' :: n.val = "/..".toList) := by
    rintro (h | h)
    · exact n.property.2.2.1 (List.cons.inj h).2
    · exact n.property.2.2.2 (List.cons.inj h).2
  rw [scanDeviceDirectory, rindexSlash_fullpath s n.val hs.ne_nil n.property.2.1]
  dsimp only
  rw [if_neg hdots, hstat, scanned]
  cases hget : T.get (n :: m) with
  | none => exact absurd hget hn
  | some e =>
    have hself : n.val = ueventName.val → T.get (ueventName :: m) = some e := by
      intro heq
      rw [← hget, Subtype.ext heq]
    cases e with
    | dir a =>
      have hname : dirName T m n.val = some n := (dirName_eq_some T m _ n).mpr ⟨rfl, a, hget⟩
      have hno : ¬(n.val = ueventName.val ∧ hasUevent T m = true) := by
        rintro ⟨heq, hu⟩
        rw [hasUevent, hself heq] at hu
        cases hu
      rw [hname, if_neg hno]
      rfl
    | leaf c =>
      have hname : dirName T m n.val = none := by
        rw [Option.eq_none_iff_forall_ne_some]
        intro n' hn'
        obtain ⟨hval, a, ha⟩ := (dirName_eq_some T m _ n').mp hn'
        rw [Subtype.ext hval, hget] at ha
        cases ha
      rw [hname]
      by_cases heq : n.val = ueventName.val
      · have hu : hasUevent T m = true := by rw [hasUevent, hself heq]
        have hbase : '/' :: n.val = "/uevent".toList := by rw [heq]; rfl
        dsimp only
        rw [if_pos hbase, if_pos ⟨heq, hu⟩]
        simp
      · have hbase : '/' :: n.val ≠ "/uevent".toList := fun h => heq (List.cons.inj h).2
        dsimp only
        rw [if_neg hbase, if_neg (fun hand => heq hand.1)]
        simp

theorem loadAllLoop_scanned (T : FS) (s : CStr) (m : Location) (hs : DenotesDir s m)
    (names : List CStr) (hnames : ∀ c ∈ names, c ∈ entryNames T m) (ctx : ScanContext) :
    loadAllLoop (scanDeviceDirectory T) s names ctx = (0, names.foldl (scanned T s m) ctx) := by
  induction names generalizing ctx with
  | nil => rfl
  | cons c names ih =>
    have hstep : scanDeviceDirectory T (fullpath s c) ctx = (0, scanned T s m ctx c) := by
      rcases (mem_entryNames T m c).mp (hnames c List.mem_cons_self) with hc | hc | ⟨n, rfl, hn⟩
      · exact scanDeviceDirectory_dots T s m ctx c hs.ne_nil (Or.inl hc)
      · exact scanDeviceDirectory_dots T s m ctx c hs.ne_nil (Or.inr hc)
      · exact scanDeviceDirectory_name T s m ctx n hs hn
    rw [loadAllLoop, hstep]
    exact ih (fun c hc => hnames c (List.mem_cons_of_mem _ hc)) _

theorem foldl_scanned (T : FS) (s : CStr) (m : Location) (names : List CStr) (ctx : ScanContext) :
    (names.foldl (scanned T s m) ctx).deviceFrontier = ctx.deviceFrontier ++
        (names.filterMap (dirName T m)).map (fun n => fullpath s n.val) ∧
    (names.foldl (scanned T s m) ctx).ueventPath =
      if ueventName.val ∈ names ∧ hasUevent T m then some (fullpath s ueventName.val)
      else ctx.ueventPath := by
  induction names generalizing ctx with
  | nil => simp
  | cons c names ih =>
    obtain ⟨hfrontier, huevent⟩ := ih (scanned T s m ctx c)
    rw [List.foldl_cons, hfrontier, huevent]
    constructor
    · rw [scanned, List.append_assoc, List.filterMap_cons]
      cases dirName T m c <;> rfl
    · by_cases hc : c = ueventName.val
      · subst hc
        by_cases hu : hasUevent T m = true <;> simp [scanned, hu]
      · have hc' : ueventName.val ≠ c := fun h => hc h.symm
        simp [scanned, hc, hc']

/-- Scanning a directory puts the directories in it on the frontier and leaves the
path of its uevent file, if it has one. -/
theorem loadAll_scanned (T : FS) (s : CStr) (m : Location) (hs : DenotesDir s m) (hm : T.IsDir m)
    (ctx : ScanContext) :
    loadAll (fun _ => T) (scanDeviceDirectory T) s ctx = (0, {
      ueventPath := if hasUevent T m then some (fullpath s ueventName.val) else ctx.ueventPath
      deviceFrontier := ctx.deviceFrontier ++ (dirsOf T m).map (fun n => fullpath s n.val) }) := by
  obtain ⟨hfrontier, huevent⟩ := foldl_scanned T s m (entryNames T m) ctx
  have hmem : hasUevent T m = true → ueventName.val ∈ entryNames T m := by
    intro hu
    rw [val_mem_entryNames]
    intro hnone
    rw [hasUevent, hnone] at hu
    cases hu
  have hif : (ueventName.val ∈ entryNames T m ∧ hasUevent T m = true) ↔ hasUevent T m = true :=
    ⟨And.right, fun hu => ⟨hmem hu, hu⟩⟩
  rw [loadAll, hs.scandir_dir T hm]
  change loadAllLoop _ s (entryNames T m) ctx = _
  rw [loadAllLoop_scanned T s m hs _ (fun _ hc => hc), dirsOf, ← hfrontier]
  simp only [hif] at huevent
  rw [← huevent]

/-- The path of a location below `r`, where `root` is the path of `r`. -/
def pathFrom (root : CStr) (r : Location) : Location → CStr
  | [] => root
  | n :: m => if n :: m = r then root else fullpath (pathFrom root r m) n.val

theorem pathFrom_self (root : CStr) (r : Location) : pathFrom root r r = root := by
  cases r with
  | nil => rfl
  | cons n m => rw [pathFrom, if_pos rfl]

theorem pathFrom_cons (root : CStr) (r m : Location) (n : Name) (h : r <:+ m) :
    pathFrom root r (n :: m) = fullpath (pathFrom root r m) n.val := by
  rw [pathFrom, if_neg]
  rintro rfl
  have hlen := h.length_le
  simp at hlen

theorem denotesDir_pathFrom (root : CStr) (r m : Location) (hroot : DenotesDir root r)
    (h : r <:+ m) : DenotesDir (pathFrom root r m) m := by
  induction m with
  | nil =>
    rw [List.suffix_nil.mp h] at hroot
    exact hroot
  | cons n m ih =>
    rcases List.suffix_cons_iff.mp h with rfl | h
    · rw [pathFrom_self]
      exact hroot
    · rw [pathFrom_cons root r m n h]
      exact (denotes_fullpath _ m n (ih h)).toDir

def ueventPathOf (root : CStr) (r m : Location) : CStr :=
  fullpath (pathFrom root r m) ueventName.val

theorem denotes_ueventPathOf (root : CStr) (r m : Location) (hroot : DenotesDir root r)
    (h : r <:+ m) : Denotes (ueventPathOf root r m) (ueventName :: m) :=
  denotes_fullpath _ m ueventName (denotesDir_pathFrom root r m hroot h)

theorem slashed_pathFrom (root : CStr) (r m : Location) (hroot : slashed root = false)
    (h : r <:+ m) : slashed (pathFrom root r m) = false := by
  induction m with
  | nil => exact hroot
  | cons n m ih =>
    rcases List.suffix_cons_iff.mp h with rfl | h
    · rwa [pathFrom_self]
    · have hslash : n.val ≠ ['/'] := fun heq => n.property.2.1 (by rw [heq]; exact List.mem_cons_self)
      rw [pathFrom_cons root r m n h, slashed_fullpath _ _ n.property.1 hslash]
      refine Bool.eq_false_iff.mpr (fun htrue => n.property.2.1 ?_)
      exact List.mem_of_getLast? (by simpa [slashed] using htrue)

/-- The directory of the path that is reported. -/
theorem dirname_ueventPathOf (root : CStr) (r m : Location) (hroot : DenotesDir root r)
    (hslash : slashed root = false) (h : r <:+ m) :
    dirname (ueventPathOf root r m) = pathFrom root r m := by
  have hne := (denotesDir_pathFrom root r m hroot h).ne_nil
  have hlast : (pathFrom root r m).getLast? ≠ some '/' := by
    have hfalse := slashed_pathFrom root r m hslash h
    simpa [slashed] using hfalse
  rw [ueventPathOf, fullpath, if_neg hne, if_pos ⟨hlast, by decide⟩,
    dirname_append _ _ (by decide) (by decide), if_neg hne]

section Walk

variable (T : FS) (root : CStr) (r : Location) (hroot : DenotesDir root r)

include hroot

/-- The loop follows the walk over the tree. -/
theorem findDevicesLoop_eq (fuel : ℕ) (frontier : List Location)
    (hfrontier : ∀ m ∈ frontier, r <:+ m ∧ T.IsDir m) (ueventPaths : List CStr) :
    findDevicesLoop T fuel { deviceFrontier := frontier.map (pathFrom root r) } ueventPaths =
      (0, ueventPaths ++ ((stackLoop (dirsOf T) fuel frontier).filter (hasUevent T)).map
        (ueventPathOf root r)) := by
  induction fuel generalizing frontier ueventPaths with
  | zero => simp [findDevicesLoop, stackLoop]
  | succ fuel ih =>
    rcases List.eq_nil_or_concat frontier with rfl | ⟨rest, m, rfl⟩
    · simp [findDevicesLoop, stackLoop]
    · obtain ⟨hsub, hdir⟩ := hfrontier m (by simp)
      have hscan := loadAll_scanned T (pathFrom root r m) m (denotesDir_pathFrom root r m hroot hsub)
        hdir { deviceFrontier := rest.map (pathFrom root r) }
      have hnext : rest.map (pathFrom root r) ++
          (dirsOf T m).map (fun n => fullpath (pathFrom root r m) n.val) =
          (rest ++ subdirs (dirsOf T) m).map (pathFrom root r) := by
        rw [List.map_append, subdirs, List.map_map]
        congr 1
        exact List.map_congr_left (fun n _ => (pathFrom_cons root r m n hsub).symm)
      have hfrontier' : ∀ k ∈ rest ++ subdirs (dirsOf T) m, r <:+ k ∧ T.IsDir k := by
        intro k hk
        rcases List.mem_append.mp hk with hk | hk
        · exact hfrontier k (by simp [hk])
        · obtain ⟨n, rfl, hn⟩ := (mem_subdirs (listsDirs T) m k).mp hk
          exact ⟨hsub.trans (List.suffix_cons n m), hn⟩
      rw [List.concat_eq_append, findDevicesLoop, List.map_append, List.map_singleton,
        List.getLast?_append_of_ne_nil _ (List.cons_ne_nil _ _), stackLoop,
        List.getLast?_append_of_ne_nil _ (List.cons_ne_nil _ _)]
      simp only [List.getLast?_singleton, List.dropLast_concat, hscan, ne_eq, not_true_eq_false,
        if_false, hnext]
      cases hu : hasUevent T m with
      | true =>
        simp only [if_true]
        rw [ih _ hfrontier', List.filter_cons_of_pos hu, List.map_cons, List.append_assoc]
        rfl
      | false =>
        simp only [Bool.false_eq_true, if_false]
        rw [ih _ hfrontier', List.filter_cons_of_neg (by simp [hu])]

end Walk

theorem denotesDir_devices (mountpoint : CStr) (l : Location) (h : DenotesDir mountpoint l) :
    DenotesDir (fullpath mountpoint "/devices".toList) (devicesName :: l) := by
  refine ⟨fullpath_ne_nil _ _ h.ne_nil, ?_⟩
  rw [names_fullpath _ _ h.ne_nil, h.names_eq, steps_cons]
  congr 1

def deviceOrder (T : FS) (r : Location) : List Location :=
  (stackLoop (dirsOf T) (T.entries.keys.card + 1) (subdirs (dirsOf T) r)).filter (hasUevent T)

/-- `vdev_linux_sysfs_find_devices` when the root of the devices has no uevent file. -/
theorem findDevices_eq (T : FS) (mountpoint : CStr) (l : Location) (h : DenotesDir mountpoint l)
    (hdir : T.IsDir (devicesName :: l)) (hnone : hasUevent T (devicesName :: l) = false) :
    findDevices T mountpoint = (0, (deviceOrder T (devicesName :: l)).map
      (ueventPathOf (fullpath mountpoint "/devices".toList) (devicesName :: l))) := by
  have hroot := denotesDir_devices mountpoint l h
  have hscan := loadAll_scanned T _ _ hroot hdir {}
  have hfirst : (dirsOf T (devicesName :: l)).map
      (fun n => fullpath (fullpath mountpoint "/devices".toList) n.val) =
      (subdirs (dirsOf T) (devicesName :: l)).map
        (pathFrom (fullpath mountpoint "/devices".toList) (devicesName :: l)) := by
    rw [subdirs, List.map_map]
    refine List.map_congr_left (fun n _ => ?_)
    rw [Function.comp_apply, pathFrom_cons _ _ _ n List.suffix_rfl, pathFrom_self]
  rw [findDevices, hscan, hnone]
  simp only [Bool.false_eq_true, if_false, ne_eq, not_true_eq_false, List.nil_append, hfirst]
  rw [findDevicesLoop_eq T _ _ hroot, List.nil_append, deviceOrder]
  intro m hm
  obtain ⟨n, rfl, hn⟩ := (mem_subdirs (listsDirs T) _ m).mp hm
  exact ⟨List.suffix_cons n _, hn⟩

theorem mem_deviceOrder (T : FS) (r : Location) (hdir : T.IsDir r) (hnone : hasUevent T r = false)
    (m : Location) : m ∈ deviceOrder T r ↔ r <:+ m ∧ T.IsDir m ∧ hasUevent T m = true := by
  rw [deviceOrder, List.mem_filter, mem_stackLoop (listsDirs T) r hdir _ (Nat.le_succ _)]
  constructor
  · rintro ⟨⟨hsub, _, hm⟩, hu⟩
    exact ⟨hsub, hm, hu⟩
  · rintro ⟨hsub, hm, hu⟩
    refine ⟨⟨hsub, ?_, hm⟩, hu⟩
    rintro rfl
    rw [hnone] at hu
    cases hu

theorem deviceOrder_pairwise (T : FS) (r : Location) (hdir : T.IsDir r) :
    (deviceOrder T r).Pairwise (fun a b => ¬b <:+ a) :=
  (stackLoop_pairwise (listsDirs T) r hdir _ (Nat.le_succ _)).filter _

def registers (sys : Sysfs) (path : CStr) : Bool :=
  match registerDevice sys path with
  | .request _ => true
  | .empty => true
  | _ => false

def requestAt (sys : Sysfs) (path : CStr) : Option Request :=
  match registerDevice sys path with
  | .request req => some req
  | _ => none

theorem registerLoop_registers (sys : Sysfs) (paths : List CStr)
    (h : ∀ path ∈ paths, registers sys path = true) (requests : List Request) :
    registerLoop sys paths 0 requests = some (0, requests ++ paths.filterMap (requestAt sys)) := by
  induction paths generalizing requests with
  | nil => simp [registerLoop]
  | cons path paths ih =>
    have hpath := h path List.mem_cons_self
    have hih := ih (fun p hp => h p (List.mem_cons_of_mem _ hp))
    rw [registers] at hpath
    rw [registerLoop, List.filterMap_cons, requestAt]
    cases hreg : registerDevice sys path with
    | request req =>
      dsimp only
      rw [hih, List.append_assoc, List.singleton_append]
    | empty => exact hih requests
    | failed e =>
      rw [hreg] at hpath
      cases hpath
    | undefined =>
      rw [hreg] at hpath
      cases hpath

/-- The bytes of the uevent file, as many as `stat` reports. -/
def ueventContent (sys : Sysfs) (path : CStr) : Option CStr :=
  match sys.statSize path, sys.readFile path with
  | .ok size, .ok content => some (content.take size)
  | _, _ => none

/-- The uevent file is empty: it has no bytes, or its first line has none. (The kernel ends each
line that it writes, and writes no empty one; vdevd takes an empty line for the end of the file.) -/
def EmptyUevent (sys : Sysfs) (path : CStr) : Prop :=
  ∃ content, ueventContent sys path = some content ∧
    (content = [] ∨ content.head? = some '\n' ∨ content.head? = some '\x00')

/-- The request is made of what the uevent file holds, to add the device in its directory. -/
structure AddsDirectory (sys : Sysfs) (path : CStr) (m : Location) (req : Request) : Prop where
  directory : DenotesDir (dirname path) m
  parsed : ∃ buf, readUevent sys path = .ok (some buf) ∧
    parseRequest sys (ueventAppend (ueventAppend buf "ACTION".toList "add".toList)
      "DEVPATH".toList ((dirname path).drop sys.mountpoint.length)) = .ok req
  type : req.type = .add
  devpath : ("DEVPATH".toList, (dirname path).drop sys.mountpoint.length) ∈ req.params.entries

section Registered

def nulStrings (strings : List CStr) : CStr := strings.flatMap (· ++ ['\x00'])

/-- What the strings of a buffer are: not empty, and without a NUL. -/
def Strings (strings : List CStr) : Prop := ∀ s ∈ strings, s ≠ [] ∧ '\x00' ∉ s

theorem nulStrings_cons (s : CStr) (strings : List CStr) :
    nulStrings (s :: strings) = s ++ '\x00' :: nulStrings strings := by
  simp [nulStrings]

theorem nulStrings_append (strings strings' : List CStr) :
    nulStrings (strings ++ strings') = nulStrings strings ++ nulStrings strings' :=
  List.flatMap_append

/-- The loop stops behind a number of strings. -/
theorem ueventLenLoop_strings (fuel : ℕ) (buf : CStr) (len n : ℕ)
    (h : ueventLenLoop fuel buf len = some n) :
    ∃ strings, Strings strings ∧ len ≤ n ∧ buf.take (n - len) = nulStrings strings ∧
      n - len ≤ buf.length := by
  induction fuel generalizing buf len with
  | zero =>
    cases h
    exact ⟨[], nofun, le_rfl, by simp [nulStrings], by simp⟩
  | succ fuel ih =>
    rw [ueventLenLoop] at h
    split_ifs at h with hend hnone
    · cases h
      exact ⟨[], nofun, le_rfl, by simp [nulStrings], by simp⟩
    · obtain ⟨s, rest, rfl, hs⟩ := List.eq_append_cons_of_mem hnone
      have hne : s ≠ [] := by
        rintro rfl
        exact hend (Or.inr rfl)
      rw [untilNul_append_nul _ _ hs, drop_append_nul] at h
      obtain ⟨strings, hstrings, hle, htake, hlen⟩ := ih _ _ h
      refine ⟨s :: strings, List.forall_mem_cons.mpr ⟨⟨hne, hs⟩, hstrings⟩, by omega, ?_, ?_⟩
      · rw [show n - len = s.length + (n - (len + s.length + 1) + 1) by omega,
          List.take_length_add_append, List.take_succ_cons, htake, nulStrings_cons]
      · rw [List.length_append, List.length_cons]
        omega

/-- The loop stops at once exactly when there is no string at the front. -/
theorem ueventLenLoop_eq_nil_iff (fuel : ℕ) (buf : CStr) (n : ℕ)
    (h : ueventLenLoop (fuel + 1) buf 0 = some n) :
    buf.take n = [] ↔ buf = [] ∨ buf.head? = some '\x00' := by
  rw [ueventLenLoop] at h
  split_ifs at h with hend hnone
  · cases h
    exact iff_of_true rfl hend
  · obtain ⟨-, -, hle, -⟩ := ueventLenLoop_strings _ _ _ _ h
    refine iff_of_false (fun htake => ?_) hend
    rcases List.take_eq_nil_iff.mp htake with hzero | hnil
    · omega
    · exact hend (Or.inl hnil)

theorem newlineToNul_eq_nul_iff (c : Char) : newlineToNul c = '\x00' ↔ c = '\n' ∨ c = '\x00' := by
  unfold newlineToNul
  split_ifs with h
  · exact iff_of_true rfl (Or.inl h)
  · exact (or_iff_right h).symm

/-- What is read is a number of strings, and there are none when the file is empty. -/
theorem readUevent_strings (sys : Sysfs) (path buf : CStr)
    (h : readUevent sys path = .ok (some buf)) :
    (∃ strings, Strings strings ∧ buf = nulStrings strings) ∧
      (buf = [] ↔ EmptyUevent sys path) := by
  rw [readUevent] at h
  unfold EmptyUevent ueventContent
  cases hsize : sys.statSize path with
  | error e =>
    rw [hsize] at h
    cases h
  | ok size =>
    cases hcontent : sys.readFile path with
    | error e =>
      rw [hsize] at h
      dsimp only at h
      rw [hcontent] at h
      cases h
    | ok content =>
      rw [hsize] at h
      dsimp only at h
      rw [hcontent, Except.ok.injEq] at h
      split_ifs at h
      obtain ⟨n, hn, rfl⟩ := Option.map_eq_some_iff.mp h
      obtain ⟨strings, hstrings, -, htake, hlen⟩ := ueventLenLoop_strings _ _ _ _ hn
      rw [Nat.sub_zero] at htake
      refine ⟨⟨strings, hstrings, htake⟩, ?_⟩
      rw [ueventLenLoop_eq_nil_iff _ _ _ hn]
      simp only [Option.some.injEq, exists_eq_left']
      cases content.take size with
      | nil =>
        refine iff_of_true ?_ (Or.inl rfl)
        cases size with
        | zero => exact Or.inl rfl
        | succ size => exact Or.inr rfl
      | cons c rest => simp [newlineToNul_eq_nul_iff]

/-- One round of the loop of the parser. -/
def parseString (f : Fields) (s : CStr) : Except Errno Fields :=
  match keyvalueNext s with
  | none => .error .einval
  | some (key, value) => parseField f key value

theorem parseLoop_strings (strings : List CStr) (f : Fields) (fuel : ℕ) (h : Strings strings)
    (hfuel : strings.length < fuel) :
    parseLoop fuel (nulStrings strings) f = strings.foldlM parseString f := by
  induction strings generalizing f fuel with
  | nil =>
    cases fuel with
    | zero => rfl
    | succ fuel => rfl
  | cons s strings ih =>
    obtain ⟨fuel, rfl⟩ := Nat.exists_eq_succ_of_ne_zero (Nat.ne_of_gt (Nat.zero_lt_of_lt hfuel))
    obtain ⟨⟨hne, hs⟩, hrest⟩ := List.forall_mem_cons.mp h
    rw [nulStrings_cons, parseLoop, if_neg (by simp), untilNul_append_nul _ _ hs, drop_append_nul,
      List.foldlM_cons, parseString]
    cases keyvalueNext s with
    | none => rfl
    | some pair =>
      dsimp only
      cases parseField f pair.1 pair.2 with
      | error e => rfl
      | ok g => exact ih g fuel hrest (by simpa using hfuel)

theorem length_le_nulStrings (strings : List CStr) :
    strings.length ≤ (nulStrings strings).length := by
  induction strings with
  | nil => exact Nat.zero_le _
  | cons s strings ih =>
    rw [nulStrings_cons, List.length_append, List.length_cons, List.length_cons]
    omega

theorem mem_of_addParam {f g : Fields} {key value : CStr} (h : f.addParam key value = .ok g) :
    g = f.withParams g.params ∧
      ∀ x, x ∈ g.params.entries ↔ x = (key, value) ∨ x ∈ f.params.entries := by
  by_cases hold : ∃ x ∈ f.params.entries, x.1 = key
  · rw [addParam_of_old f key value hold] at h
    cases h
  · obtain ⟨params, hadd, hmem⟩ := addParam_of_new f key value
      (fun x hx heq => hold ⟨x, hx, heq⟩)
    rw [hadd] at h
    cases h
    exact ⟨rfl, hmem⟩

/-- The fields that the parser has at its end, when the two pairs are the last. -/
theorem parseString_added (g f : Fields) (d : CStr)
    (h : ["ACTION=add".toList, "DEVPATH=".toList ++ d].foldlM parseString g = .ok f) :
    f.type = .add ∧ ("DEVPATH".toList, d) ∈ f.params.entries := by
  have haction : parseString g "ACTION=add".toList = .ok { g with type := .add } := rfl
  have hkey : keyvalueNext ("DEVPATH=".toList ++ d) = some ("DEVPATH".toList, d) :=
    keyvalueNext_pair "DEVPATH".toList d (by decide)
  have hdevpath : parseString { g with type := .add } ("DEVPATH=".toList ++ d) = .ok f := by
    rw [List.foldlM_cons, haction] at h
    exact (bind_pure _).symm.trans h
  rw [parseString, hkey] at hdevpath
  dsimp only at hdevpath
  rw [parseField, if_neg (by decide), if_pos rfl] at hdevpath
  obtain ⟨hf, hmem⟩ := mem_of_addParam hdevpath
  rw [hf]
  exact ⟨rfl, (hmem _).mpr (Or.inl rfl)⟩

theorem makeRequest_keeps (sys : Sysfs) (f : Fields) (req : Request)
    (h : makeRequest sys f = .ok req) :
    req.type = f.type ∧ ∀ x ∈ f.params.entries, x ∈ req.params.entries := by
  rw [makeRequest] at h
  split_ifs at h
  cases hsub : addSubsystem sys f with
  | error e =>
    rw [hsub] at h
    cases h
  | ok g =>
    rw [hsub] at h
    dsimp only at h
    have hg : ∀ x ∈ f.params.entries, x ∈ g.params.entries := by
      unfold addSubsystem at hsub
      split at hsub
      · exact fun x hx => ((mem_of_addParam hsub).2 x).mpr (Or.inr hx)
      · cases hsub
        exact fun x hx => hx
    cases hmount : g.addParam "SYSFS_MOUNTPOINT".toList sys.mountpoint with
    | error e =>
      rw [hmount] at h
      cases h
    | ok k =>
      rw [hmount] at h
      cases h
      exact ⟨rfl, fun x hx => ((mem_of_addParam hmount).2 x).mpr (Or.inr (hg x hx))⟩

/-- A request that is made with the two pairs at the end of the buffer. -/
theorem parseRequest_added (sys : Sysfs) (strings : List CStr) (hne : strings ≠ [])
    (hstrings : Strings strings) (d : CStr) (hd : '\x00' ∉ d) (req : Request)
    (h : parseRequest sys (ueventAppend (ueventAppend (nulStrings strings) "ACTION".toList
      "add".toList) "DEVPATH".toList d) = .ok req) :
    req.type = .add ∧ ("DEVPATH".toList, d) ∈ req.params.entries := by
  have hbuf : ueventAppend (ueventAppend (nulStrings strings) "ACTION".toList "add".toList)
      "DEVPATH".toList d =
        nulStrings (strings ++ ["ACTION=add".toList, "DEVPATH=".toList ++ d]) := by
    rw [nulStrings_append]
    simp [ueventAppend, nulStrings]
  obtain ⟨s, rest, rfl⟩ := List.exists_cons_of_ne_nil hne
  obtain ⟨⟨-, hs⟩, hrest⟩ := List.forall_mem_cons.mp hstrings
  have hskip : ∃ kept, Strings kept ∧
      skipHeader (nulStrings (s :: rest ++ ["ACTION=add".toList, "DEVPATH=".toList ++ d])) =
        nulStrings (kept ++ ["ACTION=add".toList, "DEVPATH=".toList ++ d]) := by
    rw [List.cons_append, nulStrings_cons, skipHeader, untilNul_append_nul _ _ hs, drop_append_nul,
      ← nulStrings_cons]
    split_ifs
    · exact ⟨rest, hrest, rfl⟩
    · exact ⟨s :: rest, hstrings, rfl⟩
  obtain ⟨kept, hkept, hskip⟩ := hskip
  have hall : Strings (kept ++ ["ACTION=add".toList, "DEVPATH=".toList ++ d]) := by
    intro x hx
    rcases List.mem_append.mp hx with hx | hx
    · exact hkept x hx
    · rcases List.mem_pair.mp hx with rfl | rfl
      · decide
      · exact ⟨by simp, by simp [hd]⟩
  have hlen := length_le_nulStrings (kept ++ ["ACTION=add".toList, "DEVPATH=".toList ++ d])
  rw [hbuf, parseRequest, hskip, parseLoop_strings _ _ _ hall (by omega)] at h
  cases hfold : (kept ++ ["ACTION=add".toList, "DEVPATH=".toList ++ d]).foldlM parseString {} with
  | error e =>
    rw [hfold] at h
    cases h
  | ok f =>
    rw [hfold] at h
    rw [List.foldlM_append] at hfold
    cases hgather : kept.foldlM parseString {} with
    | error e =>
      rw [hgather] at hfold
      cases hfold
    | ok g =>
      rw [hgather] at hfold
      obtain ⟨htype, hmem⟩ := parseString_added g f d hfold
      obtain ⟨htype', hmem'⟩ := makeRequest_keeps sys f req h
      exact ⟨htype'.trans htype, hmem' _ hmem⟩

theorem nul_not_mem_dirname (path : CStr) (h : '\x00' ∉ path) : '\x00' ∉ dirname path := by
  unfold dirname
  split_ifs
  · decide
  · exact fun hmem => h (List.mem_of_mem_take hmem)

/-- A device that registers has no request exactly when its uevent file is empty, and otherwise
one for its directory. -/
theorem requestAt_registers (sys : Sysfs) (path : CStr) (m : Location)
    (hdir : DenotesDir (dirname path) m) (hnul : '\x00' ∉ path)
    (hreg : registers sys path = true) :
    (requestAt sys path = none ↔ EmptyUevent sys path) ∧
      ∀ req, requestAt sys path = some req → AddsDirectory sys path m req := by
  unfold registers at hreg
  unfold requestAt
  unfold registerDevice at hreg ⊢
  cases hread : readUevent sys path with
  | error e =>
    rw [hread] at hreg
    cases hreg
  | ok read =>
    cases read with
    | none =>
      rw [hread] at hreg
      cases hreg
    | some buf =>
      obtain ⟨⟨strings, hstrings, hbuf⟩, hempty⟩ := readUevent_strings sys path buf hread
      rw [hread] at hreg
      dsimp only at hreg ⊢
      rw [← hempty]
      by_cases hnil : buf = []
      · rw [if_pos hnil]
        exact ⟨iff_of_true rfl hnil, nofun⟩
      · rw [if_neg hnil] at hreg ⊢
        split_ifs at hreg ⊢ with hname
        cases hparse : parseRequest sys (ueventAppend
            (ueventAppend buf "ACTION".toList "add".toList) "DEVPATH".toList
              ((dirname path).drop sys.mountpoint.length)) with
        | error e =>
          rw [hparse] at hreg
          cases hreg
        | ok req =>
          refine ⟨iff_of_false nofun hnil, ?_⟩
          intro req' hreq
          cases hreq
          have hne : strings ≠ [] := by
            rintro rfl
            exact hnil hbuf
          have hd : '\x00' ∉ (dirname path).drop sys.mountpoint.length :=
            fun hmem => nul_not_mem_dirname path hnul (List.mem_of_mem_drop hmem)
          obtain ⟨htype, hdevpath⟩ := parseRequest_added sys strings hne hstrings _ hd req
            (hbuf ▸ hparse)
          exact ⟨hdir, ⟨buf, hread, hparse⟩, htype, hdevpath⟩

end Registered

/-- As long as there are initial requests, each call hands out the next one and
leaves the socket alone. -/
theorem nextDevices_initial (sys : Sysfs) (calls : ℕ) (ctx : OsContext)
    (hcalls : calls ≤ ctx.initialRequests.length) :
    ∃ ctx', nextDevices sys calls ctx =
        some ((ctx.initialRequests.take calls).map (fun req => (0, some req)), ctx') ∧
      ctx'.initialRequests = ctx.initialRequests.drop calls ∧ ctx'.socket = ctx.socket ∧
      ctx'.coldplugOnly = ctx.coldplugOnly := by
  induction calls generalizing ctx with
  | zero => exact ⟨ctx, rfl, rfl, rfl, rfl⟩
  | succ calls ih =>
    cases hinit : ctx.initialRequests with
    | nil =>
      rw [hinit] at hcalls
      exact absurd hcalls (Nat.not_succ_le_zero _)
    | cons req requests =>
      rw [hinit, List.length_cons] at hcalls
      have hnext : nextDevice sys ctx = some ((0, some req), { ctx with
          initialRequests := requests
          coldplugFinished := ctx.coldplugFinished || requests.isEmpty }) := by
        rw [nextDevice, hinit]
      obtain ⟨ctx', hrun, hrest, hsocket, honly⟩ := ih { ctx with
          initialRequests := requests
          coldplugFinished := ctx.coldplugFinished || requests.isEmpty } (Nat.le_of_succ_le_succ hcalls)
      refine ⟨ctx', ?_, hrest, hsocket, honly⟩
      rw [nextDevices, hnext]
      dsimp only
      rw [hrun]
      rfl

/-- The walk over the devices reports each device directory once and after the
device directories above it. When every device registers without an error, there is a
request for each directory whose uevent file is not empty, and the requests are handed
out in that order, before anything is read from the netlink socket; with coldplug only,
the next call returns 1. -/
theorem coldplug_enumeration (sys : Sysfs) (T : FS) (l : Location)
    (hmount : DenotesDir sys.mountpoint l) (hdir : T.IsDir (devicesName :: l))
    (hnone : hasUevent T (devicesName :: l) = false) :
    let r := devicesName :: l
    let path := ueventPathOf (fullpath sys.mountpoint "/devices".toList) r
    let order := deviceOrder T r
    findDevices T sys.mountpoint = (0, order.map path) ∧
    (∀ m ∈ order, Denotes (path m) (ueventName :: m)) ∧
    (∀ m, m ∈ order ↔ r <:+ m ∧ T.IsDir m ∧ hasUevent T m = true) ∧
    order.Nodup ∧
    order.Pairwise (fun a b => ¬b <:+ a) ∧
    ((∀ m ∈ order, registers sys (path m) = true) →
      (∀ m ∈ order, '\x00' ∉ path m →
        (requestAt sys (path m) = none ↔ EmptyUevent sys (path m)) ∧
          ∀ req, requestAt sys (path m) = some req → AddsDirectory sys (path m) m req) ∧
      ∃ requests, requests = order.filterMap (fun m => requestAt sys (path m)) ∧
        registerDevices sys T [] = some (0, requests) ∧
        ∀ ctx : OsContext, ctx.initialRequests = requests → ∀ calls, calls ≤ requests.length →
          ∃ ctx', nextDevices sys calls ctx =
              some ((requests.take calls).map (fun req => (0, some req)), ctx') ∧
            ctx'.socket = ctx.socket ∧
            (calls = requests.length → ctx.coldplugOnly = true →
              nextDevice sys ctx' = some ((1, none), ctx'))) := by
  intro r path order
  have hfind : findDevices T sys.mountpoint = (0, order.map path) :=
    findDevices_eq T sys.mountpoint l hmount hdir hnone
  have hmem := mem_deviceOrder T r hdir hnone
  have hpair := deviceOrder_pairwise T r hdir
  refine ⟨hfind, fun m hm => ?_, hmem, ?_, hpair, fun hreg => ?_⟩
  · exact denotes_ueventPathOf _ r m (denotesDir_devices sys.mountpoint l hmount) ((hmem m).mp hm).1
  · exact hpair.imp (fun {a b} hab (heq : a = b) => hab (heq ▸ List.suffix_rfl))
  · refine ⟨fun m hm hnul => ?_, _, rfl, ?_, fun ctx hctx calls hcalls => ?_⟩
    · have hroot := denotesDir_devices sys.mountpoint l hmount
      have hsub := ((hmem m).mp hm).1
      have hslash : slashed (fullpath sys.mountpoint "/devices".toList) = false := by
        rw [slashed_fullpath _ _ (by decide) (by decide)]
        decide
      refine requestAt_registers sys (path m) m ?_ hnul (hreg m hm)
      rw [dirname_ueventPathOf _ r m hroot hslash hsub]
      exact denotesDir_pathFrom _ r m hroot hsub
    · have hloop := registerLoop_registers sys (order.map path) (by simpa using hreg) []
      rw [registerDevices, hfind]
      rw [List.nil_append, List.filterMap_map] at hloop
      exact hloop
    · rw [← hctx] at hcalls ⊢
      obtain ⟨ctx', hrun, hrest, hsocket, honly⟩ := nextDevices_initial sys calls ctx hcalls
      refine ⟨ctx', hrun, hsocket, fun hall hcold => ?_⟩
      rw [hall, List.drop_length] at hrest
      rw [nextDevice, hrest]
      dsimp only
      rw [if_pos (honly.trans hcold)]

def sysName : Name := ⟨"sys".toList, by decide⟩

def pciName : Name := ⟨"pci0".toList, by decide⟩

def usbName : Name := ⟨"usb1".toList, by decide⟩

def slotName : Name := ⟨"slot".toList, by decide⟩

def busTree : FS :=
  (((((Tree.bare 0o755).put sysName [] (.dir 0o755)).put devicesName [sysName] (.dir 0o755)).put
    pciName [devicesName, sysName] (.dir 0o755)).put
    ueventName [pciName, devicesName, sysName] (.leaf (.file 0o644 []))).put
    usbName [pciName, devicesName, sysName] (.dir 0o755) |>.put
    ueventName [usbName, pciName, devicesName, sysName] (.leaf (.file 0o644 []))

def slotTree : FS :=
  (busTree.put slotName [pciName, devicesName, sysName] (.dir 0o755)).put
    ueventName [slotName, pciName, devicesName, sysName] (.leaf (.file 0o644 []))

/-- A sysfs in which the uevent file of the slot is empty and the others are alike. -/
def busSys : Sysfs where
  mountpoint := "/sys".toList
  mountpoint_ne := (oneDevice [] []).mountpoint_ne
  statSize _ := .ok 16
  readFile path :=
    if path = "/sys/devices/pci0/slot/uevent".toList then .ok [] else .ok "DRIVER=hub\n".toList
  readlink _ := .error .enoent

theorem coldplug_enumeration_bus :
    ∃ requests, registerDevices busSys slotTree [] = some (0, requests) ∧
      requests.map (fun req => req.params.find "DEVPATH".toList) =
        [some "/devices/pci0".toList, some "/devices/pci0/usb1".toList] ∧
      EmptyUevent busSys "/sys/devices/pci0/slot/uevent".toList ∧
      ∀ ctx : OsContext, ctx.initialRequests = requests →
        ∃ ctx', nextDevices busSys 2 ctx = some (requests.map (fun req => (0, some req)), ctx') ∧
          ctx'.socket = ctx.socket := by
  have hmount : DenotesDir busSys.mountpoint [sysName] := ⟨by decide, by decide⟩
  obtain ⟨-, -, hmem, -, -, hrun⟩ := coldplug_enumeration busSys slotTree [sysName] hmount
    (by decide +kernel) (by decide +kernel)
  obtain ⟨hdevices, requests, hrequests, hreg, hcalls⟩ := hrun (by decide +kernel)
  have hslot := hdevices [slotName, pciName, devicesName, sysName] (by decide +kernel)
    (by decide +kernel)
  have hpaths : requests.map (fun req => req.params.find "DEVPATH".toList) =
      [some "/devices/pci0".toList, some "/devices/pci0/usb1".toList] := by
    rw [hrequests]
    decide +kernel
  have htwo : requests.length = 2 := by
    simpa using congrArg List.length hpaths
  refine ⟨requests, hreg, hpaths, hslot.1.mp (by decide +kernel), fun ctx hctx => ?_⟩
  obtain ⟨ctx', hnext, hsocket, -⟩ := hcalls ctx hctx 2 htwo.ge
  rw [List.take_of_length_le htwo.le] at hnext
  exact ⟨ctx', hnext, hsocket⟩

end Vdev.Enumeration
