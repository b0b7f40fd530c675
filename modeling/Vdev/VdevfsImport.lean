import Vdev.Enumeration
import Vdev.LinkedList
import Vdev.QueueWalk

/-!
Importing the tree under the mountpoint (fs/fs.c). `vdevfs_dev_import` scans the directories
one after another and copies what it finds into the tree of fskit. The directories still to
scan are in a linked list: a scan hangs new nodes behind the last one, through a pointer
that it hands back, and the first node is freed after its scan. Whatever the shape of the
tree, no freed node is touched, every entry is attached once and every directory is scanned
once, after it was attached. The copy has the types, the device numbers and the owners of
the original, except that a symbolic link gets the owner that fskit gives to new links.
-/
namespace Vdev.VdevfsImport

open CString FileTree SystemCalls Paths Directories Enumeration LinkedList QueueWalk TreeWalk

/-- What `fstatat` says about an inode, its type and its device number aside. -/
structure Stat where
  ino : ℕ
  uid : ℕ
  gid : ℕ
  mode : ℕ

inductive Kind
  | reg
  | fifo
  | sock
  | chr (rdev : ℕ)
  | blk (rdev : ℕ)
  | lnk (target : CStr)

structure Inode where
  kind : Kind
  stat : Stat

/-- The tree under the mountpoint, and the tree of fskit. -/
abbrev Files := Tree Name Stat Inode

/-- A `struct vdevfs_scandirat_queue`. The descriptor is the directory that it was opened on. -/
structure Queued where
  fd : Location
  path : CStr

abbrev QueueHeap := Heap ℕ Queued

/-- The functions of fskit that fill in a new inode. -/
structure Fskit where
  initFile (ino uid gid mode : ℕ) : Inode
  initDir (ino uid gid mode : ℕ) : Stat
  initFifo (ino uid gid mode : ℕ) : Inode
  initSock (ino uid gid mode : ℕ) : Inode
  initChr (ino uid gid mode rdev : ℕ) : Inode
  initBlk (ino uid gid mode rdev : ℕ) : Inode
  initSymlink (ino : ℕ) (linkpath : CStr) : Inode

/-- An entry was attached to a directory of fskit, or a directory was scanned. -/
inductive Event
  | attached (entry parentDir : Location)
  | scanned (dir : Location)

/-- The `struct vdevfs_scandirat_context`, with the memory and the tree that the callback
changes. The log is a ghost. -/
structure ScanContext where
  core : Files
  parentDir : Location
  parentPath : CStr
  tail : ℕ
  heap : QueueHeap
  log : List Event

structure Import where
  core : Files
  dirQueue : Option ℕ
  dirQueueTail : ℕ
  heap : QueueHeap
  rc : Int
  log : List Event

inductive Outcome
  | running (s : Import)
  | returned (rc : Int) (s : Import)
  | undefined

section Source

variable (alloc : QueueHeap → ℕ) (fskit : Fskit) (T : Files)

/-- Open a directory and put it behind the last node of the queue. -/
def enqueue (dirfd : Location) (dName : Name) (ctx : ScanContext) : Option ScanContext :=
  let next := alloc ctx.heap
  let node : Node ℕ Queued := ⟨⟨dName :: dirfd, fullpath ctx.parentPath dName.val⟩, none⟩
  match ctx.heap ctx.tail with
  | none => none
  | some last =>
    some { ctx with
      heap := Function.update (Function.update ctx.heap next (some node)) ctx.tail
        (some { last with next := some next })
      tail := next }

/-- The inode for an entry. At most 8192 bytes of a link are read. -/
def initChild : Entry Stat Inode → Entry Stat Inode
  | .dir sb => .dir (fskit.initDir sb.ino sb.uid sb.gid (sb.mode &&& 0o777))
  | .leaf ⟨kind, sb⟩ => .leaf <|
    match kind with
    | .reg => fskit.initFile sb.ino sb.uid sb.gid (sb.mode &&& 0o777)
    | .fifo => fskit.initFifo sb.ino sb.uid sb.gid (sb.mode &&& 0o777)
    | .sock => fskit.initSock sb.ino sb.uid sb.gid (sb.mode &&& 0o777)
    | .chr rdev => fskit.initChr sb.ino sb.uid sb.gid sb.mode rdev
    | .blk rdev => fskit.initBlk sb.ino sb.uid sb.gid sb.mode rdev
    | .lnk target => fskit.initSymlink sb.ino (target.take 8192)

/-- `vdevfs_scandirat_context_callback` for an entry that `fstatat` finds. -/
def importChild (dirfd : Location) (dName : Name) (sb : Entry Stat Inode) (ctx : ScanContext) :
    Option ScanContext :=
  let queued :=
    match sb with
    | .dir _ => enqueue alloc dirfd dName ctx
    | .leaf _ => some ctx
  queued.map (fun ctx => { ctx with
    core := ctx.core.put dName ctx.parentDir (initChild fskit sb)
    log := ctx.log ++ [.attached (dName :: dirfd) ctx.parentDir] })

/-- `vdevfs_scandirat_context_callback`. The calls it makes succeed, so its result is 0,
unless the last node of the queue has been freed. -/
def scandiratContextCallback (dirfd : Location) (dName : CStr) (ctx : ScanContext) :
    Option ScanContext :=
  if dName = ['.'] ∨ dName = ['.', '.'] then some ctx
  else
    match nameOf dName with
    | none => some ctx
    | some n =>
      match T.get (n :: dirfd) with
      | none => some ctx
      | some sb => importChild alloc fskit dirfd n sb ctx

/-- The names that `vdev_portable_scandirat` returns, sorted. -/
def direntNames (dirfd : Location) : List CStr :=
  sortMultiset (['.'] ::ₘ ['.', '.'] ::ₘ (T.children dirfd).map Subtype.val)

/-- `vdev_load_all_at` with the callback. -/
def loadAllAt (dirfd : Location) (ctx : ScanContext) : Option ScanContext :=
  (direntNames T dirfd).foldlM
    (fun ctx dName => scandiratContextCallback alloc fskit T dirfd dName ctx) ctx

/-- `fskit_entry_resolve_path` looks the names of a path up. -/
def resolvePath (core : Files) (path : CStr) : Option Location :=
  match (names path).mapM nameOf with
  | none => none
  | some ns => if core.get ns.reverse = none then none else some ns.reverse

/-- A round of the loop of `vdevfs_dev_import`, or, once a call has failed, of the loop that
frees the rest of the queue. -/
def importStep (s : Import) : Outcome :=
  match s.dirQueue with
  | none => .returned s.rc s
  | some ptr =>
    match s.heap ptr with
    | none => .undefined
    | some node =>
      if s.rc ≠ 0 then
        .running { s with heap := Function.update s.heap ptr none, dirQueue := node.next }
      else
        match resolvePath s.core node.data.path with
        | none => .running { s with rc := Errno.enoent.rc }
        | some dirEnt =>
          let scanContext : ScanContext := {
            core := s.core
            parentDir := dirEnt
            parentPath := node.data.path
            tail := s.dirQueueTail
            heap := s.heap
            log := s.log ++ [.scanned node.data.fd] }
          match loadAllAt alloc fskit T node.data.fd scanContext with
          | none => .undefined
          | some ctx =>
            match ctx.heap ptr with
            | none => .undefined
            | some scanned =>
              .running {
                core := ctx.core
                dirQueue := scanned.next
                dirQueueTail := ctx.tail
                heap := Function.update ctx.heap ptr none
                rc := 0
                log := ctx.log }

def importLoop : ℕ → Outcome → Outcome
  | rounds + 1, .running s => importLoop rounds (importStep alloc fskit T s)
  | _, o => o

/-- `vdevfs_dev_import` before its loop. Only the root of fskit is there. -/
def importStart (root : Stat) : Import :=
  let dirQueue := alloc (fun _ => none)
  { core := Tree.bare root
    dirQueue := some dirQueue
    dirQueueTail := dirQueue
    heap := Function.update (fun _ => none) dirQueue (some ⟨⟨[], "/".toList⟩, none⟩)
    rc := 0
    log := [] }

end Source

/-- The type of an inode, with the device number of a device. -/
inductive FileType
  | reg
  | dir
  | fifo
  | sock
  | chr (rdev : ℕ)
  | blk (rdev : ℕ)
  | lnk

structure Identity where
  type : FileType
  uid : ℕ
  gid : ℕ

def Kind.type : Kind → FileType
  | .reg => .reg
  | .fifo => .fifo
  | .sock => .sock
  | .chr rdev => .chr rdev
  | .blk rdev => .blk rdev
  | .lnk _ => .lnk

def Inode.identity (inode : Inode) : Identity :=
  ⟨inode.kind.type, inode.stat.uid, inode.stat.gid⟩

def identity : Entry Stat Inode → Identity
  | .dir sb => ⟨.dir, sb.uid, sb.gid⟩
  | .leaf inode => inode.identity

/-- An inode is of the type that it is set up as, and has the owner and the device number
that it is given. A symbolic link is given no owner. -/
structure Fskit.Initializes (fskit : Fskit) : Prop where
  file : ∀ ino uid gid mode, (fskit.initFile ino uid gid mode).identity = ⟨.reg, uid, gid⟩
  dir_uid : ∀ ino uid gid mode, (fskit.initDir ino uid gid mode).uid = uid
  dir_gid : ∀ ino uid gid mode, (fskit.initDir ino uid gid mode).gid = gid
  fifo : ∀ ino uid gid mode, (fskit.initFifo ino uid gid mode).identity = ⟨.fifo, uid, gid⟩
  sock : ∀ ino uid gid mode, (fskit.initSock ino uid gid mode).identity = ⟨.sock, uid, gid⟩
  chr : ∀ ino uid gid mode rdev,
    (fskit.initChr ino uid gid mode rdev).identity = ⟨.chr rdev, uid, gid⟩
  blk : ∀ ino uid gid mode rdev,
    (fskit.initBlk ino uid gid mode rdev).identity = ⟨.blk rdev, uid, gid⟩
  symlink : ∀ ino linkpath, (fskit.initSymlink ino linkpath).kind.type = .lnk

/-- `calloc` returns memory that is not in use, as long as there is some. -/
def Allocates (alloc : QueueHeap → ℕ) : Prop :=
  ∀ heap : QueueHeap, (∃ a, heap a = none) → heap (alloc heap) = none

/-- The tree of fskit is like the other one, and the log says that it was built up in order:
nothing happens twice, every entry but the root is attached to its own parent directory, and
a directory is scanned after it was attached. -/
structure Imported (T core : Files) (log : List Event) : Prop where
  same : ∀ l, l ≠ [] → (core.get l).map identity = (T.get l).map identity
  once : log.Nodup
  attached : ∀ l parentDir, .attached l parentDir ∈ log ↔
    l ≠ [] ∧ T.get l ≠ none ∧ parentDir = l.tail
  scanned : ∀ m, .scanned m ∈ log ↔ T.IsDir m
  in_order : ∀ pre m post, log = pre ++ .scanned m :: post → m = [] ∨ .attached m m.tail ∈ pre

/-- `vdevfs_dev_import` returns 0, and the tree was imported. -/
def Faithful (alloc : QueueHeap → ℕ) (fskit : Fskit) (T : Files) (root : Stat) : Prop :=
  ∃ rounds s, importLoop alloc fskit T rounds (.running (importStart alloc root)) = .returned 0 s ∧
    Imported T s.core s.log

/-- Only the owner of a symbolic link can get lost. -/
theorem identity_initChild {fskit : Fskit} (h : fskit.Initializes) (e : Entry Stat Inode) :
    identity (initChild fskit e) = identity e ↔ ∀ target sb, e = .leaf ⟨.lnk target, sb⟩ →
      (fskit.initSymlink sb.ino (target.take 8192)).stat.uid = sb.uid ∧
      (fskit.initSymlink sb.ino (target.take 8192)).stat.gid = sb.gid := by
  cases e with
  | dir sb =>
    refine iff_of_true ?_ nofun
    rw [initChild, identity, h.dir_uid, h.dir_gid]
    rfl
  | leaf inode =>
    obtain ⟨kind, sb⟩ := inode
    cases kind with
    | reg => exact iff_of_true (h.file ..) nofun
    | fifo => exact iff_of_true (h.fifo ..) nofun
    | sock => exact iff_of_true (h.sock ..) nofun
    | chr rdev => exact iff_of_true (h.chr ..) nofun
    | blk rdev => exact iff_of_true (h.blk ..) nofun
    | lnk target =>
      change Identity.mk _ _ _ = Identity.mk _ _ _ ↔ _
      rw [h.symlink]
      constructor
      · intro heq target' sb' he
        cases he
        exact ⟨congrArg Identity.uid heq, congrArg Identity.gid heq⟩
      · intro howner
        obtain ⟨huid, hgid⟩ := howner target sb rfl
        rw [huid, hgid]
        rfl

section Names

variable (T : Files) (m : Location)

def childNames : List Name := (direntNames T m).filterMap nameOf

theorem coe_childNames : (childNames T m : Multiset Name) = T.children m := by
  have hdot : nameOf ['.'] = none := dif_neg (by decide)
  have hdots : nameOf ['.', '.'] = none := dif_neg (by decide)
  rw [childNames, ← Multiset.filterMap_coe, direntNames, coe_sortMultiset,
    Multiset.filterMap_cons_none _ _ hdot, Multiset.filterMap_cons_none _ _ hdots,
    Multiset.filterMap_map]
  have hsome : nameOf ∘ (Subtype.val : Name → CStr) = some := funext nameOf_val
  rw [hsome, Multiset.filterMap_some]

theorem mem_childNames (n : Name) : n ∈ childNames T m ↔ T.get (n :: m) ≠ none := by
  rw [← Multiset.mem_coe, coe_childNames, Tree.mem_children]

theorem nodup_childNames : (childNames T m).Nodup := by
  rw [← Multiset.coe_nodup, coe_childNames]
  exact T.nodup_children m

def dirNames : List Name := (childNames T m).filter (fun n => T.IsDir (n :: m))

theorem mem_dirNames (n : Name) : n ∈ dirNames T m ↔ T.IsDir (n :: m) ∧ True := by
  rw [dirNames, List.mem_filter, mem_childNames, decide_eq_true_iff, and_true]
  exact ⟨And.right, fun h => ⟨h.get_ne_none, h⟩⟩

theorem nodup_dirNames : (dirNames T m).Nodup := (nodup_childNames T m).filter _

def visited : List Event :=
  .scanned m :: (childNames T m).map (fun n => .attached (n :: m) m)

end Names

def queued (m : Location) : Queued := ⟨m, pathFrom "/".toList [] m⟩

section Scan

variable {alloc : QueueHeap → ℕ} {fskit : Fskit} {T : Files}
variable {core : Files} {log : List Event} {p : Option ℕ} {items : List Queued} {m : Location}

/-- What a scan of `m` has come to after the names `done`, from the tree `core`, the log
`log` and the queue `items`. -/
structure ScanInv (fskit : Fskit) (T core : Files) (log : List Event) (p : Option ℕ)
    (items : List Queued) (m : Location) (done : List Name) (ctx : ScanContext) : Prop where
  parentDir : ctx.parentDir = m
  parentPath : ctx.parentPath = pathFrom "/".toList [] m
  queue : IsQueue ctx.heap p ctx.tail
    (items ++ (done.filter (fun n => T.IsDir (n :: m))).map (fun n => queued (n :: m)))
  core_get : ∀ l, ctx.core.get l =
    if ∃ n ∈ done, l = n :: m then (T.get l).map (initChild fskit) else core.get l
  log_eq : ctx.log = log ++ done.map (fun n => .attached (n :: m) m)

/-- A directory is put behind the nodes that are in the queue. -/
theorem ScanInv.enqueue (halloc : Allocates alloc) (hitems : items ≠ []) {done : List Name}
    {ctx : ScanContext} (h : ScanInv fskit T core log p items m done ctx) (n : Name) :
    ∃ heap tail, enqueue alloc m n ctx = some { ctx with heap := heap, tail := tail } ∧
      IsQueue heap p tail (items ++
        (done.filter (fun n => T.IsDir (n :: m))).map (fun n => queued (n :: m)) ++
          [queued (n :: m)]) := by
  have hpath : fullpath ctx.parentPath n.val = pathFrom "/".toList [] (n :: m) := by
    rw [h.parentPath, pathFrom_cons _ _ _ _ (List.nil_suffix)]
  obtain ⟨last, hlast, hqueue⟩ := h.queue.push (by simp [hitems])
    (halloc ctx.heap h.queue.exists_free) (queued (n :: m))
  refine ⟨_, _, ?_, hqueue⟩
  rw [VdevfsImport.enqueue, hlast, hpath]
  rfl

/-- The part of the queue that a name leads to. -/
theorem ScanInv.importChild (halloc : Allocates alloc) (hitems : items ≠ []) {done : List Name}
    {ctx : ScanContext} (h : ScanInv fskit T core log p items m done ctx) {n : Name}
    {sb : Entry Stat Inode} (hget : T.get (n :: m) = some sb) :
    ∃ heap tail, importChild alloc fskit m n sb ctx = some { ctx with
        core := ctx.core.put n m (initChild fskit sb)
        heap := heap
        tail := tail
        log := ctx.log ++ [.attached (n :: m) m] } ∧
      IsQueue heap p tail (items ++
        ((done ++ [n]).filter (fun n => T.IsDir (n :: m))).map (fun n => queued (n :: m))) := by
  have hm := h.parentDir
  rw [List.filter_append]
  cases sb with
  | dir a =>
    have hisDir : T.IsDir (n :: m) := ⟨a, hget⟩
    obtain ⟨heap, tail, henqueue, hqueue⟩ := h.enqueue halloc hitems n
    refine ⟨heap, tail, by simp only [VdevfsImport.importChild, henqueue, Option.map_some, hm], ?_⟩
    rw [List.filter_cons_of_pos (by simpa using hisDir), List.map_append, ← List.append_assoc]
    exact hqueue
  | leaf inode =>
    have hnotDir : ¬T.IsDir (n :: m) := T.not_isDir_of_leaf _ _ hget
    refine ⟨ctx.heap, ctx.tail, by simp only [VdevfsImport.importChild, Option.map_some, hm], ?_⟩
    rw [List.filter_cons_of_neg (by simpa using hnotDir), List.filter_nil, List.append_nil]
    exact h.queue

/-- One name. -/
theorem ScanInv.step (halloc : Allocates alloc) (hitems : items ≠ []) (hdir : core.IsDir m)
    {done : List Name} {ctx : ScanContext} (h : ScanInv fskit T core log p items m done ctx)
    {n : Name} {sb : Entry Stat Inode} (hget : T.get (n :: m) = some sb) (hn : n ∉ done)
    (hfree : core.get (n :: m) = none) :
    ∃ ctx', VdevfsImport.importChild alloc fskit m n sb ctx = some ctx' ∧
      ScanInv fskit T core log p items m (done ++ [n]) ctx' := by
  have hdir' : ctx.core.IsDir m := by
    obtain ⟨a, ha⟩ := hdir
    refine ⟨a, ?_⟩
    rw [h.core_get, if_neg, ha]
    rintro ⟨k, -, hk⟩
    exact List.cons_ne_self k m hk.symm
  have hfree' : ¬ctx.core.IsDir (n :: m) := by
    apply Tree.not_isDir_of_none
    rw [h.core_get, if_neg, hfree]
    rintro ⟨k, hk, heq⟩
    exact hn ((List.cons.inj heq).1 ▸ hk)
  obtain ⟨heap, tail, himport, hqueue⟩ := h.importChild halloc hitems hget
  refine ⟨_, himport, h.parentDir, h.parentPath, hqueue, fun l => ?_, ?_⟩
  · rw [Tree.get_put _ _ _ _ hdir' hfree', h.core_get]
    by_cases hl : l = n :: m
    · have hmem : ∃ k ∈ done ++ [n], l = k :: m := ⟨n, by simp, hl⟩
      rw [if_pos hl, if_pos hmem, hl, hget]
      rfl
    · have hmem : (∃ k ∈ done ++ [n], l = k :: m) ↔ ∃ k ∈ done, l = k :: m := by
        simp only [List.mem_append, List.mem_singleton, or_and_right, exists_or, exists_eq_left,
          hl, or_false]
      simp only [if_neg hl, hmem]
  · simp only [h.log_eq, List.map_append, List.map_cons, List.map_nil, List.append_assoc]

/-- All the names. -/
theorem ScanInv.run (halloc : Allocates alloc) (hitems : items ≠ []) (hdir : core.IsDir m)
    (names done : List Name) (hnodup : (done ++ names).Nodup)
    (hnames : ∀ n ∈ names, T.get (n :: m) ≠ none ∧ core.get (n :: m) = none) {ctx : ScanContext}
    (h : ScanInv fskit T core log p items m done ctx) :
    ∃ ctx', names.foldlM (fun ctx n => scandiratContextCallback alloc fskit T m n.val ctx) ctx =
        some ctx' ∧ ScanInv fskit T core log p items m (done ++ names) ctx' := by
  induction names generalizing done ctx with
  | nil =>
    rw [List.append_nil]
    exact ⟨ctx, rfl, h⟩
  | cons n names ih =>
    obtain ⟨hget, hfree⟩ := hnames n List.mem_cons_self
    obtain ⟨sb, hsb⟩ := Option.ne_none_iff_exists'.mp hget
    have hn : n ∉ done := fun hmem =>
      List.disjoint_of_nodup_append hnodup hmem List.mem_cons_self
    obtain ⟨ctx₁, hstep, h₁⟩ := h.step halloc hitems hdir hsb hn hfree
    have hsplit : done ++ n :: names = done ++ [n] ++ names := by simp
    rw [hsplit] at hnodup ⊢
    obtain ⟨ctx', hrun, h'⟩ := ih (done ++ [n]) hnodup
      (fun k hk => hnames k (List.mem_cons_of_mem n hk)) h₁
    refine ⟨ctx', ?_, h'⟩
    have hcallback : scandiratContextCallback alloc fskit T m n.val ctx = some ctx₁ := by
      rw [scandiratContextCallback, if_neg, nameOf_val]
      · dsimp only
        rw [hsb]
        exact hstep
      · rintro (hdot | hdots)
        · exact n.property.2.2.1 hdot
        · exact n.property.2.2.2 hdots
    rw [List.foldlM_cons, hcallback]
    exact hrun

/-- The callback is run for the names other than `.` and `..`. -/
theorem loadAllAt_eq (ctx : ScanContext) : loadAllAt alloc fskit T m ctx =
    (childNames T m).foldlM
      (fun ctx n => scandiratContextCallback alloc fskit T m n.val ctx) ctx := by
  rw [loadAllAt, childNames, List.foldlM_filterMap]
  congr 1
  funext ctx c
  cases hc : nameOf c with
  | none =>
    rw [scandiratContextCallback]
    split_ifs
    · rfl
    · rw [hc]
      rfl
  | some n => rw [nameOf_eq_some hc]

/-- A scan of a directory. -/
theorem loadAllAt_spec (fskit : Fskit) (T : Files) (log : List Event) (halloc : Allocates alloc)
    (hitems : items ≠ []) (hdir : core.IsDir m) (hfree : ∀ n, core.get (n :: m) = none)
    {heap : QueueHeap} {tail : ℕ} (hqueue : IsQueue heap p tail items) :
    ∃ ctx, loadAllAt alloc fskit T m ⟨core, m, pathFrom "/".toList [] m, tail, heap, log⟩ =
        some ctx ∧ ScanInv fskit T core log p items m (childNames T m) ctx := by
  have hstart : ScanInv fskit T core log p items m []
      ⟨core, m, pathFrom "/".toList [] m, tail, heap, log⟩ := {
    parentDir := rfl
    parentPath := rfl
    queue := by
      rw [List.filter_nil, List.map_nil, List.append_nil]
      exact hqueue
    core_get := fun l => by simp
    log_eq := (List.append_nil log).symm }
  rw [loadAllAt_eq]
  exact hstart.run halloc hitems hdir (childNames T m) [] (nodup_childNames T m)
    (fun n hn => ⟨(mem_childNames T m n).mp hn, hfree n⟩)

end Scan

section Loop

variable {alloc : QueueHeap → ℕ} {fskit : Fskit} {T : Files} {s : Import} {m : Location}
  {done rest : List Location}

/-- What the import has come to when the directories `done` were scanned and those of
`frontier` are in the queue. -/
structure Inv (fskit : Fskit) (T : Files) (done frontier : List Location) (s : Import) :
    Prop where
  rc : s.rc = 0
  queue : IsQueue s.heap s.dirQueue s.dirQueueTail (frontier.map queued)
  core_get : ∀ l, l ≠ [] →
    s.core.get l = if l.tail ∈ done then (T.get l).map (initChild fskit) else none
  log_eq : s.log = done.flatMap (visited T)
  walk : QueueWalk.Inv (subdirs (dirNames T)) [] done frontier

theorem reach_iff : Reach (subdirs (dirNames T)) [] m ↔ T.IsDir m := by
  rw [reach_subdirs_iff (mem_dirNames T) T.isDir_nil]
  constructor
  · rintro ⟨r, -, hdir, -⟩
    exact hdir
  · intro hdir
    exact ⟨m, (List.append_nil m).symm, hdir, fun _ _ => trivial⟩

theorem forest : Forest (subdirs (dirNames T)) [] := forest_subdirs (nodup_dirNames T) []

theorem inv_start (alloc : QueueHeap → ℕ) (fskit : Fskit) (T : Files) (root : Stat) :
    Inv fskit T [] [[]] (importStart alloc root) where
  rc := rfl
  queue := IsQueue.singleton _ _
  core_get := fun l hl => by
    rw [if_neg List.not_mem_nil]
    by_contra hne
    exact hl ((Finmap.mem_singleton ..).mp (((Tree.bare root : Files).mem_entries l).mpr hne))
  log_eq := rfl
  walk := QueueWalk.Inv.start []

/-- A directory in the queue is in the tree of fskit. -/
theorem Inv.isDir (h : Inv fskit T done (m :: rest) s) : s.core.IsDir m := by
  cases m with
  | nil => exact s.core.isDir_nil
  | cons n k =>
    have hk : k ∈ done := by
      rcases h.walk.parent (n :: k) (by simp) with hroot | ⟨a, ha, hmem⟩
      · cases hroot
      · obtain ⟨n', -, heq⟩ := List.mem_map.mp hmem
        exact (List.cons.inj heq).2 ▸ ha
    obtain ⟨a, ha⟩ := reach_iff.mp (h.walk.reach (n :: k) (by simp))
    refine ⟨fskit.initDir a.ino a.uid a.gid (a.mode &&& 0o777), ?_⟩
    rw [h.core_get _ (List.cons_ne_nil n k), List.tail_cons, if_pos hk, ha]
    rfl

/-- So its path can be resolved. -/
theorem resolvePath_pathFrom (core : Files) (hdir : core.IsDir m) :
    resolvePath core (pathFrom "/".toList [] m) = some m := by
  have hroot : DenotesDir "/".toList [] := ⟨by decide, by decide⟩
  have hpath := denotesDir_pathFrom _ _ m hroot List.nil_suffix
  have hnames : (names (pathFrom "/".toList [] m)).mapM nameOf = some m.reverse := by
    rw [hpath.names_eq, steps_eq_map]
    induction m.reverse with
    | nil => rfl
    | cons n l ih =>
      rw [List.map_cons, List.mapM_cons, nameOf_val, ih]
      rfl
  rw [resolvePath, hnames]
  dsimp only
  rw [List.reverse_reverse, if_neg hdir.get_ne_none]

theorem Inv.not_mem (h : Inv fskit T done (m :: rest) s) : m ∉ done := fun hm =>
  List.disjoint_of_nodup_append h.walk.nodup hm List.mem_cons_self

/-- The tree of fskit after a scan of the first directory of the queue. -/
theorem Inv.core_get_scanned (h : Inv fskit T done (m :: rest) s) {log : List Event}
    {p : Option ℕ} {items : List Queued} {ctx : ScanContext}
    (hctx : ScanInv fskit T s.core log p items m (childNames T m) ctx) (l : Location)
    (hl : l ≠ []) : ctx.core.get l =
      if l.tail ∈ done ++ [m] then (T.get l).map (initChild fskit) else none := by
  obtain ⟨n, k, rfl⟩ := List.exists_cons_of_ne_nil hl
  rw [hctx.core_get, h.core_get _ hl, List.tail_cons]
  by_cases hk : k = m
  · subst hk
    have hmem : k ∈ done ++ [k] := by simp
    rw [if_neg h.not_mem, if_pos hmem]
    split_ifs with hn
    · rfl
    · cases hsb : T.get (n :: k) with
      | none => rfl
      | some sb =>
        have hchild : n ∈ childNames T k := (mem_childNames T k n).mpr (by simp [hsb])
        exact absurd ⟨n, hchild, rfl⟩ hn
  · have hchild : ¬∃ n' ∈ childNames T m, n :: k = n' :: m := by
      rintro ⟨n', -, heq⟩
      exact hk (List.cons.inj heq).2
    have hmem : k ∈ done ++ [m] ↔ k ∈ done := by simp [hk]
    simp only [if_neg hchild, hmem]

/-- One round scans the first directory of the queue and puts those in it behind the
others. -/
theorem Inv.step (halloc : Allocates alloc) (h : Inv fskit T done (m :: rest) s) :
    ∃ s', importStep alloc fskit T s = .running s' ∧
      Inv fskit T (done ++ [m]) (rest ++ subdirs (dirNames T) m) s' := by
  have hqueue := h.queue
  rw [List.map_cons] at hqueue
  obtain ⟨ptr, next, hptr, hget⟩ := hqueue.front
  have hfree : ∀ n, s.core.get (n :: m) = none := by
    intro n
    rw [h.core_get _ (List.cons_ne_nil n m), List.tail_cons, if_neg h.not_mem]
  rw [hptr] at hqueue
  obtain ⟨ctx, hscan, hctx⟩ := loadAllAt_spec fskit T (s.log ++ [.scanned m]) halloc
    (List.cons_ne_nil _ _) h.isDir hfree hqueue
  have hqueue' := hctx.queue
  rw [List.cons_append] at hqueue'
  obtain ⟨ptr', next', hptr', hget'⟩ := hqueue'.front
  cases Option.some.inj hptr'
  refine ⟨⟨ctx.core, next', ctx.tail, Function.update ctx.heap ptr none, 0, ctx.log⟩, ?_, rfl, ?_,
    ?_, ?_, h.walk.step forest⟩
  · rw [importStep, hptr]
    dsimp only
    rw [hget]
    dsimp only
    rw [if_neg (not_not.mpr h.rc), queued, resolvePath_pathFrom s.core h.isDir]
    dsimp only
    rw [hscan]
    dsimp only
    rw [hget']
  · have hpop := hqueue'.pop hget'
    rw [List.map_append, subdirs, List.map_map]
    exact hpop
  · exact fun l hl => h.core_get_scanned hctx l hl
  · rw [hctx.log_eq, h.log_eq, List.flatMap_append, List.append_assoc, List.singleton_append,
      List.flatMap_singleton]
    rfl

/-- The whole loop. -/
theorem Inv.run (halloc : Allocates alloc) {frontier order : List Location}
    (hwalk : Walk (subdirs (dirNames T)) frontier order) (h : Inv fskit T done frontier s) :
    ∃ rounds s', importLoop alloc fskit T rounds (.running s) = .returned 0 s' ∧
      Inv fskit T (done ++ order) [] s' := by
  induction hwalk generalizing done s with
  | done =>
    refine ⟨1, s, ?_, by rwa [List.append_nil]⟩
    have hnone := h.queue.eq_none
    rw [importLoop, importStep, hnone]
    dsimp only
    rw [h.rc]
    rfl
  | step m rest order _ ih =>
    obtain ⟨s₁, hstep, h₁⟩ := h.step halloc
    obtain ⟨rounds, s', hrun, h'⟩ := ih h₁
    rw [List.append_assoc] at h'
    exact ⟨rounds + 1, s', by rw [importLoop, hstep, hrun], h'⟩

end Loop

section Log

variable {fskit : Fskit} {T : Files} {m l : Location} {order : List Location}

def Event.dir : Event → Location
  | .attached _ parentDir => parentDir
  | .scanned m => m

theorem dir_of_mem_visited {e : Event} (he : e ∈ visited T m) : e.dir = m := by
  rcases List.mem_cons.mp he with rfl | he
  · rfl
  · obtain ⟨n, -, rfl⟩ := List.mem_map.mp he
    rfl

theorem nodup_visited : (visited T m).Nodup := by
  rw [visited, List.nodup_cons]
  constructor
  · intro hmem
    obtain ⟨n, -, heq⟩ := List.mem_map.mp hmem
    cases heq
  · refine (nodup_childNames T m).map (fun a b hab => ?_)
    cases hab
    rfl

theorem attached_mem_visited {parentDir : Location} :
    .attached l parentDir ∈ visited T m ↔
      l ≠ [] ∧ T.get l ≠ none ∧ parentDir = l.tail ∧ parentDir = m := by
  rw [visited, List.mem_cons, List.mem_map]
  constructor
  · rintro (heq | ⟨n, hn, heq⟩)
    · cases heq
    · cases heq
      exact ⟨List.cons_ne_nil n m, (mem_childNames T m n).mp hn, rfl, rfl⟩
  · rintro ⟨hl, hget, rfl, rfl⟩
    obtain ⟨n, k, rfl⟩ := List.exists_cons_of_ne_nil hl
    exact Or.inr ⟨n, (mem_childNames T k n).mpr hget, rfl⟩

theorem scanned_mem_visited : .scanned l ∈ visited T m ↔ l = m := by
  rw [visited, List.mem_cons, List.mem_map, Event.scanned.injEq]
  constructor
  · rintro (heq | ⟨n, -, heq⟩)
    · exact heq
    · cases heq
  · exact Or.inl

variable (hwalk : Walk (subdirs (dirNames T)) [[]] order)

include hwalk

theorem mem_order (m : Location) : m ∈ order ↔ T.IsDir m := by
  rw [mem_walk forest hwalk, reach_iff]

theorem nodup_log : (order.flatMap (visited T)).Nodup := by
  rw [List.nodup_flatMap]
  refine ⟨fun m _ => nodup_visited, (walk_nodup forest hwalk).imp (fun {a b} hab e he he' => ?_)⟩
  exact hab ((dir_of_mem_visited he).symm.trans (dir_of_mem_visited he'))

theorem attached_mem_log (l parentDir : Location) :
    .attached l parentDir ∈ order.flatMap (visited T) ↔
      l ≠ [] ∧ T.get l ≠ none ∧ parentDir = l.tail := by
  rw [List.mem_flatMap]
  constructor
  · rintro ⟨m, -, hmem⟩
    obtain ⟨hl, hget, htail, -⟩ := attached_mem_visited.mp hmem
    exact ⟨hl, hget, htail⟩
  · rintro ⟨hl, hget, rfl⟩
    refine ⟨l.tail, (mem_order hwalk _).mpr ?_, attached_mem_visited.mpr ⟨hl, hget, rfl, rfl⟩⟩
    obtain ⟨n, k, rfl⟩ := List.exists_cons_of_ne_nil hl
    exact T.isDir_parent n k hget

theorem scanned_mem_log (m : Location) :
    .scanned m ∈ order.flatMap (visited T) ↔ T.IsDir m := by
  rw [List.mem_flatMap, ← mem_order hwalk]
  constructor
  · rintro ⟨k, hk, hmem⟩
    rw [scanned_mem_visited.mp hmem]
    exact hk
  · intro hm
    exact ⟨m, hm, scanned_mem_visited.mpr rfl⟩

/-- A directory is scanned after it was attached. -/
theorem log_in_order (pre post : List Event) (m : Location)
    (hlog : order.flatMap (visited T) = pre ++ .scanned m :: post) :
    m = [] ∨ .attached m m.tail ∈ pre := by
  have hm : m ∈ order := (mem_order hwalk m).mpr
    ((scanned_mem_log hwalk m).mp (by rw [hlog]; simp))
  obtain ⟨before, after, horder⟩ := List.append_of_mem hm
  have hsplit : order.flatMap (visited T) = before.flatMap (visited T) ++ .scanned m ::
      ((childNames T m).map (fun n => .attached (n :: m) m) ++ after.flatMap (visited T)) := by
    rw [horder, List.flatMap_append, List.flatMap_cons]
    rfl
  -- the directory is scanned once, so the two places are the same
  have hnodup := nodup_log hwalk
  rw [hsplit, List.nodup_middle, List.nodup_cons, List.mem_append, not_or] at hnodup
  have hpre : before.flatMap (visited T) = pre :=
    ((List.append_cons_inj_of_notMem hnodup.1.1 hnodup.1.2).mp (hsplit.symm.trans hlog)).1
  rcases walk_ordered forest hwalk before m after horder with hroot | ⟨a, ha, hsub⟩
  · exact Or.inl hroot
  · obtain ⟨n, hn, rfl⟩ := List.mem_map.mp hsub
    rw [← hpre]
    refine Or.inr (List.mem_flatMap.mpr ⟨a, ha, attached_mem_visited.mpr ?_⟩)
    exact ⟨List.cons_ne_nil n a, ((mem_dirNames T a n).mp hn).1.get_ne_none, rfl, rfl⟩

variable {s : Import} (hinv : Inv fskit T order [] s)

include hinv

/-- At the end all of the tree is in fskit. -/
theorem core_get_of_done (hl : l ≠ []) : s.core.get l = (T.get l).map (initChild fskit) := by
  rw [hinv.core_get l hl]
  split_ifs with htail
  · rfl
  · obtain ⟨n, k, rfl⟩ := List.exists_cons_of_ne_nil hl
    cases hget : T.get (n :: k) with
    | none => rfl
    | some e =>
      have hdir : T.IsDir k := T.isDir_parent n k (by simp [hget])
      exact absurd ((mem_order hwalk k).mpr hdir) htail

theorem imported_iff (hfskit : fskit.Initializes) :
    Imported T s.core s.log ↔ ∀ l target sb, T.get l = some (.leaf ⟨.lnk target, sb⟩) →
      (fskit.initSymlink sb.ino (target.take 8192)).stat.uid = sb.uid ∧
      (fskit.initSymlink sb.ino (target.take 8192)).stat.gid = sb.gid := by
  constructor
  · intro himported l target sb hget
    have hl : l ≠ [] := by
      rintro rfl
      exact T.not_isDir_of_leaf [] _ hget T.isDir_nil
    have hsame := himported.same l hl
    rw [core_get_of_done hwalk hinv hl, hget] at hsame
    exact (identity_initChild hfskit _).mp (Option.some.inj hsame) target sb rfl
  · intro howner
    refine ⟨fun l hl => ?_, ?_, ?_, ?_, ?_⟩
    · rw [core_get_of_done hwalk hinv hl, Option.map_map]
      cases hget : T.get l with
      | none => rfl
      | some e =>
        refine congrArg some ((identity_initChild hfskit e).mpr (fun target sb he => ?_))
        exact howner l target sb (by rw [hget, he])
    · rw [hinv.log_eq]
      exact nodup_log hwalk
    · rw [hinv.log_eq]
      exact attached_mem_log hwalk
    · rw [hinv.log_eq]
      exact scanned_mem_log hwalk
    · intro pre m post
      rw [hinv.log_eq]
      exact log_in_order hwalk pre post m

end Log

section Rounds

variable {alloc : QueueHeap → ℕ} {fskit : Fskit} {T : Files}

theorem importLoop_returned (rounds : ℕ) (rc : Int) (s : Import) :
    importLoop alloc fskit T rounds (.returned rc s) = .returned rc s := by
  cases rounds <;> rfl

theorem importLoop_add (rounds more : ℕ) (o : Outcome) :
    importLoop alloc fskit T (rounds + more) o =
      importLoop alloc fskit T more (importLoop alloc fskit T rounds o) := by
  induction rounds generalizing o with
  | zero =>
    rw [Nat.zero_add]
    cases o <;> rfl
  | succ rounds ih =>
    rw [Nat.succ_add]
    cases o with
    | running s => exact ih _
    | returned rc s => exact (importLoop_returned more rc s).symm
    | undefined => cases more <;> rfl

/-- What is returned does not depend on how long one waits for it. -/
theorem importLoop_unique {o : Outcome} {rounds rounds' : ℕ} {rc rc' : Int} {s s' : Import}
    (h : importLoop alloc fskit T rounds o = .returned rc s)
    (h' : importLoop alloc fskit T rounds' o = .returned rc' s') : rc = rc' ∧ s = s' := by
  have hboth : importLoop alloc fskit T (rounds + rounds') o = .returned rc s := by
    rw [importLoop_add, h, importLoop_returned]
  rw [Nat.add_comm, importLoop_add, h', importLoop_returned] at hboth
  exact ⟨(Outcome.returned.inj hboth).1.symm, (Outcome.returned.inj hboth).2.symm⟩

end Rounds

section Faithful

variable {alloc : QueueHeap → ℕ} {fskit : Fskit} {T : Files} {root : Stat}

/-- The import comes to an end without touching a freed node, and returns 0. -/
theorem exists_import (halloc : Allocates alloc) (fskit : Fskit) (T : Files) (root : Stat) :
    ∃ order rounds s, Walk (subdirs (dirNames T)) [[]] order ∧
      importLoop alloc fskit T rounds (.running (importStart alloc root)) = .returned 0 s ∧
      Inv fskit T order [] s := by
  obtain ⟨order, hwalk⟩ := exists_walk_subdirs (nodup_dirNames T) (mem_dirNames T) T.isDir_nil
  obtain ⟨rounds, s, hrun, hinv⟩ := (inv_start alloc fskit T root).run halloc hwalk
  exact ⟨order, rounds, s, hwalk, hrun, hinv⟩

theorem Faithful.link_owner (h : Faithful alloc fskit T root) (halloc : Allocates alloc)
    (hfskit : fskit.Initializes) {l : Location} {target : CStr} {sb : Stat}
    (hget : T.get l = some (.leaf ⟨.lnk target, sb⟩)) :
    (fskit.initSymlink sb.ino (target.take 8192)).stat.uid = sb.uid ∧
    (fskit.initSymlink sb.ino (target.take 8192)).stat.gid = sb.gid := by
  obtain ⟨rounds', s', hrun', himported⟩ := h
  obtain ⟨order, rounds, s, hwalk, hrun, hinv⟩ := exists_import halloc fskit T root
  rw [← (importLoop_unique hrun hrun').2] at himported
  exact (imported_iff hwalk hinv hfskit).mp himported l target sb hget

end Faithful

/-- `vdevfs_dev_import` is faithful just when every symbolic link has the owner that fskit
gives to a new link: `fskit_entry_init_symlink` is not told the owner. -/
theorem faithful_iff (alloc : QueueHeap → ℕ) (halloc : Allocates alloc) (fskit : Fskit)
    (hfskit : fskit.Initializes) (T : Files) (root : Stat) :
    Faithful alloc fskit T root ↔
      ∀ l target sb, T.get l = some (.leaf ⟨.lnk target, sb⟩) →
        (fskit.initSymlink sb.ino (target.take 8192)).stat.uid = sb.uid ∧
        (fskit.initSymlink sb.ino (target.take 8192)).stat.gid = sb.gid := by
  constructor
  · intro h l target sb hget
    exact h.link_owner halloc hfskit hget
  · intro howner
    obtain ⟨order, rounds, s, hwalk, hrun, hinv⟩ := exists_import halloc fskit T root
    exact ⟨rounds, s, hrun, (imported_iff hwalk hinv hfskit).mpr howner⟩

def rootStat : Stat := ⟨1, 0, 0, 0o755⟩

def byIdName : Name := ⟨"by-id".toList, by decide⟩

def linkName : Name := ⟨"root".toList, by decide⟩

def linkTree (owner : ℕ) : Files :=
  ((Tree.bare rootStat).put byIdName [] (.dir ⟨2, 0, 0, 0o755⟩)).put linkName [byIdName]
    (.leaf ⟨.lnk "../sda1".toList, ⟨3, owner, owner, 0o777⟩⟩)

theorem linkTree_get (owner : ℕ) : (linkTree owner).get [linkName, byIdName] =
    some (.leaf ⟨.lnk "../sda1".toList, ⟨3, owner, owner, 0o777⟩⟩) := by
  rw [linkTree, Tree.get_put, if_pos rfl]
  · decide
  · decide

theorem linkTree_leaf (owner : ℕ) (l : Location) (inode : Inode)
    (h : (linkTree owner).get l = some (.leaf inode)) :
    inode = ⟨.lnk "../sda1".toList, ⟨3, owner, owner, 0o777⟩⟩ := by
  rw [linkTree, Tree.get_put _ _ _ _ (by decide) (by decide),
    Tree.get_put _ _ _ _ (Tree.isDir_nil _) (by decide)] at h
  split_ifs at h with hlink hdisk
  · cases h
    rfl
  · cases h
  · have hmem := ((Tree.bare rootStat : Files).mem_entries l).mpr (by simp [h])
    rw [(Finmap.mem_singleton ..).mp hmem] at h
    exact absurd (Tree.isDir_nil _) (Tree.not_isDir_of_leaf _ _ _ h)

def rootLinks : Fskit where
  initFile ino uid gid mode := ⟨.reg, ⟨ino, uid, gid, mode⟩⟩
  initDir ino uid gid mode := ⟨ino, uid, gid, mode⟩
  initFifo ino uid gid mode := ⟨.fifo, ⟨ino, uid, gid, mode⟩⟩
  initSock ino uid gid mode := ⟨.sock, ⟨ino, uid, gid, mode⟩⟩
  initChr ino uid gid mode rdev := ⟨.chr rdev, ⟨ino, uid, gid, mode⟩⟩
  initBlk ino uid gid mode rdev := ⟨.blk rdev, ⟨ino, uid, gid, mode⟩⟩
  initSymlink ino linkpath := ⟨.lnk linkpath, ⟨ino, 0, 0, 0o777⟩⟩

theorem rootLinks_initializes : rootLinks.Initializes where
  file _ _ _ _ := rfl
  dir_uid _ _ _ _ := rfl
  dir_gid _ _ _ _ := rfl
  fifo _ _ _ _ := rfl
  sock _ _ _ _ := rfl
  chr _ _ _ _ _ := rfl
  blk _ _ _ _ _ := rfl
  symlink _ _ := rfl

open Classical in
noncomputable def firstFree (heap : QueueHeap) : ℕ :=
  if h : ∃ a, heap a = none then Nat.find h else 0

theorem firstFree_allocates : Allocates firstFree := by
  intro heap h
  rw [firstFree, dif_pos h]
  exact Nat.find_spec h

theorem faithful_rootLinks : Faithful firstFree rootLinks (linkTree 0) rootStat := by
  refine (faithful_iff firstFree firstFree_allocates rootLinks rootLinks_initializes _ _).mpr ?_
  intro l target sb hget
  have hinode := linkTree_leaf 0 l _ hget
  cases hinode
  exact ⟨rfl, rfl⟩

/-- A link of root and a link of another user look the same to `fskit_entry_init_symlink`,
so one of the two imports is wrong, whatever fskit does. -/
theorem linkTree_not_faithful :
    ¬∃ alloc fskit, Allocates alloc ∧ fskit.Initializes ∧
      Faithful alloc fskit (linkTree 0) rootStat ∧
      Faithful alloc fskit (linkTree 1000) rootStat := by
  rintro ⟨alloc, fskit, halloc, hfskit, hroot, huser⟩
  have huid := (hroot.link_owner halloc hfskit (linkTree_get 0)).1
  have huid' := (huser.link_owner halloc hfskit (linkTree_get 1000)).1
  exact absurd (huid.symm.trans huid') (by decide)

end Vdev.VdevfsImport
