import Vdev.Records
import Vdev.Runs

/-!
The end of a coldplug-only run (vdevd/main.c, vdevd/vdev.c). The main thread walks
the mountpoint and removes every device whose record carries the nonce of another
vdevd, while the worker is still handling the ADD requests of this run. A handler
holds the reload lock from its first to its last step; the sweep takes the lock
only to remove a device, and reads the tree without it.

Left alone, the steps of the worker add up to `vdev_device_add`.
-/
namespace Vdev.Sweep

open CString FileTree SystemCalls CallEffects Paths Directories Data Vdev.Action Metadata Device Records

variable {σ : Type}

/-- Where the worker stands in `vdev_device_add`. It holds the lock unless it is idle. -/
inductive WorkerPc
  | idle
  | locked (req : Request)
  | makingDirs (req : Request) (p : CStr)
  | makingNode (req : Request) (p : CStr)
  | makingRecordDir (req : Request) (p : CStr) (devExists : Bool)
  | opening (req : Request) (p : CStr) (devExists : Bool)
  | writing (req : Request) (p : CStr) (devExists : Bool)
  | running (req : Request) (p : CStr) (devExists : Bool)

/-- Where the main thread stands in `vdev_remove_unplugged_devices`. -/
inductive SweepPc
  | scanning
  | listing
  | reading (path : CStr) (mode dev : ℕ)
  | removing (path : CStr) (mode dev : ℕ)
  | finished

/-- Both threads. `recorded`, `removed` and `deletes` are ghosts: the metadata directories in
which this run has written its nonce, and the paths and the requests for which the sweep has
called `vdev_device_remove`. -/
structure Coldplug (σ : Type) where
  world : FS × σ
  queue : List Request
  worker : WorkerPc
  sweep : SweepPc
  dirs : List CStr
  entries : List CStr
  recorded : List Location
  removed : List CStr
  deletes : List Request

inductive Actor
  | worker | sweep

/-- `open` in `vdev_device_put_metadata`: the record is empty afterwards. -/
def openRecord (st : VdevState) (p : CStr) (T : FS) : Except Errno FS :=
  match writeFile T (recordPath st p) [] true 0o644 with
  | .ok T => .ok T
  | .error e =>
    if e.rc = Errno.eexist.rc then writeFile T (recordPath st p) [] false 0o644 else .error e

section Steps

variable (c : Commands (FS × σ)) (st : VdevState)

/-- One step of the worker in `vdev_device_add`. -/
def workerStep (s : Coldplug σ) : Option (Coldplug σ) :=
  match s.worker with
  | .idle =>
    match s.queue with
    | [] => none
    | req :: queue => some { s with queue := queue, worker := .locked req }
  | .locked req =>
    let (rc, path, w) := actionCreatePath c req st.acts s.world
    let worker :=
      if rc ≠ 0 then .idle
      else
        match path <|> req.path with
        | none => .idle
        | some p => if p ≠ unknownPath then .makingDirs req p else .running req p false
    some { s with world := w, worker := worker }
  | .makingDirs req p =>
    if req.dev ≠ 0 ∧ req.mode ≠ 0 then
      let (rc, T) := deviceMkdirs st p s.world.1
      some { s with
        world := (T, s.world.2)
        worker := if rc ≠ 0 then .idle else .makingNode req p }
    else
      let (rc, devExists, T) := addEvent st p s.world.1
      some { s with
        world := (T, s.world.2)
        worker := if rc ≠ 0 then .idle else .makingRecordDir req p devExists }
  | .makingNode req p =>
    let (rc, devExists, T) := addNode st { req with renamedPath := some p } p s.world.1
    some { s with
      world := (T, s.world.2)
      worker := if rc ≠ 0 then .idle else .makingRecordDir req p devExists }
  | .makingRecordDir req p devExists =>
    let (rc, T) :=
      mkdirs (metadataFullpath st.mountpoint p) st.mountpoint.length 0o755 s.world.1
    some { s with
      world := (T, s.world.2)
      worker := if rc ≠ 0 then .idle else .opening req p devExists }
  | .opening req p devExists =>
    match openRecord st p s.world.1 with
    | .error _ => some { s with worker := .idle }
    | .ok T => some { s with world := (T, s.world.2), worker := .writing req p devExists }
  | .writing req p devExists =>
    match writeFile s.world.1 (recordPath st p) (instanceText st) false 0o644 with
    | .error _ => some { s with worker := .idle }
    | .ok T =>
      some { s with
        world := (T, s.world.2)
        worker := .running req p devExists
        recorded := deviceDir st p :: s.recorded }
  | .running req p devExists =>
    let h := runAll c st { req with renamedPath := some p } devExists s.world
    some { s with world := h.world, worker := .idle }

def devPath (path : CStr) : CStr := path.drop st.mountpoint.length

/-- `vdev_device_read_vdevd_instance`. -/
def readVdevdInstance (path : CStr) (T : FS) : Except Errno CStr :=
  let relpath := fullpath (metadataPrefix ++ "/dev".toList) (devPath st path)
  readFile T (fullpath (fullpath st.mountpoint relpath) paramInstance) 64

/-- The first part of `vdev_remove_unplugged_device`, which looks at an entry. -/
def visit (path : CStr) (s : Coldplug σ) : Coldplug σ :=
  let name := basename path
  if path = [] ∨ name = ['.'] ∨ name = ['.', '.'] then s
  else
    match stat s.world.1 path with
    | .error _ => s
    | .ok (.dir _) =>
      if name = "metadata".toList then s else { s with dirs := s.dirs ++ [path] }
    | .ok (.leaf (.device mode dev)) =>
      if isBlk mode || isChr mode then { s with sweep := .reading path mode dev } else s
    | .ok (.leaf (.file _ _)) => s

/-- The request that the sweep passes to `vdev_device_remove`. -/
def toDelete (path : CStr) (mode dev : ℕ) : Request where
  type := .remove
  path := some (devPath st path)
  dev := dev
  mode := if isBlk mode then S_IFBLK else S_IFCHR

/-- One step of the main thread in `vdev_remove_unplugged_devices`. -/
def sweepStep (s : Coldplug σ) : Option (Coldplug σ) :=
  match s.sweep with
  | .scanning =>
    match s.dirs with
    | [] => some { s with sweep := .finished }
    | dir :: dirs =>
      match scandir s.world.1 dir with
      | .error _ => some { s with dirs := dirs, sweep := .finished }
      | .ok entries =>
        some { s with dirs := dirs, entries := entries.map (fullpath dir), sweep := .listing }
  | .listing =>
    match s.entries with
    | [] => some { s with sweep := .scanning }
    | path :: entries => some (visit path { s with entries := entries })
  | .reading path mode dev =>
    match readVdevdInstance st path s.world.1 with
    | .error _ => some { s with sweep := .listing }
    | .ok instanceStr =>
      if untilNul st.config.instanceStr ≠ untilNul instanceStr then
        some { s with
          sweep := .removing path mode dev
          removed := s.removed ++ [path]
          deletes := s.deletes ++ [toDelete st path mode dev] }
      else some { s with sweep := .listing }
  | .removing path mode dev =>
    match s.worker with
    | .idle =>
      let h := deviceRemove c st (toDelete st path mode dev) s.world
      some { s with world := h.world, sweep := .listing }
    | _ => none
  | .finished => none

def step : Actor → Coldplug σ → Option (Coldplug σ)
  | .worker => workerStep c st
  | .sweep => sweepStep c st

/-- The state when `vdev_main` returns, with all requests still to do. -/
def start (requests : List Request) (w : FS × σ) : Coldplug σ where
  world := w
  queue := requests
  worker := .idle
  sweep := .scanning
  dirs := [st.mountpoint]
  entries := []
  recorded := []
  removed := []
  deletes := []

end Steps

section Alone

variable (c : Commands (FS × σ)) (st : VdevState)

/-- The worker alone gets from `s` to the end of its request, and leaves the world `w`. -/
def Finishes (s : Coldplug σ) (w : FS × σ) : Prop :=
  ∃ k s', Runs.run (step c st) (List.replicate k .worker) s = some s' ∧ s'.worker = .idle ∧
    s'.world = w

variable {c st}

theorem Finishes.of_step {s : Coldplug σ} (s₁ : Coldplug σ) {w : FS × σ} (h : workerStep c st s = some s₁)
    (hw : Finishes c st s₁ w) : Finishes c st s w := by
  obtain ⟨k, s', hrun, hidle, hworld⟩ := hw
  refine ⟨k + 1, s', ?_, hidle, hworld⟩
  rw [List.replicate_succ, Runs.run]
  exact Option.bind_eq_some_iff.mpr ⟨s₁, h, hrun⟩

end Alone

end Vdev.Sweep
