import Vdev.LinkedList
import Vdev.Runs

/-!
The device work queue (vdevd/workqueue.c) as a transition system. Producers call
`vdev_wq_add`, one worker thread runs `vdev_wq_main`, waiters block in
`vdev_wq_wait_for_empty`, and `vdev_wq_stop` clears the running flag. A step is
one critical section, one semaphore operation or the execution of one request.
The queue is a linked list in a heap whose nodes are allocated by producers and
freed by the worker. The lists `linked`, `executed` and `returned` are ghosts: the
requests in the order of their link steps, those the worker has carried out, and
those whose `vdev_wq_add` has returned. A request is numbered by its position in
`linked`, so that two equal requests are told apart.
-/
namespace Vdev.WorkQueue

open LinkedList

/-- Where the worker stands in `vdev_wq_main`. `posting k` is the loop of
`vdev_wq_signal_empty` with `k` posts to go. -/
inductive WorkerPc (Addr : Type*)
  | top
  | tryWait
  | blocked
  | woken
  | grab
  | grabbed (workItr : Option Addr)
  | signalEmpty
  | posting (k : ℕ)
  | signalColdplug
  | execute (workItr : Option Addr)
  | exited

/-- A producer is between linking request number `n` and its post, or it is not
in `vdev_wq_add`. -/
inductive Producer
  | idle
  | linked (n : ℕ)

/-- A waiter remembers which requests had been added when it entered. -/
inductive Waiter
  | idle
  | waiting (added : List ℕ)
  | released (added : List ℕ)
  deriving DecidableEq

structure Wq (Addr ρ P T : Type*) where
  heap : Heap Addr ρ
  work : Option Addr
  tail : Option Addr
  workSem : ℕ
  endSem : ℕ
  numWaiters : ℕ
  running : Bool
  worker : WorkerPc Addr
  coldplugFinished : Bool
  osColdplugFinished : Bool
  coldplugFdOpen : Bool
  producers : P → Producer
  waiters : T → Waiter
  linked : List ρ
  executed : List ρ
  returned : List ℕ

inductive Label (Addr ρ P T : Type*)
  | addLink (p : P) (a : Addr) (r : ρ)
  | addPost (p : P)
  | worker
  | workerFatal
  | waitEnter (t : T)
  | waitRelease (t : T)
  | stopRunning
  | stopPost
  | osColdplugFinished

variable {Addr ρ P T : Type*} [DecidableEq Addr] [DecidableEq P] [DecidableEq T]

/-- The locked section of `vdev_wq_add`, on a node that `calloc` has returned. -/
def link (s : Wq Addr ρ P T) (a : Addr) (r : ρ) : Wq Addr ρ P T :=
  let heap := Function.update s.heap a (some ⟨r, none⟩)
  match s.work, s.tail with
  | none, _ => { s with heap := heap, work := some a, tail := some a }
  | some _, none => s
  | some _, some t =>
    match heap t with
    | none => s
    | some node =>
      { s with heap := Function.update heap t (some ⟨node.data, some a⟩), tail := some a }

def workerStep (s : Wq Addr ρ P T) : Option (Wq Addr ρ P T) :=
  match s.worker with
  | .top => some { s with worker := if s.running then .tryWait else .exited }
  | .tryWait =>
    if s.workSem = 0 then some { s with worker := .blocked }
    else some { s with workSem := s.workSem - 1, worker := .woken }
  | .blocked =>
    if s.workSem = 0 then none
    else some { s with workSem := s.workSem - 1, worker := .woken }
  | .woken => some { s with worker := if s.running then .grab else .exited }
  | .grab => some { s with work := none, tail := none, worker := .grabbed s.work }
  | .grabbed workItr =>
    some { s with
      coldplugFinished := s.coldplugFinished || s.osColdplugFinished
      worker := if workItr = none then .signalEmpty else .execute workItr }
  | .signalEmpty => some { s with numWaiters := 0, worker := .posting s.numWaiters }
  | .posting 0 => some { s with worker := .signalColdplug }
  | .posting (k + 1) => some { s with endSem := s.endSem + 1, worker := .posting k }
  | .signalColdplug =>
    some { s with
      coldplugFdOpen := s.coldplugFdOpen && !s.coldplugFinished
      worker := .top }
  | .execute none => some { s with worker := .top }
  | .execute (some a) =>
    (s.heap a).map (fun node => { s with
      executed := s.executed ++ [node.data]
      heap := Function.update s.heap a none
      worker := .execute node.next })
  | .exited => none

def step (l : Label Addr ρ P T) (s : Wq Addr ρ P T) : Option (Wq Addr ρ P T) :=
  match l with
  | .addLink p a r =>
    match s.producers p, s.heap a with
    | .idle, none =>
      some { link s a r with
        producers := Function.update s.producers p (.linked s.linked.length)
        linked := s.linked ++ [r] }
    | _, _ => none
  | .addPost p =>
    match s.producers p with
    | .linked n =>
      some { s with
        workSem := s.workSem + 1
        producers := Function.update s.producers p .idle
        returned := s.returned ++ [n] }
    | .idle => none
  | .worker => workerStep s
  | .workerFatal =>
    match s.worker with
    | .tryWait => some { s with worker := .exited }
    | _ => none
  | .waitEnter t =>
    match s.waiters t with
    | .idle =>
      some { s with
        numWaiters := s.numWaiters + 1
        waiters := Function.update s.waiters t (.waiting s.returned) }
    | _ => none
  | .waitRelease t =>
    match s.waiters t with
    | .waiting added =>
      if s.endSem = 0 then none
      else some { s with
        endSem := s.endSem - 1
        waiters := Function.update s.waiters t (.released added) }
    | _ => none
  | .stopRunning => some { s with running := false }
  | .stopPost => if s.running then none else some { s with workSem := s.workSem + 1 }
  | .osColdplugFinished => some { s with osColdplugFinished := true }

/-- The state that `vdev_wq_init` and `vdev_wq_start` set up. -/
def init : Wq Addr ρ P T where
  heap := fun _ => none
  work := none
  tail := none
  workSem := 0
  endSem := 0
  numWaiters := 0
  running := true
  worker := .top
  coldplugFinished := false
  osColdplugFinished := false
  coldplugFdOpen := true
  producers := fun _ => .idle
  waiters := fun _ => .idle
  linked := []
  executed := []
  returned := []

/-- The first node of the worker's unexecuted batch. -/
def workItr (s : Wq Addr ρ P T) : Option Addr :=
  match s.worker with
  | .grabbed workItr => workItr
  | .execute workItr => workItr
  | _ => none

/-- The worker has taken a token and has not yet grabbed the list. -/
def HasToken (s : Wq Addr ρ P T) : Prop :=
  match s.worker with
  | .woken | .grab => True
  | _ => False

omit [DecidableEq P] [DecidableEq T] in
/-- Linking a request touches nothing but the list. -/
theorem link_frame (s : Wq Addr ρ P T) (a : Addr) (r : ρ) :
    (link s a r).endSem = s.endSem ∧ (link s a r).worker = s.worker ∧
      (link s a r).waiters = s.waiters ∧ (link s a r).executed = s.executed ∧
      (link s a r).returned = s.returned := by
  dsimp only [link]
  split
  · exact ⟨rfl, rfl, rfl, rfl, rfl⟩
  · exact ⟨rfl, rfl, rfl, rfl, rfl⟩
  · split <;> exact ⟨rfl, rfl, rfl, rfl, rfl⟩

/-- What the worker can do, with the guards of each move. -/
inductive WorkerMove (s : Wq Addr ρ P T) : Wq Addr ρ P T → Prop
  | start (hpc : s.worker = .top) (hrun : s.running = true) :
      WorkerMove s { s with worker := .tryWait }
  | stop (hpc : s.worker = .top ∨ s.worker = .woken) (hrun : s.running = false) :
      WorkerMove s { s with worker := .exited }
  | block (hpc : s.worker = .tryWait) (hsem : s.workSem = 0) :
      WorkerMove s { s with worker := .blocked }
  | take (hpc : s.worker = .tryWait ∨ s.worker = .blocked) (hsem : s.workSem ≠ 0) :
      WorkerMove s { s with workSem := s.workSem - 1, worker := .woken }
  | wake (hpc : s.worker = .woken) (hrun : s.running = true) :
      WorkerMove s { s with worker := .grab }
  | grab (hpc : s.worker = .grab) :
      WorkerMove s { s with work := none, tail := none, worker := .grabbed s.work }
  | foundEmpty (hpc : s.worker = .grabbed none) :
      WorkerMove s { s with
        coldplugFinished := s.coldplugFinished || s.osColdplugFinished
        worker := .signalEmpty }
  | foundWork {a : Addr} (hpc : s.worker = .grabbed (some a)) :
      WorkerMove s { s with
        coldplugFinished := s.coldplugFinished || s.osColdplugFinished
        worker := .execute (some a) }
  | readWaiters (hpc : s.worker = .signalEmpty) :
      WorkerMove s { s with numWaiters := 0, worker := .posting s.numWaiters }
  | posted (hpc : s.worker = .posting 0) : WorkerMove s { s with worker := .signalColdplug }
  | post {k : ℕ} (hpc : s.worker = .posting (k + 1)) :
      WorkerMove s { s with endSem := s.endSem + 1, worker := .posting k }
  | coldplug (hpc : s.worker = .signalColdplug) :
      WorkerMove s { s with
        coldplugFdOpen := s.coldplugFdOpen && !s.coldplugFinished
        worker := .top }
  | batchDone (hpc : s.worker = .execute none) : WorkerMove s { s with worker := .top }
  | execute {a : Addr} {node : Node Addr ρ} (hpc : s.worker = .execute (some a))
      (hnode : s.heap a = some node) :
      WorkerMove s { s with
        executed := s.executed ++ [node.data]
        heap := Function.update s.heap a none
        worker := .execute node.next }

omit [DecidableEq P] [DecidableEq T] in
theorem workerStep_move {s s' : Wq Addr ρ P T} (h : workerStep s = some s') :
    WorkerMove s s' := by
  unfold workerStep at h
  split at h
  · rename_i hpc
    cases Option.some.inj h
    split_ifs with hrun
    · exact .start hpc hrun
    · exact .stop (Or.inl hpc) (by simpa using hrun)
  · rename_i hpc
    split_ifs at h with hsem <;> cases Option.some.inj h
    · exact .block hpc hsem
    · exact .take (Or.inl hpc) hsem
  · rename_i hpc
    split_ifs at h with hsem
    cases Option.some.inj h
    exact .take (Or.inr hpc) hsem
  · rename_i hpc
    cases Option.some.inj h
    split_ifs with hrun
    · exact .wake hpc hrun
    · exact .stop (Or.inr hpc) (by simpa using hrun)
  · rename_i hpc
    cases Option.some.inj h
    exact .grab hpc
  · rename_i itr hpc
    cases Option.some.inj h
    cases itr with
    | none => exact .foundEmpty hpc
    | some a => exact .foundWork hpc
  · rename_i hpc
    cases Option.some.inj h
    exact .readWaiters hpc
  · rename_i hpc
    cases Option.some.inj h
    exact .posted hpc
  · rename_i k hpc
    cases Option.some.inj h
    exact .post hpc
  · rename_i hpc
    cases Option.some.inj h
    exact .coldplug hpc
  · rename_i hpc
    cases Option.some.inj h
    exact .batchDone hpc
  · rename_i a hpc
    obtain ⟨node, hnode, rfl⟩ := Option.map_eq_some_iff.mp h
    exact .execute hpc hnode
  · contradiction

/-- What can happen in one step, with the guards of each move. -/
inductive Move (s : Wq Addr ρ P T) : Label Addr ρ P T → Wq Addr ρ P T → Prop
  | addLink {p : P} {a : Addr} {r : ρ} (hidle : s.producers p = .idle) (hfree : s.heap a = none) :
      Move s (.addLink p a r) { link s a r with
        producers := Function.update s.producers p (.linked s.linked.length)
        linked := s.linked ++ [r] }
  | addPost {p : P} {n : ℕ} (hlinked : s.producers p = .linked n) :
      Move s (.addPost p) { s with
        workSem := s.workSem + 1
        producers := Function.update s.producers p .idle
        returned := s.returned ++ [n] }
  | worker {s' : Wq Addr ρ P T} (h : WorkerMove s s') : Move s .worker s'
  | workerFatal (hpc : s.worker = .tryWait) : Move s .workerFatal { s with worker := .exited }
  | waitEnter {t : T} (hidle : s.waiters t = .idle) :
      Move s (.waitEnter t) { s with
        numWaiters := s.numWaiters + 1
        waiters := Function.update s.waiters t (.waiting s.returned) }
  | waitRelease {t : T} {added : List ℕ} (hwait : s.waiters t = .waiting added)
      (hsem : s.endSem ≠ 0) :
      Move s (.waitRelease t) { s with
        endSem := s.endSem - 1
        waiters := Function.update s.waiters t (.released added) }
  | stopRunning : Move s .stopRunning { s with running := false }
  | stopPost (hrun : s.running = false) : Move s .stopPost { s with workSem := s.workSem + 1 }
  | osColdplugFinished : Move s .osColdplugFinished { s with osColdplugFinished := true }

theorem step_move {l : Label Addr ρ P T} {s s' : Wq Addr ρ P T} (h : step l s = some s') :
    Move s l s' := by
  unfold step at h
  cases l with
  | addLink p a r =>
    simp only at h
    split at h
    · rename_i hidle hfree
      cases Option.some.inj h
      exact .addLink hidle hfree
    · contradiction
  | addPost p =>
    simp only at h
    split at h
    · rename_i n hlinked
      cases Option.some.inj h
      exact .addPost hlinked
    · contradiction
  | worker => exact .worker (workerStep_move h)
  | workerFatal =>
    simp only at h
    split at h
    · rename_i hpc
      cases Option.some.inj h
      exact .workerFatal hpc
    · contradiction
  | waitEnter t =>
    simp only at h
    split at h
    · rename_i hidle
      cases Option.some.inj h
      exact .waitEnter hidle
    · contradiction
  | waitRelease t =>
    simp only at h
    split at h
    · rename_i added hwait
      split_ifs at h with hsem
      cases Option.some.inj h
      exact .waitRelease hwait hsem
    · contradiction
  | stopRunning =>
    cases Option.some.inj h
    exact .stopRunning
  | stopPost =>
    simp only at h
    split_ifs at h with hrun
    cases Option.some.inj h
    exact .stopPost (by simpa using hrun)
  | osColdplugFinished =>
    cases Option.some.inj h
    exact .osColdplugFinished

end Vdev.WorkQueue
