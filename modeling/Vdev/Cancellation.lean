import Vdev.Sweep
import Vdev.WorkQueue

/-!
Stopping the work queue. `vdev_wq_stop` clears the running flag, posts the semaphore and
cancels the worker, which may then end at the next cancellation point, in the midst of a
request. The handler of a request is a program that changes the world in small steps; that
of an ADD request is the sequence of steps of `Vdev.Sweep`.
-/
namespace Vdev.Cancellation

open CString FileTree SystemCalls Data Vdev.Action Metadata Device LinkedList WorkQueue

/-- How requests are handled. `point` says where a handler can be cancelled. -/
structure Handler (ρ κ ω : Type*) where
  start : ρ → κ
  next : κ → ω → Option κ × ω
  point : κ → Bool

/-- Where a thread stands in `vdev_wq_stop`. -/
inductive StopPc
  | idle | waiting | stopping | posting | cancelling | joining
  | returned (rc : Int)

/-- The queue, the handler that the worker is in, and the thread that stops the worker. The
requests whose handler the worker has begun are a ghost. -/
structure Process (Addr ρ P T κ ω : Type*) where
  wq : Wq Addr ρ P T
  handling : Option κ
  world : ω
  cancelRequested : Bool
  stopper : StopPc
  begun : List ρ

inductive Label (Addr ρ P T : Type*)
  | queue (l : WorkQueue.Label Addr ρ P T)
  | worker
  | cancelled
  | stop

variable {Addr ρ P T κ ω : Type*}

section Model

variable [DecidableEq Addr] [DecidableEq P] [DecidableEq T]

/-- The steps that are neither the worker's nor those of the thread `me` that stops it. -/
def byOthers (me : T) : WorkQueue.Label Addr ρ P T → Bool
  | .waitEnter t | .waitRelease t => decide (t ≠ me)
  | .worker | .stopRunning | .stopPost => false
  | _ => true

def workerStep (h : Handler ρ κ ω) (s : Process Addr ρ P T κ ω) :
    Option (Process Addr ρ P T κ ω) :=
  match s.wq.worker with
  | .execute (some a) =>
    match s.handling with
    | none =>
      (s.wq.heap a).map fun node =>
        { s with handling := some (h.start node.data), begun := s.begun ++ [node.data] }
    | some k =>
      match h.next k s.world with
      | (some k, w) => some { s with handling := some k, world := w }
      | (none, w) =>
        (WorkQueue.workerStep s.wq).map fun wq =>
          { s with wq := wq, handling := none, world := w }
  | _ => (WorkQueue.workerStep s.wq).map fun wq => { s with wq := wq }

/-- The worker is in a call that is a cancellation point: `sem_wait`, the write to the parent,
one in a handler, or the warning after it. -/
def atPoint (h : Handler ρ κ ω) (s : Process Addr ρ P T κ ω) : Bool :=
  match s.wq.worker with
  | .blocked | .signalColdplug => true
  | .execute _ => (s.handling.map h.point).getD true
  | _ => false

/-- A step of `vdev_wq_stop`. -/
def stopStep (me : T) (wait : Bool) (s : Process Addr ρ P T κ ω) :
    Option (Process Addr ρ P T κ ω) :=
  match s.stopper with
  | .idle =>
    if !s.wq.running then some { s with stopper := .returned Errno.einval.rc }
    else if wait then
      (WorkQueue.step (.waitEnter me) s.wq).map fun wq => { s with wq := wq, stopper := .waiting }
    else some { s with stopper := .stopping }
  | .waiting =>
    (WorkQueue.step (.waitRelease me) s.wq).map fun wq => { s with wq := wq, stopper := .stopping }
  | .stopping =>
    (WorkQueue.step .stopRunning s.wq).map fun wq => { s with wq := wq, stopper := .posting }
  | .posting =>
    (WorkQueue.step .stopPost s.wq).map fun wq => { s with wq := wq, stopper := .cancelling }
  | .cancelling => some { s with cancelRequested := true, stopper := .joining }
  | .joining =>
    match s.wq.worker with
    | .exited => some { s with stopper := .returned 0 }
    | _ => none
  | .returned _ => none

def step (h : Handler ρ κ ω) (me : T) (wait : Bool) (l : Label Addr ρ P T)
    (s : Process Addr ρ P T κ ω) : Option (Process Addr ρ P T κ ω) :=
  match l with
  | .queue l =>
    if byOthers me l then (WorkQueue.step l s.wq).map fun wq => { s with wq := wq } else none
  | .worker => workerStep h s
  | .cancelled =>
    if s.cancelRequested && atPoint h s then
      some { s with wq := { s.wq with worker := .exited } }
    else none
  | .stop => stopStep me wait s

end Model

def started (w : ω) : Process Addr ρ P T κ ω where
  wq := WorkQueue.init
  handling := none
  world := w
  cancelRequested := false
  stopper := .idle
  begun := []

/-- What a handler does from one of its states on: so many steps. -/
inductive Steps (h : Handler ρ κ ω) : κ → ω → κ → ω → Prop
  | refl (k : κ) (w : ω) : Steps h k w k w
  | tail {k k₁ k₂ : κ} {w w₁ w₂ : ω} (hsteps : Steps h k w k₁ w₁)
      (hnext : h.next k₁ w₁ = (some k₂, w₂)) : Steps h k w k₂ w₂

inductive Completed (h : Handler ρ κ ω) : List ρ → ω → ω → Prop
  | nil (w : ω) : Completed h [] w w
  | snoc {rs : List ρ} {r : ρ} {k : κ} {w w₁ w₂ w₃ : ω} (hbefore : Completed h rs w w₁)
      (hsteps : Steps h (h.start r) w₁ k w₂) (hend : h.next k w₂ = (none, w₃)) :
      Completed h (rs ++ [r]) w w₃

def OutsideBatch (s : Wq Addr ρ P T) : Prop :=
  match s.worker with
  | .grab | .grabbed _ | .execute _ => False
  | _ => True

/-- `pthread_cancel` is called while the worker is outside of a batch. -/
def CancelsQuietly (l : Label Addr ρ P T) (s : Process Addr ρ P T κ ω) : Prop :=
  match l, s.stopper with
  | .stop, .cancelling => OutsideBatch s.wq
  | _, _ => True

/-- What a step of the queue that is not the worker's leaves alone. -/
structure SparesWorker (s s' : Wq Addr ρ P T) : Prop where
  worker : s'.worker = s.worker ∨ (s.worker = .tryWait ∧ s'.worker = .exited)
  executed : s'.executed = s.executed
  heap : ∀ a node, s.heap a = some node → ∃ next, s'.heap a = some ⟨node.data, next⟩

theorem sparesWorker_of_same {s s' : Wq Addr ρ P T} (hworker : s'.worker = s.worker)
    (hexec : s'.executed = s.executed) (hheap : s'.heap = s.heap) : SparesWorker s s' where
  worker := Or.inl hworker
  executed := hexec
  heap := fun _ node hnode => ⟨node.next, by rw [hheap, hnode]⟩

theorem link_spares [DecidableEq Addr] (s : Wq Addr ρ P T) (a : Addr) (r : ρ)
    (hfree : s.heap a = none) :
    SparesWorker s (link s a r) ∧ (link s a r).running = s.running := by
  obtain ⟨_, hworker, _, hexec, _⟩ := link_frame s a r
  have hnew : ∀ b node, s.heap b = some node →
      Function.update s.heap a (some ⟨r, none⟩) b = some node := by
    intro b node hnode
    have hne : b ≠ a := by
      rintro rfl
      rw [hfree] at hnode
      cases hnode
    rw [Function.update_of_ne hne, hnode]
  refine ⟨⟨Or.inl hworker, hexec, fun b node hnode => ?_⟩, ?_⟩
  · unfold link
    dsimp only
    split
    · exact ⟨node.next, hnew b node hnode⟩
    · exact ⟨node.next, hnode⟩
    · split
      · exact ⟨node.next, hnode⟩
      · rename_i t _ _ _ last hlast
        by_cases hbt : b = t
        · subst hbt
          rw [hnew b node hnode] at hlast
          cases Option.some.inj hlast
          exact ⟨some a, Function.update_self ..⟩
        · exact ⟨node.next, (Function.update_of_ne hbt ..).trans (hnew b node hnode)⟩
  · unfold link
    dsimp only
    split
    · rfl
    · rfl
    · split <;> rfl

/-- Only the worker carries out requests, and only `vdev_wq_stop` clears the running flag. -/
theorem move_spares [DecidableEq Addr] [DecidableEq P] [DecidableEq T]
    {l : WorkQueue.Label Addr ρ P T} {s s' : Wq Addr ρ P T}
    (h : Move s l s') (hl : l ≠ .worker) :
    SparesWorker s s' ∧ (l ≠ .stopRunning → s'.running = s.running) := by
  cases h with
  | @addLink p a r hidle hfree =>
    obtain ⟨hspares, hrun⟩ := link_spares s a r hfree
    exact ⟨⟨hspares.worker, hspares.executed, hspares.heap⟩, fun _ => hrun⟩
  | addPost => exact ⟨sparesWorker_of_same rfl rfl rfl, fun _ => rfl⟩
  | worker => exact absurd rfl hl
  | workerFatal hpc =>
    exact ⟨⟨Or.inr ⟨hpc, rfl⟩, rfl, fun _ node hnode => ⟨node.next, hnode⟩⟩, fun _ => rfl⟩
  | waitEnter => exact ⟨sparesWorker_of_same rfl rfl rfl, fun _ => rfl⟩
  | waitRelease => exact ⟨sparesWorker_of_same rfl rfl rfl, fun _ => rfl⟩
  | stopRunning => exact ⟨sparesWorker_of_same rfl rfl rfl, fun h => absurd rfl h⟩
  | stopPost => exact ⟨sparesWorker_of_same rfl rfl rfl, fun _ => rfl⟩
  | osColdplugFinished => exact ⟨sparesWorker_of_same rfl rfl rfl, fun _ => rfl⟩

/-- A worker that finds the running flag cleared does not begin another batch. -/
theorem workerMove_outside [DecidableEq Addr] {s s' : Wq Addr ρ P T} (h : WorkerMove s s')
    (hpc : ∀ a, s.worker ≠ .execute (some a)) :
    s'.executed = s.executed ∧ s'.running = s.running ∧
      (s.running = false → OutsideBatch s → OutsideBatch s') := by
  cases h with
  | wake _ hrun => exact ⟨rfl, rfl, fun hstop => absurd hrun (by rw [hstop]; decide)⟩
  | grab hgrab =>
    refine ⟨rfl, rfl, fun _ hout => ?_⟩
    rw [OutsideBatch, hgrab] at hout
    exact hout.elim
  | foundWork hfound =>
    refine ⟨rfl, rfl, fun _ hout => ?_⟩
    rw [OutsideBatch, hfound] at hout
    exact hout.elim
  | execute hexec => exact absurd hexec (hpc _)
  | _ => exact ⟨rfl, rfl, fun _ _ => trivial⟩

def Progress (h : Handler ρ κ ω) (w₀ : ω) (s : Process Addr ρ P T κ ω) : Prop :=
  match s.handling with
  | none => s.begun = s.wq.executed ∧ Completed h s.begun w₀ s.world
  | some k => ∃ a r next w₁, s.wq.worker = .execute (some a) ∧
      s.wq.heap a = some ⟨r, next⟩ ∧ s.begun = s.wq.executed ++ [r] ∧
      Completed h s.wq.executed w₀ w₁ ∧ Steps h (h.start r) w₁ k s.world

/-- What the steps preserve when the worker is cancelled outside of a batch. -/
structure Inv (h : Handler ρ κ ω) (w₀ : ω) (s : Process Addr ρ P T κ ω) : Prop where
  progress : Progress h w₀ s
  cancelled : s.cancelRequested = true → s.wq.running = false ∧ OutsideBatch s.wq
  cleared : s.stopper = .posting ∨ s.stopper = .cancelling → s.wq.running = false
  running : s.stopper = .idle → s.wq.running = true
  returned : ∀ rc, s.stopper = .returned rc → rc = 0 ∧ s.wq.worker = .exited

theorem inv_started (h : Handler ρ κ ω) (w₀ : ω) :
    Inv h w₀ (started w₀ : Process Addr ρ P T κ ω) where
  progress := ⟨rfl, .nil w₀⟩
  cancelled := fun hc => absurd hc (by simp [started])
  cleared := fun hs => by simp [started] at hs
  running := fun _ => rfl
  returned := fun _ hs => by simp [started] at hs

/-- A step of the queue that is not the worker's keeps the progress of the worker. -/
theorem Progress.of_spares {h : Handler ρ κ ω} {w₀ : ω} {s : Process Addr ρ P T κ ω}
    {wq : Wq Addr ρ P T} (stopper : StopPc) (hprog : Progress h w₀ s)
    (hspares : SparesWorker s.wq wq) :
    Progress h w₀ { s with wq := wq, stopper := stopper } := by
  unfold Progress at hprog ⊢
  dsimp only
  cases hk : s.handling with
  | none =>
    rw [hk] at hprog
    exact ⟨hprog.1.trans hspares.executed.symm, hprog.2⟩
  | some k =>
    rw [hk] at hprog
    obtain ⟨a, r, next, w₁, hpc, hnode, hbegun, hdone, hsteps⟩ := hprog
    obtain ⟨next', hnode'⟩ := hspares.heap a _ hnode
    have hpc' : wq.worker = .execute (some a) := by
      rcases hspares.worker with hsame | ⟨htry, _⟩
      · rw [hsame, hpc]
      · rw [hpc] at htry
        cases htry
    exact ⟨a, r, next', w₁, hpc', hnode', by rw [hspares.executed]; exact hbegun,
      by rw [hspares.executed]; exact hdone, hsteps⟩

theorem outsideBatch_of_spares {s s' : Wq Addr ρ P T} (hspares : SparesWorker s s')
    (hout : OutsideBatch s) : OutsideBatch s' := by
  unfold OutsideBatch at hout ⊢
  rcases hspares.worker with hsame | ⟨_, hexited⟩
  · rwa [hsame]
  · rw [hexited]
    trivial

theorem exited_of_spares {s s' : Wq Addr ρ P T} (hspares : SparesWorker s s')
    (hexited : s.worker = .exited) : s'.worker = .exited := by
  rcases hspares.worker with hsame | ⟨_, hexited⟩
  · rw [hsame, hexited]
  · exact hexited

/-- In the midst of a request the worker has a batch. -/
theorem Progress.handling_eq_none {h : Handler ρ κ ω} {w₀ : ω} {s : Process Addr ρ P T κ ω}
    (hprog : Progress h w₀ s) (hpc : ∀ a, s.wq.worker ≠ .execute (some a)) :
    s.handling = none := by
  unfold Progress at hprog
  cases hk : s.handling with
  | none => rfl
  | some k =>
    rw [hk] at hprog
    obtain ⟨a, _, _, _, hexec, _⟩ := hprog
    exact absurd hexec (hpc a)

theorem not_execute_of_outside {s : Wq Addr ρ P T} (hout : OutsideBatch s) (a : Option Addr) :
    s.worker ≠ .execute a := by
  intro hpc
  rw [OutsideBatch, hpc] at hout
  exact hout

section Steps

variable {h : Handler ρ κ ω} {w₀ : ω} {s t : Process Addr ρ P T κ ω}

theorem Inv.queue [DecidableEq Addr] [DecidableEq P] [DecidableEq T] (hinv : Inv h w₀ s)
    {l : WorkQueue.Label Addr ρ P T} {wq : Wq Addr ρ P T}
    (hstep : WorkQueue.step l s.wq = some wq) (hl : l ≠ .worker) (hstop : l ≠ .stopRunning) :
    Inv h w₀ { s with wq := wq } := by
  obtain ⟨hspares, hrun⟩ := move_spares (step_move hstep) hl
  have hrun := hrun hstop
  refine ⟨hinv.progress.of_spares s.stopper hspares, fun hc => ?_, fun hs => ?_, fun hs => ?_,
    fun rc hs => ?_⟩
  · obtain ⟨hstopped, hout⟩ := hinv.cancelled hc
    exact ⟨hrun.trans hstopped, outsideBatch_of_spares hspares hout⟩
  · exact hrun.trans (hinv.cleared hs)
  · exact hrun.trans (hinv.running hs)
  · obtain ⟨hrc, hexited⟩ := hinv.returned rc hs
    exact ⟨hrc, exited_of_spares hspares hexited⟩

/-- The worker in or outside of a handler. -/
theorem Inv.worker [DecidableEq Addr] (hinv : Inv h w₀ s) (hstep : workerStep h s = some t) :
    Inv h w₀ t := by
  have hprog := hinv.progress
  unfold workerStep at hstep
  split at hstep
  · rename_i a hpc
    have hbusy : s.cancelRequested = false := by
      cases hc : s.cancelRequested with
      | false => rfl
      | true => exact absurd hpc (not_execute_of_outside (hinv.cancelled hc).2 _)
    have hgoing : ∀ rc, s.stopper ≠ .returned rc := by
      intro rc hs
      rw [(hinv.returned rc hs).2] at hpc
      cases hpc
    unfold Progress at hprog
    cases hk : s.handling with
    | none =>
      rw [hk] at hstep hprog
      obtain ⟨node, hnode, rfl⟩ := Option.map_eq_some_iff.mp hstep
      refine ⟨⟨a, node.data, node.next, s.world, hpc, hnode, ?_, ?_, .refl _ _⟩, hinv.cancelled,
        hinv.cleared, hinv.running, hinv.returned⟩
      · rw [hprog.1]
      · rw [← hprog.1]
        exact hprog.2
    | some k =>
      rw [hk] at hstep hprog
      obtain ⟨a', r, next, w₁, hpc', hnode, hbegun, hdone, hsteps⟩ := hprog
      obtain rfl : a = a' := Option.some.inj (WorkerPc.execute.inj (hpc.symm.trans hpc'))
      dsimp only at hstep
      split at hstep
      · rename_i k' w hnext
        cases Option.some.inj hstep
        exact ⟨⟨a, r, next, w₁, hpc, hnode, hbegun, hdone, hsteps.tail hnext⟩, hinv.cancelled,
          hinv.cleared, hinv.running, hinv.returned⟩
      · rename_i w hnext
        obtain ⟨wq, hwq, rfl⟩ := Option.map_eq_some_iff.mp hstep
        rw [WorkQueue.workerStep, hpc] at hwq
        obtain ⟨node, hnode', rfl⟩ := Option.map_eq_some_iff.mp hwq
        rw [hnode] at hnode'
        cases Option.some.inj hnode'
        refine ⟨⟨hbegun, ?_⟩, fun hc => ?_, hinv.cleared, hinv.running, fun rc hs => ?_⟩
        · change Completed h s.begun w₀ w
          rw [hbegun]
          exact .snoc hdone hsteps hnext
        · rw [hbusy] at hc
          cases hc
        · exact absurd hs (hgoing rc)
  · rename_i hpc
    obtain ⟨wq, hwq, rfl⟩ := Option.map_eq_some_iff.mp hstep
    obtain ⟨hexec, hrun, hout⟩ := workerMove_outside (workerStep_move hwq) hpc
    have hnone := hprog.handling_eq_none hpc
    unfold Progress at hprog
    rw [hnone] at hprog
    refine ⟨?_, fun hc => ?_, fun hs => ?_, fun hs => ?_, fun rc hs => ?_⟩
    · unfold Progress
      dsimp only
      rw [hnone]
      exact ⟨hprog.1.trans hexec.symm, hprog.2⟩
    · obtain ⟨hstopped, hquiet⟩ := hinv.cancelled hc
      exact ⟨hrun.trans hstopped, hout hstopped hquiet⟩
    · exact hrun.trans (hinv.cleared hs)
    · exact hrun.trans (hinv.running hs)
    · obtain ⟨_, hexited⟩ := hinv.returned rc hs
      rw [WorkQueue.workerStep, hexited] at hwq
      cases hwq

/-- A worker that is cancelled outside of a batch was in no handler. -/
theorem Inv.cancel (hinv : Inv h w₀ s) (hc : s.cancelRequested = true) :
    Inv h w₀ { s with wq := { s.wq with worker := .exited } } := by
  obtain ⟨hstopped, hout⟩ := hinv.cancelled hc
  have hprog := hinv.progress
  have hnone := hprog.handling_eq_none fun a => not_execute_of_outside hout _
  unfold Progress at hprog
  rw [hnone] at hprog
  refine ⟨?_, fun _ => ⟨hstopped, trivial⟩, hinv.cleared, hinv.running,
    fun rc hs => ⟨(hinv.returned rc hs).1, rfl⟩⟩
  unfold Progress
  dsimp only
  rw [hnone]
  exact hprog

/-- `vdev_wq_stop`, which cancels outside of a batch. -/
theorem Inv.stop [DecidableEq Addr] [DecidableEq P] [DecidableEq T] {me : T} {wait : Bool}
    (hinv : Inv h w₀ s) (hok : s.stopper = .cancelling → OutsideBatch s.wq)
    (hstep : stopStep me wait s = some t) : Inv h w₀ t := by
  unfold stopStep at hstep
  split at hstep
  · rename_i hidle
    split_ifs at hstep with hdead hwait
    · rw [hinv.running hidle] at hdead
      exact absurd hdead (by decide)
    · obtain ⟨wq, hwq, rfl⟩ := Option.map_eq_some_iff.mp hstep
      have h' := hinv.queue hwq (by simp) (by simp)
      exact ⟨h'.progress, h'.cancelled, by simp, by simp, by simp⟩
    · cases Option.some.inj hstep
      exact ⟨hinv.progress, hinv.cancelled, by simp, by simp, by simp⟩
  · obtain ⟨wq, hwq, rfl⟩ := Option.map_eq_some_iff.mp hstep
    have h' := hinv.queue hwq (by simp) (by simp)
    exact ⟨h'.progress, h'.cancelled, by simp, by simp, by simp⟩
  · obtain ⟨wq, hwq, rfl⟩ := Option.map_eq_some_iff.mp hstep
    obtain ⟨hspares, _⟩ := move_spares (step_move hwq) (by simp)
    cases Option.some.inj hwq
    refine ⟨hinv.progress.of_spares .posting hspares, fun hc => ⟨rfl, ?_⟩, fun _ => rfl, by simp,
      by simp⟩
    exact outsideBatch_of_spares hspares (hinv.cancelled hc).2
  · rename_i hposting
    obtain ⟨wq, hwq, rfl⟩ := Option.map_eq_some_iff.mp hstep
    have h' := hinv.queue hwq (by simp) (by simp)
    exact ⟨h'.progress, h'.cancelled, fun _ => h'.cleared (Or.inl hposting), by simp, by simp⟩
  · rename_i hcancelling
    cases Option.some.inj hstep
    exact ⟨hinv.progress, fun _ => ⟨hinv.cleared (Or.inr hcancelling), hok hcancelling⟩, by simp,
      by simp, by simp⟩
  · split at hstep
    · rename_i hexited
      cases Option.some.inj hstep
      refine ⟨hinv.progress, hinv.cancelled, by simp, by simp, fun rc hs => ⟨?_, hexited⟩⟩
      exact (StopPc.returned.inj hs).symm
    · contradiction
  · contradiction

theorem Inv.step [DecidableEq Addr] [DecidableEq P] [DecidableEq T] {me : T} {wait : Bool}
    {l : Label Addr ρ P T} (hinv : Inv h w₀ s) (hok : CancelsQuietly l s)
    (hstep : step h me wait l s = some t) : Inv h w₀ t := by
  unfold Cancellation.step at hstep
  cases l with
  | queue l =>
    dsimp only at hstep
    split_ifs at hstep with hl
    obtain ⟨wq, hwq, rfl⟩ := Option.map_eq_some_iff.mp hstep
    refine hinv.queue hwq ?_ ?_
    · rintro rfl
      simp [byOthers] at hl
    · rintro rfl
      simp [byOthers] at hl
  | worker => exact hinv.worker hstep
  | cancelled =>
    dsimp only at hstep
    split_ifs at hstep with hc
    cases Option.some.inj hstep
    exact hinv.cancel (Bool.and_eq_true_iff.mp hc).1
  | stop =>
    refine hinv.stop (fun hs => ?_) hstep
    unfold CancelsQuietly at hok
    rw [hs] at hok
    exact hok

end Steps

/-- When the worker is cancelled outside of a batch and `vdev_wq_stop` has returned, no request
is torn: each one that was begun has run to its end, and the world is what these complete
runs have made of it. -/
theorem complete_of_quiet_cancel [DecidableEq Addr] [DecidableEq P] [DecidableEq T]
    (h : Handler ρ κ ω) (me : T) (wait : Bool) (w₀ : ω) (ls : List (Label Addr ρ P T))
    (t : Process Addr ρ P T κ ω)
    (hok : Runs.Guarded (step h me wait) CancelsQuietly ls (started w₀))
    (hrun : Runs.run (step h me wait) ls (started w₀) = some t) (rc : Int)
    (hreturned : t.stopper = .returned rc) :
    rc = 0 ∧ t.handling = none ∧ t.begun = t.wq.executed ∧ Completed h t.begun w₀ t.world := by
  have hinv : Inv h w₀ t := Runs.guarded_invariant (step h me wait) (Inv h w₀)
    (fun l s s' hok hinv hstep => hinv.step hok hstep) hok (inv_started h w₀) hrun
  obtain ⟨hrc, hexited⟩ := hinv.returned rc hreturned
  have hprog := hinv.progress
  have hnone := hprog.handling_eq_none fun a hpc => by
    rw [hexited] at hpc
    cases hpc
  unfold Progress at hprog
  rw [hnone] at hprog
  exact ⟨hrc, hnone, hprog⟩

/-- The worker in `vdev_device_add`, with nothing else to do. -/
def adding {σ : Type} (pc : Sweep.WorkerPc) (w : FS × σ) : Sweep.Coldplug σ where
  world := w
  queue := []
  worker := pc
  sweep := .finished
  dirs := []
  entries := []
  recorded := []
  removed := []
  deletes := []

/-- The handler of an ADD request, as the steps of `vdev_device_add`. It holds the reload lock
in each of its states. -/
def addHandler {σ : Type} (c : Commands (FS × σ)) (st : VdevState) :
    Handler Request Sweep.WorkerPc (FS × σ) where
  start := .locked
  next := fun pc w =>
    match Sweep.workerStep c st (adding pc w) with
    | none => (none, w)
    | some s =>
      match s.worker with
      | .idle => (none, s.world)
      | pc => (some pc, s.world)
  -- the calls open, write and waitpid, and those that run a command to rename the device
  point := fun pc =>
    match pc with
    | .opening .. | .writing .. | .running .. | .locked _ => true
    | _ => false

def addDisk : Request where
  type := .add
  path := some "sda".toList
  dev := 2049
  mode := S_IFBLK

abbrev DiskLabel := Label ℕ Request Unit Unit

def addSteps : DiskLabel → Process ℕ Request Unit Unit Sweep.WorkerPc (FS × Unit) →
    Option (Process ℕ Request Unit Unit Sweep.WorkerPc (FS × Unit)) :=
  step (addHandler quietCommands bareState) () false

/-- The worker takes the disk from the queue and carries out `n` steps of its handler. -/
def handleDisk (n : ℕ) : List DiskLabel :=
  [.queue (.addLink () 0 addDisk), .queue (.addPost ())] ++ List.replicate (6 + n) .worker

/-- The handler runs to its end, the worker waits for more work, and then it is stopped. -/
def stopAfter : List DiskLabel :=
  handleDisk 7 ++ List.replicate 3 .worker ++ List.replicate 4 .stop ++ [.cancelled, .stop]

/-- The worker is stopped when the node exists, and ends where the record is opened. -/
def stopWithin : List DiskLabel :=
  handleDisk 4 ++ List.replicate 4 .stop ++ [.cancelled, .stop]

def quietCheck (l : Label Addr ρ P T) (s : Process Addr ρ P T κ ω) : Bool :=
  match l, s.stopper with
  | .stop, .cancelling =>
    match s.wq.worker with
    | .grab | .grabbed _ | .execute _ => false
    | _ => true
  | _, _ => true

theorem cancelsQuietly_of_check (l : Label Addr ρ P T) (s : Process Addr ρ P T κ ω)
    (h : quietCheck l s = true) : CancelsQuietly l s := by
  unfold quietCheck at h
  unfold CancelsQuietly OutsideBatch
  split at h
  · split at h
    · contradiction
    · contradiction
    · contradiction
    · simp_all
  · simp_all

/-- What can be seen of a process that is stopped: whether `vdev_wq_stop` has returned, whether
a handler has not come to its end, how many requests were begun and how many carried out,
whether the node of the disk is there and whether its record is. -/
def seen (s : Process ℕ Request Unit Unit Sweep.WorkerPc (FS × Unit)) :
    Bool × Bool × ℕ × ℕ × Bool × Bool :=
  (match s.stopper with | .returned 0 => true | _ => false, s.handling.isSome, s.begun.length,
    s.wq.executed.length, (s.world.1.get [sdaName, nameDev]).isSome,
    (s.world.1.get (nameInstance :: sdaName :: metadataRoot [nameDev])).isSome)

theorem seen_stopAfter : (Runs.run addSteps stopAfter (started (bareTree, ()))).map seen =
    some (true, false, 1, 1, true, true) := by decide +kernel

theorem complete_of_quiet_cancel_disk :
    ∃ t, Runs.run addSteps stopAfter (started (bareTree, ())) = some t ∧ t.handling = none ∧
      t.begun = t.wq.executed ∧
      Completed (addHandler quietCommands bareState) t.begun (bareTree, ()) t.world := by
  obtain ⟨t, hrun, hseen⟩ := Option.map_eq_some_iff.mp seen_stopAfter
  have hok : Runs.Guarded addSteps CancelsQuietly stopAfter (started (bareTree, ())) :=
    Runs.guarded_of_check addSteps quietCheck cancelsQuietly_of_check _ _ (by decide +kernel)
  have hreturned : t.stopper = .returned 0 := by
    have hfirst := congrArg Prod.fst hseen
    unfold seen at hfirst
    dsimp only at hfirst
    split at hfirst
    · assumption
    · cases hfirst
  obtain ⟨_, hcomplete⟩ := complete_of_quiet_cancel (addHandler quietCommands bareState) () false
    (bareTree, ()) stopAfter t hok hrun 0 hreturned
  exact ⟨t, hrun, hcomplete⟩

/-- The worker is cancelled in a handler: the node is there, the record is not, and the reload
lock is held. -/
theorem torn_stopWithin :
    ∃ t, Runs.run addSteps stopWithin (started (bareTree, ())) = some t ∧
      t.stopper = .returned 0 ∧ t.handling.isSome ∧ t.begun ≠ t.wq.executed ∧
      (t.world.1.get [sdaName, nameDev]).isSome ∧
      t.world.1.get (nameInstance :: sdaName :: metadataRoot [nameDev]) = none := by
  have hview : (Runs.run addSteps stopWithin (started (bareTree, ()))).map seen =
      some (true, true, 1, 0, true, false) := by decide +kernel
  obtain ⟨t, hrun, hseen⟩ := Option.map_eq_some_iff.mp hview
  unfold seen at hseen
  simp only [Prod.mk.injEq] at hseen
  obtain ⟨hreturned, hhandling, hbegun, hexec, hnode, hrecord⟩ := hseen
  refine ⟨t, hrun, ?_, hhandling, fun heq => ?_, hnode, ?_⟩
  · split at hreturned
    · assumption
    · cases hreturned
  · rw [heq, hexec] at hbegun
    exact absurd hbegun (by decide)
  · exact Option.not_isSome_iff_eq_none.mp (by rw [hrecord]; decide)

end Vdev.Cancellation
