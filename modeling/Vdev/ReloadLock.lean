import Mathlib.Data.List.Basic
import Mathlib.Tactic
import Vdev.Locking
import Vdev.Replacement
import Vdev.Runs

/-!
The reload lock of vdevd. The request handlers hold it while they use the configuration and
the actions. `vdev_reload`, which is the handler of SIGHUP, loads new ones without it,
installs them under it, and frees the old ones when it has given it back. The outcomes of
what the code does between two accesses are the branches of the programs here.
-/
namespace Vdev.ReloadLock

open Locking Replacement

inductive Field
  | config
  | acts
  | numActs
  deriving DecidableEq

inductive Handler
  | add
  | remove
  | change

def readAll : List Field → Prog Field → Prog Field
  | [], next => next
  | f :: fs, next => .op (.read f) (readAll fs next)

/-- Each of the actions left is looked at. If its command runs, then the environment of the
command has values of the configuration. -/
def actionsLoop (next : Prog Field) : ℕ → Prog Field
  | 0 => next
  | n + 1 => .op (.read .acts) (.branch fun c =>
      readAll (List.replicate c .config) (actionsLoop next n))

/-- `vdev_action_create_path` and `vdev_action_run_commands`: a loop over the actions, which
an error may end early. -/
def withActions (next : Prog Field) : Prog Field :=
  readAll [.acts, .numActs] (.branch (actionsLoop next))

/-- The lock is given back, and the request is freed. -/
def finish : Prog Field := .op .unlock .done

/-- `vdev_device_put_metadata` writes the instance of the configuration. The instance is read
for each attempt, and once more for the message when it is not written. -/
def putMetadata (next : Prog Field) : Prog Field :=
  .branch fun c => readAll (List.replicate c .config) (.branch fun rc =>
    if rc = 0 then next else finish)

/-- The first steps of all handlers: the device's path is made. -/
def createPath (next : Prog Field) : Prog Field :=
  .op .lock (withActions (.branch fun outcome =>
    match outcome with
    | 0 => finish -- `vdev_action_create_path` fails
    | 1 => finish -- the path of the request is not copied
    | 2 => finish -- the request has no path
    | _ => next))

def vdevDeviceAdd : Prog Field :=
  createPath (.branch fun outcome =>
    match outcome with
    | 0 => withActions finish -- the path is unknown
    | 1 => finish -- the directories of the path are not made
    | 2 => -- there is a device number
      .op (.read .config) (.branch fun outcome =>
        match outcome with
        | 0 => putMetadata (withActions finish) -- the nodes are made by someone else
        | 1 => putMetadata (withActions finish) -- the node exists
        | _ => -- the node is made with the mode of the configuration
          .op (.read .config) (.branch fun rc =>
            if rc = 0 then putMetadata (withActions finish) else finish))
    | _ => -- there is no device number
      .branch fun rc => if rc = 0 then putMetadata (withActions finish) else finish)

def vdevDeviceRemove : Prog Field :=
  createPath (withActions (.branch fun outcome =>
    match outcome with
    | 0 => finish -- the path is unknown
    | 1 => finish -- there is no device number, only the metadata are removed
    | _ => .op (.read .config) finish))

def vdevDeviceChange : Prog Field :=
  createPath (.branch fun metadata => if metadata = 0 then withActions finish else finish)

def handlerProg : Handler → Prog Field
  | .add => vdevDeviceAdd
  | .remove => vdevDeviceRemove
  | .change => vdevDeviceChange

/-- What `vdev_reload` does from the lock on. -/
def swap : List (Op Field) :=
  [.save .config, .install .config, .save .acts, .save .numActs, .install .acts,
    .install .numActs, .unlock, .free .config, .free .acts]

def orFail (next : Prog Field) : Prog Field := .branch fun rc => if rc = 0 then next else .done

/-- Each of the steps before the lock may fail: the allocation, `vdev_config_init`, the copy
of the default path, `vdev_config_load_from_args`, `vdev_config_load` and
`vdev_action_load_all`. -/
def vdevReload : Prog Field :=
  orFail (orFail (orFail (orFail (orFail (orFail (.op .load (ofList (.lock :: swap))))))))

theorem inside_readAll {next : Prog Field} (h : Inside next) (fs : List Field) :
    Inside (readAll fs next) := by
  induction fs with
  | nil => exact h
  | cons f fs ih => exact .read ih

theorem inside_withActions {next : Prog Field} (h : Inside next) : Inside (withActions next) := by
  refine inside_readAll (.branch fun n => ?_) _
  induction n with
  | zero => exact h
  | succ n ih => exact .read (.branch fun c => inside_readAll ih _)

theorem inside_finish : Inside finish := .unlock .done

theorem inside_ite {p q : Prog Field} (hp : Inside p) (hq : Inside q) (c : Prop) [Decidable c] :
    Inside (if c then p else q) := by
  split
  · exact hp
  · exact hq

theorem inside_putMetadata {next : Prog Field} (h : Inside next) : Inside (putMetadata next) :=
  .branch fun _ => inside_readAll (.branch fun rc => inside_ite h inside_finish (rc = 0)) _

theorem reader_createPath {next : Prog Field} (h : Inside next) : Reader (createPath next) := by
  refine ⟨_, rfl, inside_withActions (.branch fun outcome => ?_)⟩
  split
  · exact inside_finish
  · exact inside_finish
  · exact inside_finish
  · exact h

theorem reader_vdevDeviceAdd : Reader vdevDeviceAdd := by
  have hrun : Inside (withActions finish) := inside_withActions inside_finish
  have hput : Inside (putMetadata (withActions finish)) := inside_putMetadata hrun
  refine reader_createPath (.branch fun outcome => ?_)
  split
  · exact hrun
  · exact inside_finish
  · refine .read (.branch fun outcome => ?_)
    split
    · exact hput
    · exact hput
    · exact .read (.branch fun rc => inside_ite hput inside_finish (rc = 0))
  · exact .branch fun rc => inside_ite hput inside_finish (rc = 0)

theorem reader_vdevDeviceRemove : Reader vdevDeviceRemove := by
  refine reader_createPath (inside_withActions (.branch fun outcome => ?_))
  split
  · exact inside_finish
  · exact inside_finish
  · exact .read inside_finish

theorem reader_vdevDeviceChange : Reader vdevDeviceChange :=
  reader_createPath (.branch fun metadata =>
    inside_ite (inside_withActions inside_finish) inside_finish (metadata = 0))

theorem reader_handlerProg (h : Handler) : Reader (handlerProg h) := by
  cases h with
  | add => exact reader_vdevDeviceAdd
  | remove => exact reader_vdevDeviceRemove
  | change => exact reader_vdevDeviceChange

theorem swap_swap : Swap swap := by
  refine ⟨?_, by simp [swap], fun f => ?_, fun f => ?_⟩
  · simp [swap, SwapTail]
  · cases f <;> simp [swap]
  · cases f <;> simp [swap]

theorem loading_orFail {next p : Prog Field} (h : Loading next p) : Loading next (orFail p) := by
  refine .branch fun rc => ?_
  split
  · exact h
  · exact .done

theorem writer_vdevReload : Writer swap vdevReload :=
  ⟨swap_swap, loading_orFail (loading_orFail (loading_orFail (loading_orFail (loading_orFail
    (loading_orFail .load)))))⟩

section Runs

variable {T : Type} [DecidableEq T]

/-- The threads of vdevd handle requests, and SIGHUP reloads. -/
def threadStep : Label T Handler → State T Field → Option (State T Field) :=
  step handlerProg vdevReload

/-- Every path of a handler takes the lock once and gives it back once. A reload that fails
touches none of the fields. In every run in which the reloads are on other threads than the
requests, a request uses one version of the fields: 0 is the one of `vdev_init`, and each
reload installs one more. It is not freed before the request gives the lock back. -/
theorem reload_atomic :
    (∀ (h : Handler) (os : List (Op Field)), Path (handlerProg h) os →
      ∃ fs : List Field, os = .lock :: (fs.map .read ++ [.unlock])) ∧
    (∀ os : List (Op Field), Path vdevReload os → os = [] ∨ os = .load :: .lock :: swap) ∧
    ∀ (ls : List (Label T Handler)) (s : State T Field),
      Runs.Guarded threadStep SparesRequests ls quiet → Runs.run threadStep ls quiet = some s →
      ∀ (t : T) (fr : Frame Field), fr ∈ s.stack t → fr.isSignal = false →
        ∃ v, OneVersion s t fr v := by
  refine ⟨fun h os hpath => (reader_handlerProg h).path hpath,
    fun os hpath => writer_vdevReload.2.path hpath, fun ls s hok hrun t fr hmem hreader => ?_⟩
  exact oneVersion_of_run reader_handlerProg writer_vdevReload hok hrun hmem hreader

/-- Thread 0 changes a device while thread 1 reloads. The reload has to wait until the
request gives the lock back. -/
def sharedRun : List (Label ℕ Handler) :=
  [.request 0 .change, .signal 1] ++ List.replicate 7 (.run 1 0) ++
    List.replicate 5 (.run 0 0) ++ [.run 0 0, .run 1 0, .run 1 0, .run 1 0]

theorem reload_atomic_sharedRun :
    (∃ fs : List Field, [.lock, .read .acts, .read .numActs, .unlock] =
      Op.lock :: (fs.map .read ++ [.unlock])) ∧
    ((Op.load :: .lock :: swap : List (Op Field)) = [] ∨
      (Op.load :: .lock :: swap : List (Op Field)) = .load :: .lock :: swap) ∧
    ∃ s : State ℕ Field, Runs.run threadStep sharedRun quiet = some s ∧
      ∃ (fr : Frame Field) (v : ℕ), fr ∈ s.stack 0 ∧ OneVersion s 0 fr v := by
  have hchange : Path (handlerProg .change) [.lock, .read .acts, .read .numActs, .unlock] :=
    .op (.op (.op (.branch 0 (.branch 0 (.op .done)))))
  have hreload : Path vdevReload (.load :: .lock :: swap) :=
    .branch 0 (.branch 0 (.branch 0 (.branch 0 (.branch 0 (.branch 0 (.op (path_ofList_self _)))))))
  have hok : Runs.Guarded threadStep SparesRequests sharedRun (quiet : State ℕ Field) :=
    Runs.guarded_of_check threadStep (fun l s => decide (SparesRequests l s))
      (fun l s h => of_decide_eq_true h) sharedRun quiet rfl
  obtain ⟨hpaths, hreloads, hruns⟩ := reload_atomic (T := ℕ)
  have hrun : ∃ s fr, Runs.run threadStep sharedRun (quiet : State ℕ Field) = some s ∧
      fr ∈ s.stack 0 ∧ fr.isSignal = false := ⟨_, _, rfl, List.mem_cons_self, rfl⟩
  obtain ⟨s, fr, hrun, hmem, hreader⟩ := hrun
  obtain ⟨v, hv⟩ := hruns sharedRun s hok hrun 0 fr hmem hreader
  exact ⟨hpaths .change _ hchange, hreloads _ hreload, s, hrun, fr, v, hmem, hv⟩

/-- In every run in which SIGHUP does not interrupt the thread that holds the lock, no
reload waits for the lock of the thread that it interrupts. -/
theorem not_deadlocked_of_sparesHolder (ls : List (Label T Handler)) (s : State T Field)
    (hok : Runs.Guarded threadStep SparesHolder ls quiet)
    (hrun : Runs.run threadStep ls quiet = some s) (t : T) : ¬Deadlocked t s :=
  not_deadlocked (fun h => (reader_handlerProg h).balanced) writer_vdevReload.balanced hok hrun t

/-- SIGHUP comes when the thread has given the lock back. -/
def sparedRun : List (Label ℕ Handler) :=
  .request 0 .change :: List.replicate 6 (.run 0 0) ++ .signal 0 :: List.replicate 8 (.run 0 0)

theorem not_deadlocked_sparedRun :
    ∃ s : State ℕ Field, Runs.run threadStep sparedRun quiet = some s ∧ s.owner = some 0 ∧
      ¬Deadlocked 0 s := by
  have hok : Runs.Guarded threadStep SparesHolder sparedRun (quiet : State ℕ Field) :=
    Runs.guarded_of_check threadStep (fun l s => decide (SparesHolder l s))
      (fun l s h => of_decide_eq_true h) sparedRun quiet rfl
  obtain ⟨s, hrun, howner⟩ : ∃ s, Runs.run threadStep sparedRun (quiet : State ℕ Field) = some s ∧
      s.owner = some 0 := ⟨_, rfl, rfl⟩
  exact ⟨s, hrun, howner, not_deadlocked_of_sparesHolder sparedRun s hok hrun 0⟩

/-- A reload that is loaded on top of the request that holds the lock waits for ever. -/
theorem deadlocked_of_signal (s : State T Field) (t : T) (howner : s.owner = some t)
    (hstack : (s.stack t).all (fun fr => !fr.isSignal) = true) :
    ∃ s', Runs.run threadStep (.signal t :: List.replicate 7 (.run t 0)) s = some s' ∧
      Deadlocked t s' := by
  have hsignal : threadStep (.signal t) s = some (s.setStack t
      ({ prog := vdevReload, isSignal := true } :: s.stack t)) := by
    unfold threadStep step
    simp only [hstack, if_true]
  have horFail : ∀ next : Prog Field,
      threadStep (.run t 0) (s.setStack t ({ prog := orFail next, isSignal := true } :: s.stack t))
        = some (s.setStack t ({ prog := next, isSignal := true } :: s.stack t)) :=
    fun next => step_branch s t 0 _ { prog := .done, isSignal := true } _
  have hload : threadStep (.run t 0) (s.setStack t
      ({ prog := .op .load (ofList (.lock :: swap)), isSignal := true } :: s.stack t)) =
      some (({ s with next := s.next + 1 } : State T Field).setStack t
        ({ prog := ofList (.lock :: swap), isSignal := true, new := s.next } :: s.stack t)) := by
    simp only [threadStep, step, setStack_stack, exec]
    simp [State.setStack]
  have hrun : Runs.run threadStep (.signal t :: List.replicate 7 (.run t 0)) s =
      some (({ s with next := s.next + 1 } : State T Field).setStack t
        ({ prog := ofList (.lock :: swap), isSignal := true, new := s.next } :: s.stack t)) := by
    simp only [List.replicate, Runs.run, hsignal, Option.bind_some, vdevReload, horFail, hload]
  exact ⟨_, hrun, howner, _, _, _, setStack_stack _ _ _, rfl⟩

/-- SIGHUP comes while thread 0 changes a device. -/
theorem deadlocked_sighup :
    ∃ (ls : List (Label ℕ Handler)) (s : State ℕ Field),
      Runs.run threadStep ls quiet = some s ∧ Deadlocked 0 s :=
  ⟨.request 0 .change :: .run 0 0 :: .signal 0 :: List.replicate 7 (.run 0 0), _, rfl, rfl, _, _,
    _, rfl, rfl⟩

end Runs

end Vdev.ReloadLock
