import Vdev.DaemonletReset

/-!
The handle of a daemonlet over any sequence of calls (vdevd/action.c). The three
fields `daemonlet_pid`, `daemonlet_stdin` and `daemonlet_stdout` are set together
at the end of a start and reset together at every exit of a stop, so no call that
returns leaves half a handle. The world may change between two calls in any way.
-/
namespace Vdev.DaemonletHandle

open CString Data Environment Daemonlet DaemonletReset

variable {σ : Type}

/-- `vdev_action_init`. When the regex of the path does not compile, `vdev_action_free` releases
the strings. -/
def actionInit (regcomp : CStr → Int) (trigger : RequestType) (path command : Option CStr)
    (async : Bool) : Int × Action :=
  let act : Action :=
    { trigger := trigger, path := path, command := command, async := async, useShell := false }
  match path with
  | none => (0, act)
  | some regex =>
    if regcomp regex ≠ 0 then (Errno.einval.rc, { act with path := none, command := none })
    else (0, act)

/-- A call on an action. Between `vdev_action_init` and the first request the loader
fills in the fields that are no part of the handle. -/
inductive Call
  | init (trigger : RequestType) (path command : Option CStr) (async : Bool)
  | start (st : VdevState)
  | stop
  | run (st : VdevState) (vreq : Request)

/-- What a call returns, and the action that it leaves. -/
def perform (sys : Sys σ) (regcomp : CStr → Int) (fuel : ℕ) (call : Call) (act : Action) (w : σ) :
    Option (Int × Action × σ) :=
  match call with
  | .init trigger path command async =>
    let (rc, act) := actionInit regcomp trigger path command async
    some (rc, act, w)
  | .start st => some (daemonletStart sys st act w)
  | .stop => daemonletStop sys fuel act w
  | .run st vreq =>
    (runDaemonlet sys fuel st vreq act w).map (fun out => (out.rc, out.act, out.world))

/-- The loader changes an action: the handle stays, and a daemonlet stays one. -/
structure Loads (act act' : Action) : Prop where
  pid : act'.daemonletPid = act.daemonletPid
  stdin : act'.daemonletStdin = act.daemonletStdin
  stdout : act'.daemonletStdout = act.daemonletStdout
  isDaemonlet : act.isDaemonlet = true → act'.isDaemonlet = true

/-- The actions that a sequence of calls can leave behind. It begins with `vdev_action_init`. -/
inductive Reached (sys : Sys σ) (regcomp : CStr → Int) : Action → Prop
  | init (trigger : RequestType) (path command : Option CStr) (async : Bool) :
      Reached sys regcomp (actionInit regcomp trigger path command async).2
  | load {act act' : Action} (h : Reached sys regcomp act) (hload : Loads act act') :
      Reached sys regcomp act'
  | call {act act' : Action} {fuel : ℕ} {rc : Int} {w w' : σ} (h : Reached sys regcomp act)
      (call : Call) (hreturns : perform sys regcomp fuel call act w = some (rc, act', w')) :
      Reached sys regcomp act'

theorem reset_actionInit (regcomp : CStr → Int) (trigger : RequestType)
    (path command : Option CStr) (async : Bool) :
    Reset (actionInit regcomp trigger path command async).2 := by
  unfold actionInit
  cases path with
  | none => exact ⟨rfl, rfl, rfl⟩
  | some regex =>
    dsimp only
    split_ifs
    · exact ⟨rfl, rfl, rfl⟩
    · exact ⟨rfl, rfl, rfl⟩

theorem Loads.consistent {act act' : Action} (hload : Loads act act') (h : Consistent act) :
    Consistent act' := by
  rcases h with hreset | hrecorded
  · exact Or.inl ⟨hload.pid.trans hreset.pid, hload.stdin.trans hreset.stdin,
      hload.stdout.trans hreset.stdout⟩
  · refine Or.inr ⟨hload.isDaemonlet hrecorded.isDaemonlet, ?_, ?_, ?_⟩
    · rw [hload.pid]
      exact hrecorded.pid
    · rw [hload.stdin]
      exact hrecorded.stdin
    · rw [hload.stdout]
      exact hrecorded.stdout

/-- Each call keeps the handle whole. -/
theorem perform_consistent {sys : Sys σ} {regcomp : CStr → Int} {fuel : ℕ} {call : Call}
    {act act' : Action} {rc : Int} {w w' : σ} (hact : Consistent act)
    (h : perform sys regcomp fuel call act w = some (rc, act', w')) : Consistent act' := by
  cases call with
  | init trigger path command async =>
    cases h
    exact Or.inl (reset_actionInit regcomp trigger path command async)
  | start st =>
    have hstart := daemonletStart_cases sys st w hact
    rw [Option.some.inj h] at hstart
    dsimp only at hstart
    obtain ⟨_, hsame⟩ | ⟨_, hrecorded⟩ := hstart
    · rw [hsame]
      exact hact
    · exact Or.inr hrecorded
  | stop => exact Or.inl (daemonletStop_reset hact h).2
  | run st vreq =>
    obtain ⟨out, hout, heq⟩ := Option.map_eq_some_iff.mp h
    cases heq
    exact runDaemonlet_consistent hact hout

theorem Reached.consistent {sys : Sys σ} {regcomp : CStr → Int} {act : Action}
    (h : Reached sys regcomp act) : Consistent act := by
  induction h with
  | init trigger path command async =>
    exact Or.inl (reset_actionInit regcomp trigger path command async)
  | load _ hload ih => exact hload.consistent ih
  | call _ _ hreturns ih => exact perform_consistent ih hreturns

theorem daemonletStop_of_reset {act : Action} (hreset : Reset act) (sys : Sys σ) (fuel : ℕ)
    (w : σ) : daemonletStop sys fuel act w = some (0, act, w) := by
  have hpid := hreset.pid
  exact if_pos (Or.inl (by omega))

/-- A start that really starts: it looks for the runner, and it forks unless something fails. -/
inductive FreshStart (sys : Sys σ) (st : VdevState) (act : Action) (w : σ) :
    Int × Action × σ → Prop
  | noRunner (found : Option Bool) (rc : Int) (w₁ : σ)
      (hrunner : sys.runnerExecutable (runnerPath st) w = (found, w₁))
      (hfound : found ≠ some true) (hrc : rc < 0) : FreshStart sys st act w (rc, act, w₁)
  | noProcess (e : Errno) (w₁ w₂ w₃ : σ)
      (hrunner : sys.runnerExecutable (runnerPath st) w = (some true, w₁))
      (hfail : (sys.pipe w₂).1 = .error e ∨ (sys.fork w₂).1 = .error e) :
      FreshStart sys st act w (e.rc, act, w₃)
  | forked (pid : {pid : Int // 0 < pid}) (stdin stdout : ℕ) (w₁ w₂ w₃ w₄ : σ)
      (hrunner : sys.runnerExecutable (runnerPath st) w = (some true, w₁))
      (hfork : sys.fork w₂ = (.ok pid, w₃)) :
      FreshStart sys st act w (daemonletStarted sys act pid stdin stdout w₄)

theorem freshStart_of_reset {act : Action} (hreset : Reset act) (sys : Sys σ) (st : VdevState)
    (w : σ) : FreshStart sys st act w (daemonletStart sys st act w) := by
  have hpid := hreset.pid
  rw [daemonletStart, if_neg (by omega)]
  split
  · rename_i w₁ hrunner
    exact .noRunner none (-1) w₁ hrunner (by simp) (by decide)
  · rename_i w₁ hrunner
    exact .noRunner (some false) _ w₁ hrunner (by simp) (Errno.rc_neg .eperm)
  · rename_i w₁ hrunner
    split
    · rename_i e w₂ hpipe
      exact .noProcess e w₁ w₁ w₂ hrunner (Or.inl (congrArg Prod.fst hpipe))
    · rename_i in0 in1 w₂ _
      split
      · rename_i e w₃ hpipe
        exact .noProcess e w₁ w₂ _ hrunner (Or.inl (congrArg Prod.fst hpipe))
      · rename_i out0 out1 w₃ _
        split
        · rename_i e w₄ hfork
          exact .noProcess e w₁ w₃ _ hrunner (Or.inr (congrArg Prod.fst hfork))
        · rename_i pid w₄ hfork
          exact .forked pid in1 out0 w₁ w₃ w₄ _ hrunner hfork

/-- After any sequence of calls the handle is that of a process with both pipe ends or it is
reset; a reset handle makes a stop do nothing and a start begin afresh. -/
theorem handle_consistent {sys : Sys σ} {regcomp : CStr → Int} {act : Action}
    (h : Reached sys regcomp act) :
    ((0 < act.daemonletPid ∧ 0 ≤ act.daemonletStdin ∧ 0 ≤ act.daemonletStdout) ∨
      (act.daemonletPid = -1 ∧ act.daemonletStdin = -1 ∧ act.daemonletStdout = -1)) ∧
    (act.daemonletPid = -1 → act.daemonletStdin = -1 → act.daemonletStdout = -1 →
      (∀ fuel w, daemonletStop sys fuel act w = some (0, act, w)) ∧
        ∀ st w, FreshStart sys st act w (daemonletStart sys st act w)) := by
  refine ⟨?_, fun hpid hstdin hstdout => ?_⟩
  · rcases h.consistent with hreset | hrecorded
    · exact Or.inr ⟨hreset.pid, hreset.stdin, hreset.stdout⟩
    · exact Or.inl ⟨hrecorded.pid, hrecorded.stdin, hrecorded.stdout⟩
  · have hreset : Reset act := ⟨hpid, hstdin, hstdout⟩
    exact ⟨daemonletStop_of_reset hreset sys, freshStart_of_reset hreset sys⟩

/-- A daemonlet that is started, and whose input cannot be closed when it is stopped. -/
theorem handle_consistent_unclosed :
    let sys : Sys CStr :=
      { DaemonletResult.scriptedSys 1 with
        waitpid := fun _ nohang w => if nohang then (.ok (0, 0), w) else (.ok (7, 0), w)
        close := fun _ w => (.error .eio, w) }
    let begun := daemonletStart sys bareState (actionInit (fun _ => 0) .add none none false).2
      "\n".toList
    0 < begun.2.1.daemonletPid ∧
      ∃ stopped, perform sys (fun _ => 0) 2 .stop begun.2.1 begun.2.2 = some stopped ∧
        stopped.2.1.daemonletPid ≤ 0 ∧
        ((0 < stopped.2.1.daemonletPid ∧ 0 ≤ stopped.2.1.daemonletStdin ∧
            0 ≤ stopped.2.1.daemonletStdout) ∨
          (stopped.2.1.daemonletPid = -1 ∧ stopped.2.1.daemonletStdin = -1 ∧
            stopped.2.1.daemonletStdout = -1)) := by
  intro sys begun
  have hreturns : perform sys (fun _ => 0) 0 (.start bareState)
      (actionInit (fun _ => 0) .add none none false).2 "\n".toList =
        some (begun.1, begun.2.1, begun.2.2) := rfl
  have hbegun : Reached sys (fun _ => 0) begun.2.1 :=
    .call (.init .add none none false) (.start bareState) hreturns
  have hpid : (perform sys (fun _ => 0) 2 .stop begun.2.1 begun.2.2).map
      (fun stopped => decide (stopped.2.1.daemonletPid ≤ 0)) = some true := by
    decide +kernel
  obtain ⟨stopped, hstop, hle⟩ := Option.map_eq_some_iff.mp hpid
  exact ⟨by decide +kernel, stopped, hstop, of_decide_eq_true hle,
    (handle_consistent (.call hbegun .stop hstop)).1⟩

end Vdev.DaemonletHandle
