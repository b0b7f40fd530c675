import Vdev.Data

/-!
Matching requests against actions, renaming devices and running the actions'
commands (vdevd/action.c, libvdev/match.c). What lies outside vdevd is a
parameter: the regex matcher of libc, and the commands themselves, which act on
an arbitrary world. The actions are an array; the loops walk it with a moving
base pointer, so they keep the offset and look at the list from there on.
Each iteration advances the offset, hence the number of actions bounds the loops.
-/
namespace Vdev.Action

open CString Data

/-- The three ways in which vdevd runs an action's command. -/
inductive Runner
  | sync | async | daemonlet
  deriving DecidableEq, Repr

/-- The outside world of the action code. `run` runs the command of the action
at an index of the array and `rename` its rename command, capturing the output. -/
structure Commands (σ : Type) where
  regexec : CStr → Option CStr → Int
  run : Runner → Request → ℕ → Action → σ → Int × σ
  rename : Request → ℕ → Action → σ → (Int × CStr) × σ

variable {σ : Type}

/-- `REG_NOMATCH` of regex.h. -/
def REG_NOMATCH : Int := 1

/-- `vdev_match_regex`. -/
def matchRegex (regexec : CStr → Option CStr → Int) (path : Option CStr) (regex : CStr) : Int :=
  let rc := regexec regex path
  if rc ≠ 0 then
    if rc = REG_NOMATCH then 0 else -|rc|
  else 1

/-- The loop of `vdev_action_match` over the action's OS parameters. -/
def matchParams (params : Params) : List (CStr × CStr) → Int
  | [] => 1
  | (key, value) :: rest =>
    match params.find key with
    | some v =>
      if value.length = 0 then matchParams params rest
      else if v ≠ value then 0
      else matchParams params rest
    | none => 0

/-- The type test of `vdev_action_match`. -/
def matchType (mode : ℕ) (act : Action) : Bool :=
  if act.hasType then
    if !isBlk mode && !isChr mode then false
    else if isBlk mode && !strcaseEq act.type "block".toList then false
    else if isChr mode && !strcaseEq act.type "char".toList then false
    else true
  else true

/-- `vdev_action_match`. -/
def actionMatch (regexec : CStr → Option CStr → Int) (vreq : Request) (act : Action) : Int :=
  if act.trigger ≠ vreq.type ∧ act.trigger ≠ .any then 0
  else
    let rc := match act.path with
      | some regex => matchRegex regexec vreq.path regex
      | none => 1
    if rc = 0 then 0
    else if rc < 0 then rc
    else if !matchType vreq.mode act then 0
    else matchParams vreq.params act.devParams.entries

/-- The loop of `vdev_action_find_next`, at index `i`. -/
def findNextLoop (regexec : CStr → Option CStr → Int) (vreq : Request) : List Action → ℕ → Int
  | [], i => i
  | act :: rest, i =>
    let rc := actionMatch regexec vreq act
    if rc > 0 then i
    else if rc < 0 then rc
    else findNextLoop regexec vreq rest (i + 1)

/-- `vdev_action_find_next`. -/
def actionFindNext (regexec : CStr → Option CStr → Int) (vreq : Request) (acts : List Action) : Int :=
  findNextLoop regexec vreq acts 0

/-- The runner that `vdev_action_run_commands` picks. A daemonlet is handed the
request by `vdev_action_run_daemonlet` whether or not it is asynchronous. -/
def runnerOf (act : Action) : Runner :=
  if !act.isDaemonlet then
    if act.async then .async else .sync
  else .daemonlet

/-- One invocation of a runner: the index of its action and what it returned. -/
structure Call where
  index : ℕ
  runner : Runner
  rc : Int
  deriving DecidableEq

/-- The outcome of `vdev_action_run_commands`, with the runners it invoked. -/
structure Dispatched (σ : Type) where
  rc : Int
  world : σ
  calls : List Call

/-- The loop of `vdev_action_run_commands`, at offset `off`. -/
def runCommandsLoop (c : Commands σ) (vreq : Request) (acts : List Action) (devExists : Bool) :
    ℕ → ℕ → σ → List Call → Dispatched σ
  | 0, _, w, calls => ⟨0, w, calls⟩
  | fuel + 1, off, w, calls =>
    match acts[off]? with
    | none => ⟨0, w, calls⟩
    | some first =>
      if first.command = none then
        runCommandsLoop c vreq acts devExists fuel (off + 1) w calls
      else
        let rc := actionFindNext c.regexec vreq (acts.drop off)
        if rc = ((acts.length - off : ℕ) : Int) then ⟨0, w, calls⟩
        else if rc < 0 then ⟨rc, w, calls⟩
        else
          let i := off + rc.toNat
          match acts[i]? with
          | none => ⟨0, w, calls⟩
          | some act =>
            if act.command = none then
              runCommandsLoop c vreq acts devExists fuel (i + 1) w calls
            else if vreq.type = .add ∧ devExists ∧ act.ifExists ≠ .run then
              -- `rc = 1; break`, and a positive rc becomes 0 after the loop
              if act.ifExists = .error then ⟨0, w, calls⟩
              else runCommandsLoop c vreq acts devExists fuel (i + 1) w calls
            else
              let (rc, w) := c.run (runnerOf act) vreq i act w
              let calls := calls ++ [⟨i, runnerOf act, rc⟩]
              if rc < 0 then ⟨rc, w, calls⟩
              else runCommandsLoop c vreq acts devExists fuel (i + 1) w calls

/-- `vdev_action_run_commands`. -/
def actionRunCommands (c : Commands σ) (vreq : Request) (acts : List Action) (devExists : Bool)
    (w : σ) : Dispatched σ :=
  runCommandsLoop c vreq acts devExists acts.length 0 w []

/-- The loop of `vdev_action_create_path`. The code keeps the last rename
command's exit status in `rc`, and clears it when it looks at another action. -/
def createPathLoop (c : Commands σ) (vreq : Request) (acts : List Action) :
    ℕ → ℕ → Int → Option CStr → σ → Int × Option CStr × σ
  | 0, _, rc, path, w => (rc, path, w)
  | fuel + 1, off, rc, path, w =>
    match acts[off]? with
    | none => (rc, path, w)
    | some first =>
      if first.renameCommand = none then createPathLoop c vreq acts fuel (off + 1) 0 path w
      else
        let rc := actionFindNext c.regexec vreq (acts.drop off)
        if rc = ((acts.length - off : ℕ) : Int) then (0, path, w)
        else if rc < 0 then (rc, path, w)
        else
          let i := off + rc.toNat
          match acts[i]? with
          | none => (0, path, w)
          | some act =>
            if act.renameCommand = none then createPathLoop c vreq acts fuel (i + 1) 0 path w
            else
              let ((rc, newPath), w) := c.rename vreq i act w
              if rc < 0 then (rc, path, w)
              else createPathLoop c vreq acts fuel (i + 1) rc (some newPath) w

/-- `vdev_action_create_path`, called with `*path == NULL`. -/
def actionCreatePath (c : Commands σ) (vreq : Request) (acts : List Action) (w : σ) :
    Int × Option CStr × σ :=
  let (rc, path, w) := createPathLoop c vreq acts acts.length 0 0 none w
  if path = some [] then
    if vreq.path = some unknownPath then (rc, some unknownPath, w)
    else (Errno.enodata.rc, none, w)
  else (rc, path, w)

end Vdev.Action
