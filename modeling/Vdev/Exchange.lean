import Vdev.DaemonletService
import Vdev.Decimal
import Vdev.Runs

/-!
vdevd and the runner of one daemonlet, with the two pipes between them (vdevd/action.c,
vdevd/helpers/LINUX/daemonlet). Both pipes are bounded, and each step moves some bytes. A
step of no bytes is a system call that is interrupted. A reply that is no status and the end
of the output end the exchange with this daemonlet: it is started again with other pipes, or
the request fails.
-/
namespace Vdev.Exchange

open CString Data Environment Daemonlet Shell DaemonletRunner Decimal

variable {ω : Type}

/-- What is printed on the standard output of the runner, and whether the runner is still
there afterwards: by the `eval` of a line, by the helper's `main`, and by the evals of
`daemonlet_clear_environ`. -/
structure Console (ω : Type) where
  line : CStr → Sh ω → CStr × Bool
  main : Sh ω → CStr × Bool
  clear : Sh ω → CStr × Bool

structure Setup (ω : Type) where
  host : Host ω
  console : Console ω
  act : Action
  capacity : ℕ

inductive Caller
  | starting
  | idle
  | writing (rest : CStr)
  | reading (value s : Int) (cnt : ℕ)
  | failed
  deriving DecidableEq

/-- Where the runner is in its script. While it reads a stanza, it has a part of a line, the
number of lines before, and the names that they define. -/
inductive Phase
  | read (line : CStr) (count : ℕ) (allEnv : CStr)
  | run
  | clear
  | exited
  deriving DecidableEq

/-- Both sides and the pipes. `out` is what the runner is about to write. The last five
fields are ghosts: the stanzas that vdevd began to write, what the runner has read since its
last reply, its replies and what it had read for them, what vdevd has read, and the statuses
that it has delivered. -/
structure State (ω : Type) where
  caller : Caller
  phase : Phase
  out : CStr
  sh : Sh ω
  stdin : CStr
  stdout : CStr
  sent : List CStr
  taken : CStr
  echoed : List (CStr × ℕ)
  received : CStr
  delivered : List Int

inductive Label
  | request (st : VdevState) (req : Request)
  | caller (k : ℕ)
  | runner (k : ℕ)

/-- Writing up to `k` of the bytes `rest` to a pipe: what is left, and the pipe. A full pipe
blocks. -/
def transfer (capacity k : ℕ) (rest pipe : CStr) : Option (CStr × CStr) :=
  if k ≠ 0 ∧ capacity ≤ pipe.length then none
  else
    let n := min k (capacity - pipe.length)
    some (rest.drop n, pipe ++ rest.take n)

/-- The body of the loop of `vdev_action_daemonlet_read_int64`: how it goes on after a
character, or the number that it returns. -/
def readChar (value s : Int) (cnt : ℕ) (c : Char) : Int × Int × ℕ ⊕ Int :=
  let next := toInt64 (toInt64 (value * 10) + ((c.toNat : Int) - '0'.toNat))
  if c = '\n' then .inr (toInt64 (value * s))
  else if cnt = 0 ∧ c = '-' then .inl (next, -1, cnt + 1)
  else if c < '0' ∨ c > '9' then .inr (toInt64 (value * s))
  else .inl (next, s, cnt + 1)

/-- The status that `vdev_action_daemonlet_send_command` delivers. -/
def deliver (status : Int) (s : State ω) : State ω :=
  if status < 0 ∨ status > 255 then { s with caller := .failed }
  else { s with caller := .idle, delivered := s.delivered ++ [status] }

/-- The runner is gone, and its ends of the pipes are closed. -/
def State.gone (s : State ω) : Bool := s.phase = .exited ∧ s.out = []

def hearChar (value sign : Int) (cnt : ℕ) (c : Char) (rest : CStr) (s : State ω) : State ω :=
  let s := { s with stdout := rest, received := s.received ++ [c] }
  match readChar value sign cnt c with
  | .inl (value, sign, cnt) => { s with caller := .reading value sign cnt }
  | .inr status => deliver status s

variable (D : Setup ω)

def callerStep (k : ℕ) (s : State ω) : Option (State ω) :=
  match s.caller with
  | .starting =>
    if k = 0 then some s
    else
      match s.stdout with
      | c :: rest =>
        some { s with stdout := rest, received := s.received ++ [c], caller := .idle }
      | [] => if s.gone then some { s with caller := .failed } else none
  | .idle => none
  | .writing [] =>
    if D.act.async then some (deliver 0 s) else some { s with caller := .reading 0 1 0 }
  | .writing (c :: rest) =>
    if s.gone then some { s with caller := .failed }
    else
      (transfer D.capacity k (c :: rest) s.stdin).map fun r =>
        { s with caller := .writing r.1, stdin := r.2 }
  | .reading value sign cnt =>
    if k = 0 then some s
    else
      match s.stdout with
      | c :: rest => some (hearChar value sign cnt c rest s)
      | [] => if s.gone then some { s with caller := .failed } else none
  | .failed => none

/-- The body of the loop of `daemonlet_read_environ`, for a line that is complete. -/
def endLine (line : CStr) (count : ℕ) (allEnv : CStr) (s : State ω) : State ω :=
  if line = [] then { s with phase := .exited }
  else if line = "done".toList then
    if count = 0 then { s with phase := .exited }
    else { s with phase := .run, sh := s.sh.set curEnviron allEnv }
  else
    let sh := s.sh.withInput s.stdin
    match importVar D.host line sh with
    | none => { s with phase := .exited }
    | some (name, sh') =>
      let (text, alive) := D.console.line line sh
      { s with
        out := text
        phase := if alive then .read [] (count + 1) (name ++ ' ' :: allEnv) else .exited
        sh := sh'
        stdin := sh'.input }

def readByte (line : CStr) (count : ℕ) (allEnv : CStr) (c : Char) (rest : CStr) (s : State ω) :
    State ω :=
  let s := { s with stdin := rest, taken := s.taken ++ [c] }
  if c = '\n' then endLine D line count allEnv s
  else { s with phase := .read (line ++ [c]) count allEnv }

def statusLine (status : ℕ) : CStr := decimal status ++ ['\n']

/-- The call of `main`, and the reply. -/
def runMain (s : State ω) : State ω :=
  let sh := s.sh.withInput s.stdin
  let (status, sh') := D.host.main sh
  let (text, alive) := D.console.main sh
  if alive then
    { s with
      out := text ++ statusLine status
      phase := .clear
      sh := sh'
      taken := []
      echoed := s.echoed ++ [(s.taken, status)] }
  else { s with out := text, phase := .exited }

/-- `daemonlet_clear_environ`, and the start of the next round. -/
def runClear (s : State ω) : State ω :=
  let sh := s.sh.withInput s.stdin
  let (text, alive) := D.console.clear sh
  let sh' := clearEnviron D.host sh
  { s with
    out := text
    phase := if alive then .read [] 0 [] else .exited
    sh := defaultEnviron sh'
    stdin := sh'.input }

def runnerStep (k : ℕ) (s : State ω) : Option (State ω) :=
  match s.out with
  | c :: rest =>
    (transfer D.capacity k (c :: rest) s.stdout).map fun r => { s with out := r.1, stdout := r.2 }
  | [] =>
    match s.phase with
    | .read line count allEnv =>
      if k = 0 then some s
      else
        match s.stdin with
        | [] => none
        | c :: rest => some (readByte D line count allEnv c rest s)
    | .run => some (runMain D s)
    | .clear => some (runClear D s)
    | .exited => none

def step : Label → State ω → Option (State ω)
  | .request st req, s =>
    match s.caller with
    | .idle =>
      let text := stanza st D.act req
      some { s with caller := .writing text, sent := s.sent ++ [text] }
    | _ => none
  | .caller k, s => callerStep D k s
  | .runner k, s => runnerStep D k s

/-- The daemonlet has been started: it says that it is ready, for which vdevd waits when the
action is synchronous. -/
def started (sh : Sh ω) : State ω where
  caller := if D.act.async then .idle else .starting
  phase := .read [] 0 []
  out := ['\n']
  sh := defaultEnviron sh
  stdin := []
  stdout := []
  sent := []
  taken := []
  echoed := []
  received := []
  delivered := []

/-- vdevd waits for room to write a stanza, and the runner for room to write a reply. -/
def Stuck (s : State ω) : Prop :=
  (∃ c rest, s.caller = .writing (c :: rest)) ∧ D.capacity ≤ s.stdin.length ∧ s.out ≠ [] ∧
    D.capacity ≤ s.stdout.length

section Steps

variable {D} {s s' : State ω} {k : ℕ}

theorem runnerStep_out (h : s.out ≠ []) (hstep : runnerStep D k s = some s') :
    ∃ out stdout, transfer D.capacity k s.out s.stdout = some (out, stdout) ∧
      s' = { s with out := out, stdout := stdout } := by
  unfold runnerStep at hstep
  split at hstep
  · rename_i c rest hout
    obtain ⟨r, htransfer, rfl⟩ := Option.map_eq_some_iff.mp hstep
    exact ⟨r.1, r.2, by rw [hout]; exact htransfer, rfl⟩
  · rename_i hout
    exact absurd hout h

theorem transfer_append {capacity : ℕ} {rest pipe rest' pipe' : CStr}
    (h : transfer capacity k rest pipe = some (rest', pipe')) : pipe' ++ rest' = pipe ++ rest := by
  unfold transfer at h
  split at h
  · cases h
  · cases h
    rw [List.append_assoc, List.take_append_drop]

theorem runnerStep_read {line allEnv : CStr} {count : ℕ} (hout : s.out = [])
    (hphase : s.phase = .read line count allEnv) (hstep : runnerStep D k s = some s') :
    s' = s ∨ ∃ c rest, s.stdin = c :: rest ∧ s' = readByte D line count allEnv c rest s := by
  unfold runnerStep at hstep
  simp only [hout, hphase] at hstep
  split at hstep
  · cases hstep
    exact Or.inl rfl
  · split at hstep
    · cases hstep
    · rename_i c rest hstdin
      cases hstep
      exact Or.inr ⟨c, rest, hstdin, rfl⟩

theorem runnerStep_run (hout : s.out = []) (hphase : s.phase = .run) :
    runnerStep D k s = some (runMain D s) := by
  simp only [runnerStep, hout, hphase]

theorem runnerStep_clear (hout : s.out = []) (hphase : s.phase = .clear) :
    runnerStep D k s = some (runClear D s) := by
  simp only [runnerStep, hout, hphase]

theorem runnerStep_exited (hout : s.out = []) (hphase : s.phase = .exited) :
    runnerStep D k s = none := by
  simp only [runnerStep, hout, hphase]

theorem callerStep_starting (hcaller : s.caller = .starting)
    (hstep : callerStep D k s = some s') :
    s' = s ∨ (s.stdout = [] ∧ s.gone = true ∧ s' = { s with caller := .failed }) ∨
      ∃ c rest, s.stdout = c :: rest ∧
        s' = { s with stdout := rest, received := s.received ++ [c], caller := .idle } := by
  unfold callerStep at hstep
  simp only [hcaller] at hstep
  split at hstep
  · cases hstep
    exact Or.inl rfl
  · split at hstep
    · rename_i c rest hstdout
      cases hstep
      exact Or.inr (Or.inr ⟨c, rest, hstdout, rfl⟩)
    · rename_i hstdout
      split at hstep
      · rename_i hgone
        cases hstep
        exact Or.inr (Or.inl ⟨hstdout, hgone, rfl⟩)
      · cases hstep

theorem callerStep_reading {value sign : Int} {cnt : ℕ}
    (hcaller : s.caller = .reading value sign cnt) (hstep : callerStep D k s = some s') :
    s' = s ∨ (s.stdout = [] ∧ s.gone = true ∧ s' = { s with caller := .failed }) ∨
      ∃ c rest, s.stdout = c :: rest ∧ s' = hearChar value sign cnt c rest s := by
  unfold callerStep at hstep
  simp only [hcaller] at hstep
  split at hstep
  · cases hstep
    exact Or.inl rfl
  · split at hstep
    · rename_i c rest hstdout
      cases hstep
      exact Or.inr (Or.inr ⟨c, rest, hstdout, rfl⟩)
    · rename_i hstdout
      split at hstep
      · rename_i hgone
        cases hstep
        exact Or.inr (Or.inl ⟨hstdout, hgone, rfl⟩)
      · cases hstep

/-- The stanza is written. -/
theorem callerStep_written (hcaller : s.caller = .writing []) :
    callerStep D k s =
      if D.act.async then some (deliver 0 s) else some { s with caller := .reading 0 1 0 } := by
  simp only [callerStep, hcaller]

theorem callerStep_writing {c : Char} {rest : CStr} (hcaller : s.caller = .writing (c :: rest))
    (hstep : callerStep D k s = some s') :
    (s.gone = true ∧ s' = { s with caller := .failed }) ∨
      ∃ rest' stdin, transfer D.capacity k (c :: rest) s.stdin = some (rest', stdin) ∧
        s' = { s with caller := .writing rest', stdin := stdin } := by
  unfold callerStep at hstep
  simp only [hcaller] at hstep
  split at hstep
  · rename_i hgone
    cases hstep
    exact Or.inl ⟨hgone, rfl⟩
  · obtain ⟨r, htransfer, rfl⟩ := Option.map_eq_some_iff.mp hstep
    exact Or.inr ⟨r.1, r.2, htransfer, rfl⟩

theorem gone_iff : s.gone = true ↔ s.phase = .exited ∧ s.out = [] := decide_eq_true_iff

end Steps

theorem withInput_of_input (sh : Sh ω) (input : CStr) (h : sh.input = input) :
    sh.withInput input = sh := by
  subst h
  rfl

/-- The call of `main`, the reply and the clearing are those of one round of the main loop. -/
theorem serve_runMain (sh : Sh ω) (s : State ω)
    (hread : readEnviron D.host (defaultEnviron sh) = (0, s.sh.withInput s.stdin))
    (halive : ∀ sh, (D.console.main sh).2 = true) :
    ∃ status sh', serve D.host sh = some (status, sh') ∧
      (runMain D s).echoed = s.echoed ++ [(s.taken, status)] ∧
      (runClear D (runMain D s)).sh = defaultEnviron sh' := by
  refine ⟨(D.host.main (s.sh.withInput s.stdin)).1,
    clearEnviron D.host (D.host.main (s.sh.withInput s.stdin)).2, ?_, ?_, ?_⟩
  · rw [serve, hread]
    rfl
  · simp only [runMain, halive, if_true]
  · have hinput : (D.host.main (s.sh.withInput s.stdin)).2.withInput s.stdin =
        (D.host.main (s.sh.withInput s.stdin)).2 :=
      withInput_of_input _ _ (D.host.main_input (s.sh.withInput s.stdin))
    simp only [runMain, runClear, halive, if_true, hinput]

end Vdev.Exchange
