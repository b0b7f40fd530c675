import Vdev.Action
import Vdev.Environment

/-!
Daemonlets (vdevd/action.c): helpers that stay alive and are sent one request
after the other over a pipe. The system calls are parameters that act on an
arbitrary world, so a world can hold any sequence of outcomes. Two loops of the
source have no bound, the one that waits for the daemonlet to die and the one
that reads its reply; here they run on fuel, and a call that is still in such a
loop has no result. More fuel never changes a result. A call that takes the
length of a NULL string has no result either.
-/
namespace Vdev.Daemonlet

open CString Data Environment

variable {σ : Type}

/-- The system calls of the daemonlet code. Reading and writing are those of
`vdev_read_uninterrupted` and `vdev_write_uninterrupted`: a byte, or none at the
end of the file; and a count of bytes or a negated error. -/
structure Sys (σ : Type) where
  runnerExecutable : CStr → σ → Option Bool × σ
  pipe : σ → Except Errno (ℕ × ℕ) × σ
  fork : σ → Except Errno {pid : Int // 0 < pid} × σ
  readByte : Int → σ → Except Errno (Option Char) × σ
  write : Int → CStr → σ → Int × σ
  waitpid : Int → Bool → σ → Except Errno (ℕ × ℕ) × σ
  close : Int → σ → Except Errno Unit × σ
  kill : Int → σ → Except Errno Unit × σ

/-- `vdev_action_daemonlet_clean`. -/
def daemonletClean (sys : Sys σ) (act : Action) (w : σ) : Action × σ :=
  let w := if act.daemonletStdin ≥ 0 then (sys.close act.daemonletStdin w).2 else w
  let w := if act.daemonletStdout ≥ 0 then (sys.close act.daemonletStdout w).2 else w
  ({ act with daemonletPid := -1, daemonletStdin := -1, daemonletStdout := -1 }, w)

/-- The end of `vdev_action_daemonlet_start`, in the parent after `fork`. -/
def daemonletStarted (sys : Sys σ) (act : Action) (pid : Int) (stdin stdout : ℕ) (w : σ) :
    Int × Action × σ :=
  let act' :=
    { act with
      isDaemonlet := true, daemonletPid := pid, daemonletStdin := stdin, daemonletStdout := stdout }
  if !act.async then
    match sys.readByte stdout w with
    | (.ok (some _), w) => (0, act', w)
    | (.ok none, w) => (Errno.echild.rc, act, (sys.close stdout (sys.close stdin w).2).2)
    | (.error e, w) => (e.rc, act, (sys.close stdout (sys.close stdin w).2).2)
  else (0, act', w)

/-- `daemonlet_runner_path`; `snprintf` prints `(null)` for a NULL string. -/
def runnerPath (st : VdevState) : CStr :=
  snprintf PATH_MAX (st.config.helpersDir.getD "(null)".toList ++ "/daemonlet".toList)

/-- `vdev_action_daemonlet_start`. A failed `stat` is returned as it is, without
its error number. -/
def daemonletStart (sys : Sys σ) (st : VdevState) (act : Action) (w : σ) : Int × Action × σ :=
  if act.daemonletPid > 0 then (0, act, w)
  else
    match sys.runnerExecutable (runnerPath st) w with
    | (none, w) => (-1, act, w)
    | (some false, w) => (Errno.eperm.rc, act, w)
    | (some true, w) =>
      match sys.pipe w with
      | (.error e, w) => (e.rc, act, w)
      | (.ok (in0, in1), w) =>
        match sys.pipe w with
        | (.error e, w) => (e.rc, act, (sys.close in1 (sys.close in0 w).2).2)
        | (.ok (out0, out1), w) =>
          match sys.fork w with
          | (.error e, w) =>
            (e.rc, act,
              (sys.close out1 (sys.close out0 (sys.close in1 (sys.close in0 w).2).2).2).2)
          | (.ok pid, w) =>
            daemonletStarted sys act pid in1 out0 (sys.close out1 (sys.close in0 w).2).2

/-- The loop of `vdev_action_daemonlet_stop` that joins with the daemonlet. -/
def joinLoop (sys : Sys σ) : ℕ → Action → σ → Option (Int × Action × σ)
  | 0, _, _ => none
  | fuel + 1, act, w =>
    match sys.waitpid act.daemonletPid false w with
    | (.error e, w) =>
      if e = .echild then
        let (act, w) := daemonletClean sys act w
        some (0, act, w)
      else if e = .eintr then
        match sys.waitpid act.daemonletPid true w with
        | (.ok (child, status), w) =>
          if child > 0 then some (status, act, w) else joinLoop sys fuel act w
        | (.error _, w) => joinLoop sys fuel act w
      else joinLoop sys fuel act w
    | (.ok (child, status), w) =>
      if child > 0 then some (status, act, w) else joinLoop sys fuel act w

/-- The part of `vdev_action_daemonlet_stop` that asks the daemonlet to die. -/
def askToDie (sys : Sys σ) (act : Action) (w : σ) : Action × σ :=
  match sys.close act.daemonletStdin w with
  | (.error _, w) =>
    let act := { act with daemonletStdin := -1 }
    daemonletClean sys act (sys.kill act.daemonletPid w).2
  | (.ok _, w) => ({ act with daemonletStdin := -1 }, (sys.kill act.daemonletPid w).2)

/-- The test of `vdev_action_daemonlet_stop` for a daemonlet that is not running. -/
def joinedOrGone (pid : Int) : Except Errno (ℕ × ℕ) → Bool
  | .error _ => true
  | .ok (child, _) => (child : Int) = pid

/-- `vdev_action_daemonlet_stop`. -/
def daemonletStop (sys : Sys σ) (fuel : ℕ) (act : Action) (w : σ) : Option (Int × Action × σ) :=
  if act.daemonletPid ≤ 0 ∨ act.daemonletStdin < 0 ∨ act.daemonletStdout < 0 then some (0, act, w)
  else
    let (joined, w) := sys.waitpid act.daemonletPid true w
    if joinedOrGone act.daemonletPid joined then
      let (act, w) := daemonletClean sys act w
      some (0, act, w)
    else
      let (act, w) := askToDie sys act w
      match joinLoop sys fuel act w with
      | none => none
      | some (rc, act, w) =>
        let (act, w) := daemonletClean sys act w
        some (rc, act, w)

/-- Arithmetic of `int64_t` and the cast to `int`. -/
def toInt64 (x : Int) : Int := x.bmod (2 ^ 64)
def toInt (x : Int) : Int := x.bmod (2 ^ 32)

/-- The loop of `vdev_action_daemonlet_read_int64`. A leading minus sign is added
to the value like a digit, and a character that is no digit ends the number. -/
def readInt64Loop (sys : Sys σ) (fd : Int) :
    ℕ → Int → Int → ℕ → σ → Option (Except Errno Int × σ)
  | 0, _, _, _, _ => none
  | fuel + 1, value, s, cnt, w =>
    match sys.readByte fd w with
    | (.error e, w) => some (.error e, w)
    | (.ok none, w) => some (.error .eagain, w)
    | (.ok (some c), w) =>
      let next := toInt64 (toInt64 (value * 10) + ((c.toNat : Int) - '0'.toNat))
      if c = '\n' then some (.ok (toInt64 (value * s)), w)
      else if cnt = 0 ∧ c = '-' then readInt64Loop sys fd fuel next (-1) (cnt + 1) w
      else if c < '0' ∨ c > '9' then some (.ok (toInt64 (value * s)), w)
      else readInt64Loop sys fd fuel next s (cnt + 1) w

/-- `vdev_action_daemonlet_read_int64`. -/
def readInt64 (sys : Sys σ) (fuel : ℕ) (fd : Int) (w : σ) : Option (Except Errno Int × σ) :=
  readInt64Loop sys fd fuel 0 1 0 w

/-- One line of the environment, as it is put into `env_buf`. -/
def envLine (e : CStr) : CStr := snprintf PATH_MAX (e ++ ['\n'])

/-- The end-of-environment flag. -/
def doneLine : CStr := "done\n".toList

/-- The loop of `vdev_action_daemonlet_send_command` that feeds the environment. -/
def feedEnv (sys : Sys σ) (fd : Int) : List CStr → Int → σ → Int × σ
  | [], rc, w => (rc, w)
  | e :: env, _, w =>
    let (rc, w) := sys.write fd (envLine e) w
    if rc < 0 then (rc, w) else feedEnv sys fd env rc w

/-- The part of `vdev_action_daemonlet_send_command` that writes the request. -/
def writeStanza (sys : Sys σ) (env : List CStr) (act : Action) (w : σ) : Int × σ :=
  let (rc, w) := feedEnv sys act.daemonletStdin env 0 w
  if rc > 0 then sys.write act.daemonletStdin doneLine w else (rc, w)

/-- `vdev_action_daemonlet_send_command`: its return value and `*daemonlet_rc`. -/
def sendCommand (sys : Sys σ) (fuel : ℕ) (st : VdevState) (vreq : Request) (act : Action)
    (daemonletRc : Int) (w : σ) : Option (Int × Int × σ) :=
  match requestToEnv st vreq act.helperVars true with
  | none => none
  | some env =>
    let (rc, w) := writeStanza sys env act w
    if rc < 0 then
      some (if rc = Errno.epipe.rc then Errno.eagain.rc else Errno.eperm.rc, daemonletRc, w)
    else if act.async then some (0, 0, w)
    else
      match readInt64 sys fuel act.daemonletStdout w with
      | none => none
      | some (.error e, w) =>
        some (if e = .epipe then Errno.eagain.rc else Errno.eperm.rc, daemonletRc, w)
      | some (.ok status, w) =>
        if status < 0 ∨ status > 255 then some (Errno.eagain.rc, status, w)
        else some (0, status, w)

/-- A call of `vdev_action_daemonlet_send_command`: what it returned, and the
status that it left in `daemonlet_rc`. -/
structure Sent where
  rc : Int
  status : Int
  deriving DecidableEq

/-- The outcome of `vdev_action_run_daemonlet`. -/
structure Outcome (σ : Type) where
  rc : Int
  act : Action
  world : σ
  sends : List Sent

/-- The loop of `vdev_action_run_daemonlet`, with the attempts that are left. It
starts, and goes on, with `rc == 0`. -/
def attempts (sys : Sys σ) (fuel : ℕ) (st : VdevState) (vreq : Request) :
    ℕ → Action → Int → List Sent → σ → Option (Outcome σ)
  | 0, act, daemonletRc, sends, w => some ⟨toInt daemonletRc, act, w, sends⟩
  | n + 1, act, daemonletRc, sends, w =>
    match sendCommand sys fuel st vreq act daemonletRc w with
    | none => none
    | some (rc, daemonletRc, w) =>
      let sends := sends ++ [⟨rc, daemonletRc⟩]
      if rc ≠ 0 then
        if rc = Errno.eagain.rc then
          match daemonletStop sys fuel act w with
          | none => none
          | some (rc, act, w) =>
            if rc < 0 then some ⟨Errno.eperm.rc, act, w, sends⟩
            else
              let (rc, act, w) := daemonletStart sys st act w
              if rc < 0 then some ⟨Errno.eperm.rc, act, w, sends⟩
              else attempts sys fuel st vreq n act daemonletRc sends w
        else some ⟨Errno.eperm.rc, act, w, sends⟩
      else some ⟨toInt daemonletRc, act, w, sends⟩

/-- `vdev_action_run_daemonlet`. -/
def runDaemonlet (sys : Sys σ) (fuel : ℕ) (st : VdevState) (vreq : Request) (act : Action)
    (w : σ) : Option (Outcome σ) :=
  if !act.isDaemonlet then some ⟨Errno.einval.rc, act, w, []⟩
  else
    let (rc, act, w) := if act.daemonletPid ≤ 0 then daemonletStart sys st act w else (0, act, w)
    if rc < 0 then some ⟨Errno.eperm.rc, act, w, []⟩
    else attempts sys fuel st vreq 2 act 0 [] w

theorem joinLoop_succ (sys : Sys σ) (fuel : ℕ) (act : Action) (w : σ) (r : Int × Action × σ)
    (h : joinLoop sys fuel act w = some r) : joinLoop sys (fuel + 1) act w = some r := by
  induction fuel generalizing w with
  | zero => cases h
  | succ fuel ih =>
    rw [joinLoop] at h ⊢
    split at h
    · split_ifs at h ⊢
      · exact h
      · split at h
        · split_ifs at h ⊢
          · exact h
          · exact ih _ h
        · exact ih _ h
      · exact ih _ h
    · split_ifs at h ⊢
      · exact h
      · exact ih _ h

theorem readInt64Loop_succ (sys : Sys σ) (fd : Int) (fuel cnt : ℕ) (value s : Int) (w : σ)
    (r : Except Errno Int × σ) (h : readInt64Loop sys fd fuel value s cnt w = some r) :
    readInt64Loop sys fd (fuel + 1) value s cnt w = some r := by
  induction fuel generalizing value s cnt w with
  | zero => cases h
  | succ fuel ih =>
    rw [readInt64Loop] at h ⊢
    split at h
    · exact h
    · exact h
    · dsimp only at h ⊢
      split_ifs at h ⊢
      · exact h
      · exact ih _ _ _ _ h
      · exact h
      · exact ih _ _ _ _ h

theorem daemonletStop_succ (sys : Sys σ) (fuel : ℕ) (act : Action) (w : σ) (r : Int × Action × σ)
    (h : daemonletStop sys fuel act w = some r) : daemonletStop sys (fuel + 1) act w = some r := by
  unfold daemonletStop at h ⊢
  split_ifs at h ⊢
  · exact h
  · dsimp only at h ⊢
    split_ifs at h ⊢
    · exact h
    · cases hjoin : joinLoop sys fuel (askToDie sys act (sys.waitpid act.daemonletPid true w).2).1
          (askToDie sys act (sys.waitpid act.daemonletPid true w).2).2 with
      | none =>
        rw [hjoin] at h
        cases h
      | some joined =>
        rw [hjoin] at h
        rw [joinLoop_succ sys fuel _ _ _ hjoin]
        exact h

theorem sendCommand_succ (sys : Sys σ) (fuel : ℕ) (st : VdevState) (vreq : Request)
    (act : Action) (daemonletRc : Int) (w : σ) (r : Int × Int × σ)
    (h : sendCommand sys fuel st vreq act daemonletRc w = some r) :
    sendCommand sys (fuel + 1) st vreq act daemonletRc w = some r := by
  unfold sendCommand readInt64 at h ⊢
  split at h
  · cases h
  · rename_i env _
    dsimp only at h ⊢
    generalize writeStanza sys env act w = written at h ⊢
    split_ifs at h ⊢
    · exact h
    · exact h
    · exact h
    · cases hread : readInt64Loop sys act.daemonletStdout fuel 0 1 0 written.2 with
      | none =>
        rw [hread] at h
        cases h
      | some read =>
        rw [hread] at h
        rw [readInt64Loop_succ sys _ fuel _ _ _ _ _ hread]
        exact h

theorem attempts_succ (sys : Sys σ) (fuel : ℕ) (st : VdevState) (vreq : Request) (n : ℕ)
    (act : Action) (daemonletRc : Int) (sends : List Sent) (w : σ) (out : Outcome σ)
    (h : attempts sys fuel st vreq n act daemonletRc sends w = some out) :
    attempts sys (fuel + 1) st vreq n act daemonletRc sends w = some out := by
  induction n generalizing act daemonletRc sends w with
  | zero => exact h
  | succ n ih =>
    rw [attempts] at h ⊢
    cases hsend : sendCommand sys fuel st vreq act daemonletRc w with
    | none =>
      rw [hsend] at h
      cases h
    | some sent =>
      obtain ⟨rc, status, w₁⟩ := sent
      rw [hsend] at h
      rw [sendCommand_succ sys fuel st vreq act daemonletRc w _ hsend]
      dsimp only at h ⊢
      by_cases hrc : rc ≠ 0
      · rw [if_pos hrc] at h ⊢
        by_cases hagain : rc = Errno.eagain.rc
        · rw [if_pos hagain] at h ⊢
          cases hstop : daemonletStop sys fuel act w₁ with
          | none =>
            rw [hstop] at h
            cases h
          | some stopped =>
            rw [hstop] at h
            rw [daemonletStop_succ sys fuel act w₁ _ hstop]
            dsimp only at h ⊢
            split_ifs at h ⊢
            · exact h
            · exact h
            · exact ih _ _ _ _ h
        · rw [if_neg hagain] at h ⊢
          exact h
      · rw [if_neg hrc] at h ⊢
        exact h

/-- More fuel does not change the result of a call. -/
theorem runDaemonlet_fuel (sys : Sys σ) (fuel fuel' : ℕ) (hle : fuel ≤ fuel') (st : VdevState)
    (vreq : Request) (act : Action) (w : σ) (out : Outcome σ)
    (h : runDaemonlet sys fuel st vreq act w = some out) :
    runDaemonlet sys fuel' st vreq act w = some out := by
  induction hle with
  | refl => exact h
  | step _ ih =>
    unfold runDaemonlet at ih ⊢
    split at ih
    · rename_i hnone
      rw [if_pos hnone]
      exact ih
    · rename_i hsome
      rw [if_neg hsome]
      generalize (if act.daemonletPid ≤ 0 then daemonletStart sys st act w else (0, act, w)) =
        started at ih ⊢
      dsimp only at ih ⊢
      split at ih
      · rename_i hneg
        rw [if_pos hneg]
        exact ih
      · rename_i hpos
        rw [if_neg hpos]
        exact attempts_succ sys _ st vreq 2 _ 0 [] _ out ih

end Vdev.Daemonlet
