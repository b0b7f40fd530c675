import Vdev.DaemonletReset

/-!
The processes behind the daemonlets (vdevd/action.c). The kernel knows the children that
were forked and not joined, each with the ends of its two pipes that vdevd keeps. Every
operation on one action keeps them in step with what the action records, as long as a
synchronous daemonlet that it forks signals that it is ready and the input of one that it
stops can be closed: otherwise the process is neither recorded nor joined.
-/
namespace Vdev.DaemonletProcesses

open CString Data Environment Daemonlet DaemonletReset

variable {τ : Type}

structure Child where
  pid : Int
  stdin : Int
  stdout : Int
  deriving DecidableEq

/-- The children of vdevd that it has not joined, and the pipes it has made, newest
first. A child that is forked gets the last two pipes. -/
structure Processes (sys : Sys τ) where
  children : τ → List Child
  pipes : τ → List (ℕ × ℕ)
  runner : ∀ path w, children (sys.runnerExecutable path w).2 = children w
  pipe : ∀ w, children (sys.pipe w).2 = children w
  pipe_ok : ∀ w ends w', sys.pipe w = (.ok ends, w') → pipes w' = ends :: pipes w
  fork_ok : ∀ w pid w' stdin stdout rest, pipes w = stdout :: stdin :: rest →
    sys.fork w = (.ok pid, w') → (∀ c ∈ children w, c.pid ≠ pid) ∧
      children w' = ⟨pid, stdin.2, stdout.1⟩ :: children w
  fork_error : ∀ w e w', sys.fork w = (.error e, w') → children w' = children w
  readByte : ∀ fd w, children (sys.readByte fd w).2 = children w
  write : ∀ fd text w, children (sys.write fd text w).2 = children w
  close : ∀ fd w, children (sys.close fd w).2 = children w
  kill : ∀ pid w, children (sys.kill pid w).2 = children w
  waitpid_ok : ∀ pid nohang w child status w', 0 < pid →
    sys.waitpid pid nohang w = (.ok (child, status), w') →
      (child = 0 ∧ children w' = children w) ∨
        ((child : Int) = pid ∧ children w' = (children w).filter (·.pid ≠ pid))
  waitpid_error : ∀ pid nohang w e w', 0 < pid → sys.waitpid pid nohang w = (.error e, w') →
    children w' = children w ∧
      (nohang = true ∨ e = .echild → ∀ c ∈ children w, c.pid ≠ pid)

/-- The daemonlet that `vdev_action_daemonlet_start` forks signals that it is ready, unless
it is asynchronous, where nobody asks. -/
def SignalsReady (sys : Sys τ) (st : VdevState) (act : Action) (w : τ) : Prop :=
  act.daemonletPid ≤ 0 → act.async = false → ∀ w₁ in0 in1 w₂ out0 out1 w₃ pid w₄,
    sys.runnerExecutable (runnerPath st) w = (some true, w₁) →
    sys.pipe w₁ = (.ok (in0, in1), w₂) → sys.pipe w₂ = (.ok (out0, out1), w₃) →
    sys.fork w₃ = (.ok pid, w₄) →
      ∃ c w₅, sys.readByte out0 (sys.close out1 (sys.close in0 w₄).2).2 = (.ok (some c), w₅)

/-- A daemonlet that is alive when it is stopped has an input that can be closed. -/
def InputCloses (sys : Sys τ) (act : Action) (w : τ) : Prop :=
  0 < act.daemonletPid →
    joinedOrGone act.daemonletPid (sys.waitpid act.daemonletPid true w).1 = false →
      ∃ w', sys.close act.daemonletStdin (sys.waitpid act.daemonletPid true w).2 = (.ok (), w')

/-- In the attempts that are left, each daemonlet that is stopped has an input that can be
closed, and each one that is started in its place signals that it is ready. -/
def AttemptsCooperate (sys : Sys τ) (fuel : ℕ) (st : VdevState) (vreq : Request) :
    ℕ → Action → Int → τ → Prop
  | 0, _, _, _ => True
  | n + 1, act, daemonletRc, w =>
    ∀ status w₁, sendCommand sys fuel st vreq act daemonletRc w =
        some (Errno.eagain.rc, status, w₁) →
      InputCloses sys act w₁ ∧
        ∀ rc act₂ w₂, daemonletStop sys fuel act w₁ = some (rc, act₂, w₂) → 0 ≤ rc →
          SignalsReady sys st act₂ w₂ ∧
            (0 ≤ (daemonletStart sys st act₂ w₂).1 →
              AttemptsCooperate sys fuel st vreq n (daemonletStart sys st act₂ w₂).2.1 status
                (daemonletStart sys st act₂ w₂).2.2)

/-- The daemonlets of a call of `vdev_action_run_daemonlet` signal that they are ready, and
have an input that can be closed. -/
def Cooperates (sys : Sys τ) (fuel : ℕ) (st : VdevState) (vreq : Request) (act : Action)
    (w : τ) : Prop :=
  act.isDaemonlet = true → SignalsReady sys st act w ∧
    (0 ≤ (firstStart sys st act w).1 →
      AttemptsCooperate sys fuel st vreq 2 (firstStart sys st act w).2.1 0
        (firstStart sys st act w).2.2)

/-- The child that an action records. -/
def recordOf (act : Action) : Option Child :=
  if 0 < act.daemonletPid then
    some ⟨act.daemonletPid, act.daemonletStdin, act.daemonletStdout⟩
  else none

theorem recordOf_reset {act : Action} (h : Reset act) : recordOf act = none := by
  unfold recordOf
  rw [h.pid]
  rfl

theorem recordOf_recorded {act : Action} (h : Recorded act) :
    recordOf act = some ⟨act.daemonletPid, act.daemonletStdin, act.daemonletStdout⟩ :=
  if_pos h.pid

/-- The children are the one that the action records and the others. -/
structure Tracks {sys : Sys τ} (P : Processes sys) (others : List Child) (act : Action) (w : τ) :
    Prop where
  consistent : Consistent act
  children : (P.children w).Perm ((recordOf act).toList ++ others)
  distinct : ((P.children w).map Child.pid).Nodup

section Calls

variable {sys : Sys τ} {P : Processes sys} {others : List Child} {act : Action} {w w' : τ}

theorem Tracks.of_children (h : Tracks P others act w) (hw : P.children w' = P.children w) :
    Tracks P others act w' := by
  refine ⟨h.consistent, ?_, ?_⟩
  · rw [hw]
    exact h.children
  · rw [hw]
    exact h.distinct

theorem children_daemonletClean (act : Action) (w : τ) :
    P.children (daemonletClean sys act w).2 = P.children w := by
  unfold daemonletClean
  dsimp only
  split_ifs
  · rw [P.close, P.close]
  · rw [P.close]
  · rw [P.close]
  · rfl

/-- The action records a child that was forked. -/
theorem Tracks.record (h : Tracks P others act w) (hreset : Reset act)
    (pid : {pid : Int // 0 < pid}) (stdin stdout : ℕ) (hfresh : ∀ c ∈ P.children w, c.pid ≠ pid)
    (hchildren : P.children w' = ⟨pid, stdin, stdout⟩ :: P.children w) :
    Tracks P others
      { act with
        isDaemonlet := true, daemonletPid := pid, daemonletStdin := stdin
        daemonletStdout := stdout } w' := by
  have hrec : Recorded
      { act with
        isDaemonlet := true, daemonletPid := pid, daemonletStdin := stdin
        daemonletStdout := stdout } :=
    ⟨rfl, pid.2, Int.natCast_nonneg stdin, Int.natCast_nonneg stdout⟩
  have hold := h.children
  rw [recordOf_reset hreset] at hold
  refine ⟨Or.inr hrec, ?_, ?_⟩
  · rw [hchildren, recordOf_recorded hrec]
    exact hold.cons _
  · rw [hchildren, List.map_cons, List.nodup_cons]
    refine ⟨fun hmem => ?_, h.distinct⟩
    obtain ⟨c, hc, heq⟩ := List.mem_map.mp hmem
    exact hfresh c hc heq

/-- Starting a daemonlet adds one child, which the action records. -/
theorem Tracks.start {st : VdevState} (hready : SignalsReady sys st act w)
    (h : Tracks P others act w) :
    Tracks P others (daemonletStart sys st act w).2.1 (daemonletStart sys st act w).2.2 := by
  unfold daemonletStart
  split
  · exact h
  · rename_i hpid
    have hreset : Reset act := h.consistent.resolve_right (fun hrec => hpid hrec.pid)
    have hrunner := P.runner (runnerPath st) w
    split
    · rename_i w₁ heq
      rw [heq] at hrunner
      exact h.of_children hrunner
    · rename_i w₁ heq
      rw [heq] at hrunner
      exact h.of_children hrunner
    · rename_i w₁ hexec
      rw [hexec] at hrunner
      have h₁ := h.of_children hrunner
      have hpipe₁ := P.pipe w₁
      split
      · rename_i e w₂ heq₁
        rw [heq₁] at hpipe₁
        exact h₁.of_children hpipe₁
      · rename_i in0 in1 w₂ heq₁
        rw [heq₁] at hpipe₁
        have h₂ := h₁.of_children hpipe₁
        have hpipe₂ := P.pipe w₂
        split
        · rename_i e w₃ heq₂
          rw [heq₂] at hpipe₂
          apply h₂.of_children
          rw [P.close, P.close]
          exact hpipe₂
        · rename_i out0 out1 w₃ heq₂
          rw [heq₂] at hpipe₂
          have h₃ := h₂.of_children hpipe₂
          have hpipes : P.pipes w₃ = (out0, out1) :: (in0, in1) :: P.pipes w₁ := by
            rw [P.pipe_ok _ _ _ heq₂, P.pipe_ok _ _ _ heq₁]
          split
          · rename_i e w₄ heq₃
            apply h₃.of_children
            rw [P.close, P.close, P.close, P.close, P.fork_error _ _ _ heq₃]
          · rename_i pid w₄ heq₃
            obtain ⟨hfresh, hchildren⟩ := P.fork_ok _ _ _ _ _ _ hpipes heq₃
            unfold daemonletStarted
            dsimp only
            split
            · rename_i hsync
              have hread := P.readByte out0 (sys.close out1 (sys.close in0 w₄).2).2
              obtain ⟨c, w₅, hbyte⟩ := hready (not_lt.mp hpid) (by simpa using hsync) _ _ _ _ _ _ _
                _ _ hexec heq₁ heq₂ heq₃
              rw [hbyte] at hread ⊢
              apply h₃.record hreset pid in1 out0 hfresh
              rw [hread, P.close, P.close, hchildren]
            · apply h₃.record hreset pid in1 out0 hfresh
              rw [P.close, P.close, hchildren]

/-- A child that has a process number no longer is the only one that is gone. -/
theorem filter_of_forall_ne {pid : Int} (h : ∀ c ∈ P.children w, c.pid ≠ pid) :
    (P.children w).filter (·.pid ≠ pid) = P.children w := by
  apply List.filter_eq_self.mpr
  intro c hc
  simpa using h c hc

theorem waitpid_gone {pid : Int} {nohang : Bool} {e : Errno} (hpid : 0 < pid)
    (h : sys.waitpid pid nohang w = (.error e, w')) (hgone : nohang = true ∨ e = .echild) :
    P.children w' = (P.children w).filter (·.pid ≠ pid) := by
  obtain ⟨hsame, hne⟩ := P.waitpid_error pid nohang w e w' hpid h
  rw [hsame, filter_of_forall_ne (hne hgone)]

theorem waitpid_joined {pid : Int} {nohang : Bool} {child status : ℕ} (hpid : 0 < pid)
    (h : sys.waitpid pid nohang w = (.ok (child, status), w')) (hchild : 0 < child) :
    P.children w' = (P.children w).filter (·.pid ≠ pid) := by
  obtain ⟨hzero, _⟩ | ⟨_, hfilter⟩ := P.waitpid_ok pid nohang w child status w' hpid h
  · omega
  · exact hfilter

theorem waitpid_waiting {pid : Int} {nohang : Bool} {child status : ℕ} (hpid : 0 < pid)
    (h : sys.waitpid pid nohang w = (.ok (child, status), w')) (hchild : ¬0 < child) :
    P.children w' = P.children w := by
  obtain ⟨_, hsame⟩ | ⟨heq, _⟩ := P.waitpid_ok pid nohang w child status w' hpid h
  · exact hsame
  · omega

theorem children_joinLoop {fuel : ℕ} {act' : Action} {rc : Int}
    (h : joinLoop sys fuel act w = some (rc, act', w')) (hpid : 0 < act.daemonletPid) :
    P.children w' = (P.children w).filter (·.pid ≠ act.daemonletPid) := by
  induction fuel generalizing w with
  | zero => cases h
  | succ fuel ih =>
    rw [joinLoop] at h
    split at h
    · rename_i e w₁ hwait
      have hsame := (P.waitpid_error _ _ _ _ _ hpid hwait).1
      split at h
      · rename_i hgone
        cases h
        exact (children_daemonletClean act w₁).trans (waitpid_gone hpid hwait (Or.inr hgone))
      · split at h
        · split at h
          · rename_i child status w₂ hwait'
            rw [← hsame]
            split at h
            · rename_i hchild
              cases h
              exact waitpid_joined hpid hwait' hchild
            · rename_i hchild
              rw [← waitpid_waiting hpid hwait' hchild]
              exact ih h
          · rename_i e' w₂ hwait'
            rw [← hsame, ← (P.waitpid_error _ _ _ _ _ hpid hwait').1]
            exact ih h
        · rw [← hsame]
          exact ih h
    · rename_i child status w₁ hwait
      split at h
      · rename_i hchild
        cases h
        exact waitpid_joined hpid hwait hchild
      · rename_i hchild
        rw [← waitpid_waiting hpid hwait hchild]
        exact ih h

/-- Stopping a daemonlet joins its process. -/
theorem children_daemonletStop (hcloses : InputCloses sys act w) {fuel : ℕ} {act' : Action}
    {rc : Int} (hact : Recorded act) (h : daemonletStop sys fuel act w = some (rc, act', w')) :
    P.children w' = (P.children w).filter (·.pid ≠ act.daemonletPid) := by
  have hpid := hact.pid
  have hrunning : ¬(act.daemonletPid ≤ 0 ∨ act.daemonletStdin < 0 ∨ act.daemonletStdout < 0) := by
    have hin := hact.stdin
    have hout := hact.stdout
    omega
  rw [daemonletStop, if_neg hrunning] at h
  have hinput := hcloses hpid
  cases hwait : sys.waitpid act.daemonletPid true w with
  | mk joined w₁ =>
    rw [hwait] at h hinput
    dsimp only at h
    cases joined with
    | error e =>
      rw [joinedOrGone, if_pos rfl] at h
      cases h
      rw [children_daemonletClean]
      exact waitpid_gone hpid hwait (Or.inl rfl)
    | ok result =>
      obtain ⟨child, status⟩ := result
      by_cases hjoined : (child : Int) = act.daemonletPid
      · rw [joinedOrGone, if_pos (by simpa using hjoined)] at h
        cases h
        rw [children_daemonletClean]
        exact waitpid_joined hpid hwait (by omega)
      · rw [joinedOrGone, if_neg (by simpa using hjoined)] at h
        have hsame : P.children w₁ = P.children w := by
          obtain ⟨_, hsame⟩ | ⟨heq, _⟩ := P.waitpid_ok _ _ _ _ _ _ hpid hwait
          · exact hsame
          · exact absurd heq hjoined
        obtain ⟨w₂, hclose⟩ := hinput (by simpa [joinedOrGone] using hjoined)
        dsimp only at hclose
        have hclosed := P.close act.daemonletStdin w₁
        rw [hclose] at hclosed
        rw [askToDie, hclose] at h
        dsimp only at h
        split at h
        · cases h
        · rename_i hjoin
          cases h
          have hloop := children_joinLoop (P := P) hjoin hpid
          rw [children_daemonletClean, hloop, P.kill, hclosed, hsame]

/-- Stopping a daemonlet leaves the other children. -/
theorem Tracks.stop (hcloses : InputCloses sys act w) {fuel : ℕ} {act' : Action} {rc : Int}
    (h : Tracks P others act w) (hstop : daemonletStop sys fuel act w = some (rc, act', w')) :
    Tracks P others act' w' := by
  have hreset' := (daemonletStop_reset h.consistent hstop).2
  rcases h.consistent with hreset | hrec
  · have hsame : (0, act, w) = (rc, act', w') := by
      rw [daemonletStop, if_pos (Or.inl (by rw [hreset.pid]; decide))] at hstop
      exact Option.some.inj hstop
    cases hsame
    exact h
  · have hchildren := children_daemonletStop (P := P) hcloses hrec hstop
    have hperm := h.children
    have hdistinct := h.distinct
    rw [recordOf_recorded hrec, Option.toList_some, List.singleton_append] at hperm
    refine ⟨Or.inl hreset', ?_, ?_⟩
    · have hothers : others.filter (fun c => c.pid ≠ act.daemonletPid) = others := by
        have hnodup := (hperm.map Child.pid).nodup_iff.mp hdistinct
        apply List.filter_eq_self.mpr
        intro c hc
        rw [decide_eq_true_eq]
        intro heq
        exact (List.nodup_cons.mp hnodup).1 (List.mem_map.mpr ⟨c, hc, heq⟩)
      have hfilter := hperm.filter (fun c => c.pid ≠ act.daemonletPid)
      rw [List.filter_cons_of_neg (by simp), hothers] at hfilter
      rw [recordOf_reset hreset', hchildren]
      exact hfilter
    · rw [hchildren]
      exact hdistinct.sublist (List.filter_sublist.map Child.pid)

theorem children_feedEnv (fd : Int) (env : List CStr) (rc : Int) (w : τ) :
    P.children (feedEnv sys fd env rc w).2 = P.children w := by
  induction env generalizing rc w with
  | nil => rfl
  | cons e env ih =>
    rw [feedEnv]
    dsimp only
    split
    · exact P.write fd (envLine e) w
    · rw [ih, P.write]

theorem children_writeStanza (env : List CStr) (act : Action) (w : τ) :
    P.children (writeStanza sys env act w).2 = P.children w := by
  unfold writeStanza
  dsimp only
  split
  · rw [P.write, children_feedEnv]
  · rw [children_feedEnv]

theorem children_readInt64Loop {fd : Int} {fuel cnt : ℕ} {value s : Int}
    {r : Except Errno Int} (h : readInt64Loop sys fd fuel value s cnt w = some (r, w')) :
    P.children w' = P.children w := by
  induction fuel generalizing value s cnt w with
  | zero => cases h
  | succ fuel ih =>
    have hread := P.readByte fd w
    rw [readInt64Loop] at h
    split at h
    · rename_i heq
      rw [heq] at hread
      cases h
      exact hread
    · rename_i heq
      rw [heq] at hread
      cases h
      exact hread
    · rename_i c w₁ heq
      rw [heq] at hread
      rw [← hread]
      dsimp only at h
      split_ifs at h
      · cases h
        rfl
      · exact ih h
      · cases h
        rfl
      · exact ih h

/-- Sending a request does not change the children. -/
theorem children_sendCommand {fuel : ℕ} {st : VdevState} {vreq : Request}
    {daemonletRc rc status : Int}
    (h : sendCommand sys fuel st vreq act daemonletRc w = some (rc, status, w')) :
    P.children w' = P.children w := by
  unfold sendCommand at h
  split at h
  · cases h
  · rename_i env _
    have hwritten := children_writeStanza (P := P) env act w
    dsimp only at h
    split at h
    · cases h
      exact hwritten
    · split at h
      · cases h
        exact hwritten
      · split at h
        · cases h
        · rename_i hread
          cases h
          exact (children_readInt64Loop hread).trans hwritten
        · rename_i hread
          have hsame := (children_readInt64Loop hread).trans hwritten
          split at h
          · cases h
            exact hsame
          · cases h
            exact hsame

theorem Tracks.attempts {fuel : ℕ} {st : VdevState} {vreq : Request} {n : ℕ}
    {daemonletRc : Int} {sends : List Sent} {out : Outcome τ} (h : Tracks P others act w)
    (hcoop : AttemptsCooperate sys fuel st vreq n act daemonletRc w)
    (hout : attempts sys fuel st vreq n act daemonletRc sends w = some out) :
    Tracks P others out.act out.world := by
  induction n generalizing act daemonletRc sends w with
  | zero =>
    cases hout
    exact h
  | succ n ih =>
    rw [Daemonlet.attempts] at hout
    split at hout
    · cases hout
    · rename_i rc status w₁ hsend
      have h₁ := h.of_children (children_sendCommand hsend)
      dsimp only at hout
      split at hout
      · split at hout
        · rename_i hagain
          rw [hagain] at hsend
          obtain ⟨hcloses, hrest⟩ := hcoop status w₁ hsend
          split at hout
          · cases hout
          · rename_i rc₂ act₂ w₂ hstop
            have h₂ := h₁.stop hcloses hstop
            split at hout
            · cases hout
              exact h₂
            · rename_i hrc₂
              obtain ⟨hready, hagain⟩ := hrest rc₂ act₂ w₂ hstop (not_lt.mp hrc₂)
              have h₃ := h₂.start hready
              split at hout
              · cases hout
                exact h₃
              · rename_i hrc₃
                exact ih h₃ (hagain (not_lt.mp hrc₃)) hout
        · cases hout
          exact h₁
      · cases hout
        exact h₁

/-- A request to a daemonlet keeps its process and its record in step. -/
theorem Tracks.run {fuel : ℕ} {st : VdevState} {vreq : Request} {out : Outcome τ}
    (h : Tracks P others act w) (hcoop : Cooperates sys fuel st vreq act w)
    (hout : runDaemonlet sys fuel st vreq act w = some out) :
    Tracks P others out.act out.world := by
  rw [runDaemonlet_eq] at hout
  split at hout
  · cases hout
    exact h
  · rename_i hdaemonlet
    obtain ⟨hready, hattempts⟩ := hcoop (by simpa using hdaemonlet)
    have hfirst : Tracks P others (firstStart sys st act w).2.1 (firstStart sys st act w).2.2 := by
      unfold firstStart
      split
      · exact h.start hready
      · exact h
    split at hout
    · cases hout
      exact hfirst
    · rename_i hbegun
      exact hfirst.attempts (hattempts (not_lt.mp hbegun)) hout

end Calls

end Vdev.DaemonletProcesses
