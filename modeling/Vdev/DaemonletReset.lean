import Vdev.DaemonletResult

/-!
What a failed exchange leaves behind (vdevd/action.c). A daemonlet is either recorded
in its action, with its process and both pipe ends, or the three fields are reset.
`vdev_action_daemonlet_stop` always resets them, but the permanent failures of
`vdev_action_daemonlet_send_command` do not reach it, and the end of the daemonlet's
output is one of them.
-/
namespace Vdev.DaemonletReset

open CString Data Environment Daemonlet DaemonletResult

variable {σ : Type}

/-- The daemonlet fields as `vdev_action_init` sets them. -/
structure Reset (act : Action) : Prop where
  pid : act.daemonletPid = -1
  stdin : act.daemonletStdin = -1
  stdout : act.daemonletStdout = -1

/-- The action records a running daemonlet. -/
structure Recorded (act : Action) : Prop where
  isDaemonlet : act.isDaemonlet = true
  pid : 0 < act.daemonletPid
  stdin : 0 ≤ act.daemonletStdin
  stdout : 0 ≤ act.daemonletStdout

def Consistent (act : Action) : Prop := Reset act ∨ Recorded act

theorem Recorded.not_reset {act : Action} (h : Recorded act) : ¬Reset act := by
  intro hreset
  have hpid := h.pid
  rw [hreset.pid] at hpid
  omega

theorem reset_daemonletClean (sys : Sys σ) (act : Action) (w : σ) :
    Reset (daemonletClean sys act w).1 :=
  ⟨rfl, rfl, rfl⟩

/-- Starting a daemonlet records it, or fails and leaves the action as it was. -/
theorem daemonletStart_cases (sys : Sys σ) (st : VdevState) {act : Action} (w : σ)
    (hact : Consistent act) :
    ((daemonletStart sys st act w).1 < 0 ∧ (daemonletStart sys st act w).2.1 = act) ∨
      ((daemonletStart sys st act w).1 = 0 ∧ Recorded (daemonletStart sys st act w).2.1) := by
  have herr : ∀ e : Errno, e.rc < 0 := Errno.rc_neg
  have hstarted : ∀ (pid : Int) (stdin stdout : ℕ) (w : σ), 0 < pid →
      ((daemonletStarted sys act pid stdin stdout w).1 < 0 ∧
        (daemonletStarted sys act pid stdin stdout w).2.1 = act) ∨
      ((daemonletStarted sys act pid stdin stdout w).1 = 0 ∧
        Recorded (daemonletStarted sys act pid stdin stdout w).2.1) := by
    intro pid stdin stdout w hpid
    have hrecorded : Recorded
        { act with
          isDaemonlet := true, daemonletPid := pid, daemonletStdin := stdin
          daemonletStdout := stdout } :=
      ⟨rfl, hpid, Int.natCast_nonneg stdin, Int.natCast_nonneg stdout⟩
    unfold daemonletStarted
    dsimp only
    split
    · split
      · exact Or.inr ⟨rfl, hrecorded⟩
      · exact Or.inl ⟨herr .echild, rfl⟩
      · exact Or.inl ⟨herr _, rfl⟩
    · exact Or.inr ⟨rfl, hrecorded⟩
  unfold daemonletStart
  split
  · rename_i hpid
    refine Or.inr ⟨rfl, hact.resolve_left (fun hreset => ?_)⟩
    rw [hreset.pid] at hpid
    omega
  · split
    · exact Or.inl ⟨show (-1 : Int) < 0 by decide, rfl⟩
    · exact Or.inl ⟨herr .eperm, rfl⟩
    · split
      · exact Or.inl ⟨herr _, rfl⟩
      · split
        · exact Or.inl ⟨herr _, rfl⟩
        · split
          · exact Or.inl ⟨herr _, rfl⟩
          · rename_i pid _ _
            exact hstarted _ _ _ _ pid.2

theorem joinLoop_nonneg (sys : Sys σ) (fuel : ℕ) (act act' : Action) (rc : Int) (w w' : σ)
    (h : joinLoop sys fuel act w = some (rc, act', w')) : 0 ≤ rc := by
  induction fuel generalizing w with
  | zero => cases h
  | succ fuel ih =>
    rw [joinLoop] at h
    split at h
    · split at h
      · cases h
        exact le_rfl
      · split at h
        · split at h
          · split at h
            · cases h
              exact Int.natCast_nonneg _
            · exact ih _ h
          · exact ih _ h
        · exact ih _ h
    · split at h
      · cases h
        exact Int.natCast_nonneg _
      · exact ih _ h

/-- Stopping a daemonlet does not fail, and resets its fields. -/
theorem daemonletStop_reset {sys : Sys σ} {fuel : ℕ} {act act' : Action} {rc : Int} {w w' : σ}
    (hact : Consistent act) (h : daemonletStop sys fuel act w = some (rc, act', w')) :
    0 ≤ rc ∧ Reset act' := by
  unfold daemonletStop at h
  split at h
  · rename_i hnot
    cases h
    refine ⟨le_rfl, hact.resolve_right (fun hrec => ?_)⟩
    have hpid := hrec.pid
    have hin := hrec.stdin
    have hout := hrec.stdout
    omega
  · dsimp only at h
    split at h
    · cases h
      exact ⟨le_rfl, reset_daemonletClean sys act _⟩
    · split at h
      · cases h
      · rename_i hjoin
        cases h
        exact ⟨joinLoop_nonneg sys fuel _ _ _ _ _ hjoin, reset_daemonletClean sys _ _⟩

/-- The request cannot be written, or its status not be read, for a reason other than a
broken pipe. The end of the daemonlet's output counts as one. -/
def GivesUp (sys : Sys σ) (fuel : ℕ) (st : VdevState) (vreq : Request) (act : Action) (w : σ) :
    Prop :=
  ∃ env, requestToEnv st vreq act.helperVars true = some env ∧
    ((writeStanza sys env act w).1 < 0 ∧ (writeStanza sys env act w).1 ≠ Errno.epipe.rc ∨
      0 ≤ (writeStanza sys env act w).1 ∧ act.async = false ∧ ∃ e w',
        readInt64 sys fuel act.daemonletStdout (writeStanza sys env act w).2 =
          some (.error e, w') ∧ e ≠ .epipe)

/-- The output of the daemonlet ends before its reply does. -/
def DiesBeforeReplying (sys : Sys σ) (fuel : ℕ) (st : VdevState) (vreq : Request) (act : Action)
    (w : σ) : Prop :=
  ∃ env, requestToEnv st vreq act.helperVars true = some env ∧
    0 ≤ (writeStanza sys env act w).1 ∧ act.async = false ∧ ∃ w',
      readInt64 sys fuel act.daemonletStdout (writeStanza sys env act w).2 =
        some (.error .eagain, w')

theorem DiesBeforeReplying.givesUp {sys : Sys σ} {fuel : ℕ} {st : VdevState} {vreq : Request}
    {act : Action} {w : σ} (h : DiesBeforeReplying sys fuel st vreq act w) :
    GivesUp sys fuel st vreq act w := by
  obtain ⟨env, henv, hwritten, hsync, w', hread⟩ := h
  exact ⟨env, henv, Or.inr ⟨hwritten, hsync, .eagain, w', hread, by decide⟩⟩

/-- A request that is given up is a permanent failure. -/
theorem sendCommand_of_givesUp {sys : Sys σ} {fuel : ℕ} {st : VdevState} {vreq : Request}
    {act : Action} (daemonletRc : Int) {w : σ} (h : GivesUp sys fuel st vreq act w) :
    ∃ status w', sendCommand sys fuel st vreq act daemonletRc w =
      some (Errno.eperm.rc, status, w') := by
  obtain ⟨env, henv, h⟩ := h
  unfold sendCommand
  rw [henv]
  dsimp only
  obtain ⟨hneg, hpipe⟩ | ⟨hwritten, hsync, e, w', hread, hpipe⟩ := h
  · rw [if_pos hneg, if_neg hpipe]
    exact ⟨_, _, rfl⟩
  · rw [if_neg (not_lt.mpr hwritten), if_neg (by simp [hsync]), hread]
    dsimp only
    rw [if_neg hpipe]
    exact ⟨_, _, rfl⟩

/-- A request is answered, or it is to be retried, or it is given up. -/
theorem sendCommand_cases {sys : Sys σ} {fuel : ℕ} {st : VdevState} {vreq : Request}
    {act : Action} {daemonletRc rc status : Int} {w w' : σ}
    (h : sendCommand sys fuel st vreq act daemonletRc w = some (rc, status, w')) :
    rc = 0 ∨ rc = Errno.eagain.rc ∨ rc = Errno.eperm.rc ∧ GivesUp sys fuel st vreq act w := by
  unfold sendCommand at h
  split at h
  · cases h
  · rename_i env henv
    dsimp only at h
    split at h
    · rename_i hneg
      cases h
      split_ifs with hpipe
      · exact Or.inr (Or.inl rfl)
      · exact Or.inr (Or.inr ⟨rfl, env, henv, Or.inl ⟨hneg, hpipe⟩⟩)
    · rename_i hwritten
      split at h
      · cases h
        exact Or.inl rfl
      · rename_i hsync
        split at h
        · cases h
        · rename_i e w'' hread
          cases h
          split_ifs with hpipe
          · exact Or.inr (Or.inl rfl)
          · exact Or.inr (Or.inr ⟨rfl, env, henv, Or.inr ⟨not_lt.mp hwritten,
              by simpa using hsync, e, _, hread, hpipe⟩⟩)
        · split at h
          · cases h
            exact Or.inr (Or.inl rfl)
          · cases h
            exact Or.inl rfl

/-- The attempts that are left end with a negative result while a daemonlet is recorded:
one of them is given up, or all of them are used up and the status that is left over is
negative. -/
def LeavesRunning (sys : Sys σ) (fuel : ℕ) (st : VdevState) (vreq : Request) :
    ℕ → Action → Int → σ → Prop
  | 0, _, daemonletRc, _ => toInt daemonletRc < 0
  | n + 1, act, daemonletRc, w =>
    GivesUp sys fuel st vreq act w ∨ ∃ daemonletRc' w₁ rc₂ act₂ w₂ rc₃ act₃ w₃,
      sendCommand sys fuel st vreq act daemonletRc w = some (Errno.eagain.rc, daemonletRc', w₁) ∧
      daemonletStop sys fuel act w₁ = some (rc₂, act₂, w₂) ∧
      daemonletStart sys st act₂ w₂ = (rc₃, act₃, w₃) ∧ 0 ≤ rc₃ ∧
      LeavesRunning sys fuel st vreq n act₃ daemonletRc' w₃

theorem not_givesUp {sys : Sys σ} {fuel : ℕ} {st : VdevState} {vreq : Request} {act : Action}
    {daemonletRc : Int} {w : σ} {r : Option (Int × Int × σ)}
    (hsend : sendCommand sys fuel st vreq act daemonletRc w = r)
    (hr : ∀ status w', r ≠ some (Errno.eperm.rc, status, w')) :
    ¬GivesUp sys fuel st vreq act w := by
  intro hgives
  obtain ⟨status, w', hsend'⟩ := sendCommand_of_givesUp daemonletRc hgives
  exact hr status w' (hsend.symm.trans hsend')

/-- An attempt that is not given up leaves a daemonlet running when the attempts after
the restart do. -/
theorem leavesRunning_succ_iff {sys : Sys σ} {fuel : ℕ} {st : VdevState} {vreq : Request} {n : ℕ}
    {act : Action} {daemonletRc : Int} {w : σ} (hnot : ¬GivesUp sys fuel st vreq act w) :
    LeavesRunning sys fuel st vreq (n + 1) act daemonletRc w ↔
      ∃ daemonletRc' w₁ rc₂ act₂ w₂ rc₃ act₃ w₃,
        sendCommand sys fuel st vreq act daemonletRc w =
          some (Errno.eagain.rc, daemonletRc', w₁) ∧
        daemonletStop sys fuel act w₁ = some (rc₂, act₂, w₂) ∧
        daemonletStart sys st act₂ w₂ = (rc₃, act₃, w₃) ∧ 0 ≤ rc₃ ∧
        LeavesRunning sys fuel st vreq n act₃ daemonletRc' w₃ :=
  or_iff_right hnot

/-- The attempts that are left reset the daemonlet when they fail, exactly when they do
not leave it running. -/
theorem attempts_reset_iff (sys : Sys σ) (fuel : ℕ) (st : VdevState) (vreq : Request) (n : ℕ)
    (act : Action) (hact : Recorded act) (daemonletRc : Int) (sends : List Sent) (w : σ) :
    (∀ out, attempts sys fuel st vreq n act daemonletRc sends w = some out →
      out.rc < 0 → Reset out.act) ↔ ¬LeavesRunning sys fuel st vreq n act daemonletRc w := by
  induction n generalizing act daemonletRc sends w with
  | zero =>
    refine ⟨fun h hneg => hact.not_reset (h _ rfl hneg), fun hnot out hout hneg => ?_⟩
    cases hout
    exact absurd hneg hnot
  | succ n ih =>
    rw [attempts]
    cases hsend : sendCommand sys fuel st vreq act daemonletRc w with
    | none =>
      have hnot := not_givesUp hsend (fun _ _ h => by cases h)
      rw [leavesRunning_succ_iff hnot, hsend]
      simp
    | some sent =>
      obtain ⟨rc, status, w₁⟩ := sent
      dsimp only
      rcases sendCommand_cases hsend with rfl | rfl | ⟨rfl, hgives⟩
      · -- the request was answered
        have hnot := not_givesUp hsend (fun _ _ h => by cases h)
        rw [leavesRunning_succ_iff hnot, hsend, if_neg (by simp)]
        obtain ⟨hpos, hle, _⟩ := sendCommand_eq_zero sys fuel st vreq act _ _ _ _ hsend
        refine ⟨?_, fun _ out hout hneg => ?_⟩
        · rintro - ⟨_, _, _, _, _, _, _, _, hsend', _⟩
          cases hsend'
        · cases hout
          have hstatus : status < 0 := by
            rw [← toInt_of_status status hpos hle]
            exact hneg
          omega
      · -- the daemonlet is to be restarted
        have hnot := not_givesUp hsend (fun _ _ h => by cases h)
        rw [leavesRunning_succ_iff hnot, hsend, if_pos (Errno.rc_ne_zero _), if_pos rfl]
        cases hstop : daemonletStop sys fuel act w₁ with
        | none =>
          refine ⟨?_, fun _ _ hout => by cases hout⟩
          rintro - ⟨_, _, _, _, _, _, _, _, hsend', hstop', _⟩
          cases hsend'
          rw [hstop] at hstop'
          cases hstop'
        | some stopped =>
          obtain ⟨rc₂, act₂, w₂⟩ := stopped
          obtain ⟨hrc₂, hreset⟩ := daemonletStop_reset (Or.inr hact) hstop
          have hstart := daemonletStart_cases sys st w₂ (Or.inl hreset)
          dsimp only
          rw [if_neg (not_lt.mpr hrc₂)]
          obtain ⟨hneg, hsame⟩ | ⟨hzero, hrecorded⟩ := hstart
          · -- it could not be started again
            rw [if_pos hneg]
            refine ⟨?_, fun _ out hout _ => ?_⟩
            · rintro - ⟨_, _, _, _, _, _, _, _, hsend', hstop', hstart', hpos, _⟩
              cases hsend'
              rw [hstop] at hstop'
              cases hstop'
              rw [hstart'] at hneg
              exact absurd hneg (not_lt.mpr hpos)
            · cases hout
              rw [hsame]
              exact hreset
          · rw [if_neg (by omega), ih _ hrecorded]
            refine not_congr ⟨fun hleaves => ?_, ?_⟩
            · exact ⟨status, w₁, rc₂, act₂, w₂, _, _, _, rfl, hstop, rfl, hzero.ge, hleaves⟩
            · rintro ⟨_, _, _, _, _, _, _, _, hsend', hstop', hstart', _, hleaves⟩
              cases hsend'
              rw [hstop] at hstop'
              cases hstop'
              rw [hstart']
              exact hleaves
      · -- the request was given up
        rw [if_pos (Errno.rc_ne_zero _), if_neg (by decide)]
        refine ⟨fun h => ?_, fun hnot => absurd (Or.inl hgives) hnot⟩
        exact absurd (h _ rfl (Errno.rc_neg .eperm)) hact.not_reset

def firstStart (sys : Sys σ) (st : VdevState) (act : Action) (w : σ) : Int × Action × σ :=
  if act.daemonletPid ≤ 0 then daemonletStart sys st act w else (0, act, w)

/-- A call that fails resets the daemonlet, and a daemonlet that dies before replying to
the first attempt is restarted and sent the request again, or is reset because it cannot
be restarted. -/
structure Restartable (sys : Sys σ) (fuel : ℕ) (st : VdevState) (vreq : Request) (act : Action)
    (w : σ) (out : Outcome σ) : Prop where
  reset : out.rc < 0 → Reset out.act
  retried : DiesBeforeReplying sys fuel st vreq (firstStart sys st act w).2.1
    (firstStart sys st act w).2.2 → 2 ≤ out.sends.length ∨ Reset out.act

/-- The call fails and leaves a daemonlet running. -/
def LeavesDaemonlet (sys : Sys σ) (fuel : ℕ) (st : VdevState) (vreq : Request) (act : Action)
    (w : σ) : Prop :=
  act.isDaemonlet = true ∧ 0 ≤ (firstStart sys st act w).1 ∧
    LeavesRunning sys fuel st vreq 2 (firstStart sys st act w).2.1 0 (firstStart sys st act w).2.2

theorem firstStart_cases (sys : Sys σ) (st : VdevState) {act : Action} (w : σ)
    (hact : Consistent act) :
    ((firstStart sys st act w).1 < 0 ∧ Reset (firstStart sys st act w).2.1) ∨
      ((firstStart sys st act w).1 = 0 ∧ Recorded (firstStart sys st act w).2.1) := by
  unfold firstStart
  split
  · rename_i hpid
    obtain ⟨hneg, hsame⟩ | hrecorded := daemonletStart_cases sys st w hact
    · refine Or.inl ⟨hneg, ?_⟩
      rw [hsame]
      exact hact.resolve_right (fun h => absurd h.pid (not_lt.mpr hpid))
    · exact Or.inr hrecorded
  · rename_i hpid
    refine Or.inr ⟨rfl, hact.resolve_left (fun h => ?_)⟩
    rw [h.pid] at hpid
    omega

theorem runDaemonlet_eq (sys : Sys σ) (fuel : ℕ) (st : VdevState) (vreq : Request) (act : Action)
    (w : σ) : runDaemonlet sys fuel st vreq act w =
      if !act.isDaemonlet then some ⟨Errno.einval.rc, act, w, []⟩
      else if (firstStart sys st act w).1 < 0 then
        some ⟨Errno.eperm.rc, (firstStart sys st act w).2.1, (firstStart sys st act w).2.2, []⟩
      else
        attempts sys fuel st vreq 2 (firstStart sys st act w).2.1 0 []
          (firstStart sys st act w).2.2 :=
  rfl

/-- A call whose attempts do not begin leaves the action reset. -/
theorem reset_of_not_begun {sys : Sys σ} {fuel : ℕ} {st : VdevState} {vreq : Request}
    {act : Action} {w : σ} {out : Outcome σ} (hact : Consistent act)
    (hbegun : ¬(act.isDaemonlet = true ∧ 0 ≤ (firstStart sys st act w).1))
    (h : runDaemonlet sys fuel st vreq act w = some out) : Reset out.act := by
  rw [runDaemonlet_eq] at h
  cases hdaemonlet : act.isDaemonlet with
  | false =>
    rw [hdaemonlet, if_pos (by decide)] at h
    cases h
    refine hact.resolve_right (fun hrecorded => ?_)
    rw [hrecorded.isDaemonlet] at hdaemonlet
    cases hdaemonlet
  | true =>
    have hneg : (firstStart sys st act w).1 < 0 :=
      not_le.mp (fun hpos => hbegun ⟨hdaemonlet, hpos⟩)
    rw [hdaemonlet, if_neg (by decide), if_pos hneg] at h
    cases h
    obtain ⟨_, hreset⟩ | ⟨hzero, _⟩ := firstStart_cases sys st w hact
    · exact hreset
    · omega

/-- A call on a consistent action leaves it restartable exactly when no daemonlet is left
running. -/
theorem runDaemonlet_restartable_iff (sys : Sys σ) (fuel : ℕ) (st : VdevState) (vreq : Request)
    (act : Action) (hact : Consistent act) (w : σ) :
    (∀ out, runDaemonlet sys fuel st vreq act w = some out →
      Restartable sys fuel st vreq act w out) ↔ ¬LeavesDaemonlet sys fuel st vreq act w := by
  by_cases hbegun : act.isDaemonlet = true ∧ 0 ≤ (firstStart sys st act w).1
  · have hrecorded : Recorded (firstStart sys st act w).2.1 := by
      obtain ⟨hneg, _⟩ | ⟨_, hrecorded⟩ := firstStart_cases sys st w hact
      · omega
      · exact hrecorded
    have hattempts := attempts_reset_iff sys fuel st vreq 2 _ hrecorded 0 []
      (firstStart sys st act w).2.2
    have hleaves : LeavesDaemonlet sys fuel st vreq act w ↔
        LeavesRunning sys fuel st vreq 2 (firstStart sys st act w).2.1 0
          (firstStart sys st act w).2.2 :=
      ⟨fun h => h.2.2, fun h => ⟨hbegun.1, hbegun.2, h⟩⟩
    rw [hleaves, ← hattempts, runDaemonlet_eq, if_neg (by simp [hbegun.1]),
      if_neg (not_lt.mpr hbegun.2)]
    refine ⟨fun h out hout => (h out hout).reset, fun h out hout => ⟨h out hout, fun hdies => ?_⟩⟩
    exact absurd (Or.inl hdies.givesUp) (hattempts.mp h)
  · refine ⟨fun _ hleaves => hbegun ⟨hleaves.1, hleaves.2.1⟩, fun _ out hout => ?_⟩
    have hreset := reset_of_not_begun hact hbegun hout
    exact ⟨fun _ => hreset, fun _ => Or.inr hreset⟩

theorem attempts_consistent {sys : Sys σ} {fuel : ℕ} {st : VdevState} {vreq : Request} {n : ℕ}
    {act : Action} {daemonletRc : Int} {sends : List Sent} {w : σ} {out : Outcome σ}
    (hact : Recorded act) (h : attempts sys fuel st vreq n act daemonletRc sends w = some out) :
    Consistent out.act := by
  induction n generalizing act daemonletRc sends w with
  | zero =>
    cases h
    exact Or.inr hact
  | succ n ih =>
    rw [attempts] at h
    split at h
    · cases h
    · rename_i rc status w₁ hsend
      dsimp only at h
      split at h
      · split at h
        · split at h
          · cases h
          · rename_i rc₂ act₂ w₂ hstop
            have hreset := (daemonletStop_reset (Or.inr hact) hstop).2
            have hstart := daemonletStart_cases sys st w₂ (Or.inl hreset)
            split at h
            · cases h
              exact Or.inl hreset
            · split at h
              · rename_i hneg
                cases h
                obtain ⟨_, hsame⟩ | ⟨_, hrecorded⟩ := hstart
                · left
                  rw [hsame]
                  exact hreset
                · exact Or.inr hrecorded
              · rename_i hpos
                obtain ⟨hneg, _⟩ | ⟨_, hrecorded⟩ := hstart
                · exact absurd hneg hpos
                · exact ih hrecorded h
        · cases h
          exact Or.inr hact
      · cases h
        exact Or.inr hact

/-- A call keeps the action consistent. -/
theorem runDaemonlet_consistent {sys : Sys σ} {fuel : ℕ} {st : VdevState} {vreq : Request}
    {act : Action} {w : σ} {out : Outcome σ} (hact : Consistent act)
    (h : runDaemonlet sys fuel st vreq act w = some out) : Consistent out.act := by
  by_cases hbegun : act.isDaemonlet = true ∧ 0 ≤ (firstStart sys st act w).1
  · rw [runDaemonlet_eq, if_neg (by simp [hbegun.1]), if_neg (not_lt.mpr hbegun.2)] at h
    obtain ⟨hneg, _⟩ | ⟨_, hrecorded⟩ := firstStart_cases sys st w hact
    · omega
    · exact attempts_consistent hrecorded h
  · exact Or.inl (reset_of_not_begun hact hbegun h)

def runCalls (sys : Sys σ) (fuel : ℕ) :
    List (VdevState × Request) → Action → σ → Option (Action × σ)
  | [], act, w => some (act, w)
  | (st, vreq) :: calls, act, w =>
    match runDaemonlet sys fuel st vreq act w with
    | none => none
    | some out => runCalls sys fuel calls out.act out.world

theorem runCalls_consistent {sys : Sys σ} {fuel : ℕ} {calls : List (VdevState × Request)}
    {act act' : Action} {w w' : σ} (hact : Consistent act)
    (h : runCalls sys fuel calls act w = some (act', w')) : Consistent act' := by
  induction calls generalizing act w with
  | nil =>
    cases h
    exact hact
  | cons call calls ih =>
    rw [runCalls] at h
    split at h
    · cases h
    · rename_i out hout
      exact ih (runDaemonlet_consistent hact hout) h

/-- After any sequence of requests to an action that began without a daemonlet, the next
one leaves it restartable exactly when it does not leave a daemonlet running. -/
theorem restartable_iff (sys : Sys σ) (fuel : ℕ) (calls : List (VdevState × Request))
    (act₀ act : Action) (w₀ w : σ) (hfresh : Reset act₀)
    (hrun : runCalls sys fuel calls act₀ w₀ = some (act, w)) (st : VdevState) (vreq : Request) :
    (∀ out, runDaemonlet sys fuel st vreq act w = some out →
      Restartable sys fuel st vreq act w out) ↔ ¬LeavesDaemonlet sys fuel st vreq act w :=
  runDaemonlet_restartable_iff sys fuel st vreq act (runCalls_consistent (Or.inl hfresh) hrun) w

def addSda : Request := { type := .add, path := some "sda".toList }

def runningAction : Action :=
  { daemonletAction with daemonletPid := 100, daemonletStdin := 4, daemonletStdout := 3 }

/-- The daemonlet answers one request with 3, and the next one with 4. -/
theorem restartable_answered :
    ∃ out, runDaemonlet (scriptedSys 1) 5 bareState addSda runningAction "4\n".toList = some out ∧
      Restartable (scriptedSys 1) 5 bareState addSda runningAction "4\n".toList out := by
  have hfirst : runCalls (scriptedSys 1) 5 [(bareState, addSda)] daemonletAction "\n3\n4\n".toList =
      some (runningAction, "4\n".toList) := by
    rfl
  have hsent : (sendCommand (scriptedSys 1) 5 bareState addSda runningAction 0 "4\n".toList).map
      (fun r => (r.1, r.2.1)) = some (0, 4) := by
    decide +kernel
  obtain ⟨sent, hsend, heq⟩ := Option.map_eq_some_iff.mp hsent
  obtain ⟨hrc, _⟩ := Prod.mk.inj heq
  have hnot : ¬LeavesDaemonlet (scriptedSys 1) 5 bareState addSda runningAction "4\n".toList := by
    rintro ⟨_, _, hleaves⟩
    have hgives : ¬GivesUp (scriptedSys 1) 5 bareState addSda runningAction "4\n".toList :=
      not_givesUp hsend (fun status w' h => by
        cases Option.some.inj h
        exact absurd hrc (Errno.rc_ne_zero .eperm))
    obtain ⟨_, _, _, _, _, _, _, _, hsend', _⟩ := (leavesRunning_succ_iff hgives).mp hleaves
    cases Option.some.inj (hsend.symm.trans hsend')
    exact absurd hrc (Errno.rc_ne_zero .eagain)
  have hrun : (runDaemonlet (scriptedSys 1) 5 bareState addSda runningAction "4\n".toList).isSome := by
    decide +kernel
  obtain ⟨out, hout⟩ := Option.isSome_iff_exists.mp hrun
  exact ⟨out, hout, (restartable_iff (scriptedSys 1) 5 [(bareState, addSda)] daemonletAction
    runningAction "\n3\n4\n".toList "4\n".toList ⟨rfl, rfl, rfl⟩ hfirst bareState addSda).mpr hnot
    out hout⟩

/-- The daemonlet signals that it is ready and dies: the request is not sent again, and
the call fails with a process and two pipes left in the action. -/
theorem not_restartable_died :
    (runDaemonlet (scriptedSys 1) 5 bareState addSda daemonletAction "\n".toList).map
        (fun out => (out.rc, out.act.daemonletPid, out.act.daemonletStdin,
          out.act.daemonletStdout, out.sends.length)) =
      some (Errno.eperm.rc, 100, 4, 3, 1) ∧
    ¬∀ out, runDaemonlet (scriptedSys 1) 5 bareState addSda daemonletAction "\n".toList = some out →
      Restartable (scriptedSys 1) 5 bareState addSda daemonletAction "\n".toList out := by
  have hrun : (runDaemonlet (scriptedSys 1) 5 bareState addSda daemonletAction "\n".toList).map
      (fun out => (out.rc, out.act.daemonletPid, out.act.daemonletStdin,
        out.act.daemonletStdout, out.sends.length)) =
      some (Errno.eperm.rc, 100, 4, 3, 1) := by
    decide +kernel
  refine ⟨hrun, fun h => ?_⟩
  obtain ⟨out, hout, heq⟩ := Option.map_eq_some_iff.mp hrun
  obtain ⟨hrc, hfields⟩ := Prod.mk.inj heq
  have hreset := (h out hout).reset (by rw [hrc]; exact Errno.rc_neg _)
  have hpid : out.act.daemonletPid = 100 := (Prod.mk.inj hfields).1
  rw [hreset.pid] at hpid
  cases hpid

end Vdev.DaemonletReset
