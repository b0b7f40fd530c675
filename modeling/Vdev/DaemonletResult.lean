import Vdev.Daemonlet

/-!
The return value of `vdev_action_run_daemonlet`. One variable holds the results of
sending, stopping and starting in turn, and the status is kept from one attempt to
the next. The main result says exactly when the value is the status of a request
that the daemonlet has answered.
-/
namespace Vdev.DaemonletResult

open CString Data Environment Daemonlet

variable {σ : Type}

/-- The result is not invented: a value that is not negative is the status of a
request that was sent in this call, and without such a request the result is
negative. -/
structure Honest (act : Action) (out : Outcome σ) : Prop where
  status : 0 ≤ out.rc → ∃ x ∈ out.sends, x.rc = 0 ∧ x.status = out.rc ∧ out.rc ≤ 255 ∧
    (act.async = true → out.rc = 0)
  failure : (∀ x ∈ out.sends, x.rc ≠ 0) → out.rc < 0

/-- All attempts that are left are answered by "retry", every restart succeeds,
and the status that is left over is not negative. -/
def Exhausts (sys : Sys σ) (fuel : ℕ) (st : VdevState) (vreq : Request) :
    ℕ → Action → Int → σ → Prop
  | 0, _, daemonletRc, _ => 0 ≤ toInt daemonletRc
  | n + 1, act, daemonletRc, w =>
    ∃ daemonletRc' w₁ rc₂ act₂ w₂ rc₃ act₃ w₃,
      sendCommand sys fuel st vreq act daemonletRc w = some (Errno.eagain.rc, daemonletRc', w₁) ∧
      daemonletStop sys fuel act w₁ = some (rc₂, act₂, w₂) ∧ 0 ≤ rc₂ ∧
      daemonletStart sys st act₂ w₂ = (rc₃, act₃, w₃) ∧ 0 ≤ rc₃ ∧
      Exhausts sys fuel st vreq n act₃ daemonletRc' w₃

/-- The daemonlet is running or can be started, and then both attempts are used up. -/
def UsesUpAttempts (sys : Sys σ) (fuel : ℕ) (st : VdevState) (vreq : Request) (act : Action)
    (w : σ) : Prop :=
  ∃ rc act₁ w₁, (if act.daemonletPid ≤ 0 then daemonletStart sys st act w else (0, act, w)) =
    (rc, act₁, w₁) ∧ 0 ≤ rc ∧ Exhausts sys fuel st vreq 2 act₁ 0 w₁

theorem toInt_of_status (x : Int) (h₀ : 0 ≤ x) (h₁ : x ≤ 255) : toInt x = x := by
  unfold toInt
  rw [Int.bmod_def]
  omega

/-- A request that was answered has a status that a process can exit with. -/
theorem sendCommand_eq_zero (sys : Sys σ) (fuel : ℕ) (st : VdevState) (vreq : Request)
    (act : Action) (daemonletRc status : Int) (w w' : σ)
    (h : sendCommand sys fuel st vreq act daemonletRc w = some (0, status, w')) :
    0 ≤ status ∧ status ≤ 255 ∧ (act.async = true → status = 0) := by
  have hretry : ∀ (p : Prop) [Decidable p], (if p then Errno.eagain.rc else Errno.eperm.rc) ≠ 0 := by
    intro p _
    split_ifs
    · decide
    · decide
  unfold sendCommand at h
  split at h
  · cases h
  · rename_i env _
    dsimp only at h
    generalize writeStanza sys env act w = written at h
    split at h
    · rw [Option.some.injEq, Prod.mk.injEq] at h
      exact absurd h.1 (hretry _)
    · split at h
      · cases h
        exact ⟨le_rfl, by omega, fun _ => rfl⟩
      · rename_i hasync
        split at h
        · cases h
        · rw [Option.some.injEq, Prod.mk.injEq] at h
          exact absurd h.1 (hretry _)
        · split at h
          · rw [Option.some.injEq, Prod.mk.injEq] at h
            exact absurd h.1 (by decide)
          · cases h
            exact ⟨by omega, by omega, fun ha => absurd ha hasync⟩

/-- Starting a daemonlet returns zero or an error, and keeps its other settings. -/
theorem daemonletStart_spec (sys : Sys σ) (st : VdevState) (act : Action) (w : σ) :
    (daemonletStart sys st act w).1 ≤ 0 ∧ (daemonletStart sys st act w).2.1.async = act.async := by
  have herr : ∀ e : Errno, e.rc ≤ 0 := fun e => e.rc_neg.le
  have hstarted : ∀ pid stdin stdout w, (daemonletStarted sys act pid stdin stdout w).1 ≤ 0 ∧
      (daemonletStarted sys act pid stdin stdout w).2.1.async = act.async := by
    intro pid stdin stdout w
    unfold daemonletStarted
    dsimp only
    split
    · split
      · exact ⟨le_rfl, rfl⟩
      · exact ⟨herr .echild, rfl⟩
      · exact ⟨herr _, rfl⟩
    · exact ⟨le_rfl, rfl⟩
  unfold daemonletStart
  split
  · exact ⟨le_rfl, rfl⟩
  · split
    · exact ⟨show (-1 : Int) ≤ 0 by decide, rfl⟩
    · exact ⟨herr .eperm, rfl⟩
    · split
      · exact ⟨herr _, rfl⟩
      · split
        · exact ⟨herr _, rfl⟩
        · split
          · exact ⟨herr _, rfl⟩
          · exact hstarted _ _ _ _

theorem joinLoop_async (sys : Sys σ) (fuel : ℕ) (act act' : Action) (rc : Int) (w w' : σ)
    (h : joinLoop sys fuel act w = some (rc, act', w')) : act'.async = act.async := by
  induction fuel generalizing w with
  | zero => cases h
  | succ fuel ih =>
    rw [joinLoop] at h
    split at h
    · split at h
      · cases h
        rfl
      · split at h
        · split at h
          · split at h
            · cases h
              rfl
            · exact ih _ h
          · exact ih _ h
        · exact ih _ h
    · split at h
      · cases h
        rfl
      · exact ih _ h

theorem daemonletStop_async (sys : Sys σ) (fuel : ℕ) (act act' : Action) (rc : Int) (w w' : σ)
    (h : daemonletStop sys fuel act w = some (rc, act', w')) : act'.async = act.async := by
  have hask : (askToDie sys act (sys.waitpid act.daemonletPid true w).2).1.async = act.async := by
    unfold askToDie
    split
    · rfl
    · rfl
  unfold daemonletStop at h
  split at h
  · cases h
    rfl
  · dsimp only at h
    split at h
    · cases h
      rfl
    · split at h
      · cases h
      · rename_i hjoin
        cases h
        have hj := joinLoop_async sys fuel _ _ _ _ _ hjoin
        exact hj.trans hask

/-- The attempts that are left give an honest result unless they are used up. -/
theorem attempts_honest (sys : Sys σ) (fuel : ℕ) (st : VdevState) (vreq : Request) (n : ℕ)
    (act act₀ : Action) (hasync : act.async = act₀.async) (daemonletRc : Int)
    (sends : List Sent) (hsends : ∀ x ∈ sends, x.rc ≠ 0) (w : σ) (out : Outcome σ)
    (hnot : ¬Exhausts sys fuel st vreq n act daemonletRc w)
    (h : attempts sys fuel st vreq n act daemonletRc sends w = some out) : Honest act₀ out := by
  have hneg : ∀ out : Outcome σ, out.rc < 0 → Honest act₀ out := by
    intro out hlt
    refine ⟨fun hge => ?_, fun _ => hlt⟩
    omega
  induction n generalizing act daemonletRc sends w with
  | zero =>
    rw [attempts] at h
    cases h
    apply hneg
    rw [Exhausts] at hnot
    exact not_le.mp hnot
  | succ n ih =>
    rw [attempts] at h
    split at h
    · cases h
    · rename_i rc status w₁ hsend
      dsimp only at h
      by_cases hrc : rc = 0
      · subst hrc
        rw [if_neg (by simp)] at h
        cases h
        obtain ⟨h₀, h₁, ha⟩ := sendCommand_eq_zero sys fuel st vreq act _ _ _ _ hsend
        have hval := toInt_of_status status h₀ h₁
        refine ⟨fun _ => ⟨⟨0, status⟩, by simp, rfl, hval.symm, ?_, ?_⟩, fun hall => ?_⟩
        · exact hval.trans_le h₁
        · intro hact
          exact hval.trans (ha (hasync.trans hact))
        · exact absurd rfl (hall ⟨0, status⟩ (by simp))
      · rw [if_pos hrc] at h
        have hsends' : ∀ x ∈ sends ++ [⟨rc, status⟩], x.rc ≠ 0 := by
          intro x hx
          rcases List.mem_append.mp hx with hx | hx
          · exact hsends x hx
          · rw [List.mem_singleton.mp hx]
            exact hrc
        split at h
        · rename_i hagain
          subst hagain
          split at h
          · cases h
          · rename_i rc₂ act₂ w₂ hstop
            split at h
            · cases h
              exact hneg _ (Errno.rc_neg .eperm)
            · rename_i hrc₂
              have hspec := daemonletStart_spec sys st act₂ w₂
              split at h
              · cases h
                exact hneg _ (Errno.rc_neg .eperm)
              · rename_i hrc₃
                refine ih _ ?_ _ _ hsends' _ ?_ h
                · rw [hspec.2, daemonletStop_async sys fuel _ _ _ _ _ hstop, hasync]
                · intro hex
                  exact hnot ⟨status, w₁, rc₂, act₂, w₂, _, _, _, hsend, hstop, not_lt.mp hrc₂, rfl,
                    not_lt.mp hrc₃, hex⟩
        · cases h
          exact hneg _ (Errno.rc_neg .eperm)

/-- Attempts that are used up end with the status that is left over, although no
request was answered. -/
theorem attempts_exhausted (sys : Sys σ) (fuel : ℕ) (st : VdevState) (vreq : Request) (n : ℕ)
    (act : Action) (daemonletRc : Int) (sends : List Sent) (hsends : ∀ x ∈ sends, x.rc ≠ 0)
    (w : σ) (hex : Exhausts sys fuel st vreq n act daemonletRc w) :
    ∃ out, attempts sys fuel st vreq n act daemonletRc sends w = some out ∧ 0 ≤ out.rc ∧
      ∀ x ∈ out.sends, x.rc ≠ 0 := by
  induction n generalizing act daemonletRc sends w with
  | zero => exact ⟨_, rfl, hex, hsends⟩
  | succ n ih =>
    obtain ⟨status, w₁, rc₂, act₂, w₂, rc₃, act₃, w₃, hsend, hstop, hrc₂, hstart, hrc₃, hex⟩ := hex
    have hsends' : ∀ x ∈ sends ++ [⟨Errno.eagain.rc, status⟩], x.rc ≠ 0 := by
      intro x hx
      rcases List.mem_append.mp hx with hx | hx
      · exact hsends x hx
      · rw [List.mem_singleton.mp hx]
        exact Errno.rc_ne_zero .eagain
    obtain ⟨out, hout, hge, hall⟩ := ih act₃ status _ hsends' w₃ hex
    refine ⟨out, ?_, hge, hall⟩
    rw [attempts, hsend]
    dsimp only
    rw [if_pos (Errno.rc_ne_zero _), if_pos rfl, hstop]
    dsimp only
    rw [if_neg (not_lt.mpr hrc₂), hstart]
    dsimp only
    rw [if_neg (not_lt.mpr hrc₃)]
    exact hout

/-- The result of running a daemonlet is honest, whatever the outcomes of the
system calls, exactly when the two attempts are not used up. -/
theorem runDaemonlet_honest_iff (sys : Sys σ) (fuel : ℕ) (st : VdevState) (vreq : Request)
    (act : Action) (hdaemonlet : act.isDaemonlet = true) (w : σ) :
    (∀ out, runDaemonlet sys fuel st vreq act w = some out → Honest act out) ↔
      ¬UsesUpAttempts sys fuel st vreq act w := by
  have hneg : ¬(!act.isDaemonlet) = true := by
    rw [hdaemonlet]
    decide
  rw [runDaemonlet, if_neg hneg]
  have hasync : (if act.daemonletPid ≤ 0 then daemonletStart sys st act w
      else (0, act, w)).2.1.async = act.async := by
    split
    · exact (daemonletStart_spec sys st act w).2
    · rfl
  unfold UsesUpAttempts
  generalize (if act.daemonletPid ≤ 0 then daemonletStart sys st act w else (0, act, w)) = started
    at hasync ⊢
  obtain ⟨rc, act₁, w₁⟩ := started
  dsimp only at hasync ⊢
  constructor
  · rintro h ⟨_, _, _, heq, hge, hex⟩
    cases heq
    obtain ⟨out, hout, hrc, hall⟩ :=
      attempts_exhausted sys fuel st vreq 2 act₁ 0 [] (by simp) w₁ hex
    have hlt := (h out (by rw [if_neg (not_lt.mpr hge)]; exact hout)).failure hall
    omega
  · intro hnot out hout
    split at hout
    · cases hout
      refine ⟨fun hge => ?_, fun _ => Errno.rc_neg .eperm⟩
      exact absurd hge (not_le.mpr (Errno.rc_neg .eperm))
    · rename_i hge
      refine attempts_honest sys fuel st vreq 2 act₁ act hasync 0 [] (by simp) w₁ out ?_ hout
      intro hex
      exact hnot ⟨rc, act₁, w₁, rfl, not_lt.mp hge, hex⟩

/-- A daemonlet that can be started and stopped, answers with the characters in
the world, and whose input pipe gives the result `written`. -/
def scriptedSys (written : Int) : Sys CStr where
  runnerExecutable _ w := (some true, w)
  pipe w := (.ok (3, 4), w)
  fork w := (.ok ⟨100, by decide⟩, w)
  readByte _ w := match w with
    | [] => (.ok none, [])
    | c :: w => (.ok (some c), w)
  write _ _ w := (written, w)
  waitpid _ _ w := (.error .echild, w)
  close _ w := (.ok (), w)
  kill _ w := (.ok (), w)

def daemonletAction : Action :=
  { trigger := .any, command := some "helper".toList, isDaemonlet := true }

/-- The daemonlet signals that it is ready, and answers the request with 3. -/
theorem runDaemonlet_honest_answered :
    ∃ out, runDaemonlet (scriptedSys 1) 5 bareState { type := .add, path := some "sda".toList }
        daemonletAction "\n3\n".toList = some out ∧ out.rc = 3 ∧ Honest daemonletAction out := by
  have hrun : (runDaemonlet (scriptedSys 1) 5 bareState
      { type := .add, path := some "sda".toList } daemonletAction "\n3\n".toList).map
        Outcome.rc = some 3 := by
    decide +kernel
  obtain ⟨out, hout, hrc⟩ := Option.map_eq_some_iff.mp hrun
  refine ⟨out, hout, hrc, (runDaemonlet_honest_iff (scriptedSys 1) 5 bareState
    { type := .add, path := some "sda".toList } daemonletAction rfl "\n3\n".toList).mpr ?_ out hout⟩
  rintro ⟨rc, act, w, hstart, _, _, _, _, _, _, _, _, _, hsend, _⟩
  have hstart' : (daemonletStart (scriptedSys 1) bareState daemonletAction
      "\n3\n".toList) = (rc, act, w) := hstart
  have hsent : (sendCommand (scriptedSys 1) 5 bareState
      { type := .add, path := some "sda".toList }
      (daemonletStart (scriptedSys 1) bareState daemonletAction "\n3\n".toList).2.1 0
      (daemonletStart (scriptedSys 1) bareState daemonletAction "\n3\n".toList).2.2).map
        (fun r => (r.1, r.2.1)) = some (0, 3) := by
    decide +kernel
  rw [hstart', hsend] at hsent
  have hrc : Errno.eagain.rc = 0 := (Prod.mk.inj (Option.some.inj hsent)).1
  exact Errno.rc_ne_zero _ hrc

/-- The daemonlet closes its input each time: both requests fail, both restarts
succeed, and the call returns the status 0. -/
theorem runDaemonlet_invents_status :
    (runDaemonlet (scriptedSys Errno.epipe.rc) 5 bareState
      { type := .add, path := some "sda".toList } daemonletAction "\n\n\n".toList).map
        (fun out => (out.rc, out.sends)) =
      some (0, [⟨Errno.eagain.rc, 0⟩, ⟨Errno.eagain.rc, 0⟩]) ∧
    ¬∀ out, runDaemonlet (scriptedSys Errno.epipe.rc) 5 bareState
      { type := .add, path := some "sda".toList } daemonletAction "\n\n\n".toList = some out →
        Honest daemonletAction out := by
  have hrun : (runDaemonlet (scriptedSys Errno.epipe.rc) 5 bareState
      { type := .add, path := some "sda".toList } daemonletAction "\n\n\n".toList).map
        (fun out => (out.rc, out.sends)) =
      some (0, [⟨Errno.eagain.rc, 0⟩, ⟨Errno.eagain.rc, 0⟩]) := by
    decide +kernel
  refine ⟨hrun, fun h => ?_⟩
  obtain ⟨out, hout, heq⟩ := Option.map_eq_some_iff.mp hrun
  obtain ⟨hrc, hsends⟩ := Prod.mk.inj heq
  have hlt := (h out hout).failure (by rw [hsends]; decide)
  rw [hrc] at hlt
  exact absurd hlt (by decide)

end Vdev.DaemonletResult
