import Vdev.ColdplugRelease
import Vdev.Tokens

/-!
Notifications that never come. Both the threads in `vdev_wq_wait_for_empty` and the
parent process are woken by a worker that grabs an empty list. If they come to
wait when no token is left over for such a grab, and nothing happens any more, they
wait forever. They are woken in time if there is a surplus of tokens when a thread
registers and a token outstanding when the last initial request is linked. With no
initial request at all the flag is never raised and the parent is never released.
-/
namespace Vdev.Notification

open LinkedList WorkQueue QueueOrder Tokens Coldplug ColdplugRelease

variable {Addr ρ P T : Type*}

/-- Nothing is left to do, and the worker sleeps without a token. -/
structure Quiet (s : Sys Addr ρ P T) : Prop where
  producers : ∀ p, s.wq.producers p = .idle
  empty : s.wq.work = none
  executed : s.wq.executed.length = s.wq.linked.length
  blocked : s.wq.worker = .blocked
  no_token : s.wq.workSem = 0

/-- A thread is in `sem_wait`, and it is registered or there is nothing to take. -/
def StuckWaiter (s : Sys Addr ρ P T) : Prop :=
  (∃ t added, s.wq.waiters t = .waiting added) ∧ (0 < s.wq.numWaiters ∨ s.wq.endSem = 0)

/-- The initial requests are all done, and the parent has not been told. -/
def StuckParent (initial : List ρ) (s : Sys Addr ρ P T) : Prop :=
  s.initial = [] ∧ executedInitial s = initial ∧ s.wq.coldplugFdOpen = true

def Promised (wq : Wq Addr (Job ρ) (Option P) T) : Prop :=
  wq.worker = .exited ∨ Surplus wq ∨ Signalling wq

/-- A thread registers only if the worker will still read `num_waiters`, and the
last initial request is linked only if a token is outstanding or the parent has
been told or is just being told. -/
def Timely (act : Act Addr ρ P T) (s : Sys Addr ρ P T) : Prop :=
  match act with
  | .queue (.waitEnter _) => WillAnnounce s.wq
  | .os _ => ∀ r, s.os = .enqueue (.initial r) → s.wq.osColdplugFinished = true →
      0 < tokens s.wq ∨ s.wq.worker = .exited ∨ Signalling s.wq
  | _ => True

def Raised (s : Sys Addr ρ P T) : Prop :=
  s.initial = [] → (∀ r, s.os ≠ .fetched r) → s.wq.osColdplugFinished = true

variable [DecidableEq Addr] [DecidableEq P] [DecidableEq T]

theorem move_osColdplugFinished {l : Label Addr (Job ρ) (Option P) T}
    {wq wq' : Wq Addr (Job ρ) (Option P) T} (hl : l ≠ .osColdplugFinished) (hmove : Move wq l wq') :
    wq'.osColdplugFinished = wq.osColdplugFinished := by
  by_cases hw : l = .worker
  · subst hw
    cases hmove with
    | worker hworker => exact (workerMove_flags hworker).1
  · exact (move_frame hw hmove).2.2.2.1 hl

theorem change_raised {act : Act Addr ρ P T} {s s' : Sys Addr ρ P T} (h : Raised s)
    (hchange : Change s act s') : Raised s' := by
  intro hinit hos'
  cases hchange with
  | @fetch a r rest hos hinit' => exact absurd rfl (hos' r)
  | drained hos hinit' hheld => exact h hinit (by simp [hos])
  | raise hos hinit' => rfl
  | pass hos hinit' => exact absurd hinit hinit'
  | link hos hmove =>
    exact (move_osColdplugFinished (by simp) hmove).trans (h hinit (by simp [hos]))
  | post hos hmove =>
    exact (move_osColdplugFinished (by simp) hmove).trans (h hinit (by simp [hos]))
  | netlink hos hheld => exact h hinit (by simp [hos])
  | queue hforeign hmove =>
    have hl := ne_osColdplugFinished_of_foreign hforeign
    exact (move_osColdplugFinished hl hmove).trans (h hinit hos')

omit [DecidableEq P] [DecidableEq T] in
/-- On its way from the empty grab the worker tells the parent. -/
theorem workerMove_keepsSignalling {wq wq' : Wq Addr (Job ρ) (Option P) T} (h : Signalling wq)
    (hmove : WorkerMove wq wq') : wq'.worker = .exited ∨ Signalling wq' := by
  rcases h with hfd | h
  · right
    left
    cases hmove with
    | coldplug hpc => simp [hfd]
    | _ => exact hfd
  · cases hmove with
    | stop hpc hrun => exact Or.inl rfl
    | take hpc hsem => rcases hpc with hpc | hpc <;> simp [hpc] at h
    | foundEmpty hpc =>
      simp only [hpc] at h
      exact Or.inr (Or.inr (by simp [h]))
    | readWaiters hpc =>
      simp only [hpc] at h
      exact Or.inr (Or.inr h)
    | posted hpc =>
      simp only [hpc] at h
      exact Or.inr (Or.inr h)
    | post hpc =>
      simp only [hpc] at h
      exact Or.inr (Or.inr h)
    | coldplug hpc =>
      simp only [hpc] at h
      exact Or.inr (Or.inl (by simp [h]))
    | start hpc => simp [hpc] at h
    | block hpc => simp [hpc] at h
    | wake hpc => simp [hpc] at h
    | grab hpc => simp [hpc] at h
    | foundWork hpc => simp [hpc] at h
    | batchDone hpc => simp [hpc] at h
    | execute hpc => simp [hpc] at h

theorem move_keepsSignalling {l : Label Addr (Job ρ) (Option P) T}
    {wq wq' : Wq Addr (Job ρ) (Option P) T} (hl : l ≠ .osColdplugFinished) (h : Signalling wq)
    (hmove : Move wq l wq') : wq'.worker = .exited ∨ Signalling wq' := by
  by_cases hw : l = .worker
  · subst hw
    cases hmove with
    | worker hworker => exact workerMove_keepsSignalling h hworker
  · obtain ⟨-, hc, hfd, hos, hpc⟩ := move_frame hw hmove
    rcases hpc with hpc | hpc
    · refine Or.inr ?_
      exact signalling_of_frame hc.symm (hos hl).symm hfd.symm (Or.inl hpc.symm) h
    · exact Or.inl hpc

theorem move_promised {l : Label Addr (Job ρ) (Option P) T} {wq wq' : Wq Addr (Job ρ) (Option P) T}
    (hl : l ≠ .osColdplugFinished) (ht : Tallied wq) (hflag : wq.osColdplugFinished = true)
    (h : Promised wq) (hmove : Move wq l wq') : Promised wq' := by
  rcases h with h | h | h
  · exact Or.inl (move_exited h hmove)
  · rcases move_surplus ht h hmove with h' | h' | h'
    · exact Or.inl h'
    · exact Or.inr (Or.inl h')
    · refine Or.inr (Or.inr (Or.inr ?_))
      rw [h']
      exact (move_osColdplugFinished hl hmove).trans hflag
  · rcases move_keepsSignalling hl h hmove with h' | h'
    · exact Or.inl h'
    · exact Or.inr (Or.inr h')

theorem change_promised {act : Act Addr ρ P T} {s s' : Sys Addr ρ P T} (ht : Tallied s.wq)
    (hflagged : Flagged s) (hok : Timely act s)
    (h : s.wq.osColdplugFinished = true → s.os.held = [] → Promised s.wq)
    (hchange : Change s act s') (hflag' : s'.wq.osColdplugFinished = true)
    (hheld' : s'.os.held = []) : Promised s'.wq := by
  cases hchange with
  | fetch hos hinit =>
    have hnil := (hflagged.raised hflag').1
    rw [hinit] at hnil
    cases hnil
  | drained hos hinit hheld => exact h hflag' (by rw [hos]; rfl)
  | raise hos hinit => cases hheld'
  | pass hos hinit => cases hheld'
  | @link a job wq hos hmove =>
    have hflag := (move_osColdplugFinished (by simp) hmove).symm.trans hflag'
    cases job with
    | other r => exact move_promised (by simp) ht hflag (h hflag (by rw [hos]; rfl)) hmove
    | initial r =>
      rcases hok r hos hflag with hpos | hexit | hsig
      · exact Or.inr (Or.inl (addLink_surplus ht hpos hmove))
      · exact Or.inl (move_exited hexit hmove)
      · exact move_promised (by simp) ht hflag (Or.inr (Or.inr hsig)) hmove
  | post hos hmove =>
    have hflag := (move_osColdplugFinished (by simp) hmove).symm.trans hflag'
    exact move_promised (by simp) ht hflag (h hflag (by rw [hos]; rfl)) hmove
  | netlink hos hheld => exact h hflag' (by rw [hos]; rfl)
  | queue hforeign hmove =>
    have hl := ne_osColdplugFinished_of_foreign hforeign
    have hflag := (move_osColdplugFinished hl hmove).symm.trans hflag'
    exact move_promised hl ht hflag (h hflag hheld') hmove

theorem change_tallied {act : Act Addr ρ P T} {s s' : Sys Addr ρ P T} (h : Tallied s.wq)
    (hchange : Change s act s') : Tallied s'.wq := by
  cases hchange with
  | raise hos hinit => exact move_tallied h .osColdplugFinished
  | link hos hmove => exact move_tallied h hmove
  | post hos hmove => exact move_tallied h hmove
  | queue hforeign hmove => exact move_tallied h hmove
  | _ => exact h

theorem change_served {act : Act Addr ρ P T} {s s' : Sys Addr ρ P T} (ht : Tallied s.wq)
    (hok : Timely act s) (h : WillAnnounce s.wq ∨ s.wq.numWaiters = 0)
    (hchange : Change s act s') : WillAnnounce s'.wq ∨ s'.wq.numWaiters = 0 := by
  cases hchange with
  | raise hos hinit => exact move_served ht (fun _ hl => by cases hl) h .osColdplugFinished
  | link hos hmove => exact move_served ht (fun _ hl => by cases hl) h hmove
  | post hos hmove => exact move_served ht (fun _ hl => by cases hl) h hmove
  | queue hforeign hmove =>
    refine move_served ht (fun t hl => ?_) h hmove
    subst hl
    exact hok
  | _ => exact h

omit [DecidableEq Addr] [DecidableEq P] [DecidableEq T] in
theorem Quiet.tokens_eq_zero {s : Sys Addr ρ P T} (hq : Quiet s) (ht : Tallied s.wq) :
    tokens s.wq = 0 := by
  have hposts := ht.posts.eq_zero (fun p hp => hp (hq.producers p))
  simp only [tokens, heldToken, hq.blocked, hq.no_token]
  omega

omit [DecidableEq Addr] [DecidableEq P] [DecidableEq T] in
theorem Quiet.not_surplus {s : Sys Addr ρ P T} (hq : Quiet s) (ht : Tallied s.wq) :
    ¬Surplus s.wq := by
  unfold Surplus
  rw [hq.tokens_eq_zero ht]
  exact Nat.not_lt_zero _

omit [DecidableEq Addr] [DecidableEq P] [DecidableEq T] in
/-- Where all is quiet and nobody is registered, every thread that waits has a token. -/
theorem not_stuckWaiter {s : Sys Addr ρ P T} (hq : Quiet s) (ht : Tallied s.wq)
    (hserved : WillAnnounce s.wq ∨ s.wq.numWaiters = 0) : ¬StuckWaiter s := by
  have hnone : s.wq.numWaiters = 0 := by
    rcases hserved with (h | h | h | h) | h
    · rw [hq.blocked] at h
      cases h
    · exact absurd h (hq.not_surplus ht)
    · rw [hq.blocked] at h
      cases h
    · rw [hq.blocked] at h
      cases h
    · exact h
  rintro ⟨⟨t, added, hwait⟩, hor⟩
  have hpos := ht.waits.pos t ⟨added, hwait⟩
  simp only [postsLeft, hq.blocked] at hpos
  omega

omit [DecidableEq Addr] [DecidableEq P] [DecidableEq T] in
theorem not_stuckParent {initial : List ρ} {s : Sys Addr ρ P T}
    {batch work : List (Addr × Job ρ)} (hf : Fifo s.wq batch work) (ha : Accounted initial s)
    (hq : Quiet s) (ht : Tallied s.wq) (hraised : Raised s)
    (hpromised : s.wq.osColdplugFinished = true → s.os.held = [] → Promised s.wq) :
    ¬StuckParent initial s := by
  rintro ⟨hinit, hexec, hopen⟩
  have hheld : s.os.held = [] := by
    have hle := (executedInitial_isPrefix_linked hf).length_le
    have hlen := congrArg List.length ha
    simp only [List.length_append, hinit, List.length_nil, Nat.add_zero] at hlen
    rw [hexec] at hle
    exact List.length_eq_zero_iff.mp (by omega)
  have hflag : s.wq.osColdplugFinished = true := by
    refine hraised hinit ?_
    rintro r hos
    rw [hos] at hheld
    cases hheld
  rcases hpromised hflag hheld with h | h | h | h
  · rw [hq.blocked] at h
    cases h
  · exact hq.not_surplus ht h
  · rw [hopen] at h
    cases h
  · simp [hq.blocked] at h

/-- In every run that is timely, with at least one initial request, no state is
reached in which all is quiet and a thread or the parent still waits. -/
theorem no_stuck_notification (coldplugOnly : Bool) (initial : List ρ) (hne : initial ≠ [])
    (acts : List (Act Addr ρ P T)) (s : Sys Addr ρ P T)
    (hok : Runs.Guarded (step coldplugOnly) Timely acts (start initial))
    (h : Runs.run (step coldplugOnly) acts (start initial) = some s) :
    ¬(Quiet s ∧ (StuckWaiter s ∨ StuckParent initial s)) := by
  have hall := Runs.guarded_invariant (step coldplugOnly)
    (fun s => (∃ batch work, Fifo s.wq batch work) ∧ Accounted initial s ∧ Flagged s ∧
      Tallied s.wq ∧ Raised s ∧ (WillAnnounce s.wq ∨ s.wq.numWaiters = 0) ∧
      (s.wq.osColdplugFinished = true → s.os.held = [] → Promised s.wq)) ?_ hok
    ⟨⟨[], [], init_fifo⟩, rfl, ?_, init_tallied, ?_, Or.inr rfl, ?_⟩ h
  · obtain ⟨⟨batch, work, hf⟩, ha, -, ht, hraised, hserved, hpromised⟩ := hall
    rintro ⟨hq, hstuck | hstuck⟩
    · exact not_stuckWaiter hq ht hserved hstuck
    · exact not_stuckParent hf ha hq ht hraised hpromised hstuck
  · rintro act s s' hact ⟨⟨batch, work, hf⟩, ha, hflag, ht, hraised, hserved, hpromised⟩ hstep
    have hchange := step_change hstep
    exact ⟨change_fifo hf hchange, change_accounted ha hchange, change_flagged hflag hchange,
      change_tallied ht hchange, change_raised hraised hchange, change_served ht hact hserved hchange,
      change_promised ht hflag hact hpromised hchange⟩
  · exact ⟨fun hr => Bool.noConfusion hr, fun hl => Bool.noConfusion hl⟩
  · exact fun hinit _ => absurd hinit hne
  · exact fun hflag => Bool.noConfusion hflag

def idleCheck : Producer → Bool
  | .idle => true
  | .linked _ => false

def quietCheck (s : Sys ℕ Char Unit Unit) : Bool :=
  idleCheck (s.wq.producers none) && idleCheck (s.wq.producers (some ())) && s.wq.work.isNone &&
    s.wq.executed.length == s.wq.linked.length && s.wq.workSem == 0 &&
    match s.wq.worker with
    | .blocked => true
    | _ => false

theorem quiet_of_check (s : Sys ℕ Char Unit Unit) (h : quietCheck s = true) : Quiet s := by
  have hidle : ∀ x, idleCheck x = true → x = .idle := by
    rintro (_ | n) hx
    · rfl
    · cases hx
  simp only [quietCheck, Bool.and_eq_true, beq_iff_eq, Option.isNone_iff_eq_none] at h
  obtain ⟨⟨⟨⟨⟨hos, hother⟩, hwork⟩, hexec⟩, hsem⟩, hpc⟩ := h
  refine ⟨?_, hwork, hexec, ?_, hsem⟩
  · rintro (_ | ⟨⟩)
    · exact hidle _ hos
    · exact hidle _ hother
  · split at hpc
    · assumption
    · cases hpc

def timelyCheck (act : Act ℕ Char Unit Unit) (s : Sys ℕ Char Unit Unit) : Bool :=
  match act with
  | .queue (.waitEnter _) => decide (s.wq.work.isSome.toNat < tokens s.wq)
  | .os _ =>
    match s.os with
    | .enqueue (.initial _) => !s.wq.osColdplugFinished || decide (0 < tokens s.wq)
    | _ => true
  | _ => true

theorem timely_of_check (act : Act ℕ Char Unit Unit) (s : Sys ℕ Char Unit Unit)
    (h : timelyCheck act s = true) : Timely act s := by
  cases act with
  | os a =>
    intro r hos hflag
    left
    simpa [timelyCheck, hos, hflag] using h
  | netlink e => trivial
  | queue l =>
    cases l with
    | waitEnter t =>
      right
      left
      simpa [timelyCheck, Surplus] using h
    | _ => trivial

/-- A thread registers when both requests are in the queue. The worker's second
token finds the queue empty, and it wakes the thread and the parent. -/
def notifiedInTime : List (Act ℕ Char Unit Unit) :=
  List.replicate 4 (.os 0) ++ List.replicate 4 (.os 1) ++ [.queue (.waitEnter ())] ++
    List.replicate 17 (.queue .worker) ++ [.queue (.waitRelease ())] ++
    List.replicate 2 (.queue .worker)

theorem no_stuck_notification_inTime :
    Runs.Guarded (step false) Timely notifiedInTime (start ['a', 'b']) ∧
    ∃ s, Runs.run (step false) notifiedInTime (start ['a', 'b']) = some s ∧ Quiet s ∧
      ¬(Quiet s ∧ (StuckWaiter s ∨ StuckParent ['a', 'b'] s)) := by
  have hok : Runs.Guarded (step false) Timely notifiedInTime (start ['a', 'b']) :=
    Runs.guarded_of_check (step false) timelyCheck timely_of_check _ _ (by decide +kernel)
  have hview : (Runs.run (step false) notifiedInTime (start ['a', 'b'])).map quietCheck =
      some true := by
    decide +kernel
  obtain ⟨s, hs, hquiet⟩ := Option.map_eq_some_iff.mp hview
  exact ⟨hok, s, hs, quiet_of_check s hquiet,
    no_stuck_notification false ['a', 'b'] (by simp) notifiedInTime s hok hs⟩

/-- One request is added and executed; then a thread registers. -/
def nobodyWakes : List (Act ℕ Char Unit Unit) :=
  List.replicate 4 (.os 0) ++ List.replicate 9 (.queue .worker) ++ [.queue (.waitEnter ())]

/-- The only token has been used up for the only request: the thread and the
parent wait forever. Without any request the parent waits forever, too. -/
theorem stuck_after_last_request :
    (∃ s, Runs.run (step false) nobodyWakes (start ['a']) = some s ∧ Quiet s ∧ StuckWaiter s ∧
      StuckParent ['a'] s) ∧
    ∃ s : Sys ℕ Char Unit Unit, Runs.run (step false) (List.replicate 2 (.queue .worker))
      (start []) = some s ∧ Quiet s ∧ StuckParent [] s := by
  have hview : (Runs.run (step false) nobodyWakes (start ['a'])).map (fun s => (quietCheck s,
      s.wq.waiters (), s.wq.numWaiters)) = some (true, .waiting [0], 1) := by
    decide +kernel
  have hparent : (Runs.run (step false) nobodyWakes (start ['a'])).map (fun s => (s.initial,
      executedInitial s, s.wq.coldplugFdOpen)) = some ([], ['a'], true) := by
    decide +kernel
  have hnone : (Runs.run (step false) (List.replicate 2 (.queue .worker))
      (start [] : Sys ℕ Char Unit Unit)).map (fun s => (quietCheck s, s.initial, executedInitial s,
        s.wq.coldplugFdOpen)) = some (true, [], [], true) := by
    decide +kernel
  obtain ⟨s, hs, heq⟩ := Option.map_eq_some_iff.mp hview
  obtain ⟨s', hs', heq'⟩ := Option.map_eq_some_iff.mp hnone
  rw [hs, Option.map_some, Option.some.injEq] at hparent
  simp only [Prod.mk.injEq] at heq heq' hparent
  obtain ⟨hquiet, hwait, hnum⟩ := heq
  refine ⟨⟨s, hs, quiet_of_check s hquiet, ⟨⟨(), [0], hwait⟩, Or.inl ?_⟩, hparent⟩,
    s', hs', quiet_of_check s' heq'.1, heq'.2⟩
  rw [hnum]
  exact Nat.one_pos

end Vdev.Notification
