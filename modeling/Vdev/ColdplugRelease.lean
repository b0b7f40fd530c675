import Vdev.Coldplug

/-!
When the parent process is released. The worker tells it that coldplug has
finished when it has grabbed an empty list and then reads the flag that
`vdev_os_next_device` raises. The flag goes up when the last request is fetched,
which is before that request is in the queue. So two things must not happen: the
worker must not find the queue empty while the last request is on its way, and the
flag must not go up between an empty grab and the reading of the flag.
-/
namespace Vdev.ColdplugRelease

open LinkedList WorkQueue QueueOrder Coldplug

variable {Addr ρ P T : Type*} [DecidableEq Addr] [DecidableEq P] [DecidableEq T]

def AllExecuted (initial : List ρ) (s : Sys Addr ρ P T) : Prop :=
  initial.length ≤ (executedInitial s).length

/-- The parent has been told, or nothing can keep the worker from telling it. -/
def Signalling (wq : Wq Addr (Job ρ) (Option P) T) : Prop :=
  wq.coldplugFdOpen = false ∨
    match wq.worker with
    | .grabbed none => wq.osColdplugFinished = true
    | .signalEmpty | .posting _ | .signalColdplug => wq.coldplugFinished = true
    | _ => False

/-- The worker does not grab an empty list while the last request is between its
fetch and its link, and the flag is not raised while the worker is between an
empty grab and the reading of the flag. -/
def Ordered (act : Act Addr ρ P T) (s : Sys Addr ρ P T) : Prop :=
  match act with
  | .queue .worker =>
    s.wq.worker = .grab → s.wq.work = none → s.wq.osColdplugFinished = true → s.os.held = []
  | .os _ => ∀ r, s.os = .fetched r → s.initial = [] → s.wq.worker ≠ .grabbed none
  | _ => True

omit [DecidableEq Addr] [DecidableEq P] [DecidableEq T] in
/-- Steps after which no more is signalled than before. -/
theorem signalling_of_frame {wq wq' : Wq Addr (Job ρ) (Option P) T}
    (hc : wq'.coldplugFinished = wq.coldplugFinished)
    (hos : wq'.osColdplugFinished = wq.osColdplugFinished)
    (hfd : wq'.coldplugFdOpen = wq.coldplugFdOpen)
    (hpc : wq'.worker = wq.worker ∨ wq'.worker = .exited) (h : Signalling wq') :
    Signalling wq := by
  unfold Signalling at h ⊢
  rw [hc, hos, hfd] at h
  rcases h with h | h
  · exact Or.inl h
  · rcases hpc with hpc | hpc
    · rw [hpc] at h
      exact Or.inr h
    · rw [hpc] at h
      cases h

omit [DecidableEq P] [DecidableEq T] in
/-- The worker comes to signal only by grabbing an empty list, and at that moment
everything in the queue has been executed. -/
theorem workerMove_signalling {initial : List ρ} {s : Sys Addr ρ P T}
    {wq : Wq Addr (Job ρ) (Option P) T} {batch work : List (Addr × Job ρ)}
    (hf : Fifo s.wq batch work) (ha : Accounted initial s) (hflag : Flagged s)
    (hok : Ordered (.queue .worker) s) (h : Signalling s.wq → AllExecuted initial s)
    (hmove : WorkerMove s.wq wq) (hsig : Signalling wq) :
    AllExecuted initial { s with wq := wq } := by
  cases hmove with
  | grab hpc =>
    rcases hsig with hfd | hsig
    · exact h (Or.inl hfd)
    · by_cases hwork : s.wq.work = none
      · simp only [hwork] at hsig
        have hheld := hok hpc hwork hsig
        have hall := (grab_fifo hf hpc).order
        have hc := hf.work_chain
        rw [hwork] at hc
        rw [hc.eq_nil] at hall
        simp only [List.map_nil, List.append_nil] at hall
        unfold Accounted at ha
        rw [hheld, (hflag.raised hsig).1, ← hall] at ha
        simp only [List.append_nil] at ha
        exact (congrArg List.length ha).symm.le
      · obtain ⟨a, hhead⟩ := Option.ne_none_iff_exists'.mp hwork
        simp [hhead] at hsig
  | foundEmpty hpc =>
    refine h ?_
    rcases hsig with hfd | hsig
    · exact Or.inl hfd
    · refine Or.inr ?_
      rw [hpc]
      rcases Bool.or_eq_true_iff.mp hsig with hl | hr
      · exact hflag.latched hl
      · exact hr
  | readWaiters hpc => exact h (hsig.imp id (fun hs => by rw [hpc]; exact hs))
  | posted hpc => exact h (hsig.imp id (fun hs => by rw [hpc]; exact hs))
  | post hpc => exact h (hsig.imp id (fun hs => by rw [hpc]; exact hs))
  | coldplug hpc =>
    refine h ?_
    rcases hsig with hfd | hsig
    · cases hopen : s.wq.coldplugFdOpen with
      | false => exact Or.inl hopen
      | true =>
        refine Or.inr ?_
        rw [hpc]
        simpa [hopen] using hfd
    · cases hsig
  | execute hpc hnode =>
    have hdone : AllExecuted initial s := by
      rcases hsig with hfd | hsig
      · exact h (Or.inl hfd)
      · cases hsig
    refine le_trans hdone ?_
    simp [executedInitial]
  | _ =>
    rcases hsig with hfd | hsig
    · exact h (Or.inl hfd)
    · cases hsig

omit [DecidableEq Addr] [DecidableEq P] [DecidableEq T] in
theorem signalling_of_raise {wq : Wq Addr (Job ρ) (Option P) T} (hne : wq.worker ≠ .grabbed none)
    (h : Signalling { wq with osColdplugFinished := true }) : Signalling wq := by
  refine h.imp id (fun hs => ?_)
  dsimp only at hs
  split at hs
  · rename_i hpc
    exact absurd hpc hne
  · exact hs
  · exact hs
  · exact hs
  · cases hs

theorem change_signalling {initial : List ρ} {act : Act Addr ρ P T} {s s' : Sys Addr ρ P T}
    {batch work : List (Addr × Job ρ)} (hf : Fifo s.wq batch work) (ha : Accounted initial s)
    (hflag : Flagged s) (hok : Ordered act s) (h : Signalling s.wq → AllExecuted initial s)
    (hchange : Change s act s') (hsig : Signalling s'.wq) : AllExecuted initial s' := by
  have hframe : ∀ l wq, l ≠ .worker → l ≠ .osColdplugFinished → Move s.wq l wq → Signalling wq →
      AllExecuted initial { s with wq := wq } := by
    intro l wq hw hl hmove hs
    obtain ⟨hexec, hc, hfd, hos, hpc⟩ := move_frame hw hmove
    have hdone := h (signalling_of_frame hc (hos hl) hfd hpc hs)
    unfold AllExecuted executedInitial at hdone ⊢
    rw [hexec]
    exact hdone
  cases hchange with
  | fetch hos hinit => exact h hsig
  | drained hos hinit hheld => exact h hsig
  | @raise a r hos hinit => exact h (signalling_of_raise (hok r hos hinit) hsig)
  | pass hos hinit => exact h hsig
  | link hos hmove => exact hframe _ _ (by simp) (by simp) hmove hsig
  | post hos hmove => exact hframe _ _ (by simp) (by simp) hmove hsig
  | netlink hos hheld => exact h hsig
  | @queue l wq hforeign hmove =>
    by_cases hw : l = .worker
    · subst hw
      cases hmove with
      | worker hworker => exact workerMove_signalling hf ha hflag hok h hworker hsig
    · exact hframe l wq hw (ne_osColdplugFinished_of_foreign hforeign) hmove hsig

/-- In every run that is ordered, the parent is released only after every initial
request has been executed: what the worker has executed of them is the whole list. -/
theorem released_after_coldplug (coldplugOnly : Bool) (initial : List ρ)
    (acts : List (Act Addr ρ P T)) (s : Sys Addr ρ P T)
    (hok : Runs.Guarded (step coldplugOnly) Ordered acts (start initial))
    (h : Runs.run (step coldplugOnly) acts (start initial) = some s)
    (hreleased : s.wq.coldplugFdOpen = false) : executedInitial s = initial := by
  have hall := Runs.guarded_invariant (step coldplugOnly)
    (fun s => (∃ batch work, Fifo s.wq batch work) ∧ Accounted initial s ∧ Flagged s ∧
      (Signalling s.wq → AllExecuted initial s)) ?_ hok ⟨⟨[], [], init_fifo⟩, ?_, ?_, ?_⟩ h
  · obtain ⟨⟨batch, work, hf⟩, ha, -, hs⟩ := hall
    exact (executedInitial_isPrefix hf ha).eq_of_length_le (hs (Or.inl hreleased))
  · rintro act s s' hact ⟨⟨batch, work, hf⟩, ha, hflag, hs⟩ hstep
    have hchange := step_change hstep
    exact ⟨change_fifo hf hchange, change_accounted ha hchange, change_flagged hflag hchange,
      change_signalling hf ha hflag hact hs hchange⟩
  · rfl
  · exact ⟨fun hr => Bool.noConfusion hr, fun hl => Bool.noConfusion hl⟩
  · rintro (hs | hs) <;> cases hs

def orderedCheck (act : Act Addr ρ P T) (s : Sys Addr ρ P T) : Bool :=
  match act with
  | .queue .worker =>
    match s.wq.worker with
    | .grab => s.wq.work.isSome || !s.wq.osColdplugFinished || s.os.held.isEmpty
    | _ => true
  | .os _ =>
    match s.os, s.wq.worker with
    | .fetched _, .grabbed none => !s.initial.isEmpty
    | _, _ => true
  | _ => true

omit [DecidableEq Addr] [DecidableEq P] [DecidableEq T] in
theorem ordered_of_check (act : Act Addr ρ P T) (s : Sys Addr ρ P T)
    (h : orderedCheck act s = true) : Ordered act s := by
  cases act with
  | os a =>
    intro r hos hinit hpc
    simp [orderedCheck, hos, hpc, hinit] at h
  | netlink e => trivial
  | queue l =>
    cases l with
    | worker =>
      intro hpc hwork hflag
      simpa [orderedCheck, hpc, hwork, hflag] using h
    | _ => trivial

/-- Both requests are in the queue before the worker starts; its second token
finds the queue empty. -/
def coldplugInTime : List (Act ℕ Char Unit Unit) :=
  List.replicate 4 (.os 0) ++ List.replicate 4 (.os 1) ++ List.replicate 16 (.queue .worker)

theorem released_after_coldplug_inTime :
    Runs.Guarded (step false) Ordered coldplugInTime (start ['a', 'b']) ∧
    ∃ s, Runs.run (step false) coldplugInTime (start ['a', 'b']) = some s ∧
      s.wq.coldplugFdOpen = false ∧ executedInitial s = ['a', 'b'] := by
  have hok : Runs.Guarded (step false) Ordered coldplugInTime (start ['a', 'b']) :=
    Runs.guarded_of_check (step false) orderedCheck ordered_of_check _ _ (by decide +kernel)
  have hview : (Runs.run (step false) coldplugInTime (start ['a', 'b'])).map
      (fun s => s.wq.coldplugFdOpen) = some false := by
    decide +kernel
  obtain ⟨s, hs, hreleased⟩ := Option.map_eq_some_iff.mp hview
  exact ⟨hok, s, hs, hreleased,
    released_after_coldplug false ['a', 'b'] coldplugInTime s hok hs hreleased⟩

/-- The worker has executed two requests in one batch and goes for its second
token. The thread fetches the last request and raises the flag; the worker finds
the queue empty and the flag up. -/
def coldplugTooEarly : List (Act ℕ Char Unit Unit) :=
  List.replicate 4 (.os 0) ++ List.replicate 4 (.os 1) ++ List.replicate 8 (.queue .worker) ++
    List.replicate 2 (.os 2) ++ List.replicate 8 (.queue .worker)

theorem released_before_last_request :
    ∃ s, Runs.run (step false) coldplugTooEarly (start ['a', 'b', 'c']) = some s ∧
      s.wq.coldplugFdOpen = false ∧ executedInitial s ≠ ['a', 'b', 'c'] := by
  have hview : (Runs.run (step false) coldplugTooEarly (start ['a', 'b', 'c'])).map
      (fun s => (s.wq.coldplugFdOpen, executedInitial s)) = some (false, ['a', 'b']) := by
    decide +kernel
  obtain ⟨s, hs, heq⟩ := Option.map_eq_some_iff.mp hview
  obtain ⟨hreleased, hexec⟩ := Prod.mk.inj heq
  refine ⟨s, hs, hreleased, ?_⟩
  rw [hexec]
  decide

end Vdev.ColdplugRelease
