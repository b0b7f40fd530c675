import Vdev.EventWatch

/-!
A call of `udev_monitor_receive_device_fs` comes to an end (libudev-compat/libudev-monitor.c,
libudev-compat/libudev-fs.c). It goes back to its start when no event of a scan could be pushed, and
when a message is rejected by the filter while more can be had. The first retry has unlinked a file
and the second has taken a message, and no file makes more than one message.
-/
namespace Vdev.ReceiveEnds

open CString EventQueue EventWatch

variable {δ : Type}

/-- A step of a call. Besides those of `Vdev.EventWatch`, `udev_monitor_fs_push_event` may fail on a
file that was opened, before it sends anything: with any code, a file that cannot be read among
them. -/
inductive Label
  | call (l : EventWatch.Label)
  | pushFails (rc : Int)

def step (L : Libudev δ) (l : Label) (s : Watch) : Option Watch :=
  match l with
  | .call l => EventWatch.step L l s
  | .pushFails rc =>
    match s.pc, s.queue.call with
    | .pushing, .pushing name rest =>
      if rc < 0 ∧ name ∈ s.queue.dir then
        some { s with
          queue := { s.queue with call := .unlinking name rc rest }
          pc := .unlinking true rc }
      else none
    | _, _ => none

/-- The steps of the call itself: no file is linked meanwhile, and no other call is made. Watching
and scanning the directory may fail, but not with the code of a full socket, which `open`,
`scandirat` and `inotify_add_watch` do not have. -/
def Own (l : Label) : Prop :=
  match l with
  | .call (.link _ _) | .call .receive => False
  | .call (.arm failure) | .call (.scan failure) => failure ≠ some .eagain
  | _ => True

/-- The call goes back to its start after this scan. -/
def Retries (s : Watch) : Prop := (s.numSent = 0 ∧ 0 < s.numValid) ∨ s.rc = Errno.eagain.rc

instance (s : Watch) : Decidable (Retries s) := inferInstanceAs (Decidable (_ ∨ _))

/-- The loop over the events is where the call is. -/
def AtCall (pc : Pc) (call : EventQueue.Call) : Prop :=
  match pc with
  | .pushing => ∃ name rest, call = .pushing name rest
  | .unlinking opened rc => ∃ name rest, call = .unlinking name (if opened then rc else 0) rest
  | _ => call = .idle

/-- The names that are left in the scan are files, and no name comes twice. -/
structure Inv (s : Watch) : Prop where
  atCall : AtCall s.pc s.queue.call
  nodup : (scannedNames s.queue.call).Nodup
  scanned : ∀ name ∈ scannedNames s.queue.call, name ∈ s.queue.dir

def files (s : Watch) : ℕ := s.queue.dir.keys.card

/-- A file counts twice, once for its message. The one that is about to be unlinked has had its
turn. -/
def weight (s : Watch) : ℕ :=
  match s.pc with
  | .unlinking _ _ => 2 * (files s - 1) + s.queue.sock.length
  | _ => 2 * files s + s.queue.sock.length

/-- How far the call is from its end or from its next message or file. -/
def phase (s : Watch) : ℕ :=
  match s.pc with
  | .idle => 0
  | .receiving => 1
  | .deciding => if Retries s then 9 else 2
  | .pushing => 3
  | .scanning => 4
  | .arming => 5
  | .draining => if s.pending then 7 else 6
  | .polling => 8
  | .filtering => 9
  | .unlinking _ _ => 10

def measure (s : Watch) : ℕ := 11 * weight s + phase s

/-- A step keeps the invariant and makes the measure smaller. -/
def Advances (s t : Watch) : Prop := Inv t ∧ measure t < measure s

theorem weight_of_ne {s : Watch} (h : ∀ opened rc, s.pc ≠ .unlinking opened rc) :
    weight s = 2 * files s + s.queue.sock.length := by
  unfold weight
  split
  · rename_i hpc
    exact absurd hpc (h _ _)
  · rfl

theorem not_unlinking {pc : Pc} (h : AtCall pc .idle) (opened : Bool) (rc : Int) :
    pc ≠ .unlinking opened rc := by
  rintro rfl
  obtain ⟨_, _, hcall⟩ := h
  cases hcall

/-- A step outside the loop over the events that leaves the queues as they are. -/
theorem Inv.move {s t : Watch} (h : Inv s) (hidle : s.queue.call = .idle)
    (hqueue : t.queue = s.queue) (hpc : AtCall t.pc .idle) (hphase : phase t < phase s) :
    Advances s t := by
  have hs : AtCall s.pc .idle := hidle ▸ h.atCall
  refine ⟨⟨?_, ?_, ?_⟩, ?_⟩
  · rw [hqueue, hidle]
    exact hpc
  · rw [hqueue]
    exact h.nodup
  · rw [hqueue]
    exact h.scanned
  · have hweight : weight t = weight s := by
      rw [weight_of_ne (not_unlinking hs), weight_of_ne (not_unlinking hpc), files, files, hqueue]
    unfold measure
    omega

theorem Inv.recvmsg {L : Libudev δ} {s : Watch} {queue : Monitor} (h : Inv s)
    (hpc : s.pc = .receiving) (rejected : Bool)
    (hstep : EventQueue.step L .receive s.queue = some queue) :
    Advances s { s with queue := queue, pc := if rejected then .filtering else .idle } := by
  have hidle : s.queue.call = .idle := by
    have hat := h.atCall
    rwa [hpc] at hat
  cases step_move hstep with
  | receive hsock =>
    refine ⟨⟨?_, h.nodup, h.scanned⟩, ?_⟩
    · cases rejected
      · exact hidle
      · exact hidle
    · have hlen := congrArg List.length hsock
      rw [List.length_cons] at hlen
      cases rejected
      · simp only [measure, weight, phase, files, hpc, Bool.false_eq_true, if_false]
        omega
      · simp only [measure, weight, phase, files, hpc, if_true]
        omega

theorem Inv.scan {L : Libudev δ} {s : Watch} {queue : Monitor}
    (hpc : s.pc = .scanning) (hstep : EventQueue.step L .scan s.queue = some queue) :
    Advances s { s with
      queue := queue
      rc := if queue.call = .idle then Errno.enodata.rc else 0
      numValid := (scandirat s.queue).length
      numSent := 0
      pc := if queue.call = .idle then .deciding else .pushing } := by
  cases step_move hstep with
  | scan _ =>
    have hnodup : (scannedNames (nextCall (scandirat s.queue))).Nodup := by
      rw [scannedNames_nextCall]
      exact scandirat_nodup s.queue
    have hscanned : ∀ name ∈ scannedNames (nextCall (scandirat s.queue)), name ∈ s.queue.dir := by
      rw [scannedNames_nextCall]
      exact fun name hname => scandirat_subset s.queue name hname
    cases hnames : scandirat s.queue with
    | nil =>
      refine ⟨⟨rfl, List.nodup_nil, fun _ hname => absurd hname List.not_mem_nil⟩, ?_⟩
      have hends : ¬Retries { s with
          queue := { s.queue with call := nextCall [] }
          rc := Errno.enodata.rc, numValid := 0, numSent := 0, pc := .deciding } := by
        rintro (⟨-, hvalid⟩ | hagain)
        · exact absurd hvalid (Nat.lt_irrefl 0)
        · exact absurd (show Errno.enodata.rc = Errno.eagain.rc from hagain) (by decide)
      simp only [measure, weight, phase, files, hpc, nextCall, if_true, List.length_nil] at hends ⊢
      rw [if_neg hends]
      omega
    | cons name rest =>
      rw [hnames] at hnodup hscanned
      refine ⟨⟨⟨name, rest, rfl⟩, hnodup, hscanned⟩, ?_⟩
      simp only [measure, weight, phase, files, hpc, nextCall, reduceCtorEq, if_false]
      omega

/-- The turn of a file: at most one message is written, and the file is about to be unlinked. -/
theorem Inv.turn {s : Watch} (h : Inv s) (hpc : s.pc = .pushing) (name : CStr) (rest : List CStr)
    (hcall : s.queue.call = .pushing name rest) (queue : Monitor) (opened : Bool) (rc : Int)
    (hnext : queue.call = .unlinking name (if opened then rc else 0) rest)
    (hdir : queue.dir = s.queue.dir) (hsock : queue.sock.length ≤ s.queue.sock.length + 1) :
    Advances s { s with queue := queue, pc := .unlinking opened rc } := by
  have hnodup := h.nodup
  have hscanned := h.scanned
  rw [hcall] at hnodup hscanned
  refine ⟨⟨⟨name, rest, hnext⟩, ?_, ?_⟩, ?_⟩
  · rw [hnext]
    exact hnodup
  · rw [hnext, hdir]
    exact hscanned
  · have hpos : 0 < s.queue.dir.keys.card :=
      Finset.card_pos.mpr ⟨name, Finmap.mem_keys.mpr (hscanned name List.mem_cons_self)⟩
    simp only [measure, weight, phase, files, hpc, hdir]
    omega

/-- What the push of a file leaves in the queues. -/
theorem pushStep_queue (L : Libudev δ) (q : Monitor) (name : CStr) (rest : List CStr)
    (failure : Option Errno) (accepted : Bool) :
    (pushStep L q name rest failure.isNone accepted).call =
        .unlinking name (if (pushed L q name failure accepted).1 then
          (pushed L q name failure accepted).2 else 0) rest ∧
      (pushStep L q name rest failure.isNone accepted).dir = q.dir ∧
      (pushStep L q name rest failure.isNone accepted).sock.length ≤ q.sock.length + 1 := by
  unfold pushStep pushed
  cases q.dir.lookup name with
  | none => exact ⟨rfl, rfl, Nat.le_succ _⟩
  | some content =>
    cases failure with
    | some e => exact ⟨rfl, rfl, Nat.le_succ _⟩
    | none =>
      dsimp only [Option.isNone]
      cases pushEvent L content accepted with
      | mk rc msg =>
        cases msg with
        | none => exact ⟨rfl, rfl, Nat.le_succ _⟩
        | some msg => exact ⟨rfl, rfl, by simp⟩

/-- The loop has another file, or it is done. -/
theorem finishRound_pc {s : Watch} {queue : Monitor} {opened : Bool} {rc : Int} {rest : List CStr}
    (hcall : queue.call = if goesOn (if opened then rc else 0) then nextCall rest else .idle) :
    (finishRound s queue opened rc).queue = queue ∧
      (finishRound s queue opened rc).pc =
        if queue.call = .idle then .deciding else .pushing := by
  unfold finishRound
  cases opened with
  | false => exact ⟨rfl, rfl⟩
  | true =>
    rw [if_neg (by decide)]
    by_cases hinvalid : rc = -EBADMSG ∨ rc = -EMSGSIZE
    · rw [if_pos hinvalid]
      exact ⟨rfl, rfl⟩
    rw [if_neg hinvalid]
    by_cases hneg : rc < 0
    · have hstop : goesOn rc = false := by
        rw [not_or] at hinvalid
        simp [goesOn, hneg.ne, hinvalid.1, hinvalid.2]
      rw [if_pos rfl, hstop, if_neg Bool.false_ne_true] at hcall
      rw [if_pos hneg, if_pos hcall]
      exact ⟨rfl, rfl⟩
    · rw [if_neg hneg]
      exact ⟨rfl, rfl⟩

theorem Inv.unlink {L : Libudev δ} {s : Watch} {queue : Monitor} {opened : Bool} {rc : Int}
    (h : Inv s) (hpc : s.pc = .unlinking opened rc)
    (hstep : EventQueue.step L .unlink s.queue = some queue) :
    Advances s (finishRound s queue opened rc) := by
  have hat := h.atCall
  rw [hpc] at hat
  obtain ⟨name, rest, hcall⟩ := hat
  have hnodup := h.nodup
  have hscanned := h.scanned
  rw [hcall] at hnodup hscanned
  unfold EventQueue.step at hstep
  rw [hcall] at hstep
  have hqueue := (Option.some.inj hstep).symm
  obtain ⟨hfresh, hnodup⟩ := List.nodup_cons.mp hnodup
  have hnext : queue.call = if goesOn (if opened then rc else 0) then nextCall rest else .idle := by
    rw [hqueue]
  have hdir : queue.dir = s.queue.dir.erase name := by rw [hqueue]
  have hsock : queue.sock = s.queue.sock := by rw [hqueue]
  obtain ⟨hround, hpc'⟩ := finishRound_pc (s := s) hnext
  have hcard : queue.dir.keys.card = s.queue.dir.keys.card - 1 := by
    rw [hdir, Finmap.keys_erase]
    exact Finset.card_erase_of_mem (Finmap.mem_keys.mpr (hscanned name List.mem_cons_self))
  have hgoes : queue.call = nextCall rest ∨ queue.call = .idle := by
    rw [hnext]
    cases goesOn (if opened then rc else 0) with
    | true => exact Or.inl rfl
    | false => exact Or.inr rfl
  have hleft : scannedNames queue.call = rest ∨ scannedNames queue.call = [] := by
    rcases hgoes with hmore | hdone
    · exact Or.inl (by rw [hmore, scannedNames_nextCall])
    · exact Or.inr (by rw [hdone]; rfl)
  refine ⟨⟨?_, ?_, ?_⟩, ?_⟩
  · rw [hround, hpc']
    by_cases hidle : queue.call = .idle
    · rw [if_pos hidle, hidle]
      rfl
    · have hmore := hgoes.resolve_right hidle
      rw [if_neg hidle]
      rw [hmore] at hidle ⊢
      cases rest with
      | nil => exact absurd rfl hidle
      | cons other rest => exact ⟨other, rest, rfl⟩
  · rw [hround]
    rcases hleft with hleft | hleft
    · rw [hleft]
      exact hnodup
    · rw [hleft]
      exact List.nodup_nil
  · rw [hround, hdir]
    intro other hother
    rcases hleft with hleft | hleft
    · rw [hleft] at hother
      exact Finmap.mem_erase.mpr ⟨ne_of_mem_of_not_mem hother hfresh,
        hscanned other (List.mem_cons_of_mem _ hother)⟩
    · rw [hleft] at hother
      exact absurd hother List.not_mem_nil
  · have hphase : phase (finishRound s queue opened rc) ≤ 9 := by
      unfold phase
      rw [hpc']
      split_ifs <;> decide
    have hweight : weight (finishRound s queue opened rc) = weight s := by
      rw [weight_of_ne (by rw [hpc']; split_ifs <;> exact fun _ _ => Pc.noConfusion), files,
        hround, hcard, hsock]
      simp only [weight, files, hpc]
    have hten : phase s = 10 := by simp only [phase, hpc]
    unfold measure
    omega

theorem Inv.pushed {L : Libudev δ} {s : Watch} {queue : Monitor} (h : Inv s) (hpc : s.pc = .pushing)
    (failure : Option Errno) (accepted : Bool) (name : CStr) (rest : List CStr)
    (hcall : s.queue.call = .pushing name rest)
    (hstep : EventQueue.step L (.push failure.isNone accepted) s.queue = some queue) :
    Advances s { s with
      queue := queue
      pc := .unlinking (EventWatch.pushed L s.queue name failure accepted).1
        (EventWatch.pushed L s.queue name failure accepted).2 } := by
  unfold EventQueue.step at hstep
  rw [hcall] at hstep
  cases Option.some.inj hstep
  obtain ⟨hnext, hdir, hsock⟩ := pushStep_queue L s.queue name rest failure accepted
  exact h.turn hpc name rest hcall _ _ _ hnext hdir hsock

/-- Outside the loop over the events no scan is going on. -/
theorem Inv.idle {s : Watch} (h : Inv s) (pc : Pc) (hpc : s.pc = pc) (hat : AtCall pc .idle) :
    s.queue.call = .idle := by
  have hs := h.atCall
  rw [hpc] at hs
  cases pc with
  | pushing =>
    obtain ⟨_, _, hcall⟩ := hat
    cases hcall
  | unlinking opened rc =>
    obtain ⟨_, _, hcall⟩ := hat
    cases hcall
  | _ => exact hs

/-- A scan that failed leads to the end of the call. -/
theorem phase_failed {s : Watch} {e : Errno} (h : some e ≠ some Errno.eagain) :
    phase { s with rc := e.rc, numValid := 0, numSent := 0, pc := .deciding } = 2 := by
  have hends : ¬Retries { s with rc := e.rc, numValid := 0, numSent := 0, pc := .deciding } := by
    rintro (⟨-, hvalid⟩ | hagain)
    · exact absurd hvalid (Nat.lt_irrefl 0)
    · have heq : ∀ e : Errno, e.rc = Errno.eagain.rc → e = .eagain := by
        intro e
        cases e <;> decide
      exact h (congrArg some (heq e hagain))
  exact if_neg hends

theorem Inv.finish {s : Watch} (h : Inv s) (hpc : s.pc = .deciding) (rc : Int)
    (hrc : rc = if s.numSent = 0 ∧ 0 < s.numValid then Errno.eagain.rc else s.rc) :
    Advances s { s with
      pc := if rc = Errno.eagain.rc then .polling else if rc < 0 then .idle else .receiving } := by
  have hretries : Retries s ↔ rc = Errno.eagain.rc := by
    rw [hrc, Retries]
    split_ifs with hnone
    · exact iff_of_true (Or.inl hnone) rfl
    · exact or_iff_right hnone
  refine h.move (h.idle .deciding hpc rfl) rfl ?_ ?_
  · dsimp only
    split_ifs <;> rfl
  · simp only [phase, hpc, hretries]
    split_ifs <;> decide

theorem Inv.call {L : Libudev δ} {l : EventWatch.Label} {s t : Watch} (h : Inv s)
    (hown : Own (.call l)) (hstep : EventWatch.step L l s = some t) : Advances s t := by
  cases step_happens hstep with
  | link hfilter => exact hown.elim
  | receive hpc => exact hown.elim
  | pollFails hpc =>
    exact h.move (h.idle .polling hpc rfl) rfl rfl (by simp only [phase, hpc]; decide)
  | poll hpc =>
    refine h.move (h.idle .polling hpc rfl) rfl ?_ ?_
    · dsimp only
      split_ifs <;> rfl
    · simp only [phase, hpc]
      split_ifs <;> decide
  | drain hpc hpending =>
    exact h.move (h.idle .draining hpc rfl) rfl (by rw [hpc]; rfl) (by simp [phase, hpc, hpending])
  | drained hpc hpending =>
    exact h.move (h.idle .draining hpc rfl) rfl rfl (by simp [phase, hpc, hpending])
  | armFails hpc =>
    exact h.move (h.idle .arming hpc rfl) rfl rfl (by rw [phase_failed hown]; simp [phase, hpc])
  | arm hpc =>
    exact h.move (h.idle .arming hpc rfl) rfl rfl (by simp only [phase, hpc]; decide)
  | scanFails hpc =>
    exact h.move (h.idle .scanning hpc rfl) rfl rfl (by rw [phase_failed hown]; simp [phase, hpc])
  | scan hpc hqueue => exact Inv.scan hpc hqueue
  | push hpc hcall hqueue => exact h.pushed hpc _ _ _ _ hcall hqueue
  | unlink hpc hqueue => exact h.unlink hpc hqueue
  | finish hpc hrc => exact h.finish hpc _ hrc
  | recvNothing hpc hsock =>
    exact h.move (h.idle .receiving hpc rfl) rfl rfl (by simp only [phase, hpc]; decide)
  | recvmsg hpc hqueue => exact h.recvmsg hpc _ hqueue
  | pollEpoll hpc =>
    refine h.move (h.idle .filtering hpc rfl) rfl ?_ ?_
    · dsimp only
      split_ifs <;> rfl
    · simp only [phase, hpc]
      split_ifs <;> decide

theorem Inv.step {L : Libudev δ} {l : Label} {s t : Watch} (h : Inv s) (hown : Own l)
    (hstep : step L l s = some t) : Advances s t := by
  cases l with
  | call l => exact h.call hown hstep
  | pushFails rc =>
    unfold ReceiveEnds.step at hstep
    dsimp only at hstep
    split at hstep
    · rename_i name rest hpc hcall
      split_ifs at hstep
      cases Option.some.inj hstep
      exact h.turn hpc name rest hcall _ true rc rfl rfl (Nat.le_succ _)
    · contradiction

/-- A call that has not ended can go on by itself. -/
theorem Inv.enabled {s : Watch} (L : Libudev δ) (h : Inv s) (hpc : s.pc ≠ .idle) :
    ∃ l, Own l ∧ (ReceiveEnds.step L l s).isSome := by
  have hat := h.atCall
  have hnone : (none : Option Errno) ≠ some .eagain := by decide
  cases hcase : s.pc with
  | idle => exact absurd hcase hpc
  | polling =>
    exact ⟨.call (.poll none), trivial, by simp [ReceiveEnds.step, EventWatch.step, hcase]⟩
  | draining =>
    refine ⟨.call .drain, trivial, ?_⟩
    simp only [ReceiveEnds.step, EventWatch.step, hcase]
    split_ifs <;> rfl
  | arming =>
    exact ⟨.call (.arm none), hnone, by simp [ReceiveEnds.step, EventWatch.step, hcase]⟩
  | scanning =>
    have hidle := h.idle .scanning hcase rfl
    exact ⟨.call (.scan none), hnone, by
      simp [ReceiveEnds.step, EventWatch.step, EventQueue.step, hcase, hidle]⟩
  | pushing =>
    rw [hcase] at hat
    obtain ⟨name, rest, hcall⟩ := hat
    exact ⟨.call (.push none true), trivial, by
      simp [ReceiveEnds.step, EventWatch.step, EventQueue.step, hcase, hcall]⟩
  | unlinking opened rc =>
    rw [hcase] at hat
    obtain ⟨name, rest, hcall⟩ := hat
    exact ⟨.call .unlink, trivial, by
      simp [ReceiveEnds.step, EventWatch.step, EventQueue.step, hcase, hcall]⟩
  | deciding =>
    exact ⟨.call .finish, trivial, by simp [ReceiveEnds.step, EventWatch.step, hcase]⟩
  | receiving =>
    refine ⟨.call (.recvmsg false), trivial, ?_⟩
    cases hsock : s.queue.sock with
    | nil => simp [ReceiveEnds.step, EventWatch.step, hcase, hsock]
    | cons msg sock => simp [ReceiveEnds.step, EventWatch.step, EventQueue.step, hcase, hsock]
  | filtering =>
    exact ⟨.call .pollEpoll, trivial, by simp [ReceiveEnds.step, EventWatch.step, hcase]⟩

def started (s : Watch) : Watch := { s with pc := .polling }

theorem started_inv {s : Watch} (hidle : s.queue.call = .idle) : Inv (started s) where
  atCall := hidle
  nodup := by
    rw [started, hidle]
    exact List.nodup_nil
  scanned := by
    rw [started, hidle]
    exact fun _ hname => absurd hname List.not_mem_nil

/-- The most steps that a call can take, with the files in the directory and the messages in the
socketpair. -/
def bound (s : Watch) : ℕ := 11 * (2 * files s + s.queue.sock.length) + 8

theorem measure_started (s : Watch) : measure (started s) = bound s := rfl

/-- A call of `udev_monitor_receive_device_fs` ends: whatever its steps do, there are no more of
them than the files and the messages allow for, and as long as it has not returned there is another
one. -/
theorem receive_ends (L : Libudev δ) (s : Watch) (hidle : s.queue.call = .idle) (ls : List Label)
    (t : Watch) (hown : ∀ l ∈ ls, Own l) (hrun : Runs.run (step L) ls (started s) = some t) :
    ls.length ≤ bound s ∧ (t.pc = .idle ∨ ∃ l, Own l ∧ (step L l t).isSome) := by
  have hguard : Runs.Guarded (step L) (fun l _ => Own l) ls (started s) :=
    Runs.guarded_of_forall (step L) ls (started s) (fun l hl _ => hown l hl)
  have hsteps : ∀ l s s', Own l → Inv s → step L l s = some s' → Inv s' ∧ measure s' < measure s :=
    fun l s s' hown h hstep => h.step hown hstep
  have hlen := Runs.length_add_measure_le (step L) Inv measure hsteps hguard (started_inv hidle) hrun
  have hinv : Inv t := Runs.guarded_invariant (step L) Inv
    (fun l s s' hown h hstep => (hsteps l s s' hown h hstep).1) hguard (started_inv hidle) hrun
  rw [measure_started] at hlen
  refine ⟨by omega, ?_⟩
  by_cases hpc : t.pc = .idle
  · exact Or.inl hpc
  · exact Or.inr (hinv.enabled L hpc)

def oneBadFile : Watch := linkFile freshWatch "2".toList badEvent

/-- The event cannot be pushed, and the call starts again: now there is no file left. -/
def retryOnce : List Label :=
  [.poll none, .drain, .drain, .arm none, .scan none, .push none true, .unlink, .finish,
    .poll none, .drain, .arm none, .scan none, .finish].map .call

theorem receive_ends_retry :
    ∃ t, Runs.run (step subsystemLibudev) retryOnce (started oneBadFile) = some t ∧
      retryOnce.length ≤ bound oneBadFile ∧
      (t.pc = .idle ∨ ∃ l, Own l ∧ (step subsystemLibudev l t).isSome) := by
  have hsome : (Runs.run (step subsystemLibudev) retryOnce (started oneBadFile)).isSome = true := by
    decide +kernel
  obtain ⟨t, ht⟩ := Option.isSome_iff_exists.mp hsome
  have hown : ∀ l ∈ retryOnce, Own l := by simp [retryOnce, Own]
  exact ⟨t, ht, receive_ends subsystemLibudev oneBadFile rfl retryOnce t hown ht⟩

end Vdev.ReceiveEnds
