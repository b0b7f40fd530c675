import Vdev.EventQueue

/-!
How a client learns of the events in its directory (libudev-compat/libudev-fs.c,
libudev-compat/libudev-monitor.c). The inotify watch of a monitor is one-shot: it tells of
the first file that is linked, and is gone. `udev_monitor_receive_device_fs` takes a message
from the socketpair if there is one; otherwise it drains and resets the watch, scans the
directory and pushes the events. The directory, the loop over the events and the socketpair
are those of `Vdev.EventQueue`.
-/
namespace Vdev.EventWatch

open CString EventQueue

variable {δ : Type}

/-- Where a call of `udev_monitor_receive_device_fs` stands. After an event file was pushed the
loop knows whether the file could be opened, and what was returned. -/
inductive Pc
  | idle | polling | draining | arming | scanning | pushing
  | unlinking (opened : Bool) (rc : Int)
  | deciding | receiving | filtering
  deriving DecidableEq

/-- A monitor with its watch and the variables of `udev_monitor_fs_push_events`. -/
structure Watch where
  queue : Monitor
  armed : Bool
  pending : Bool
  pc : Pc
  numValid : ℕ
  numSent : ℕ
  rc : Int

inductive Label
  | link (name content : CStr)
  | receive
  | poll (failure : Option Errno)
  | drain
  | arm (failure : Option Errno)
  | scan (failure : Option Errno)
  | push (failure : Option Errno) (accepted : Bool)
  | unlink
  | finish
  | recvmsg (rejected : Bool)
  | pollEpoll
  deriving DecidableEq

/-- `poll` finds the epoll descriptor of the monitor readable. -/
def readable (s : Watch) : Bool := s.queue.sock != [] || s.pending

/-- A producer links a file. The watch tells of it and is gone. -/
def linkFile (s : Watch) (name content : CStr) : Watch :=
  if name ∈ s.queue.dir then s
  else
    { s with
      queue := linkEvent s.queue name content
      pending := s.pending || s.armed
      armed := false }

/-- What the loop gets back for an event file: whether it could be opened, and the code. -/
def pushed (L : Libudev δ) (s : Monitor) (name : CStr) (failure : Option Errno) (accepted : Bool) :
    Bool × Int :=
  match s.dir.lookup name, failure with
  | none, _ => (false, Errno.enoent.rc)
  | some _, some e => (false, e.rc)
  | some content, none => (true, (pushEvent L content accepted).1)

/-- The end of a round of the loop, when the file is unlinked. -/
def finishRound (s : Watch) (queue : Monitor) (opened : Bool) (rc : Int) : Watch :=
  let next := if queue.call = .idle then .deciding else .pushing
  if !opened then { s with queue := queue, rc := rc, pc := next }
  else if rc = -EBADMSG ∨ rc = -EMSGSIZE then
    { s with queue := queue, rc := 0, numValid := s.numValid - 1, pc := next }
  else if rc < 0 then
    { s with queue := queue, rc := if rc = Errno.eagain.rc then 0 else rc, pc := .deciding }
  else { s with queue := queue, rc := rc, numSent := s.numSent + 1, pc := next }

def step (L : Libudev δ) (l : Label) (s : Watch) : Option Watch :=
  match l, s.pc with
  | .link name content, _ => if scandirFilter name then some (linkFile s name content) else none
  | .receive, .idle => some { s with pc := .polling }
  | .poll failure, .polling =>
    match failure with
    | some _ => some { s with pc := .idle }
    | none => some { s with pc := if s.queue.sock = [] then .draining else .receiving }
  | .drain, .draining =>
    -- the loop over poll and read ends when nothing is left to read
    if s.pending then some { s with pending := false } else some { s with pc := .arming }
  | .arm failure, .arming =>
    match failure with
    | some e => some { s with rc := e.rc, numValid := 0, numSent := 0, pc := .deciding }
    | none => some { s with armed := true, pc := .scanning }
  | .scan failure, .scanning =>
    match failure with
    | some e => some { s with rc := e.rc, numValid := 0, numSent := 0, pc := .deciding }
    | none =>
      (EventQueue.step L .scan s.queue).map fun queue =>
        { s with
          queue := queue
          rc := if queue.call = .idle then Errno.enodata.rc else 0
          numValid := (scandirat s.queue).length
          numSent := 0
          pc := if queue.call = .idle then .deciding else .pushing }
  | .push failure accepted, .pushing =>
    match s.queue.call with
    | .pushing name _ =>
      let (opened, rc) := pushed L s.queue name failure accepted
      (EventQueue.step L (.push failure.isNone accepted) s.queue).map fun queue =>
        { s with queue := queue, pc := .unlinking opened rc }
    | _ => none
  | .unlink, .unlinking opened rc =>
    (EventQueue.step L .unlink s.queue).map fun queue => finishRound s queue opened rc
  | .finish, .deciding =>
    let rc := if s.numSent = 0 ∧ 0 < s.numValid then Errno.eagain.rc else s.rc
    some { s with
      pc := if rc = Errno.eagain.rc then .polling else if rc < 0 then .idle else .receiving }
  | .recvmsg rejected, .receiving =>
    match s.queue.sock with
    | [] => some { s with pc := .idle }
    | _ :: _ =>
      (EventQueue.step L .receive s.queue).map fun queue =>
        { s with queue := queue, pc := if rejected then .filtering else .idle }
  | .pollEpoll, .filtering => some { s with pc := if readable s then .polling else .idle }
  | _, _ => none

inductive Happens (L : Libudev δ) (s : Watch) : Label → Watch → Prop
  | link {name content : CStr} (hfilter : scandirFilter name = true) :
      Happens L s (.link name content) (linkFile s name content)
  | receive (hpc : s.pc = .idle) : Happens L s .receive { s with pc := .polling }
  | pollFails {e : Errno} (hpc : s.pc = .polling) :
      Happens L s (.poll (some e)) { s with pc := .idle }
  | poll (hpc : s.pc = .polling) :
      Happens L s (.poll none)
        { s with pc := if s.queue.sock = [] then .draining else .receiving }
  | drain (hpc : s.pc = .draining) (hpending : s.pending = true) :
      Happens L s .drain { s with pending := false }
  | drained (hpc : s.pc = .draining) (hpending : s.pending = false) :
      Happens L s .drain { s with pc := .arming }
  | armFails {e : Errno} (hpc : s.pc = .arming) :
      Happens L s (.arm (some e))
        { s with rc := e.rc, numValid := 0, numSent := 0, pc := .deciding }
  | arm (hpc : s.pc = .arming) :
      Happens L s (.arm none) { s with armed := true, pc := .scanning }
  | scanFails {e : Errno} (hpc : s.pc = .scanning) :
      Happens L s (.scan (some e))
        { s with rc := e.rc, numValid := 0, numSent := 0, pc := .deciding }
  | scan {queue : Monitor} (hpc : s.pc = .scanning)
      (hqueue : EventQueue.step L .scan s.queue = some queue) :
      Happens L s (.scan none) { s with
        queue := queue
        rc := if queue.call = .idle then Errno.enodata.rc else 0
        numValid := (scandirat s.queue).length
        numSent := 0
        pc := if queue.call = .idle then .deciding else .pushing }
  | push {failure : Option Errno} {accepted : Bool} {name : CStr} {rest : List CStr}
      {queue : Monitor} (hpc : s.pc = .pushing) (hcall : s.queue.call = .pushing name rest)
      (hqueue : EventQueue.step L (.push failure.isNone accepted) s.queue = some queue) :
      Happens L s (.push failure accepted) { s with
        queue := queue
        pc := .unlinking (pushed L s.queue name failure accepted).1
          (pushed L s.queue name failure accepted).2 }
  | unlink {opened : Bool} {rc : Int} {queue : Monitor} (hpc : s.pc = .unlinking opened rc)
      (hqueue : EventQueue.step L .unlink s.queue = some queue) :
      Happens L s .unlink (finishRound s queue opened rc)
  | finish {rc : Int} (hpc : s.pc = .deciding)
      (hrc : rc = if s.numSent = 0 ∧ 0 < s.numValid then Errno.eagain.rc else s.rc) :
      Happens L s .finish { s with
        pc := if rc = Errno.eagain.rc then .polling else if rc < 0 then .idle else .receiving }
  | recvNothing {rejected : Bool} (hpc : s.pc = .receiving) (hsock : s.queue.sock = []) :
      Happens L s (.recvmsg rejected) { s with pc := .idle }
  | recvmsg {rejected : Bool} {queue : Monitor} (hpc : s.pc = .receiving)
      (hqueue : EventQueue.step L .receive s.queue = some queue) :
      Happens L s (.recvmsg rejected)
        { s with queue := queue, pc := if rejected then .filtering else .idle }
  | pollEpoll (hpc : s.pc = .filtering) :
      Happens L s .pollEpoll { s with pc := if readable s then .polling else .idle }

theorem step_happens {L : Libudev δ} {l : Label} {s t : Watch} (h : step L l s = some t) :
    Happens L s l t := by
  unfold step at h
  split at h
  · split_ifs at h with hfilter
    cases h
    exact .link hfilter
  · rename_i hpc
    cases h
    exact .receive hpc
  · rename_i failure hpc
    cases failure with
    | some e =>
      cases h
      exact .pollFails hpc
    | none =>
      cases h
      exact .poll hpc
  · rename_i hpc
    split_ifs at h with hpending
    · cases h
      exact .drain hpc hpending
    · cases h
      exact .drained hpc (Bool.eq_false_of_not_eq_true hpending)
  · rename_i failure hpc
    cases failure with
    | some e =>
      cases h
      exact .armFails hpc
    | none =>
      cases h
      exact .arm hpc
  · rename_i failure hpc
    cases failure with
    | some e =>
      cases h
      exact .scanFails hpc
    | none =>
      obtain ⟨queue, hqueue, rfl⟩ := Option.map_eq_some_iff.mp h
      exact .scan hpc hqueue
  · rename_i failure accepted hpc
    split at h
    · rename_i name rest hcall
      obtain ⟨queue, hqueue, rfl⟩ := Option.map_eq_some_iff.mp h
      exact .push hpc hcall hqueue
    · cases h
  · rename_i opened rc hpc
    obtain ⟨queue, hqueue, rfl⟩ := Option.map_eq_some_iff.mp h
    exact .unlink hpc hqueue
  · rename_i hpc
    cases h
    exact .finish hpc rfl
  · rename_i rejected hpc
    split at h
    · rename_i hsock
      cases h
      exact .recvNothing hpc hsock
    · obtain ⟨queue, hqueue, rfl⟩ := Option.map_eq_some_iff.mp h
      exact .recvmsg hpc hqueue
  · rename_i hpc
    cases h
    exact .pollEpoll hpc
  · cases h

def freshWatch : Watch where
  queue := freshMonitor
  armed := true
  pending := false
  pc := .idle
  numValid := 0
  numSent := 0
  rc := 0

/-- The calls that look for events succeed, and no event stops the loop when another was sent
before and files of the scan are left. -/
def Heard (L : Libudev δ) (l : Label) (s : Watch) : Prop :=
  match l with
  | .poll failure | .arm failure | .scan failure => failure = none
  | .push failure accepted =>
    match s.queue.call with
    | .pushing name rest =>
      rest = [] ∨ s.numSent = 0 ∨
        ∀ content, s.queue.dir.lookup name = some content → failure = none →
          goesOn (pushEvent L content accepted).1 = true
    | _ => True
  | _ => True

/-- A file that is linked now will be told of. -/
def Watched (s : Watch) : Prop := s.armed = true ∨ s.pending = true

/-- Each event file is one of these, or the watch has told of a file. -/
def Covered (s : Watch) (names : List CStr) : Prop :=
  ∀ name ∈ s.queue.dir, name ∈ names ∨ s.pending = true

def Looks (s : Watch) : Prop :=
  match s.pc with
  | .idle | .receiving | .filtering => Watched s ∧ Covered s []
  | .polling => Watched s ∧ (Covered s [] ∨ s.queue.sock = [])
  | .draining | .arming => s.queue.sock = []
  | .scanning => Watched s ∧ s.queue.sock = []
  | .pushing => Watched s ∧ ∃ name rest, s.queue.call = .pushing name rest ∧
      Covered s (name :: rest) ∧ rest.length < s.numValid ∧ (s.numSent = 0 → s.queue.sock = [])
  | .unlinking opened rc => Watched s ∧ ∃ name rest,
      s.queue.call = .unlinking name (if opened then rc else 0) rest ∧
      Covered s (name :: rest) ∧ rest.length < s.numValid ∧
      (s.numSent = 0 → s.queue.sock = [] ∨ (opened = true ∧ rc = 0)) ∧ (opened = true → rc ≤ 0) ∧
      (rest = [] ∨ s.numSent = 0 ∨ (opened = true → goesOn rc = true))
  | .deciding => Watched s ∧
      ((s.numSent = 0 ∧ 0 < s.numValid ∧ s.queue.sock = []) ∨ Covered s [])

structure Inv (s : Watch) : Prop where
  filtered : ∀ name ∈ s.queue.dir, scandirFilter name = true
  looks : Looks s

theorem covered_of_pending {s : Watch} (h : s.pending = true) (names : List CStr) :
    Covered s names := fun _ _ => Or.inr h

/-- The files that are left are covered when the first one has been unlinked. -/
theorem Covered.erase {s : Watch} {name : CStr} {names : List CStr} (queue : Monitor)
    (h : Covered s (name :: names)) (hdir : queue.dir = s.queue.dir.erase name) :
    Covered { s with queue := queue } names := by
  intro other hother
  have hother : other ∈ s.queue.dir.erase name := hdir ▸ hother
  obtain ⟨hne, hmem⟩ := Finmap.mem_erase.mp hother
  rcases h other hmem with hscan | hpending
  · exact Or.inl ((List.mem_cons.mp hscan).resolve_left hne)
  · exact Or.inr hpending

theorem inv_freshWatch : Inv freshWatch where
  filtered := fun _ h => absurd h Finmap.notMem_empty
  looks := ⟨Or.inl rfl, fun _ h => absurd h Finmap.notMem_empty⟩

/-- The code that is returned for an event is not positive, and when it is negative no message
was written. -/
theorem pushEvent_rc (L : Libudev δ) (content : CStr) (accepted : Bool) :
    (pushEvent L content accepted).1 ≤ 0 ∧
      ((pushEvent L content accepted).1 < 0 → (pushEvent L content accepted).2 = none) := by
  unfold pushEvent
  split
  · exact ⟨by decide, fun _ => rfl⟩
  dsimp only
  split
  · exact ⟨by decide, fun _ => rfl⟩
  split
  · exact ⟨by decide, fun _ => rfl⟩
  split
  · exact ⟨by decide, fun _ => rfl⟩
  · unfold sendDevice
    dsimp only
    split
    · exact ⟨by decide, fun _ => rfl⟩
    split
    · exact ⟨by decide, fun _ => rfl⟩
    · rename_i dev _ _ _
      have hneg : ¬(40 + ((L.monitorBuf dev).length : ℤ) < 0) := by omega
      dsimp only
      rw [if_neg hneg]
      exact ⟨le_rfl, fun h => absurd h (by decide)⟩

/-- Once the watch has told of a file, nothing is missed. -/
theorem Watched.linked {s : Watch} (h : Watched s) (queue : Monitor) (names : List CStr) :
    Watched { s with queue := queue, pending := s.pending || s.armed, armed := false } ∧
      Covered { s with queue := queue, pending := s.pending || s.armed, armed := false } names := by
  have hpending : (s.pending || s.armed) = true := by
    rcases h with harmed | hpending
    · rw [harmed, Bool.or_true]
    · rw [hpending, Bool.true_or]
  exact ⟨Or.inr hpending, covered_of_pending hpending names⟩

theorem Inv.link {s : Watch} (h : Inv s) (name content : CStr)
    (hfilter : scandirFilter name = true) : Inv (linkFile s name content) := by
  unfold linkFile linkEvent
  split_ifs with hold
  · exact h
  · refine ⟨fun other hother => ?_, ?_⟩
    · rcases Finmap.mem_insert.mp hother with rfl | hother
      · exact hfilter
      · exact h.filtered other hother
    · have hlooks := h.looks
      unfold Looks at hlooks ⊢
      dsimp only
      split at hlooks
      · exact hlooks.1.linked _ _
      · exact hlooks.1.linked _ _
      · exact hlooks.1.linked _ _
      · obtain ⟨hwatched, hcov⟩ := hlooks.1.linked _ []
        exact ⟨hwatched, Or.inl hcov⟩
      · exact hlooks
      · exact hlooks
      · exact ⟨(hlooks.1.linked _ []).1, hlooks.2⟩
      · obtain ⟨hwatched, other, rest, hcall, _, hrest⟩ := hlooks
        obtain ⟨hwatched, hcov⟩ := hwatched.linked _ (other :: rest)
        exact ⟨hwatched, other, rest, hcall, hcov, hrest⟩
      · obtain ⟨hwatched, other, rest, hcall, _, hrest⟩ := hlooks
        obtain ⟨hwatched, hcov⟩ := hwatched.linked _ (other :: rest)
        exact ⟨hwatched, other, rest, hcall, hcov, hrest⟩
      · obtain ⟨hwatched, hcov⟩ := hlooks.1.linked _ []
        exact ⟨hwatched, Or.inr hcov⟩

theorem Inv.scan {L : Libudev δ} {s : Watch} {queue : Monitor} (h : Inv s)
    (hpc : s.pc = .scanning) (hstep : EventQueue.step L .scan s.queue = some queue) :
    Inv { s with
      queue := queue
      rc := if queue.call = .idle then Errno.enodata.rc else 0
      numValid := (scandirat s.queue).length
      numSent := 0
      pc := if queue.call = .idle then .deciding else .pushing } := by
  have hlooks := h.looks
  rw [Looks, hpc] at hlooks
  obtain ⟨hwatched, hsock⟩ := hlooks
  cases step_move hstep with
  | scan hcall =>
    have hall : ∀ name ∈ s.queue.dir, name ∈ scandirat s.queue :=
      fun name hname => (mem_scandirat s.queue name).mpr ⟨hname, h.filtered name hname⟩
    refine ⟨h.filtered, ?_⟩
    cases hnames : scandirat s.queue with
    | nil =>
      refine ⟨hwatched, Or.inr fun name hname => Or.inl ?_⟩
      rw [← hnames]
      exact hall name hname
    | cons name rest =>
      refine ⟨hwatched, name, rest, rfl, fun other hother => Or.inl ?_, Nat.lt_succ_self _,
        fun _ => hsock⟩
      rw [← hnames]
      exact hall other hother

theorem Inv.push {L : Libudev δ} {s : Watch} {queue : Monitor} (h : Inv s) (hpc : s.pc = .pushing)
    (failure : Option Errno) (accepted : Bool) (name : CStr) (rest : List CStr)
    (hcall : s.queue.call = .pushing name rest) (hok : Heard L (.push failure accepted) s)
    (hstep : EventQueue.step L (.push failure.isNone accepted) s.queue = some queue) :
    Inv { s with
      queue := queue
      pc := .unlinking (pushed L s.queue name failure accepted).1
        (pushed L s.queue name failure accepted).2 } := by
  have hlooks := h.looks
  rw [Looks, hpc] at hlooks
  obtain ⟨hwatched, name', rest', hcall', hcov, hvalid, hsock⟩ := hlooks
  obtain ⟨rfl, rfl⟩ := Call.pushing.inj (hcall.symm.trans hcall')
  rw [Heard, hcall] at hok
  unfold EventQueue.step at hstep
  rw [hcall] at hstep
  cases Option.some.inj hstep
  unfold pushed pushStep
  cases hfile : s.queue.dir.lookup name with
  | none =>
    exact ⟨h.filtered, hwatched, name, rest, rfl, hcov, hvalid, fun h0 => Or.inl (hsock h0),
      fun hopen => absurd hopen Bool.false_ne_true,
      Or.inr (Or.inr fun hopen => absurd hopen Bool.false_ne_true)⟩
  | some content =>
    cases failure with
    | some e =>
      exact ⟨h.filtered, hwatched, name, rest, rfl, hcov, hvalid, fun h0 => Or.inl (hsock h0),
        fun hopen => absurd hopen Bool.false_ne_true,
        Or.inr (Or.inr fun hopen => absurd hopen Bool.false_ne_true)⟩
    | none =>
      obtain ⟨hle, hnone⟩ := pushEvent_rc L content accepted
      have hgoes : rest = [] ∨ s.numSent = 0 ∨
          (true = true → goesOn (pushEvent L content accepted).1 = true) := by
        rcases hok with hrest | hsent | hgoes
        · exact Or.inl hrest
        · exact Or.inr (Or.inl hsent)
        · exact Or.inr (Or.inr fun _ => hgoes content hfile rfl)
      dsimp only [Option.isNone]
      cases hpush : pushEvent L content accepted with
      | mk rc msg =>
        rw [hpush] at hle hnone hgoes
        cases msg with
        | none =>
          exact ⟨h.filtered, hwatched, name, rest, rfl, hcov, hvalid, fun h0 => Or.inl (hsock h0),
            fun _ => hle, hgoes⟩
        | some msg =>
          have hzero : rc = 0 := by
            by_contra hne
            have hmsg := hnone (lt_of_le_of_ne hle hne)
            cases hmsg
          exact ⟨h.filtered, hwatched, name, rest, rfl, hcov, hvalid,
            fun _ => Or.inr ⟨rfl, hzero⟩, fun _ => hle, hgoes⟩

theorem Inv.unlink {L : Libudev δ} {s : Watch} {queue : Monitor} {opened : Bool} {rc : Int}
    (h : Inv s) (hpc : s.pc = .unlinking opened rc)
    (hstep : EventQueue.step L .unlink s.queue = some queue) :
    Inv (finishRound s queue opened rc) := by
  have hlooks := h.looks
  rw [Looks, hpc] at hlooks
  obtain ⟨hwatched, name, rest, hcall, hcov, hvalid, hsock, hle, hgoes⟩ := hlooks
  unfold EventQueue.step at hstep
  rw [hcall] at hstep
  cases Option.some.inj hstep
  have hleft : ∀ call, Covered { s with queue :=
      { s.queue with dir := s.queue.dir.erase name, call := call } } rest :=
    fun call => hcov.erase _ rfl
  have hfiltered : ∀ other ∈ s.queue.dir.erase name, scandirFilter other = true :=
    fun other hother => h.filtered other (Finmap.mem_erase.mp hother).2
  -- the loop goes on with the files that are left
  have hnext : ∀ numValid numSent rc', rest.length ≤ numValid → (numSent = 0 → s.queue.sock = []) →
      Looks { s with
        queue := { s.queue with dir := s.queue.dir.erase name, call := nextCall rest }
        rc := rc'
        numValid := numValid
        numSent := numSent
        pc := if nextCall rest = .idle then .deciding else .pushing } := by
    intro numValid numSent rc' hnum hempty
    cases rest with
    | nil => exact ⟨hwatched, Or.inr (hleft _)⟩
    | cons other rest => exact ⟨hwatched, other, rest, rfl, hleft _, hnum, hempty⟩
  unfold finishRound
  cases opened with
  | false =>
    exact ⟨hfiltered, hnext s.numValid s.numSent rc hvalid.le
      fun h0 => (hsock h0).resolve_right fun h => Bool.false_ne_true h.1⟩
  | true =>
    rw [if_pos rfl, if_neg (by decide)]
    by_cases hinvalid : rc = -EBADMSG ∨ rc = -EMSGSIZE
    · have hgo : goesOn rc = true := by
        rcases hinvalid with rfl | rfl
        · decide
        · decide
      have hne : rc ≠ 0 := by
        rintro rfl
        revert hinvalid
        decide
      rw [if_pos hinvalid, if_pos hgo]
      exact ⟨hfiltered, hnext (s.numValid - 1) s.numSent 0 (by omega)
        fun h0 => (hsock h0).resolve_right fun h => hne h.2⟩
    by_cases hneg : rc < 0
    · have hstop : goesOn rc = false := by
        have hne : rc ≠ 0 := hneg.ne
        rw [not_or] at hinvalid
        simp [goesOn, hne, hinvalid.1, hinvalid.2]
      rw [if_neg hinvalid, if_pos hneg, hstop]
      refine ⟨hfiltered, hwatched, ?_⟩
      rcases hgoes with hrest | hsent | hgo
      · exact Or.inr (hrest ▸ hleft .idle)
      · exact Or.inl ⟨hsent, Nat.zero_lt_of_lt hvalid,
          (hsock hsent).resolve_right fun h => hneg.ne h.2⟩
      · rw [hgo rfl] at hstop
        cases hstop
    · have hzero : rc = 0 := le_antisymm (hle rfl) (not_lt.mp hneg)
      subst hzero
      rw [if_neg hinvalid, if_neg hneg]
      exact ⟨hfiltered, hnext s.numValid (s.numSent + 1) 0 hvalid.le
        fun h0 => absurd h0 (Nat.succ_ne_zero _)⟩

theorem Inv.finish {s : Watch} (h : Inv s) (hpc : s.pc = .deciding) (rc : Int)
    (hrc : rc = if s.numSent = 0 ∧ 0 < s.numValid then Errno.eagain.rc else s.rc) :
    Inv { s with
      pc := if rc = Errno.eagain.rc then .polling else if rc < 0 then .idle else .receiving } := by
  have hlooks := h.looks
  rw [Looks, hpc] at hlooks
  obtain ⟨hwatched, hleft⟩ := hlooks
  refine ⟨h.filtered, ?_⟩
  split_ifs with hagain hneg
  · exact ⟨hwatched, hleft.symm.imp_right fun h => h.2.2⟩
  · have hcov := hleft.resolve_left fun hnone => hagain (by rw [hrc, if_pos ⟨hnone.1, hnone.2.1⟩])
    exact ⟨hwatched, hcov⟩
  · have hcov := hleft.resolve_left fun hnone => hagain (by rw [hrc, if_pos ⟨hnone.1, hnone.2.1⟩])
    exact ⟨hwatched, hcov⟩

theorem Inv.step {L : Libudev δ} {l : Label} {s t : Watch} (h : Inv s) (hok : Heard L l s)
    (hstep : step L l s = some t) : Inv t := by
  have hlooks := h.looks
  unfold Looks at hlooks
  cases step_happens hstep with
  | link hfilter => exact h.link _ _ hfilter
  | receive hpc =>
    rw [hpc] at hlooks
    exact ⟨h.filtered, hlooks.1, Or.inl hlooks.2⟩
  | pollFails hpc => cases hok
  | poll hpc =>
    rw [hpc] at hlooks
    refine ⟨h.filtered, ?_⟩
    unfold Looks
    dsimp only
    by_cases hsock : s.queue.sock = []
    · rw [if_pos hsock]
      exact hsock
    · rw [if_neg hsock]
      exact ⟨hlooks.1, hlooks.2.resolve_right hsock⟩
  | drain hpc hpending =>
    rw [hpc] at hlooks
    refine ⟨h.filtered, ?_⟩
    rw [Looks, hpc]
    exact hlooks
  | drained hpc hpending =>
    rw [hpc] at hlooks
    exact ⟨h.filtered, hlooks⟩
  | armFails hpc => cases hok
  | arm hpc =>
    rw [hpc] at hlooks
    exact ⟨h.filtered, Or.inl rfl, hlooks⟩
  | scanFails hpc => cases hok
  | scan hpc hqueue => exact h.scan hpc hqueue
  | push hpc hcall hqueue => exact h.push hpc _ _ _ _ hcall hok hqueue
  | unlink hpc hqueue => exact h.unlink hpc hqueue
  | finish hpc hrc => exact h.finish hpc _ hrc
  | recvNothing hpc hsock =>
    rw [hpc] at hlooks
    exact ⟨h.filtered, hlooks⟩
  | recvmsg hpc hqueue =>
    rename_i rejected queue
    rw [hpc] at hlooks
    cases EventQueue.step_move hqueue with
    | receive hsock =>
      refine ⟨h.filtered, ?_⟩
      cases rejected
      · exact hlooks
      · exact hlooks
  | pollEpoll hpc =>
    rw [hpc] at hlooks
    refine ⟨h.filtered, ?_⟩
    unfold Looks
    dsimp only
    cases readable s with
    | true => exact ⟨hlooks.1, Or.inl hlooks.2⟩
    | false => exact hlooks

/-- When each event is heard of, no event is stranded: between two calls the descriptor of the
monitor is readable as long as there is an event file. -/
theorem readable_of_heard (L : Libudev δ) (ls : List Label) (t : Watch)
    (hok : Runs.Guarded (step L) (Heard L) ls freshWatch)
    (hrun : Runs.run (step L) ls freshWatch = some t) (hidle : t.pc = .idle) (name : CStr)
    (hname : name ∈ t.queue.dir) : readable t = true := by
  have hinv : Inv t := Runs.guarded_invariant (step L) Inv
    (fun l s s' hok h hstep => Inv.step h hok hstep) hok inv_freshWatch hrun
  have hlooks := hinv.looks
  rw [Looks, hidle] at hlooks
  have hpending := (hlooks.2 name hname).resolve_left List.not_mem_nil
  rw [readable, hpending, Bool.or_true]

/-- A libudev that makes a device of the strings that begin with a subsystem. -/
def subsystemLibudev : Libudev CStr :=
  ⟨fun strings => if "SUBSYSTEM=".toList <+: strings then some strings else none, id⟩

def goodEvent : CStr := "add@/devices/a\nSUBSYSTEM=block\nDEVPATH=/devices/a\nSEQNUM=1\n".toList
def badEvent : CStr := "add@/devices/b\nSEQNUM=2\n".toList

def pushOne : List Label := [.push none true, .unlink]

def look : List Label := [.receive, .poll none, .drain, .drain, .arm none, .scan none]

def hearOne : List Label :=
  [.link "1".toList goodEvent] ++ look ++ pushOne ++ [.finish, .recvmsg false]

/-- A call finds a good event, one of which no device can be made, and another good one; the
next call takes the message of the first. -/
def strandLast : List Label :=
  [.link "1".toList goodEvent, .link "2".toList badEvent, .link "3".toList goodEvent] ++ look ++
    pushOne ++ pushOne ++ [.finish, .receive, .poll none, .recvmsg false]

def singleScan (l : Label) (s : Watch) : Bool :=
  match l with
  | .poll failure | .arm failure | .scan failure => failure.isNone
  | .push _ _ =>
    match s.queue.call with
    | .pushing _ rest => rest.isEmpty
    | _ => true
  | _ => true

theorem heard_of_singleScan (L : Libudev δ) (l : Label) (s : Watch) (h : singleScan l s = true) :
    Heard L l s := by
  cases l with
  | poll failure => exact Option.isNone_iff_eq_none.mp h
  | arm failure => exact Option.isNone_iff_eq_none.mp h
  | scan failure => exact Option.isNone_iff_eq_none.mp h
  | push failure accepted =>
    unfold singleScan at h
    unfold Heard
    cases hcall : s.queue.call with
    | pushing name rest =>
      rw [hcall] at h
      exact Or.inl (List.isEmpty_iff.mp h)
    | _ => trivial
  | _ => trivial

theorem readable_of_heard_twice :
    ∃ t, Runs.run (step subsystemLibudev) (hearOne ++ [.link "2".toList goodEvent]) freshWatch =
      some t ∧ t.pc = .idle ∧ readable t = true := by
  have hview : (Runs.run (step subsystemLibudev) (hearOne ++ [.link "2".toList goodEvent])
      freshWatch).map (fun t => (t.pc, decide ("2".toList ∈ t.queue.dir))) =
        some (.idle, true) := by decide +kernel
  obtain ⟨t, hrun, hseen⟩ := Option.map_eq_some_iff.mp hview
  obtain ⟨hidle, hname⟩ := Prod.mk.inj hseen
  have hok : Runs.Guarded (step subsystemLibudev) (Heard subsystemLibudev)
      (hearOne ++ [.link "2".toList goodEvent]) freshWatch :=
    Runs.guarded_of_check _ singleScan (heard_of_singleScan subsystemLibudev) _ _
      (by decide +kernel)
  exact ⟨t, hrun, hidle, readable_of_heard subsystemLibudev _ t hok hrun hidle "2".toList
    (of_decide_eq_true hname)⟩

theorem not_readable_strandLast :
    ∃ t, Runs.run (step subsystemLibudev) strandLast freshWatch = some t ∧ t.pc = .idle ∧
      "3".toList ∈ t.queue.dir ∧ readable t = false := by
  have hview : (Runs.run (step subsystemLibudev) strandLast freshWatch).map
      (fun t => (t.pc, decide ("3".toList ∈ t.queue.dir), readable t)) =
        some (.idle, true, false) := by decide +kernel
  obtain ⟨t, hrun, hseen⟩ := Option.map_eq_some_iff.mp hview
  simp only [Prod.mk.injEq] at hseen
  exact ⟨t, hrun, hseen.1, of_decide_eq_true hseen.2.1, hseen.2.2⟩

end Vdev.EventWatch
