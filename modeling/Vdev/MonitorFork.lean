import Vdev.MonitorTable

/-!
The fork handler of a process with monitors (libudev-compat/libudev-fs.c). In the child,
`udev_monitor_atfork` gives every monitor that is in use a socketpair and an events directory of its
own. It holds the lock of the table meanwhile, which is a spin lock that cannot be taken twice, and
no other thread is left in the child to release it. A system call that fails has the error number
that it sets `errno` to.
-/
namespace Vdev.MonitorFork

open CString
open MonitorTable (Pid fsEventsPath maxMonitors)

def EBADF : ℤ := 9

def EINVAL : ℤ := 22

/-- The fields of a `struct udev_monitor` that the handler looks at or sets. -/
structure Monitor where
  /-- Its type is `UDEV_MONITOR_TYPE_UDEV`. -/
  isUdev : Bool
  inotifyFd : ℤ
  epollFd : ℤ
  eventsWd : ℤ
  sock : ℤ
  sockFs : ℤ
  slot : ℤ
  eventsDir : CStr
  deriving DecidableEq

structure Calls where
  socketpair : Except ℤ (ℤ × ℤ)
  epollCtlAdd : Except ℤ Unit
  inotifyRmWatch : Except ℤ Unit
  mkdir : Except ℤ Unit
  inotifyAddWatch : Except ℤ ℤ

/-- The table of the monitors with its lock, `g_pid` and `errno`. -/
structure Process where
  table : ℕ → Option Monitor
  locked : Bool
  gPid : ℤ
  errno : ℤ

/-- `g_monitor_table_spinlock`. With `none` it spins forever. -/
def spinlock (s : Process) : Option Process :=
  if s.locked then none else some { s with locked := true }

/-- `g_monitor_table_unlock`. -/
def unlock (s : Process) : Process := { s with locked := false }

def setSlot (i : ℕ) (entry : Option Monitor) (s : Process) : Process :=
  { s with table := Function.update s.table i entry }

/-- `udev_monitor_unregister`. -/
def unregister (m : Monitor) (s : Process) : Option Process :=
  if m.slot < 0 then some s
  else (spinlock s).map fun s => unlock (setSlot m.slot.toNat none s)

/-- `udev_monitor_fs_shutdown`, which closes the descriptors of the monitor behind this. -/
def fsShutdown (m : Monitor) (s : Process) : Option Process := unregister m s

/-- How the handling of a slot ends: the loop goes on, the handler returns at once, or it never
does. -/
inductive Turn
  | next (s : Process)
  | returns (s : Process)
  | spins

/-- The exit for a monitor that cannot be had in the child. -/
def drop (i : ℕ) (m : Monitor) (s : Process) : Turn :=
  match fsShutdown m s with
  | none => .spins
  | some s => .next (setSlot i none s)

/-- The monitor gets a directory of its own and watches it. -/
def reconnect (pid : Pid) (calls : Calls) (i : ℕ) (m : Monitor) (s : Process) : Turn :=
  let m := { m with eventsDir := fsEventsPath pid [] i }
  match calls.mkdir with
  | .error e =>
    match fsShutdown m { s with errno := e } with
    | none => .spins
    -- a bare return: the lock is kept, and neither g_pid nor errno is set
    | some s => .returns (setSlot i none s)
  | .ok () =>
    match calls.inotifyAddWatch with
    | .error e => .next (setSlot i (some { m with eventsWd := -1 }) { s with errno := e })
    | .ok wd => .next (setSlot i (some { m with eventsWd := wd }) s)

def eligible (m : Monitor) : Bool :=
  m.isUdev && decide (0 ≤ m.inotifyFd) && decide (0 ≤ m.epollFd) && decide (0 ≤ m.eventsWd)

def handleSlot (pid : Pid) (calls : Calls) (i : ℕ) (m : Monitor) (s : Process) : Turn :=
  if !eligible m then .next s
  else
    let m := { m with sock := -1, sockFs := -1 }
    match calls.socketpair with
    | .error e => drop i m { s with errno := e }
    | .ok (sock, sockFs) =>
      let m := { m with sock := sock, sockFs := sockFs }
      match calls.epollCtlAdd with
      | .error e => drop i m { s with errno := e }
      | .ok () =>
        let m := { m with eventsWd := -1 }
        match calls.inotifyRmWatch with
        | .ok () => reconnect pid calls i m s
        | .error e =>
          let s := { s with errno := e }
          if e = EINVAL then reconnect pid calls i m s
          else if e = EBADF then drop i m s
          else .next (setSlot i (some m) s)

def atforkLoop (pid : Pid) (calls : ℕ → Calls) : List ℕ → Process → Turn
  | [], s => .next s
  | i :: slots, s =>
    match s.table i with
    | none => atforkLoop pid calls slots s
    | some m =>
      match handleSlot pid (calls i) i m s with
      | .next s => atforkLoop pid calls slots s
      | .returns s => .returns s
      | .spins => .spins

/-- `udev_monitor_atfork` in the process with the given pid. With `none` it never returns. -/
def atfork (pid : Pid) (calls : ℕ → Calls) (s : Process) : Option Process :=
  let errsv := s.errno
  match spinlock s with
  | none => none
  | some s =>
    if s.gPid ≠ pid.val then
      match atforkLoop pid calls (List.range maxMonitors) s with
      | .spins => none
      | .returns s => some s
      | .next s => some { unlock { s with gPid := pid.val } with errno := errsv }
    else some { unlock s with errno := errsv }

/-- What becomes of a monitor in use: it is kept, it is dropped from the table, or the handler
cannot make its directory. -/
inductive Fate
  | kept | dropped | noDirectory
  deriving DecidableEq

def mkdirFate (calls : Calls) : Fate :=
  match calls.mkdir with
  | .error _ => .noDirectory
  | .ok () => .kept

def fate (calls : Calls) : Fate :=
  match calls.socketpair, calls.epollCtlAdd, calls.inotifyRmWatch with
  | .error _, _, _ => .dropped
  | .ok _, .error _, _ => .dropped
  | .ok _, .ok (), .ok () => mkdirFate calls
  | .ok _, .ok (), .error e =>
    if e = EINVAL then mkdirFate calls else if e = EBADF then .dropped else .kept

/-- The handler gets past a monitor: it is not in use, or it is kept, or it is dropped without
having a slot to give back. -/
def Passable (calls : Calls) (m : Monitor) : Prop :=
  eligible m = true → fate calls = .kept ∨ (fate calls = .dropped ∧ m.slot < 0)

/-- What a slot holds after the handler has been at it: a monitor in use was dropped, or it has the
sockets that were made for it and watches its own directory or none. -/
def Processed (pid : Pid) (calls : Calls) (i : ℕ) (m : Monitor) (entry : Option Monitor) : Prop :=
  if eligible m then
    entry = none ∨ ∃ m', entry = some m' ∧ calls.socketpair = .ok (m'.sock, m'.sockFs) ∧
      (m'.eventsWd = -1 ∨ m'.eventsDir = fsEventsPath pid [] i)
  else entry = some m

/-- The handler returns with the lock free, `g_pid` set, `errno` as it was, and every monitor
processed. -/
def GivesLockBack (pid : Pid) (calls : ℕ → Calls) (s : Process) : Prop :=
  ∃ t, atfork pid calls s = some t ∧ t.locked = false ∧ t.gPid = pid.val ∧ t.errno = s.errno ∧
    ∀ i < maxMonitors, ∀ m, s.table i = some m → Processed pid (calls i) i m (t.table i)

/-- A turn that comes to its end: only the slot has changed, and `errno`. -/
structure Advances (i : ℕ) (entry : Option Monitor) (s t : Process) : Prop where
  table : t.table = Function.update s.table i entry
  locked : t.locked = s.locked
  gPid : t.gPid = s.gPid

/-- The handler never gives the lock back after this turn. -/
def Stuck (turn : Turn) : Prop := turn = .spins ∨ ∃ t, turn = .returns t ∧ t.locked = true

section Slot

variable (pid : Pid) (calls : Calls) (i : ℕ) {m : Monitor} {s : Process}

/-- The handler holds the lock, so that a monitor with a slot cannot be unregistered. -/
theorem fsShutdown_locked (h : s.locked = true) :
    fsShutdown m s = if m.slot < 0 then some s else none := by
  rw [fsShutdown, unregister, spinlock, if_pos h]
  rfl

theorem drop_of_neg (h : s.locked = true) (hslot : m.slot < 0) :
    drop i m s = .next (setSlot i none s) := by
  rw [drop, fsShutdown_locked h, if_pos hslot]

theorem drop_stuck (h : s.locked = true) (hslot : ¬m.slot < 0) : Stuck (drop i m s) := by
  rw [drop, fsShutdown_locked h, if_neg hslot]
  exact Or.inl rfl

theorem reconnect_stuck (h : s.locked = true) (hfate : mkdirFate calls = .noDirectory) :
    Stuck (reconnect pid calls i m s) := by
  unfold mkdirFate at hfate
  unfold reconnect
  cases hmkdir : calls.mkdir with
  | ok _ =>
    rw [hmkdir] at hfate
    cases hfate
  | error e =>
    dsimp only
    rw [fsShutdown_locked (s := { s with errno := e }) h]
    split_ifs with hslot
    · exact Or.inr ⟨_, rfl, h⟩
    · exact Or.inl rfl

theorem reconnect_kept (hfate : mkdirFate calls = .kept) :
    ∃ m' t, reconnect pid calls i m s = .next t ∧ Advances i (some m') s t ∧ m'.sock = m.sock ∧
      m'.sockFs = m.sockFs ∧ m'.eventsDir = fsEventsPath pid [] i := by
  unfold mkdirFate at hfate
  unfold reconnect
  cases hmkdir : calls.mkdir with
  | error _ =>
    rw [hmkdir] at hfate
    cases hfate
  | ok _ =>
    dsimp only
    cases calls.inotifyAddWatch with
    | error e => exact ⟨_, _, rfl, ⟨rfl, rfl, rfl⟩, rfl, rfl, rfl⟩
    | ok wd => exact ⟨_, _, rfl, ⟨rfl, rfl, rfl⟩, rfl, rfl, rfl⟩

/-- The turn of a monitor in use comes to one of three ends. -/
theorem handleSlot_cases (helig : eligible m = true) :
    ∃ m' s', ((handleSlot pid calls i m s = drop i m' s' ∧ fate calls = .dropped) ∨
        (handleSlot pid calls i m s = reconnect pid calls i m' s' ∧ fate calls = mkdirFate calls ∧
          calls.socketpair = .ok (m'.sock, m'.sockFs)) ∨
        (handleSlot pid calls i m s = .next (setSlot i (some m') s') ∧ fate calls = .kept ∧
          calls.socketpair = .ok (m'.sock, m'.sockFs) ∧ m'.eventsWd = -1)) ∧
      m'.slot = m.slot ∧ s'.table = s.table ∧ s'.locked = s.locked ∧ s'.gPid = s.gPid := by
  rw [handleSlot, if_neg (by rw [helig]; decide), fate]
  cases hpair : calls.socketpair with
  | error e => exact ⟨_, _, Or.inl ⟨rfl, rfl⟩, rfl, rfl, rfl, rfl⟩
  | ok socks =>
    cases hadd : calls.epollCtlAdd with
    | error e => exact ⟨_, _, Or.inl ⟨rfl, rfl⟩, rfl, rfl, rfl, rfl⟩
    | ok _ =>
      cases hrm : calls.inotifyRmWatch with
      | ok _ => exact ⟨_, _, Or.inr (Or.inl ⟨rfl, rfl, rfl⟩), rfl, rfl, rfl, rfl⟩
      | error e =>
        dsimp only
        by_cases hinval : e = EINVAL
        · rw [if_pos hinval, if_pos hinval]
          exact ⟨_, _, Or.inr (Or.inl ⟨rfl, rfl, rfl⟩), rfl, rfl, rfl, rfl⟩
        · rw [if_neg hinval, if_neg hinval]
          by_cases hbadf : e = EBADF
          · rw [if_pos hbadf, if_pos hbadf]
            exact ⟨_, _, Or.inl ⟨rfl, rfl⟩, rfl, rfl, rfl, rfl⟩
          · rw [if_neg hbadf, if_neg hbadf]
            exact ⟨_, _, Or.inr (Or.inr ⟨rfl, rfl, rfl, rfl⟩), rfl, rfl, rfl, rfl⟩

theorem mkdirFate_ne_dropped : mkdirFate calls ≠ .dropped := by
  unfold mkdirFate
  split <;> decide

theorem handleSlot_passable (h : s.locked = true) (hm : s.table i = some m)
    (hpass : Passable calls m) :
    ∃ entry t, handleSlot pid calls i m s = .next t ∧ Advances i entry s t ∧
      Processed pid calls i m entry := by
  unfold Processed
  by_cases helig : eligible m = true
  · simp only [if_pos helig]
    obtain ⟨m', s', hend, hslot, htable, hlocked, hgPid⟩ :=
      handleSlot_cases pid calls i (s := s) helig
    have hset : ∀ entry, (setSlot i entry s').table = Function.update s.table i entry := by
      intro entry
      rw [← htable]
      rfl
    rcases hend with ⟨heq, hfate⟩ | ⟨heq, hfate, hpair⟩ | ⟨heq, -, hpair, hwd⟩
    · have hneg : m'.slot < 0 := by
        rcases hpass helig with hkept | ⟨-, hneg⟩
        · exact absurd (hfate.symm.trans hkept) (by decide)
        · rwa [hslot]
      rw [heq, drop_of_neg i (hlocked.trans h) hneg]
      exact ⟨none, _, rfl, ⟨hset none, hlocked, hgPid⟩, Or.inl rfl⟩
    · have hkept : mkdirFate calls = .kept := by
        rcases hpass helig with hkept | ⟨hdropped, -⟩
        · exact hfate.symm.trans hkept
        · exact absurd (hfate.symm.trans hdropped) (mkdirFate_ne_dropped calls)
      obtain ⟨m'', t, ht, hadv, hsock, hsockFs, hdir⟩ :=
        reconnect_kept pid calls i (m := m') (s := s') hkept
      refine ⟨some m'', t, heq.trans ht, ⟨?_, hadv.locked.trans hlocked, hadv.gPid.trans hgPid⟩,
        Or.inr ⟨m'', rfl, ?_, Or.inr hdir⟩⟩
      · rw [hadv.table, htable]
      · rw [hpair, hsock, hsockFs]
    · exact ⟨some m', _, heq, ⟨hset (some m'), hlocked, hgPid⟩,
        Or.inr ⟨m', rfl, hpair, Or.inl hwd⟩⟩
  · refine ⟨some m, s, ?_, ⟨?_, rfl, rfl⟩, ?_⟩
    · rw [handleSlot, if_pos (by simpa using helig)]
    · rw [← hm, Function.update_eq_self]
    · rw [if_neg helig]

theorem handleSlot_stuck (h : s.locked = true) (hpass : ¬Passable calls m) :
    Stuck (handleSlot pid calls i m s) := by
  simp only [Passable, Classical.not_imp, not_or, not_and] at hpass
  obtain ⟨helig, hkept, hslot⟩ := hpass
  obtain ⟨m', s', hend, hslot', -, hlocked, -⟩ :=
    handleSlot_cases pid calls i (s := s) helig
  rcases hend with ⟨heq, hfate⟩ | ⟨heq, hfate, -⟩ | ⟨-, hfate, -⟩
  · rw [heq]
    exact drop_stuck i (hlocked.trans h) (hslot' ▸ hslot hfate)
  · rw [heq]
    refine reconnect_stuck pid calls i (hlocked.trans h) ?_
    rw [hfate] at hkept
    cases hmkdir : mkdirFate calls with
    | kept => exact absurd hmkdir hkept
    | dropped => exact absurd hmkdir (mkdirFate_ne_dropped calls)
    | noDirectory => rfl
  · exact absurd hfate hkept

end Slot

/-- The loop passes all its slots, if they can be passed. -/
theorem atforkLoop_passable (pid : Pid) (calls : ℕ → Calls) (slots : List ℕ) (s : Process)
    (hnodup : slots.Nodup) (h : s.locked = true)
    (hpass : ∀ i ∈ slots, ∀ m, s.table i = some m → Passable (calls i) m) :
    ∃ t, atforkLoop pid calls slots s = .next t ∧ t.gPid = s.gPid ∧
      (∀ i ∉ slots, t.table i = s.table i) ∧
      ∀ i ∈ slots, ∀ m, s.table i = some m → Processed pid (calls i) i m (t.table i) := by
  induction slots generalizing s with
  | nil => exact ⟨s, rfl, rfl, fun _ _ => rfl, fun _ hi => absurd hi List.not_mem_nil⟩
  | cons i slots ih =>
    obtain ⟨hfresh, hnodup⟩ := List.nodup_cons.mp hnodup
    rw [atforkLoop]
    cases hm : s.table i with
    | none =>
      obtain ⟨t, ht, hgPid, hsame, hdone⟩ :=
        ih s hnodup h (fun j hj => hpass j (List.mem_cons_of_mem _ hj))
      refine ⟨t, ht, hgPid, fun j hj => hsame j (fun hmem => hj (List.mem_cons_of_mem _ hmem)), ?_⟩
      rintro j hj m hm'
      rcases List.mem_cons.mp hj with rfl | hj
      · rw [hm] at hm'
        cases hm'
      · exact hdone j hj m hm'
    | some m =>
      obtain ⟨entry, u, hu, hadv, hproc⟩ :=
        handleSlot_passable pid (calls i) i h hm (hpass i List.mem_cons_self m hm)
      have hother : ∀ j ≠ i, u.table j = s.table j := by
        intro j hj
        rw [hadv.table, Function.update_of_ne hj]
      have hne : ∀ j ∈ slots, j ≠ i := fun j hj => ne_of_mem_of_not_mem hj hfresh
      obtain ⟨t, ht, hgPid, hsame, hdone⟩ := ih u hnodup (hadv.locked.trans h) (by
        intro j hj m' hm'
        rw [hother j (hne j hj)] at hm'
        exact hpass j (List.mem_cons_of_mem _ hj) m' hm')
      simp only [hu]
      refine ⟨t, ht, hgPid.trans hadv.gPid, ?_, ?_⟩
      · intro j hj
        rw [List.mem_cons, not_or] at hj
        rw [hsame j hj.2, hother j hj.1]
      · intro j hj m' hm'
        rcases List.mem_cons.mp hj with rfl | hj
        · rw [hm] at hm'
          cases hm'
          rw [hsame j hfresh, hadv.table, Function.update_self]
          exact hproc
        · rw [← hother j (hne j hj)] at hm'
          exact hdone j hj m' hm'

/-- The first slot that cannot be passed is the last one. -/
theorem atforkLoop_stuck (pid : Pid) (calls : ℕ → Calls) (slots : List ℕ) (s : Process)
    (hnodup : slots.Nodup) (h : s.locked = true)
    (hpass : ¬∀ i ∈ slots, ∀ m, s.table i = some m → Passable (calls i) m) :
    Stuck (atforkLoop pid calls slots s) := by
  induction slots generalizing s with
  | nil => exact absurd (fun _ hi => absurd hi List.not_mem_nil) hpass
  | cons i slots ih =>
    obtain ⟨hfresh, hnodup⟩ := List.nodup_cons.mp hnodup
    rw [List.forall_mem_cons, not_and_or] at hpass
    rw [atforkLoop]
    cases hm : s.table i with
    | none =>
      refine ih s hnodup h (hpass.resolve_left (not_not_intro ?_))
      intro m hm'
      rw [hm] at hm'
      cases hm'
    | some m =>
      by_cases hthis : Passable (calls i) m
      · obtain ⟨entry, u, hu, hadv, -⟩ := handleSlot_passable pid (calls i) i h hm hthis
        simp only [hu]
        refine ih u hnodup (hadv.locked.trans h) (fun hall => ?_)
        refine hpass.elim (fun hnot => hnot ?_) (fun hnot => hnot ?_)
        · intro m' hm'
          rw [hm] at hm'
          cases hm'
          exact hthis
        · intro j hj m' hm'
          refine hall j hj m' ?_
          rw [hadv.table, Function.update_of_ne (ne_of_mem_of_not_mem hj hfresh)]
          exact hm'
      · rcases handleSlot_stuck pid (calls i) i h hthis with heq | ⟨t, heq, ht⟩
        · simp only [heq]
          exact Or.inl rfl
        · simp only [heq]
          exact Or.inr ⟨t, rfl, ht⟩

section Handler

variable (pid : Pid) (calls : ℕ → Calls) (s : Process)

def AllPassable : Prop := ∀ i < maxMonitors, ∀ m, s.table i = some m → Passable (calls i) m

theorem allPassable_iff : AllPassable calls s ↔
    ∀ i ∈ List.range maxMonitors, ∀ m, s.table i = some m → Passable (calls i) m := by
  simp only [AllPassable, List.mem_range]

theorem atfork_child (hfree : s.locked = false) (hchild : s.gPid ≠ pid.val) :
    atfork pid calls s =
      match atforkLoop pid calls (List.range maxMonitors) { s with locked := true } with
      | .spins => none
      | .returns t => some t
      | .next t => some { unlock { t with gPid := pid.val } with errno := s.errno } := by
  rw [atfork, spinlock, if_neg (by rw [hfree]; decide)]
  dsimp only
  rw [if_pos hchild]

theorem givesLockBack_of_passable (hfree : s.locked = false) (hchild : s.gPid ≠ pid.val)
    (h : AllPassable calls s) : GivesLockBack pid calls s := by
  obtain ⟨t, ht, -, -, hdone⟩ := atforkLoop_passable pid calls _ { s with locked := true }
    List.nodup_range rfl ((allPassable_iff calls s).mp h)
  rw [GivesLockBack, atfork_child pid calls s hfree hchild, ht]
  exact ⟨_, rfl, rfl, rfl, rfl, fun i hi m hm => hdone i (List.mem_range.mpr hi) m hm⟩

theorem not_givesLockBack (hfree : s.locked = false) (hchild : s.gPid ≠ pid.val)
    (h : ¬AllPassable calls s) : ¬GivesLockBack pid calls s := by
  rintro ⟨t, ht, hunlocked, -⟩
  rw [atfork_child pid calls s hfree hchild] at ht
  rcases atforkLoop_stuck pid calls _ { s with locked := true } List.nodup_range rfl
    (fun hall => h ((allPassable_iff calls s).mpr hall)) with heq | ⟨u, heq, hu⟩
  · rw [heq] at ht
    cases ht
  · rw [heq, Option.some.injEq] at ht
    rw [ht, hunlocked] at hu
    cases hu

/-- The handler gives the lock back exactly when every monitor can be passed. -/
theorem atfork_givesLockBack_iff (hfree : s.locked = false) (hchild : s.gPid ≠ pid.val) :
    GivesLockBack pid calls s ↔ AllPassable calls s := by
  refine ⟨fun hback => ?_, givesLockBack_of_passable pid calls s hfree hchild⟩
  by_contra h
  exact not_givesLockBack pid calls s hfree hchild h hback

end Handler

/-- A process with one monitor, in the slot that `udev_monitor_register` gave it. -/
def oneMonitor : Process where
  table := fun i => if i = 0 then
      some ⟨true, 3, 4, 1, 5, 6, 0, "/dev/metadata/udev/events/libudev-100-0/".toList⟩
    else none
  locked := false
  gPid := 100
  errno := 0

def childPid : Pid := ⟨101, by decide, by decide⟩

/-- Every call succeeds, or `mkdir` fails with `EEXIST`. -/
def succeeding : Calls := ⟨.ok (7, 8), .ok (), .ok (), .ok (), .ok 2⟩

def mkdirFailing : Calls := { succeeding with mkdir := .error 17 }

def twoMonitors : Process :=
  setSlot 1 (some ⟨true, 9, 10, 1, 11, 12, 1, "/dev/metadata/udev/events/libudev-100-1/".toList⟩)
    oneMonitor

/-- The watch of the second monitor is gone, and its socketpair is another one. -/
def twoCalls (i : ℕ) : Calls :=
  if i = 0 then succeeding
  else { succeeding with socketpair := .ok (13, 14), inotifyRmWatch := .error EINVAL }

theorem twoMonitors_passable : AllPassable twoCalls twoMonitors := by
  intro i _ m _ _
  refine Or.inl ?_
  unfold twoCalls
  split_ifs
  · rfl
  · rfl

/-- Both monitors get sockets and directories of their own. -/
theorem atfork_givesLockBack_iff_two : GivesLockBack childPid twoCalls twoMonitors :=
  (atfork_givesLockBack_iff childPid twoCalls twoMonitors rfl (by decide)).mpr
    twoMonitors_passable

theorem maxMonitors_pos : 0 < maxMonitors := by
  unfold maxMonitors
  decide

/-- When `mkdir` fails, the handler tries to take the lock that it holds. -/
theorem atfork_keeps_lock : ¬∀ (pid : Pid) (calls : ℕ → Calls) (s : Process), s.locked = false →
    s.gPid ≠ pid.val → GivesLockBack pid calls s := by
  intro h
  have hgives := h childPid (fun _ => mkdirFailing) oneMonitor rfl (by decide)
  refine not_givesLockBack childPid _ oneMonitor rfl (by decide) (fun hpass => ?_) hgives
  have hone := hpass 0 maxMonitors_pos _ rfl (by decide)
  exact absurd hone (by decide)

end Vdev.MonitorFork
