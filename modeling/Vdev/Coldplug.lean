import Vdev.QueueOrder

/-!
Coldplug (vdevd/os/common.c, vdevd/os/linux.c). The thread of `vdev_os_main`
takes the initial requests one by one and adds each of them to the work queue;
when they are used up it reports kernel events. `vdev_os_next_device` raises the
flag that coldplug has finished when it fetches the last request. Every initial
request is on the list, in the hands of the thread or in the queue, in the order
in which sysfs has given them.
-/
namespace Vdev.Coldplug

open LinkedList WorkQueue QueueOrder

inductive Job (ρ : Type*)
  | initial (r : ρ)
  | other (r : ρ)
  deriving DecidableEq

def Job.initial? {ρ : Type*} : Job ρ → Option ρ
  | .initial r => some r
  | .other _ => none

/-- Where `vdev_os_main` stands. With `fetched` the request is off the list, and
`vdev_os_next_device` has yet to test whether it was the last one. -/
inductive OsPc (ρ : Type*)
  | next
  | fetched (r : ρ)
  | enqueue (job : Job ρ)
  | posting
  | poll
  | stopped

def OsPc.held {ρ : Type*} : OsPc ρ → List ρ
  | .fetched r => [r]
  | .enqueue (.initial r) => [r]
  | _ => []

/-- The work queue and the thread of `vdev_os_main`, which is the producer `none`. -/
structure Sys (Addr ρ P T : Type*) where
  wq : Wq Addr (Job ρ) (Option P) T
  initial : List ρ
  os : OsPc ρ

inductive Netlink (ρ : Type*)
  | event (r : ρ)
  | retry
  | fatal

inductive Act (Addr ρ P T : Type*)
  | os (a : Addr)
  | netlink (e : Netlink ρ)
  | queue (l : Label Addr (Job ρ) (Option P) T)

/-- The steps of the queue that other threads take. -/
def foreign {Addr ρ P T : Type*} : Label Addr (Job ρ) (Option P) T → Bool
  | .addLink (some _) _ (.other _) => true
  | .addPost (some _) => true
  | .worker | .workerFatal | .waitEnter _ | .waitRelease _ | .stopRunning | .stopPost => true
  | _ => false

variable {Addr ρ P T : Type*} [DecidableEq Addr] [DecidableEq P] [DecidableEq T]

/-- One step of `vdev_os_main`; `a` is the node that `calloc` returns. -/
def osStep (coldplugOnly : Bool) (a : Addr) (s : Sys Addr ρ P T) : Option (Sys Addr ρ P T) :=
  match s.os with
  | .next =>
    match s.initial with
    | r :: rest => some { s with initial := rest, os := .fetched r }
    | [] => some { s with os := if coldplugOnly then .stopped else .poll }
  | .fetched r =>
    if s.initial.isEmpty then
      (WorkQueue.step .osColdplugFinished s.wq).map
        (fun wq => { s with wq := wq, os := .enqueue (.initial r) })
    else some { s with os := .enqueue (.initial r) }
  | .enqueue job =>
    (WorkQueue.step (.addLink none a job) s.wq).map (fun wq => { s with wq := wq, os := .posting })
  | .posting => (WorkQueue.step (.addPost none) s.wq).map (fun wq => { s with wq := wq, os := .next })
  | .poll | .stopped => none

/-- `poll` and `recvmsg` return; a message that is not for vdevd is skipped. -/
def netlinkStep (e : Netlink ρ) (s : Sys Addr ρ P T) : Option (Sys Addr ρ P T) :=
  match s.os, e with
  | .poll, .event r => some { s with os := .enqueue (.other r) }
  | .poll, .retry => some { s with os := .next }
  | .poll, .fatal => some { s with os := .stopped }
  | _, _ => none

def step (coldplugOnly : Bool) (act : Act Addr ρ P T) (s : Sys Addr ρ P T) :
    Option (Sys Addr ρ P T) :=
  match act with
  | .os a => osStep coldplugOnly a s
  | .netlink e => netlinkStep e s
  | .queue l =>
    if foreign l then (WorkQueue.step l s.wq).map (fun wq => { s with wq := wq }) else none

/-- The state after `vdev_start`, with the requests that sysfs has given. -/
def start (initial : List ρ) : Sys Addr ρ P T := ⟨init, initial, .next⟩

def executedInitial (s : Sys Addr ρ P T) : List ρ := s.wq.executed.filterMap Job.initial?

inductive Change (s : Sys Addr ρ P T) : Act Addr ρ P T → Sys Addr ρ P T → Prop
  | fetch {a : Addr} {r : ρ} {rest : List ρ} (hos : s.os = .next) (hinit : s.initial = r :: rest) :
      Change s (.os a) { s with initial := rest, os := .fetched r }
  | drained {a : Addr} {os : OsPc ρ} (hos : s.os = .next) (hinit : s.initial = [])
      (hheld : os.held = []) : Change s (.os a) { s with os := os }
  | raise {a : Addr} {r : ρ} (hos : s.os = .fetched r) (hinit : s.initial = []) :
      Change s (.os a) { s with
        wq := { s.wq with osColdplugFinished := true }
        os := .enqueue (.initial r) }
  | pass {a : Addr} {r : ρ} (hos : s.os = .fetched r) (hinit : s.initial ≠ []) :
      Change s (.os a) { s with os := .enqueue (.initial r) }
  | link {a : Addr} {job : Job ρ} {wq : Wq Addr (Job ρ) (Option P) T} (hos : s.os = .enqueue job)
      (hmove : Move s.wq (.addLink none a job) wq) :
      Change s (.os a) { s with wq := wq, os := .posting }
  | post {a : Addr} {wq : Wq Addr (Job ρ) (Option P) T} (hos : s.os = .posting)
      (hmove : Move s.wq (.addPost none) wq) : Change s (.os a) { s with wq := wq, os := .next }
  | netlink {e : Netlink ρ} {os : OsPc ρ} (hos : s.os = .poll) (hheld : os.held = [])
      (hos' : ∀ r, os ≠ .fetched r) : Change s (.netlink e) { s with os := os }
  | queue {l : Label Addr (Job ρ) (Option P) T} {wq : Wq Addr (Job ρ) (Option P) T}
      (hforeign : foreign l = true) (hmove : Move s.wq l wq) :
      Change s (.queue l) { s with wq := wq }

theorem step_change {coldplugOnly : Bool} {act : Act Addr ρ P T} {s s' : Sys Addr ρ P T}
    (h : step coldplugOnly act s = some s') : Change s act s' := by
  cases act with
  | os a =>
    change osStep coldplugOnly a s = some s' at h
    unfold osStep at h
    split at h
    · rename_i hos
      split at h
      · rename_i r rest hinit
        cases Option.some.inj h
        exact .fetch hos hinit
      · rename_i hinit
        cases Option.some.inj h
        refine .drained hos hinit ?_
        split_ifs <;> rfl
    · rename_i r hos
      split_ifs at h with hempty
      · obtain ⟨wq, hwq, rfl⟩ := Option.map_eq_some_iff.mp h
        cases Option.some.inj hwq
        exact .raise hos (by simpa using hempty)
      · cases Option.some.inj h
        exact .pass hos (by simpa using hempty)
    · rename_i job hos
      obtain ⟨wq, hwq, rfl⟩ := Option.map_eq_some_iff.mp h
      exact .link hos (step_move hwq)
    · rename_i hos
      obtain ⟨wq, hwq, rfl⟩ := Option.map_eq_some_iff.mp h
      exact .post hos (step_move hwq)
    · contradiction
    · contradiction
  | netlink e =>
    change netlinkStep e s = some s' at h
    unfold netlinkStep at h
    split at h
    · rename_i hos
      cases Option.some.inj h
      exact .netlink hos rfl (by simp)
    · rename_i hos
      cases Option.some.inj h
      exact .netlink hos rfl (by simp)
    · rename_i hos
      cases Option.some.inj h
      exact .netlink hos rfl (by simp)
    · contradiction
  | queue l =>
    change (if foreign l then (WorkQueue.step l s.wq).map (fun wq => { s with wq := wq }) else none)
      = some s' at h
    split_ifs at h with hforeign
    obtain ⟨wq, hwq, rfl⟩ := Option.map_eq_some_iff.mp h
    exact .queue hforeign (step_move hwq)

/-- Every initial request is in the queue or has left it, is held by the thread,
or is still on the list. -/
def Accounted (initial : List ρ) (s : Sys Addr ρ P T) : Prop :=
  s.wq.linked.filterMap Job.initial? ++ s.os.held ++ s.initial = initial

structure Flagged (s : Sys Addr ρ P T) : Prop where
  raised : s.wq.osColdplugFinished = true → s.initial = [] ∧ ∀ r, s.os ≠ .fetched r
  latched : s.wq.coldplugFinished = true → s.wq.osColdplugFinished = true

omit [DecidableEq P] [DecidableEq T] in
theorem link_coldplug (wq : Wq Addr (Job ρ) (Option P) T) (a : Addr) (job : Job ρ) :
    (link wq a job).coldplugFinished = wq.coldplugFinished ∧
      (link wq a job).osColdplugFinished = wq.osColdplugFinished ∧
      (link wq a job).coldplugFdOpen = wq.coldplugFdOpen := by
  dsimp only [link]
  split
  · exact ⟨rfl, rfl, rfl⟩
  · exact ⟨rfl, rfl, rfl⟩
  · split <;> exact ⟨rfl, rfl, rfl⟩

/-- Only the worker executes requests, reads the flag or tells the parent. -/
theorem move_frame {l : Label Addr (Job ρ) (Option P) T} {wq wq' : Wq Addr (Job ρ) (Option P) T}
    (hl : l ≠ .worker) (hmove : Move wq l wq') :
    wq'.executed = wq.executed ∧ wq'.coldplugFinished = wq.coldplugFinished ∧
      wq'.coldplugFdOpen = wq.coldplugFdOpen ∧
      (l ≠ .osColdplugFinished → wq'.osColdplugFinished = wq.osColdplugFinished) ∧
      (wq'.worker = wq.worker ∨ wq'.worker = .exited) := by
  cases hmove with
  | @addLink p a job hidle hfree =>
    obtain ⟨-, hpc, -, hexec, -⟩ := link_frame wq a job
    obtain ⟨hc, hos, hfd⟩ := link_coldplug wq a job
    exact ⟨hexec, hc, hfd, fun _ => hos, Or.inl hpc⟩
  | worker hworker => exact absurd rfl hl
  | workerFatal hpc => exact ⟨rfl, rfl, rfl, fun _ => rfl, Or.inr rfl⟩
  | osColdplugFinished => exact ⟨rfl, rfl, rfl, fun h => absurd rfl h, Or.inl rfl⟩
  | _ => exact ⟨rfl, rfl, rfl, fun _ => rfl, Or.inl rfl⟩

/-- What is linked: requests are only added at the end. -/
theorem move_linked {l : Label Addr (Job ρ) (Option P) T} {wq wq' : Wq Addr (Job ρ) (Option P) T}
    (hmove : Move wq l wq') :
    wq'.linked = wq.linked ∨ ∃ p a job, l = .addLink p a job ∧ wq'.linked = wq.linked ++ [job] := by
  cases hmove with
  | @addLink p a job hidle hfree => exact Or.inr ⟨p, a, job, rfl, rfl⟩
  | worker hworker => cases hworker <;> exact Or.inl rfl
  | _ => exact Or.inl rfl

omit [DecidableEq Addr] [DecidableEq P] [DecidableEq T] in
theorem ne_osColdplugFinished_of_foreign {l : Label Addr (Job ρ) (Option P) T}
    (hforeign : foreign l = true) : l ≠ .osColdplugFinished := by
  rintro rfl
  cases hforeign

theorem foreign_linked {l : Label Addr (Job ρ) (Option P) T} {wq wq' : Wq Addr (Job ρ) (Option P) T}
    (hforeign : foreign l = true) (hmove : Move wq l wq') :
    wq'.linked.filterMap Job.initial? = wq.linked.filterMap Job.initial? := by
  rcases move_linked hmove with h | ⟨p, a, job, rfl, h⟩
  · rw [h]
  · cases p with
    | none => simp [foreign] at hforeign
    | some p =>
      cases job with
      | initial r => simp [foreign] at hforeign
      | other r => simp [h, Job.initial?]

theorem change_accounted {initial : List ρ} {act : Act Addr ρ P T} {s s' : Sys Addr ρ P T}
    (h : Accounted initial s) (hchange : Change s act s') : Accounted initial s' := by
  unfold Accounted at h ⊢
  cases hchange with
  | @fetch a r rest hos hinit =>
    rw [hos, hinit] at h
    simpa [OsPc.held] using h
  | drained hos hinit hheld =>
    rw [hos] at h
    dsimp only
    rw [hheld]
    exact h
  | raise hos hinit =>
    rw [hos] at h
    exact h
  | pass hos hinit =>
    rw [hos] at h
    exact h
  | @link a job wq hos hmove =>
    rw [hos] at h
    rcases move_linked hmove with hl | ⟨p, b, job', heq, hl⟩
    · cases hmove
      simp at hl
    · cases heq
      cases job with
      | initial r => simpa [hl, OsPc.held, Job.initial?] using h
      | other r =>
        dsimp only
        rw [hl, List.filterMap_append]
        simpa [OsPc.held, show [Job.other r].filterMap Job.initial? = [] from rfl] using h
  | @post a wq hos hmove =>
    rw [hos] at h
    rcases move_linked hmove with hl | ⟨p, b, job, heq, -⟩
    · simpa [hl, OsPc.held] using h
    · cases heq
  | netlink hos hheld =>
    rw [hos] at h
    dsimp only
    rw [hheld]
    exact h
  | queue hforeign hmove =>
    rw [← foreign_linked hforeign hmove] at h
    exact h

omit [DecidableEq P] [DecidableEq T] in
theorem workerMove_flags {wq wq' : Wq Addr (Job ρ) (Option P) T} (hmove : WorkerMove wq wq') :
    wq'.osColdplugFinished = wq.osColdplugFinished ∧
      (wq'.coldplugFinished = true → wq.coldplugFinished = true ∨ wq.osColdplugFinished = true) := by
  cases hmove with
  | foundEmpty hpc => exact ⟨rfl, by simp⟩
  | foundWork hpc => exact ⟨rfl, by simp⟩
  | _ => exact ⟨rfl, Or.inl⟩

theorem change_flagged {act : Act Addr ρ P T} {s s' : Sys Addr ρ P T} (h : Flagged s)
    (hchange : Change s act s') : Flagged s' := by
  cases hchange with
  | fetch hos hinit =>
    refine ⟨fun hflag => ?_, h.latched⟩
    have hnil := (h.raised hflag).1
    rw [hinit] at hnil
    cases hnil
  | @drained a os hos hinit hheld =>
    refine ⟨fun _ => ⟨hinit, ?_⟩, h.latched⟩
    rintro r rfl
    cases hheld
  | raise hos hinit => exact ⟨fun _ => ⟨hinit, by simp⟩, fun _ => rfl⟩
  | pass hos hinit =>
    refine ⟨fun hflag => absurd (h.raised hflag).1 hinit, h.latched⟩
  | link hos hmove =>
    obtain ⟨-, hc, -, hflag, -⟩ := move_frame (by simp) hmove
    refine ⟨fun hr => ⟨(h.raised ((hflag (by simp)).symm.trans hr)).1, by simp⟩, fun hl => ?_⟩
    exact (hflag (by simp)).trans (h.latched (hc.symm.trans hl))
  | post hos hmove =>
    obtain ⟨-, hc, -, hflag, -⟩ := move_frame (by simp) hmove
    refine ⟨fun hr => ⟨(h.raised ((hflag (by simp)).symm.trans hr)).1, by simp⟩, fun hl => ?_⟩
    exact (hflag (by simp)).trans (h.latched (hc.symm.trans hl))
  | netlink hos hheld hos' => exact ⟨fun hr => ⟨(h.raised hr).1, hos'⟩, h.latched⟩
  | @queue l wq hforeign hmove =>
    have hflag : wq.osColdplugFinished = s.wq.osColdplugFinished := by
      cases hmove with
      | worker hworker => exact (workerMove_flags hworker).1
      | osColdplugFinished => cases hforeign
      | addLink hidle hfree => exact (link_coldplug _ _ _).2.1
      | _ => rfl
    refine ⟨fun hr => h.raised (hflag.symm.trans hr), fun hl => ?_⟩
    refine hflag.trans ?_
    by_cases hw : l = .worker
    · subst hw
      cases hmove with
      | worker hworker =>
        rcases (workerMove_flags hworker).2 hl with hl | hr
        · exact h.latched hl
        · exact hr
    · exact h.latched ((move_frame hw hmove).2.1.symm.trans hl)

omit [DecidableEq Addr] [DecidableEq P] [DecidableEq T] in
theorem executedInitial_isPrefix_linked {s : Sys Addr ρ P T} {batch work : List (Addr × Job ρ)}
    (hf : Fifo s.wq batch work) : executedInitial s <+: s.wq.linked.filterMap Job.initial? := by
  rw [← hf.order, List.append_assoc, List.filterMap_append]
  exact List.prefix_append _ _

omit [DecidableEq Addr] [DecidableEq P] [DecidableEq T] in
/-- An initial request that has been executed is one of the list, in its place. -/
theorem executedInitial_isPrefix {initial : List ρ} {s : Sys Addr ρ P T}
    {batch work : List (Addr × Job ρ)} (hf : Fifo s.wq batch work) (ha : Accounted initial s) :
    executedInitial s <+: initial := by
  refine (executedInitial_isPrefix_linked hf).trans ?_
  rw [← ha, List.append_assoc]
  exact List.prefix_append _ _

theorem change_fifo {act : Act Addr ρ P T} {s s' : Sys Addr ρ P T} {batch work : List (Addr × Job ρ)}
    (h : Fifo s.wq batch work) (hchange : Change s act s') :
    ∃ batch' work', Fifo s'.wq batch' work' := by
  cases hchange with
  | raise hos hinit => exact ⟨_, _, h.congr rfl rfl rfl rfl rfl rfl⟩
  | link hos hmove => exact move_fifo h hmove
  | post hos hmove => exact move_fifo h hmove
  | queue hforeign hmove => exact move_fifo h hmove
  | _ => exact ⟨batch, work, h⟩

end Vdev.Coldplug
