import Vdev.Decimal
import Vdev.Runs
import Vdev.SysfsDevice
import Mathlib.Data.Finmap

/-!
The event directory of a udev monitor (vdevd/helpers/LINUX/event-put.c,
libudev-compat/libudev-fs.c). event-put links an event file into the directory under
the decimal text of its sequence number. `udev_monitor_fs_push_events` scans the
directory in the order of the names, and writes the events to the socketpair of the
monitor one after the other. A step is one link, one receive of the client, one scan,
the push of one event, or one unlink. The lists `linked` and `written` are ghosts: the
event files that were linked into the directory, and those whose message was written.
-/
namespace Vdev.EventQueue

open CString FileTree SysfsDevice Decimal

variable {δ : Type}

/-- The device objects of libudev: a device made of the strings of an event, and the
buffer that its properties are serialized into. -/
structure Libudev (δ : Type) where
  newFromNulstr : CStr → Option δ
  monitorBuf : δ → CStr

/-- The error numbers for events that are not valid. -/
def EBADMSG : Int := 74
def EMSGSIZE : Int := 90

/-- `udev_monitor_send_device` without a destination: what it returns, and the message
if `sendmsg` has accepted it. A failure of `sendmsg` is reported as success. -/
def sendDevice (L : Libudev δ) (dev : δ) (accepted : Bool) : Int × Option CStr :=
  let buf := L.monitorBuf dev
  if buf.length < 32 then (Errno.einval.rc, none)
  else if !accepted then (0, none)
  else (40 + buf.length, some buf)

/-- `udev_monitor_fs_push_event`, for an event file with the given content. -/
def pushEvent (L : Libudev δ) (content : CStr) (accepted : Bool) : Int × Option CStr :=
  if 8192 ≤ content.length then (-EMSGSIZE, none)
  else
    let buf := content.map newlineToNul
    let hdrlen := (untilNul buf).length + 1
    if hdrlen < 5 ∨ buf.length ≤ hdrlen then (-EBADMSG, none)
    else if strstr "@/".toList (untilNul buf) = none then (-EBADMSG, none)
    else
      match L.newFromNulstr (buf.drop hdrlen) with
      | none => (Errno.einval.rc, none)
      | some dev =>
        let (rc, msg) := sendDevice L dev accepted
        (if rc < 0 then rc else 0, msg)

def WellFormed (L : Libudev δ) (content : CStr) : Prop :=
  ∃ msg, pushEvent L content true = (0, some msg)

/-- Where a monitor stands in `udev_monitor_fs_push_events`, with the names that are
left in its scan of the directory. -/
inductive Call
  | idle
  | pushing (name : CStr) (rest : List CStr)
  | unlinking (name : CStr) (rc : Int) (rest : List CStr)
  deriving DecidableEq

structure Monitor where
  dir : Finmap (fun _ : CStr => CStr)
  call : Call
  sock : List CStr
  received : List CStr
  linked : List (CStr × CStr)
  written : List (CStr × CStr)

inductive Label
  | link (name content : CStr)
  | receive
  | scan
  | push (opened accepted : Bool)
  | unlink
  deriving DecidableEq

/-- `link` in `multicast_event`. It fails when there is a file with the name already. -/
def linkEvent (s : Monitor) (name content : CStr) : Monitor :=
  if name ∈ s.dir then s
  else { s with dir := s.dir.insert name content, linked := s.linked ++ [(name, content)] }

/-- `udev_monitor_fs_scandir_filter`. -/
def scandirFilter (name : CStr) : Bool := !(name == ".".toList || name == "..".toList)

/-- `scandirat` with the filter and `alphasort`. -/
def scandirat (s : Monitor) : List CStr :=
  (sortMultiset (['.'] ::ₘ ['.', '.'] ::ₘ s.dir.keys.val)).filter scandirFilter

def nextCall : List CStr → Call
  | [] => .idle
  | name :: rest => .pushing name rest

/-- The loop goes on after an event that was pushed, or that is not valid. -/
def goesOn (rc : Int) : Bool := rc == 0 || rc == -EBADMSG || rc == -EMSGSIZE

/-- One round of the loop, up to the unlink. A file that cannot be opened is unlinked
as well. -/
def pushStep (L : Libudev δ) (s : Monitor) (name : CStr) (rest : List CStr)
    (opened accepted : Bool) : Monitor :=
  match s.dir.lookup name with
  | none => { s with call := .unlinking name 0 rest }
  | some content =>
    if !opened then { s with call := .unlinking name 0 rest }
    else
      match pushEvent L content accepted with
      | (rc, none) => { s with call := .unlinking name rc rest }
      | (rc, some msg) =>
        { s with
          call := .unlinking name rc rest
          sock := s.sock ++ [msg]
          written := s.written ++ [(name, content)] }

def step (L : Libudev δ) (l : Label) (s : Monitor) : Option Monitor :=
  match l, s.call with
  | .link name content, _ => some (linkEvent s name content)
  | .receive, _ =>
    match s.sock with
    | [] => none
    | msg :: sock => some { s with sock := sock, received := s.received ++ [msg] }
  | .scan, .idle => some { s with call := nextCall (scandirat s) }
  | .push opened accepted, .pushing name rest => some (pushStep L s name rest opened accepted)
  | .unlink, .unlinking name rc rest =>
    some { s with
      dir := s.dir.erase name
      call := if goesOn rc then nextCall rest else .idle }
  | _, _ => none

def freshMonitor : Monitor := ⟨∅, .idle, [], [], [], []⟩

/-- The name of an event file in `multicast_event`: the sequence number as `PRIu64`
prints it. -/
def eventName (seqnum : BitVec 64) : CStr := decimal seqnum.toNat

inductive Move (L : Libudev δ) (s : Monitor) : Label → Monitor → Prop
  | link {name content : CStr} (hnew : name ∉ s.dir) :
      Move L s (.link name content)
        { s with dir := s.dir.insert name content, linked := s.linked ++ [(name, content)] }
  | linkRefused {name content : CStr} (hold : name ∈ s.dir) : Move L s (.link name content) s
  | receive {msg : CStr} {sock : List CStr} (hsock : s.sock = msg :: sock) :
      Move L s .receive { s with sock := sock, received := s.received ++ [msg] }
  | scan (hcall : s.call = .idle) : Move L s .scan { s with call := nextCall (scandirat s) }
  | skip {name : CStr} {rest : List CStr} {opened accepted : Bool}
      (hcall : s.call = .pushing name rest) (hskip : opened = false ∨ s.dir.lookup name = none) :
      Move L s (.push opened accepted) { s with call := .unlinking name 0 rest }
  | refused {name content : CStr} {rest : List CStr} {accepted : Bool} {rc : Int}
      (hcall : s.call = .pushing name rest) (hfile : s.dir.lookup name = some content)
      (hpush : pushEvent L content accepted = (rc, none)) :
      Move L s (.push true accepted) { s with call := .unlinking name rc rest }
  | sent {name content msg : CStr} {rest : List CStr} {accepted : Bool} {rc : Int}
      (hcall : s.call = .pushing name rest) (hfile : s.dir.lookup name = some content)
      (hpush : pushEvent L content accepted = (rc, some msg)) :
      Move L s (.push true accepted) { s with
        call := .unlinking name rc rest
        sock := s.sock ++ [msg]
        written := s.written ++ [(name, content)] }
  | unlink {name : CStr} {rc : Int} {rest : List CStr} (hcall : s.call = .unlinking name rc rest) :
      Move L s .unlink { s with
        dir := s.dir.erase name
        call := if goesOn rc then nextCall rest else .idle }

theorem pushStep_move (L : Libudev δ) (s : Monitor) (name : CStr) (rest : List CStr)
    (opened accepted : Bool) (hcall : s.call = .pushing name rest) :
    Move L s (.push opened accepted) (pushStep L s name rest opened accepted) := by
  unfold pushStep
  cases hfile : s.dir.lookup name with
  | none => exact .skip hcall (Or.inr hfile)
  | some content =>
    cases opened with
    | false => exact .skip hcall (Or.inl rfl)
    | true =>
      simp only [Bool.not_true, Bool.false_eq_true, if_false]
      split
      · rename_i rc hpush
        exact .refused hcall hfile hpush
      · rename_i rc msg hpush
        exact .sent hcall hfile hpush

theorem step_move {L : Libudev δ} {l : Label} {s s' : Monitor} (h : step L l s = some s') :
    Move L s l s' := by
  unfold step at h
  split at h
  · rename_i name content _ _
    cases h
    unfold linkEvent
    split_ifs with hold
    · exact .linkRefused hold
    · exact .link hold
  · split at h
    · cases h
    · rename_i hsock
      cases h
      exact .receive hsock
  · rename_i hcall
    cases h
    exact .scan hcall
  · rename_i hcall
    cases h
    exact pushStep_move L s _ _ _ _ hcall
  · rename_i hcall
    cases h
    exact .unlink hcall
  · cases h

/-- The names that are left in a scan, with the one that is to be unlinked. -/
def scannedNames : Call → List CStr
  | .idle => []
  | .pushing name rest => name :: rest
  | .unlinking name _ rest => name :: rest

theorem scannedNames_nextCall (names : List CStr) : scannedNames (nextCall names) = names := by
  cases names <;> rfl

def awaitsUnlink : Call → CStr → Bool
  | .unlinking name _ _, other => other == name
  | _, _ => false

theorem awaitsUnlink_nextCall (names : List CStr) (name : CStr) :
    awaitsUnlink (nextCall names) name = false := by
  cases names <;> rfl

theorem mem_scandirat (s : Monitor) (name : CStr) :
    name ∈ scandirat s ↔ name ∈ s.dir ∧ scandirFilter name = true := by
  unfold scandirat
  rw [List.mem_filter, mem_sortMultiset, Multiset.mem_cons, Multiset.mem_cons]
  refine and_congr_left (fun hkeep => ?_)
  constructor
  · rintro (rfl | rfl | h)
    · exact absurd hkeep (by decide)
    · exact absurd hkeep (by decide)
    · exact Finmap.mem_keys.mp h
  · exact fun h => Or.inr (Or.inr (Finmap.mem_keys.mpr h))

theorem scandirat_subset (s : Monitor) (name : CStr) (h : name ∈ scandirat s) : name ∈ s.dir :=
  ((mem_scandirat s name).mp h).1

theorem scandirat_nodup (s : Monitor) : (scandirat s).Nodup := by
  have hkeys : (scandirat s : Multiset CStr) = s.dir.keys.val.filter (scandirFilter · = true) := by
    calc (scandirat s : Multiset CStr)
        = (['.'] ::ₘ ['.', '.'] ::ₘ s.dir.keys.val).filter (scandirFilter · = true) := by
          rw [← coe_sortMultiset (['.'] ::ₘ ['.', '.'] ::ₘ s.dir.keys.val), Multiset.filter_coe]
          simp [scandirat]
      _ = s.dir.keys.val.filter (scandirFilter · = true) := by
          rw [Multiset.filter_cons_of_neg _ (by decide), Multiset.filter_cons_of_neg _ (by decide)]
  rw [← Multiset.coe_nodup, hkeys]
  exact s.dir.keys.nodup.filter _

/-- How often an event file stands in the directory without being dealt with. -/
def pending (s : Monitor) (e : CStr × CStr) : ℕ :=
  if s.dir.lookup e.1 = some e.2 ∧ awaitsUnlink s.call e.1 = false then 1 else 0

def message (L : Libudev δ) (content : CStr) : CStr := (pushEvent L content true).2.getD []

/-- The condition on a step: only well-formed events are linked, each event file can be
opened, and the socket accepts each message. -/
def Accepting (L : Libudev δ) (l : Label) (_ : Monitor) : Prop :=
  match l with
  | .link _ content => WellFormed L content
  | .push opened accepted => opened = true ∧ accepted = true
  | _ => True

structure Inv (L : Libudev δ) (s : Monitor) : Prop where
  wellFormed : ∀ name content, s.dir.lookup name = some content → WellFormed L content
  nodup : (scannedNames s.call).Nodup
  scanned : ∀ name ∈ scannedNames s.call, name ∈ s.dir
  accounted : ∀ e, s.linked.count e = s.written.count e + pending s e
  dealtWith : ∀ name content, awaitsUnlink s.call name = true →
    s.dir.lookup name = some content → (name, content) ∈ s.written
  delivered : s.received ++ s.sock = s.written.map (fun e => message L e.2)

theorem mem_scannedNames_of_awaits (call : Call) (name : CStr) (h : awaitsUnlink call name = true) :
    name ∈ scannedNames call := by
  cases call with
  | unlinking other rc rest =>
    rw [eq_of_beq h]
    exact List.mem_cons_self
  | idle => cases h
  | pushing other rest => cases h

/-- Linking a new file adds one event that is pending. -/
theorem pending_insert (s : Monitor) (name content : CStr) (linked : List (CStr × CStr))
    (hnew : name ∉ s.dir) (haw : awaitsUnlink s.call name = false) (e : CStr × CStr) :
    pending { s with dir := s.dir.insert name content, linked := linked } e =
      pending s e + [(name, content)].count e := by
  unfold pending
  by_cases hname : e.1 = name
  · have hnone : s.dir.lookup e.1 = none := by
      rw [hname]
      exact Finmap.lookup_eq_none.mpr hnew
    rw [hnone, hname, Finmap.lookup_insert, haw, List.count_singleton]
    have heq : (name, content) = e ↔ content = e.2 := by
      rw [← hname, Prod.ext_iff]
      exact and_iff_right rfl
    simp [heq]
  · have hne : (name, content) ≠ e := fun h => hname (congrArg Prod.fst h).symm
    rw [Finmap.lookup_insert_of_ne _ hname, List.count_singleton]
    simp [hne]

/-- Dealing with an event takes it from the pending ones. -/
theorem pending_unlinking (s : Monitor) (name content : CStr) (rc : Int) (rest : List CStr)
    (call : Call) (hcall : s.call = .pushing name rest)
    (hfile : s.dir.lookup name = some content) (hnext : call = .unlinking name rc rest)
    (e : CStr × CStr) :
    pending s e = [(name, content)].count e + pending { s with call := call } e := by
  unfold pending
  rw [hnext, hcall, List.count_singleton]
  by_cases hname : e.1 = name
  · have heq : (name, content) = e ↔ some content = some e.2 := by
      rw [← hname, Prod.ext_iff, Option.some.injEq]
      exact and_iff_right rfl
    rw [hname, hfile]
    simp [awaitsUnlink, heq]
  · have hne : (name, content) ≠ e := fun h => hname (congrArg Prod.fst h).symm
    simp [awaitsUnlink, hname, hne]

/-- Unlinking the file of an event that is dealt with keeps the pending ones. -/
theorem pending_erase (s : Monitor) (name : CStr) (rc : Int) (rest : List CStr) (call : Call)
    (hcall : s.call = .unlinking name rc rest) (hnext : ∀ other, awaitsUnlink call other = false)
    (e : CStr × CStr) :
    pending { s with dir := s.dir.erase name, call := call } e = pending s e := by
  unfold pending
  rw [hnext, hcall]
  by_cases hname : e.1 = name
  · rw [hname, Finmap.lookup_erase]
    simp [awaitsUnlink]
  · rw [Finmap.lookup_erase_ne hname]
    simp [awaitsUnlink, hname]

/-- A name that is scanned stands in the directory, with a well-formed event. -/
theorem Inv.event {L : Libudev δ} {s : Monitor} (h : Inv L s) (name : CStr)
    (hname : name ∈ scannedNames s.call) : ∃ content, s.dir.lookup name = some content ∧
      pushEvent L content true = (0, some (message L content)) := by
  obtain ⟨content, hfile⟩ := Finmap.mem_iff.mp (h.scanned name hname)
  obtain ⟨msg, hmsg⟩ := h.wellFormed name content hfile
  refine ⟨content, hfile, ?_⟩
  rw [message, hmsg]
  rfl

/-- While an event is pushed and every push is accepted, the file stands in the directory and
its message is sent. -/
theorem Inv.push {L : Libudev δ} {s : Monitor} {opened accepted : Bool} (h : Inv L s)
    (hok : Accepting L (.push opened accepted) s) {name : CStr} {rest : List CStr}
    (hcall : s.call = .pushing name rest) : ∃ content, s.dir.lookup name = some content ∧
      pushEvent L content accepted = (0, some (message L content)) := by
  have hname : name ∈ scannedNames s.call := by
    rw [hcall]
    exact List.mem_cons_self
  rw [hok.2]
  exact h.event name hname

theorem Inv.link {L : Libudev δ} {s : Monitor} (h : Inv L s) {name content : CStr}
    (hwell : WellFormed L content) (hnew : name ∉ s.dir) :
    Inv L { s with
      dir := s.dir.insert name content
      linked := s.linked ++ [(name, content)] } := by
  have haw : awaitsUnlink s.call name = false := by
    rw [← Bool.not_eq_true]
    exact fun haw => hnew (h.scanned name (mem_scannedNames_of_awaits _ _ haw))
  refine ⟨fun other c hother => ?_, h.nodup, fun other hother => ?_, fun e => ?_, ?_, h.delivered⟩
  · by_cases hname : other = name
    · subst hname
      rw [Finmap.lookup_insert] at hother
      cases hother
      exact hwell
    · rw [Finmap.lookup_insert_of_ne _ hname] at hother
      exact h.wellFormed other c hother
  · exact Finmap.mem_insert.mpr (Or.inr (h.scanned other hother))
  · rw [pending_insert s name content _ hnew haw e, List.count_append, h.accounted e, Nat.add_assoc]
  · intro other c hother hfile
    have hname : other ≠ name := by
      rintro rfl
      rw [haw] at hother
      cases hother
    rw [Finmap.lookup_insert_of_ne _ hname] at hfile
    exact h.dealtWith other c hother hfile

theorem Inv.scan {L : Libudev δ} {s : Monitor} (h : Inv L s) (hcall : s.call = .idle) :
    Inv L { s with call := nextCall (scandirat s) } := by
  have hpending : ∀ e, pending { s with call := nextCall (scandirat s) } e = pending s e := by
    intro e
    unfold pending
    rw [awaitsUnlink_nextCall, hcall]
    rfl
  refine ⟨h.wellFormed, ?_, ?_, fun e => ?_, ?_, h.delivered⟩
  · rw [scannedNames_nextCall]
    exact scandirat_nodup s
  · rw [scannedNames_nextCall]
    exact scandirat_subset s
  · rw [hpending]
    exact h.accounted e
  · intro name content haw
    rw [awaitsUnlink_nextCall] at haw
    cases haw

theorem Inv.sent {L : Libudev δ} {s : Monitor} (h : Inv L s) {name content : CStr}
    {rest : List CStr} (hcall : s.call = .pushing name rest)
    (hfile : s.dir.lookup name = some content) :
    Inv L { s with
      call := .unlinking name 0 rest
      sock := s.sock ++ [message L content]
      written := s.written ++ [(name, content)] } := by
  obtain ⟨hwell, hnodup, hscanned, haccounted, _, hdelivered⟩ := h
  rw [hcall] at hnodup hscanned
  refine ⟨hwell, hnodup, hscanned, fun e => ?_, ?_, ?_⟩
  · rw [haccounted e, pending_unlinking s name content 0 rest _ hcall hfile rfl e,
      List.count_append, Nat.add_assoc]
    rfl
  · intro other c haw hother
    have hname : other = name := eq_of_beq haw
    subst hname
    cases hfile.symm.trans hother
    exact List.mem_append_right _ List.mem_cons_self
  · rw [← List.append_assoc, hdelivered, List.map_append]
    rfl

theorem Inv.unlink {L : Libudev δ} {s : Monitor} (h : Inv L s) {name : CStr} {rc : Int}
    {rest : List CStr} (hcall : s.call = .unlinking name rc rest) :
    Inv L { s with
      dir := s.dir.erase name
      call := if goesOn rc then nextCall rest else .idle } := by
  obtain ⟨hwell, hnodup, hscanned, haccounted, _, hdelivered⟩ := h
  have hdone : ∀ other,
      awaitsUnlink (if goesOn rc then nextCall rest else .idle) other = false := by
    intro other
    split
    · exact awaitsUnlink_nextCall rest other
    · rfl
  have hsub : (scannedNames (if goesOn rc then nextCall rest else .idle)).Sublist rest := by
    split
    · rw [scannedNames_nextCall]
    · exact List.nil_sublist rest
  rw [hcall] at hnodup hscanned
  obtain ⟨hfresh, hnodup⟩ := List.nodup_cons.mp hnodup
  refine ⟨fun other c hother => ?_, hnodup.sublist hsub, fun other hother => ?_, fun e => ?_, ?_,
    hdelivered⟩
  · by_cases hname : other = name
    · rw [hname, Finmap.lookup_erase] at hother
      cases hother
    · rw [Finmap.lookup_erase_ne hname] at hother
      exact hwell other c hother
  · have hmem := hsub.subset hother
    refine Finmap.mem_erase.mpr ⟨?_, hscanned other (List.mem_cons_of_mem _ hmem)⟩
    rintro rfl
    exact hfresh hmem
  · rw [pending_erase s name rc rest _ hcall hdone e]
    exact haccounted e
  · intro other c haw
    rw [hdone] at haw
    cases haw

/-- A libudev that takes any strings for a device and serializes them as they are. -/
def verbatimLibudev : Libudev CStr := ⟨some, id⟩

def nullEvent : CStr := "add@/devices/null\nACTION=add\nDEVPATH=/devices/null\nSEQNUM=7".toList

theorem wellFormed_nullEvent : WellFormed verbatimLibudev nullEvent :=
  ⟨(nullEvent.map newlineToNul).drop 18, by decide +kernel⟩

end Vdev.EventQueue
