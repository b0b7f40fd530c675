import Vdev.Multicast

/-!
What event-put leaves behind (vdevd/helpers/LINUX/event-put.c). The event file in the global queue
is to be removed on each exit after it was created. On the exits for a failed write and for a failed
multicast, `clear_event` is given the text of the event, not the path of its file. In
`multicast_event` an error of `link` is forgotten, and an error of `readdir_r` is a positive number.
-/
namespace Vdev.EventCleanup

open CString EventQueue Multicast

/-- What the system calls of event-put do: the calls of `link` are numbered. -/
structure Calls where
  opened : Option Errno
  written : Option Errno
  opendir : Option Errno
  reads : List (Except Errno Entry)
  links : ℕ → Option Errno

/-- The links that were tried: the directory, and the error. -/
abbrev Log := List (CStr × Option Errno)

/-- What the loop does with the entry in the buffer, which has been filled when it is looked at. -/
def tryLink (globalName : CStr) (links : ℕ → Option Errno) (entry : Option Entry) (log : Log) :
    Log :=
  match entry with
  | none => log
  | some e => if skips globalName e then log else log ++ [(e.name, links log.length)]

/-- The loop of `multicast_event`. An error of `link` is logged and `rc` set to 0. -/
def multicastLoop (globalName : CStr) (links : ℕ → Option Errno) :
    List (Except Errno Entry) → Option Entry → Log → Int × Log
  | [], entry, log => (0, tryLink globalName links entry log)
  | .error e :: _, _, log => (-e.rc, log)
  | .ok e :: rest, _, log =>
    multicastLoop globalName links rest (some e) (tryLink globalName links (some e) log)

/-- `multicast_event`. -/
def multicastEvent (calls : Calls) (eventPath : CStr) : Int × Log :=
  match queueNames eventPath with
  | none => (Errno.einval.rc, [])
  | some (_, globalName) =>
    match calls.opendir with
    | some e => (e.rc, [])
    | none => multicastLoop globalName calls.links calls.reads none []

/-- How event-put exits: whether the event file was created and is still there, and what
`multicast_event` did if it was called. -/
structure Exit where
  status : ℕ
  created : Bool
  left : Bool
  multicast : Option (Int × Log)

/-- The end of `main`, with the text of the event and the path of its file. `refersTo` says which
paths name the event file, so that `clear_event` removes it. -/
def sendOff (calls : Calls) (refersTo : CStr → Bool) (eventBuf eventPath : CStr) : Exit :=
  match calls.opened with
  | some _ => ⟨1, false, false, none⟩
  | none =>
    match calls.written with
    -- clear_event( event_buf )
    | some _ => ⟨1, true, !refersTo eventBuf, none⟩
    | none =>
      let (rc, log) := multicastEvent calls eventPath
      if rc < 0 then ⟨1, true, !refersTo eventBuf, some (rc, log)⟩
      else ⟨0, true, !refersTo eventPath, some (rc, log)⟩

def entriesRead : List (Except Errno Entry) → List Entry
  | .ok e :: rest => e :: entriesRead rest
  | _ => []

def ScanFails (calls : Calls) : Prop := calls.opendir ≠ none ∨ ∃ e, .error e ∈ calls.reads

/-- The directories that the event is linked into: those of the listeners, and once more the last
one if no other entry comes after it. -/
def targets (globalName : CStr) (entries : List Entry) : List CStr :=
  ((entries ++ entries.getLast?.toList).filter (!skips globalName ·)).map Entry.name

/-- The file is removed, a failure of a link or of the scan is reported, and the exit status is 0
only if each listener got the event. A listener is what the code does not skip; an entry of an
unknown type is skipped. -/
structure CleanExit (calls : Calls) (globalName : CStr) (exit : Exit) : Prop where
  removed : exit.created = true → exit.left = false
  reported : ∀ rc log, exit.multicast = some (rc, log) →
    (rc < 0 ↔ ScanFails calls ∨ ∃ d e, (d, some e) ∈ log)
  delivered : exit.status = 0 → ∀ listener, .ok listener ∈ calls.reads →
    skips globalName listener = false →
      ∃ rc log, exit.multicast = some (rc, log) ∧ (listener.name, none) ∈ log

/-- The calls after the file was created do not fail, except that the file is removed also when
`write` or `opendir` fails and the text of the event happens to be a path of it. -/
structure CleanCalls (calls : Calls) (refersTo : CStr → Bool) (eventBuf globalName : CStr) :
    Prop where
  early : calls.written ≠ none ∨ calls.opendir ≠ none → refersTo eventBuf = true
  scan : calls.written = none → calls.opendir = none → ∀ e, .error e ∉ calls.reads
  links : calls.written = none → calls.opendir = none →
    ∀ k < (targets globalName (entriesRead calls.reads)).length, calls.links k = none

section Loop

variable (globalName : CStr) (links : ℕ → Option Errno)

def logOf (start : ℕ) (dirs : List CStr) : Log := (dirs.zipIdx start).map fun (d, k) => (d, links k)

theorem length_logOf (start : ℕ) (dirs : List CStr) :
    (logOf links start dirs).length = dirs.length := by
  simp [logOf]

theorem logOf_append (start : ℕ) (a b : List CStr) :
    logOf links start (a ++ b) = logOf links start a ++ logOf links (start + a.length) b := by
  rw [logOf, List.zipIdx_append, List.map_append]
  rfl

theorem mem_logOf (dirs : List CStr) (d : CStr) (result : Option Errno) :
    (d, result) ∈ logOf links 0 dirs ↔ ∃ k, dirs[k]? = some d ∧ links k = result := by
  rw [logOf, List.mem_map]
  constructor
  · rintro ⟨⟨d', k⟩, hmem, heq⟩
    obtain ⟨rfl, rfl⟩ := Prod.mk.inj heq
    exact ⟨k, List.mk_mem_zipIdx_iff_getElem?.mp hmem, rfl⟩
  · rintro ⟨k, hk, rfl⟩
    exact ⟨(d, k), List.mk_mem_zipIdx_iff_getElem?.mpr hk, rfl⟩

/-- The directories that the event is linked into from here on, with the entry in the buffer. -/
def targetsFrom (entries : List Entry) (entry : Option Entry) : List CStr :=
  ((entries ++ (entries.getLast?.or entry).toList).filter (!skips globalName ·)).map Entry.name

theorem targetsFrom_cons (e : Entry) (rest : List Entry) (entry : Option Entry) :
    targetsFrom globalName (e :: rest) entry =
      ([e].filter (!skips globalName ·)).map Entry.name ++
        targetsFrom globalName rest (some e) := by
  rw [targetsFrom, targetsFrom, getLast?_cons_or, ← List.map_append, ← List.filter_append]
  rfl

theorem targetsFrom_none (entries : List Entry) :
    targetsFrom globalName entries none = targets globalName entries := by
  rw [targetsFrom, targets, Option.or_none]

theorem tryLink_eq (entry : Option Entry) (log : Log) :
    tryLink globalName links entry log =
      log ++ logOf links log.length (targetsFrom globalName [] entry) := by
  cases entry with
  | none => simp [tryLink, targetsFrom, logOf]
  | some e => cases hskip : skips globalName e <;> simp [tryLink, targetsFrom, logOf, hskip]

/-- A scan that does not fail links the event into its targets. -/
theorem multicastLoop_eq (entries : List Entry) (entry : Option Entry) (log : Log) :
    multicastLoop globalName links (entries.map .ok) entry log =
      (0, log ++ logOf links log.length (targetsFrom globalName entries entry)) := by
  induction entries generalizing entry log with
  | nil => rw [List.map_nil, multicastLoop, tryLink_eq]
  | cons e rest ih =>
    have htry := tryLink_eq globalName links (some e) log
    have hlen : (tryLink globalName links (some e) log).length =
        log.length + (targetsFrom globalName [] (some e)).length := by
      rw [htry, List.length_append, length_logOf]
    rw [List.map_cons, multicastLoop, ih, hlen, htry, List.append_assoc, ← logOf_append,
      targetsFrom_cons globalName e rest entry]
    rfl

/-- The loop never returns a negative number. -/
theorem multicastLoop_nonneg (reads : List (Except Errno Entry)) (entry : Option Entry)
    (log : Log) : 0 ≤ (multicastLoop globalName links reads entry log).1 := by
  induction reads generalizing entry log with
  | nil => exact le_rfl
  | cons read rest ih =>
    cases read with
    | error e => exact Int.neg_nonneg_of_nonpos e.rc_neg.le
    | ok e => exact ih _ _

theorem entriesRead_map (reads : List (Except Errno Entry)) (h : ∀ e, .error e ∉ reads) :
    reads = (entriesRead reads).map .ok := by
  induction reads with
  | nil => rfl
  | cons read rest ih =>
    cases read with
    | error e => exact absurd List.mem_cons_self (h e)
    | ok e =>
      rw [entriesRead, List.map_cons]
      exact congrArg (.ok e :: ·) (ih fun e' he' => h e' (List.mem_cons_of_mem _ he'))

end Loop

section Exits

variable {calls : Calls} {refersTo : CStr → Bool} {eventBuf eventPath globalName dir : CStr}

theorem clean_of_written {e : Errno} (hopened : calls.opened = none)
    (hwritten : calls.written = some e) :
    CleanExit calls globalName (sendOff calls refersTo eventBuf eventPath) ↔
      CleanCalls calls refersTo eventBuf globalName := by
  have hexit : sendOff calls refersTo eventBuf eventPath = ⟨1, true, !refersTo eventBuf, none⟩ := by
    rw [sendOff, hopened]
    dsimp only
    rw [hwritten]
  have hne : calls.written ≠ none := by rw [hwritten]; exact Option.some_ne_none e
  rw [hexit]
  constructor
  · intro h
    exact ⟨fun _ => by simpa using h.removed rfl, fun hnone => absurd hnone hne,
      fun hnone => absurd hnone hne⟩
  · intro h
    refine ⟨fun _ => by simp [h.early (Or.inl hne)], ?_, ?_⟩
    · intro rc log hmulticast
      cases hmulticast
    · intro hstatus
      cases hstatus

theorem clean_of_opendir {e : Errno} (hpath : queueNames eventPath = some (dir, globalName))
    (hopened : calls.opened = none) (hwritten : calls.written = none)
    (hopendir : calls.opendir = some e) :
    CleanExit calls globalName (sendOff calls refersTo eventBuf eventPath) ↔
      CleanCalls calls refersTo eventBuf globalName := by
  have hmulticast : multicastEvent calls eventPath = (e.rc, []) := by
    rw [multicastEvent, hpath]
    dsimp only
    rw [hopendir]
  have hexit : sendOff calls refersTo eventBuf eventPath =
      ⟨1, true, !refersTo eventBuf, some (e.rc, [])⟩ := by
    simp only [sendOff, hopened, hwritten, hmulticast, if_pos e.rc_neg]
  have hne : calls.opendir ≠ none := by rw [hopendir]; exact Option.some_ne_none e
  rw [hexit]
  constructor
  · intro h
    exact ⟨fun _ => by simpa using h.removed rfl, fun _ hnone => absurd hnone hne,
      fun _ hnone => absurd hnone hne⟩
  · intro h
    refine ⟨fun _ => by simp [h.early (Or.inr hne)], ?_, ?_⟩
    · intro rc log hmulticast
      obtain ⟨rfl, -⟩ := Prod.mk.inj (Option.some.inj hmulticast)
      exact iff_of_true e.rc_neg (Or.inl (Or.inl hne))
    · intro hstatus
      cases hstatus

theorem clean_of_scan (hpath : queueNames eventPath = some (dir, globalName))
    (hown : refersTo eventPath = true) (hopened : calls.opened = none)
    (hwritten : calls.written = none) (hopendir : calls.opendir = none) :
    CleanExit calls globalName (sendOff calls refersTo eventBuf eventPath) ↔
      CleanCalls calls refersTo eventBuf globalName := by
  obtain ⟨rc, hrc⟩ : ∃ rc, rc = (multicastLoop globalName calls.links calls.reads none []).1 :=
    ⟨_, rfl⟩
  obtain ⟨log, hlog⟩ : ∃ log, log = (multicastLoop globalName calls.links calls.reads none []).2 :=
    ⟨_, rfl⟩
  have hloop : multicastLoop globalName calls.links calls.reads none [] = (rc, log) := by
    rw [hrc, hlog]
  have hnonneg : ¬rc < 0 := by
    rw [hrc]
    exact not_lt.mpr (multicastLoop_nonneg globalName calls.links calls.reads none [])
  have hmulticast : multicastEvent calls eventPath = (rc, log) := by
    rw [multicastEvent, hpath]
    dsimp only
    rw [hopendir]
    exact hloop
  have hexit : sendOff calls refersTo eventBuf eventPath = ⟨0, true, false, some (rc, log)⟩ := by
    simp only [sendOff, hopened, hwritten, hmulticast, if_neg hnonneg, hown, Bool.not_true]
  -- without a failure of the scan the log is known
  have hfull : (∀ e, .error e ∉ calls.reads) →
      log = logOf calls.links 0 (targets globalName (entriesRead calls.reads)) := by
    intro hscan
    rw [hlog]
    conv_lhs => rw [entriesRead_map calls.reads hscan, multicastLoop_eq, targetsFrom_none]
    rfl
  rw [hexit]
  constructor
  · intro h
    have hreport := h.reported rc log rfl
    have hnone : ¬(ScanFails calls ∨ ∃ d e, (d, some e) ∈ log) := fun hor =>
      hnonneg (hreport.mpr hor)
    rw [not_or] at hnone
    have hscan : ∀ e, .error e ∉ calls.reads := fun e he => hnone.1 (Or.inr ⟨e, he⟩)
    refine ⟨?_, fun _ _ => hscan, fun _ _ k hk => ?_⟩
    · rintro (hne | hne)
      · exact absurd hwritten hne
      · exact absurd hopendir hne
    · by_contra hlink
      obtain ⟨e, he⟩ := Option.ne_none_iff_exists'.mp hlink
      have hmem : ((targets globalName (entriesRead calls.reads))[k], some e) ∈ log := by
        rw [hfull hscan, mem_logOf]
        exact ⟨k, List.getElem?_eq_getElem hk, he⟩
      exact hnone.2 ⟨_, e, hmem⟩
  · intro h
    have hscan := h.scan hwritten hopendir
    have hlinks := h.links hwritten hopendir
    have hno : ∀ d result, (d, result) ∈ log → result = none := by
      intro d result hmem
      rw [hfull hscan, mem_logOf] at hmem
      obtain ⟨k, hk, rfl⟩ := hmem
      exact hlinks k (List.getElem?_eq_some_iff.mp hk).1
    refine ⟨fun _ => rfl, ?_, ?_⟩
    · intro rc' log' hmulticast
      obtain ⟨rfl, rfl⟩ := Prod.mk.inj (Option.some.inj hmulticast)
      refine iff_of_false hnonneg ?_
      rintro ((hne | ⟨e, he⟩) | ⟨d, e, hmem⟩)
      · exact absurd hopendir hne
      · exact hscan e he
      · cases hno d (some e) hmem
    · intro _ listener hlistener hkeep
      refine ⟨rc, log, rfl, ?_⟩
      have htarget : listener.name ∈ targets globalName (entriesRead calls.reads) := by
        refine List.mem_map_of_mem (List.mem_filter.mpr ⟨List.mem_append_left _ ?_, by simp [hkeep]⟩)
        rw [entriesRead_map calls.reads hscan] at hlistener
        obtain ⟨e, he, heq⟩ := List.mem_map.mp hlistener
        cases heq
        exact he
      obtain ⟨k, hk⟩ := List.getElem?_of_mem htarget
      rw [hfull hscan, mem_logOf]
      exact ⟨k, hk, hlinks k (List.getElem?_eq_some_iff.mp hk).1⟩

end Exits

/-- Once the event file was created, event-put cleans up and reports exactly when none of the calls
fails behind it, or the text of the event is a path of the file. -/
theorem sendOff_clean_iff (calls : Calls) (refersTo : CStr → Bool)
    (eventBuf eventPath globalName dir : CStr)
    (hpath : queueNames eventPath = some (dir, globalName)) (hown : refersTo eventPath = true) :
    CleanExit calls globalName (sendOff calls refersTo eventBuf eventPath) ↔
      (calls.opened = none → CleanCalls calls refersTo eventBuf globalName) := by
  cases hopened : calls.opened with
  | some e =>
    have hexit : sendOff calls refersTo eventBuf eventPath = ⟨1, false, false, none⟩ := by
      rw [sendOff, hopened]
    rw [hexit]
    refine iff_of_true ⟨?_, ?_, ?_⟩ ?_
    · intro hcreated
      cases hcreated
    · intro rc log hmulticast
      cases hmulticast
    · intro hstatus
      cases hstatus
    · intro hnone
      cases hnone
  | none =>
    rw [forall_prop_of_true rfl]
    cases hwritten : calls.written with
    | some e => exact clean_of_written hopened hwritten
    | none =>
      cases hopendir : calls.opendir with
      | some e => exact clean_of_opendir hpath hopened hwritten hopendir
      | none => exact clean_of_scan hpath hown hopened hwritten hopendir

/-- Two listeners. The name of a file follows the global queue, and every call succeeds. -/
def quietCalls : Calls where
  opened := none
  written := none
  opendir := none
  reads := [⟨"libudev-1-0".toList, true⟩, ⟨"libudev-2-0".toList, true⟩, ⟨"..".toList, true⟩].map .ok
  links := fun _ => none

/-- `write` fails. -/
def failedWrite : Calls := { quietCalls with written := some .eio }

def eventFile : CStr := "/dev/events/global/7".toList

def eventText : CStr := "add@/sda\nSUBSYSTEM=block\nDEVPATH=/sda\nSEQNUM=7\n".toList

theorem eventFile_queueNames :
    queueNames eventFile = some ("/dev/events/".toList, "global".toList) := by decide +kernel

theorem quietCalls_clean :
    CleanCalls quietCalls (· == eventFile) eventText "global".toList where
  early := by rintro (h | h) <;> exact absurd rfl h
  scan := fun _ _ e he => by simp [quietCalls] at he
  links := fun _ _ _ _ => rfl

theorem sendOff_clean_iff_quiet : CleanExit quietCalls "global".toList
    (sendOff quietCalls (· == eventFile) eventText eventFile) :=
  (sendOff_clean_iff quietCalls (· == eventFile) eventText eventFile "global".toList
    "/dev/events/".toList eventFile_queueNames (by decide)).mpr fun _ => quietCalls_clean

/-- The event file is left behind when its text could not be written. -/
theorem sendOff_leaves_file : ¬∀ (calls : Calls) (refersTo : CStr → Bool)
    (eventBuf eventPath globalName dir : CStr), queueNames eventPath = some (dir, globalName) →
    refersTo eventPath = true →
    CleanExit calls globalName (sendOff calls refersTo eventBuf eventPath) := by
  intro h
  have hclean := h failedWrite (· == eventFile) eventText eventFile "global".toList
    "/dev/events/".toList eventFile_queueNames (by decide)
  exact absurd (hclean.removed rfl) (by decide)

end Vdev.EventCleanup
