import Vdev.EventQueue
import Vdev.Parsing

/-!
The events that event-put takes (vdevd/helpers/LINUX/event-put.c), and what becomes of them when
`udev_monitor_fs_push_event` reads them again (libudev-compat/libudev-fs.c).
-/
namespace Vdev.EventFormat

open CString Parsing SysfsDevice EventQueue

def requiredFields : List CStr := ["\nSUBSYSTEM=".toList, "\nDEVPATH=".toList]

def hasField (buf field : CStr) : Bool :=
  (strstr field buf).isSome || field.tail.isPrefixOf buf

/-- The argument of `-n`. -/
def optionSeqnum (optarg : CStr) : Option ℕ :=
  let (seqnum, tmp) := strtoul 10 optarg
  if seqnum = 0 ∧ (tmp = optarg ∨ tmp ≠ []) then none else some seqnum

/-- The number behind `SEQNUM=`. -/
def textSeqnum (buf : CStr) : Option ℕ :=
  match strstr "SEQNUM=".toList buf with
  | none => none
  | some found =>
    let seqnumStr := found.drop 7
    let (seqnum, tmp) := strtoul 10 seqnumStr
    if seqnum = 0 ∧ (tmp = seqnumStr ∨ tmp.head? ≠ some '\n') then none else some seqnum

structure Calls where
  read : Bool
  opened : Bool
  written : Bool
  multicast : Bool

/-- The string in the buffer of 8192 bytes, which is filled with NULs first, and the memory behind
it. -/
def eventString (read behind : CStr) : CStr :=
  untilNul (read ++ List.replicate (8192 - read.length) '\x00' ++ behind)

/-- The end of `main`: the event file, and its links for the listeners. -/
def sendOff (calls : Calls) (seqnum : ℕ) (event : CStr) : ℕ × Option (ℕ × CStr) :=
  if !calls.opened || !calls.written then (1, none)
  else (if calls.multicast then 0 else 1, some (seqnum, event))

/-- `main` of event-put, with the argument of `-n`, the text on the standard input and the memory
behind the buffer: the exit status, and the sequence number and the text of the event that is
multicast. -/
def eventPut (n : Option CStr) (input behind : CStr) (calls : Calls) : ℕ × Option (ℕ × CStr) :=
  if n.any (optionSeqnum · = none) then (1, none)
  else if !calls.read || input.isEmpty then (1, none)
  else
    let read := input.take 8192
    if !requiredFields.all (hasField (eventString read behind)) then (1, none)
    else
      match n.elim (textSeqnum (eventString read behind)) optionSeqnum with
      | none => (1, none)
      | some seqnum => sendOff calls seqnum read

def firstLine (text : CStr) : CStr := untilNul (text.map newlineToNul)

/-- The first line is long enough for a header, and has the mark of one. -/
def HasHeader (text : CStr) : Prop :=
  4 ≤ (firstLine text).length ∧ "@/".toList <:+: firstLine text

/-- The event is too big or malformed for `udev_monitor_fs_push_event`. -/
def Refused (rc : Int) : Prop := rc = -EMSGSIZE ∨ rc = -EBADMSG

instance (rc : Int) : Decidable (Refused rc) := inferInstanceAs (Decidable (_ ∨ _))

theorem strstr_isSome (needle s : CStr) : (strstr needle s).isSome ↔ needle <:+: s := by
  induction s with
  | nil => by_cases h : needle = [] <;> simp [strstr, h]
  | cons c s ih =>
    rw [strstr, List.infix_cons_iff]
    by_cases h : needle <+: c :: s
    · simp [h]
    · simp [h, ih]

theorem strstr_eq_none (needle s : CStr) : strstr needle s = none ↔ ¬needle <:+: s := by
  rw [← strstr_isSome, ← Option.not_isSome_iff_eq_none]

/-- What stands behind a newline in the string of a text makes the text longer than its first
line. -/
theorem firstLine_lt (text : CStr) (rest : CStr) (h : '\n' :: rest <:+: untilNul text) :
    (firstLine text).length + rest.length < text.length := by
  obtain ⟨a, b, hab⟩ := h
  have hprefix : untilNul text <+: text := List.takeWhile_prefix _
  obtain ⟨t, ht⟩ := hprefix
  have htext : text = a ++ '\n' :: (rest ++ b ++ t) := by
    rw [← ht, ← hab]
    simp
  have hline : (firstLine text).length ≤ a.length := by
    rw [htext, firstLine, untilNul, List.map_append, List.map_cons, List.takeWhile_append]
    split_ifs with hall
    · rw [List.length_append, List.takeWhile_cons_of_neg (by decide), List.length_nil,
        List.length_map, Nat.add_zero]
    · exact (List.takeWhile_prefix _).length_le.trans (by simp)
  have hlen := congrArg List.length htext
  simp only [List.length_append, List.length_cons] at hlen
  omega

/-- A text that event-put takes goes on behind its first line. -/
theorem firstLine_lt_of_fields (text : CStr)
    (h : requiredFields.all (hasField (untilNul text)) = true) :
    (firstLine text).length + 1 < text.length := by
  have hfield : ∀ field ∈ requiredFields,
      field <:+: untilNul text ∨ field.tail <+: untilNul text := by
    intro field hmem
    have hhas := List.all_eq_true.mp h field hmem
    rw [hasField, Bool.or_eq_true, List.isPrefixOf_iff_prefix] at hhas
    exact hhas.imp_left (strstr_isSome field _).mp
  rcases hfield "\nSUBSYSTEM=".toList (by simp [requiredFields]) with hsub | hsub
  · have := firstLine_lt text "SUBSYSTEM=".toList hsub
    have hlen : "SUBSYSTEM=".toList.length = 10 := by decide
    omega
  rcases hfield "\nDEVPATH=".toList (by simp [requiredFields]) with hdev | hdev
  · have := firstLine_lt text "DEVPATH=".toList hdev
    have hlen : "DEVPATH=".toList.length = 8 := by decide
    omega
  -- only one of the two fields can be at the head
  · exfalso
    obtain ⟨x, hx⟩ := hsub
    obtain ⟨y, hy⟩ := hdev
    have heq := hx.trans hy.symm
    simp at heq

/-- What event-put multicasts is what it has read, and it has looked for the required fields. -/
theorem eventPut_some {n : Option CStr} {input behind : CStr} {calls : Calls} {rc seqnum : ℕ}
    {event : CStr} (h : eventPut n input behind calls = (rc, some (seqnum, event))) :
    event = input.take 8192 ∧
      requiredFields.all (hasField (eventString event behind)) = true := by
  simp only [eventPut] at h
  split_ifs at h with hn hread hfields
  · cases h
  · cases h
  · cases h
  · cases hseq : n.elim (textSeqnum (eventString (input.take 8192) behind)) optionSeqnum with
    | none =>
      rw [hseq] at h
      cases h
    | some seqnum' =>
      simp only [hseq, sendOff] at h
      split_ifs at h
      · cases h
      all_goals
        obtain ⟨-, h⟩ := Prod.mk.inj h
        obtain ⟨-, rfl⟩ := Prod.mk.inj (Option.some.inj h)
        exact ⟨rfl, by simpa using hfields⟩

theorem eventString_of_lt (read behind : CStr) (h : read.length < 8192) :
    eventString read behind = untilNul read := by
  obtain ⟨k, hk⟩ := Nat.exists_eq_add_of_lt h
  have hpad : 8192 - read.length = k + 1 := by omega
  rw [eventString, hpad, List.replicate_succ, untilNul, untilNul, List.append_assoc,
    List.takeWhile_append]
  split_ifs with hall
  · rw [List.cons_append, List.takeWhile_cons_of_neg (by decide), List.append_nil]
    exact ((List.takeWhile_prefix _).eq_of_length hall).symm
  · rfl

variable {δ : Type}

theorem not_refused_sendDevice (L : Libudev δ) (dev : δ) (accepted : Bool) :
    ¬Refused (if (sendDevice L dev accepted).1 < 0 then (sendDevice L dev accepted).1 else 0) := by
  unfold sendDevice
  dsimp only
  split_ifs with hshort _ haccepted
  · decide
  · decide
  · decide
  · decide
  · simp only at *
    omega
  · decide

/-- `udev_monitor_fs_push_event` asks for a size, and for a header with something behind it. -/
theorem refused_pushEvent (L : Libudev δ) (content : CStr) (accepted : Bool) :
    Refused (pushEvent L content accepted).1 ↔
      8192 ≤ content.length ∨ (firstLine content).length < 4 ∨
        content.length ≤ (firstLine content).length + 1 ∨
        ¬"@/".toList <:+: firstLine content := by
  rw [← strstr_eq_none]
  simp only [pushEvent, List.length_map, firstLine]
  split_ifs with hbig hshort hmark
  · exact iff_of_true (Or.inl rfl) (Or.inl hbig)
  · refine iff_of_true (Or.inr rfl) (Or.inr ?_)
    rcases hshort with hshort | hshort
    · exact Or.inl (by omega)
    · exact Or.inr (Or.inl hshort)
  · exact iff_of_true (Or.inr rfl) (Or.inr (Or.inr (Or.inr hmark)))
  · refine iff_of_false ?_ ?_
    · split
      · decide
      · exact not_refused_sendDevice L _ accepted
    · rintro (h | h | h | h)
      · exact hbig h
      · exact hshort (by omega)
      · exact hshort (by omega)
      · exact hmark h

/-- What event-put takes is not refused exactly when it fits and has a header. -/
theorem not_refused_iff (L : Libudev δ) {n : Option CStr} {input behind event : CStr}
    {calls : Calls} {seqnum : ℕ} (accepted : Bool)
    (h : eventPut n input behind calls = (0, some (seqnum, event))) :
    ¬Refused (pushEvent L event accepted).1 ↔ input.length < 8192 ∧ HasHeader input := by
  obtain ⟨hevent, hfields⟩ := eventPut_some h
  rw [refused_pushEvent]
  by_cases hlen : input.length < 8192
  · rw [List.take_of_length_le (Nat.le_of_lt hlen)] at hevent
    subst event
    rw [eventString_of_lt input behind hlen] at hfields
    have hbehind := firstLine_lt_of_fields input hfields
    simp only [HasHeader, hlen, true_and, not_or, not_not, not_le, not_lt, hbehind]
  · refine iff_of_false (fun hnot => hnot (Or.inl ?_)) (fun hboth => hlen hboth.1)
    rw [hevent, List.length_take]
    omega

end Vdev.EventFormat
