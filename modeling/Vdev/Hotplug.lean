import Vdev.UeventBuffer

/-!
The two ways to a request, with the integers of the code (vdevd/os/linux.c). The parser keeps
its place in an `int`, the loop over the newlines of a uevent file counts in an `unsigned int`,
and the pairs are appended to a buffer that is made larger each time. For a message that the
kernel can send, only the size of the file matters.
-/
namespace Vdev.Hotplug

open CString Data Parsing Paths Uevent SysfsDevice UeventBuffer

/-- The loop of `vdev_linux_parse_request` at the bytes `buf`, which begin at `offset`. There is
no result when the `int` overflows. -/
def parseLoopFrom : ℕ → CStr → ℕ → Fields → Option (Except Errno Fields)
  | 0, _, _, f => some (.ok f)
  | fuel + 1, buf, offset, f =>
    if buf = [] then some (.ok f)
    else
      match keyvalueNext (untilNul buf) with
      | none => some (.error .einval)
      | some (key, value) =>
        let rc := asInt (untilNul buf).length
        if rc < 0 then some (.error .einval)
        else if 2 ^ 31 ≤ offset + rc.toNat + 1 then none
        else
          match parseField f key value with
          | .error e => some (.error e)
          | .ok f => parseLoopFrom fuel (buf.drop (rc.toNat + 1)) (offset + rc.toNat + 1) f

/-- `vdev_linux_parse_request`. -/
def linuxParseRequest (sys : Sysfs) (nlbuf : CStr) : Option (Except Errno Request) :=
  let offset := if '@' ∈ untilNul nlbuf then (untilNul nlbuf).length + 1 else 0
  if 2 ^ 31 ≤ offset then none
  else
    (parseLoopFrom (nlbuf.length + 1) (nlbuf.drop offset) offset {}).map (fun gathered =>
      match gathered with
      | .error e => .error e
      | .ok f => makeRequest sys f)

/-- `vdev_linux_sysfs_register_device`. There is no request for an empty uevent file. -/
def linuxSysfsRegisterDevice (sys : Sysfs) (errno : ℕ) (junk : ℕ → ℕ → Char) (fuel : ℕ)
    (fpUevent : CStr) : Outcome (Option Request) :=
  match linuxSysfsReadUevent sys errno fuel fpUevent with
  | .running => .running
  | .undefined => .undefined
  | .failed rc => .failed rc
  | .returned b =>
    if b.len = 0 then .returned none
    else
      let devpath := (dirname fpUevent).drop sys.mountpoint.length
      match linuxUeventAppend junk b "ACTION".toList "add".toList with
      | none => .undefined
      | some b =>
        if devnameLen b.used = some 0 then .undefined
        else
          match linuxUeventAppend junk b "DEVPATH".toList devpath with
          | none => .undefined
          | some b =>
            match linuxParseRequest sys b.used with
            | none => .undefined
            | some (.error e) => .failed e.rc
            | some (.ok req) => .returned (some req)

/-- Both ways end in the same request, or both without one. There is nothing to compare with an
empty uevent file. -/
def BothAgree : Option (Except Errno Request) → Outcome (Option Request) → Prop
  | some (.ok req), .returned (some req') => req = req'
  | some _, .returned none => True
  | some (.error _), .failed _ => True
  | _, _ => False

/-- The integers do not get in the way of lines that are short enough. -/
theorem parseLoopFrom_nulText (lines : List Line) (f : Fields) (fuel offset : ℕ)
    (hfuel : lines.length < fuel) (hlen : offset + (nulText lines).length < 2 ^ 31) :
    parseLoopFrom fuel (nulText lines) offset f = some (gather f lines) := by
  induction lines generalizing f fuel offset with
  | nil =>
    cases fuel with
    | zero => rfl
    | succ fuel => rfl
  | cons l lines ih =>
    obtain ⟨fuel, rfl⟩ := Nat.exists_eq_succ_of_ne_zero (Nat.ne_of_gt (Nat.zero_lt_of_lt hfuel))
    have hnext : keyvalueNext l.text = some (l.key, l.value) :=
      keyvalueNext_pair l.key l.value l.key_ok.1
    rw [nulText_cons, List.length_append, List.length_cons] at hlen
    have hint : asInt l.text.length = l.text.length := asInt_of_lt (by omega)
    rw [nulText_cons, parseLoopFrom, if_neg (by simp), untilNul_append_nul _ _ l.nul_not_mem_text,
      hnext]
    dsimp only
    rw [hint, if_neg (by omega), Int.toNat_natCast, if_neg (by omega), drop_append_nul, gather,
      List.foldlM_cons]
    cases parseField f l.key l.value with
    | error e => rfl
    | ok g => exact ih g fuel _ (by simpa using hfuel) (by omega)

/-- A buffer of lines, with or without a header, is parsed as without the integers. -/
theorem linuxParseRequest_eq (sys : Sysfs) (nlbuf : CStr) (lines : List Line)
    (hskip : skipHeader nlbuf = nulText lines) (hnul : '\x00' ∈ nlbuf)
    (hlen : nlbuf.length < 2 ^ 31) :
    linuxParseRequest sys nlbuf = some (parseRequest sys nlbuf) := by
  have htwo := length_le_nulText lines
  have hparse : parseRequest sys nlbuf =
      match gather {} lines with
      | .error e => .error e
      | .ok f => makeRequest sys f := by
    have hloop : parseLoop ((nulText lines).length + 1) (nulText lines) {} = gather {} lines :=
      parseLoop_nulText lines {} _ (by omega)
    unfold parseRequest
    rw [hskip]
    cases hgather : gather {} lines with
    | error e => simp only [hloop, hgather]
    | ok f => simp only [hloop, hgather]
  have hoffset : ∀ offset ≤ nlbuf.length, nlbuf.drop offset = nulText lines →
      ¬2 ^ 31 ≤ offset ∧ parseLoopFrom (nlbuf.length + 1) (nlbuf.drop offset) offset {} =
        some (gather {} lines) := by
    intro offset hle hdrop
    have hrest := congrArg List.length hdrop
    rw [List.length_drop] at hrest
    rw [hdrop]
    exact ⟨by omega, parseLoopFrom_nulText lines {} _ offset (by omega) (by omega)⟩
  obtain ⟨header, rest, hbuf, hheader⟩ := List.eq_append_cons_of_mem hnul
  have huntil : untilNul nlbuf = header := by
    rw [hbuf, untilNul_append_nul _ _ hheader]
  have hle : header.length + 1 ≤ nlbuf.length := by
    rw [hbuf, List.length_append, List.length_cons]
    omega
  rw [skipHeader, huntil] at hskip
  rw [linuxParseRequest, huntil, hparse]
  by_cases hat : '@' ∈ header
  · rw [if_pos hat] at hskip ⊢
    obtain ⟨hsmall, hloop⟩ := hoffset _ hle hskip
    rw [if_neg hsmall, hloop, Option.map_some]
  · rw [if_neg hat] at hskip ⊢
    obtain ⟨hsmall, hloop⟩ := hoffset 0 (Nat.zero_le _) hskip
    rw [if_neg hsmall, hloop, Option.map_some]

theorem linuxParseRequest_lines (sys : Sysfs) (lines : List Line) (hne : lines ≠ [])
    (hlen : (nulText lines).length < 2 ^ 31) :
    linuxParseRequest sys (nulText lines) = some (parseRequest sys (nulText lines)) := by
  obtain ⟨l, rest, rfl⟩ := List.exists_cons_of_ne_nil hne
  refine linuxParseRequest_eq sys _ (if '@' ∈ l.text then rest else l :: rest) ?_
    (by simp [nulText_cons]) hlen
  rw [nulText_cons, skipHeader, untilNul_append_nul _ _ l.nul_not_mem_text, drop_append_nul,
    ← nulText_cons]
  split_ifs <;> rfl

section File

variable {sys : Sysfs} {d : CStr} {final : Bool} {lines : List Line} {size : ℕ}

theorem length_fileText_le (hlines : ∀ l ∈ lines, '\n' ∉ l.text) :
    (fileText final lines).length ≤ (nulText lines).length := by
  cases final with
  | true => rw [← map_fileText_final lines hlines, List.length_map]
  | false =>
    by_cases hne : lines = []
    · subst hne
      exact Nat.zero_le _
    · rw [← map_fileText_open lines hne hlines, List.length_append, List.length_map]
      exact Nat.le_add_right _ _

/-- The loop over the newlines comes to its end if it can count so far, and has the time. -/
theorem linuxSysfsReadUevent_eq (h : HasFile sys d final lines size)
    (hlines : ∀ l ∈ lines, '\n' ∉ l.text) (hshort : (fileText final lines).length < 2 ^ 31)
    (errno fuel : ℕ) [Decidable (Room final lines size)] :
    linuxSysfsReadUevent sys errno fuel (sys.mountpoint ++ d ++ "/uevent".toList) =
      if size < 2 ^ 32 ∧ size < fuel then
        if Room final lines size then
          .returned ⟨filled final lines size, (nulText lines).length⟩
        else .undefined
      else .running := by
  have hfits := h.fits
  have hbuf : (fileText final lines ++
      List.replicate (size - (fileText final lines).length) '\x00').length = size := by
    rw [List.length_append, List.length_replicate]
    omega
  have hread : readFileRc errno (fileText final lines).length = 0 := by
    rw [readFileRc, asInt_of_lt hshort, if_neg (by omega)]
  have hfilled : (filled final lines size).length = size := by
    rw [filled, List.length_map, hbuf]
  rw [linuxSysfsReadUevent, h.stat]
  dsimp only
  rw [h.read]
  dsimp only
  rw [List.take_of_length_le hfits, hread, if_neg (by simp), splitLines]
  by_cases hsize : size < 2 ^ 32
  · have hloop := newlineLoop_eq [] (fileText final lines ++
      List.replicate (size - (fileText final lines).length) '\x00') fuel (by rwa [List.nil_append, hbuf])
    rw [List.nil_append, List.nil_append, List.length_nil, hbuf, ← filled] at hloop
    rw [hloop]
    by_cases hfuel : size < fuel
    · rw [if_pos hfuel, if_pos ⟨hsize, hfuel⟩]
      dsimp only
      rw [hfilled]
      have hlen := ueventLen_eq h hlines
      split_ifs with hroom
      · rw [(hlen _).mpr ⟨hroom, rfl⟩]
      · cases hres : ueventLenLoop (size + 1) (filled final lines size) 0 with
        | none => rfl
        | some len => exact absurd ((hlen len).mp hres).1 hroom
    · rw [if_neg hfuel, if_neg (fun hand => hfuel hand.2)]
  · rw [newlineLoop_large _ _ _ (by rw [hbuf]; exact not_lt.mp hsize) (by decide),
      if_neg (fun hand => hsize hand.1)]

def ofRegistered : Registered → Outcome (Option Request)
  | .request req => .returned (some req)
  | .empty => .returned none
  | .failed e => .failed e.rc
  | .undefined => .undefined

theorem bothAgree_ofRegistered (netlink : Except Errno Request) (r : Registered) :
    BothAgree (some netlink) (ofRegistered r) ↔ Agree netlink r := by
  cases netlink with
  | error e =>
    cases r with
    | request req => exact iff_of_false id nofun
    | empty => exact Iff.rfl
    | failed e' => exact iff_of_true trivial ⟨e, rfl⟩
    | undefined => exact Iff.rfl
  | ok req =>
    cases r with
    | request req' =>
      change req = req' ↔ Except.ok req = Except.ok req'
      rw [Except.ok.injEq]
    | empty => exact Iff.rfl
    | failed e' =>
      refine iff_of_false id ?_
      rintro ⟨e, he⟩
      cases he
    | undefined => exact Iff.rfl

theorem not_bothAgree_running (netlink : Option (Except Errno Request)) :
    ¬BothAgree netlink .running := by
  rcases netlink with _ | _ | req
  · exact id
  · exact id
  · exact id

/-- With a size that can be counted to, and enough time, the device is registered as without the
integers. -/
theorem linuxSysfsRegisterDevice_eq (h : HasFile sys d final lines size) (hd : '\x00' ∉ d)
    (hlines : ∀ l ∈ lines, '\n' ∉ l.text)
    (hmessage : (netlinkMessage d hd lines).length < 2 ^ 31) (errno : ℕ) (junk : ℕ → ℕ → Char)
    (fuel : ℕ) :
    linuxSysfsRegisterDevice sys errno junk fuel (sys.mountpoint ++ d ++ "/uevent".toList) =
      if size < 2 ^ 32 ∧ size < fuel then
        ofRegistered (registerDevice sys (sys.mountpoint ++ d ++ "/uevent".toList))
      else .running := by
  classical
  have hle : (fileText final lines).length ≤ (nulText lines).length := length_fileText_le hlines
  have hlen : (nulText (addLines d hd lines)).length ≤ (netlinkMessage d hd lines).length := by
    rw [netlinkMessage, List.length_append, List.length_cons]
    omega
  have hlines_le : (nulText lines).length ≤ (nulText (addLines d hd lines)).length := by
    rw [addLines, nulText_append, List.length_append]
    exact Nat.le_add_right _ _
  rw [linuxSysfsRegisterDevice, linuxSysfsReadUevent_eq h hlines (by omega)]
  by_cases hgo : size < 2 ^ 32 ∧ size < fuel
  · rw [if_pos hgo, if_pos hgo]
    by_cases hroom : Room final lines size
    · rw [if_pos hroom, registerDevice, h.readUevent hgo.1 hlines hroom]
      dsimp only
      by_cases hnil : nulText lines = []
      · rw [if_pos (List.length_eq_zero_iff.mpr hnil), if_pos hnil]
        rfl
      · obtain ⟨k, hk⟩ := filled_eq h hlines hroom
        obtain ⟨tail, haction⟩ :=
          linuxUeventAppend_line junk actionLine lines (List.replicate k '\x00')
        obtain ⟨tail', hdevpath⟩ :=
          linuxUeventAppend_line junk (devpathLine d hd) (lines ++ [actionLine]) tail
        have hadd : lines ++ [actionLine] ++ [devpathLine d hd] = addLines d hd lines := by
          rw [addLines, List.append_assoc]
          rfl
        have hused : ∀ (ls : List Line) (t : List Char),
            Buffer.used ⟨nulText ls ++ t, (nulText ls).length⟩ = nulText ls :=
          fun ls t => List.take_left
        have hparse := linuxParseRequest_lines sys (addLines d hd lines) (by simp [addLines])
          (by omega)
        rw [if_neg (fun hzero => hnil (List.length_eq_zero_iff.mp hzero)), if_neg hnil, hk,
          show linuxUeventAppend junk _ "ACTION".toList "add".toList = _ from haction]
        dsimp only
        rw [hused, ueventAppend_action, devpath_eq, ueventAppend_devpath d hd,
          show linuxUeventAppend junk _ "DEVPATH".toList d = _ from hdevpath, hadd]
        split_ifs
        · rfl
        · dsimp only
          rw [hused, hparse]
          cases parseRequest sys (nulText (addLines d hd lines)) with
          | error e => rfl
          | ok req => rfl
    · rw [if_neg hroom, registerDevice, h.readUevent_open hlines hroom]
      rfl
  · rw [if_neg hgo, if_neg hgo]

/-- For a message that fits in an `int`, the kernel's message and the uevent file give the same
request exactly when the size of the file fits in an `unsigned int` and nothing of the file is
lost: the buffer has room for a NUL behind it, its first line does not end one character behind
`DEVNAME=`, and that line has no at sign or is not missed. -/
theorem hotplug_coldplug_agree (sys : Sysfs) (d : CStr) (hd : '\x00' ∉ d) (final : Bool)
    (lines : List Line) (size : ℕ) (hfile : HasFile sys d final lines size)
    (hkeys : (lines.map Line.key).Nodup) (hlines : ∀ l ∈ lines, '\n' ∉ l.text)
    (hmessage : (netlinkMessage d hd lines).length < 2 ^ 31) (errno : ℕ) (junk : ℕ → ℕ → Char) :
    (∃ fuel, BothAgree (linuxParseRequest sys (netlinkMessage d hd lines))
        (linuxSysfsRegisterDevice sys errno junk fuel
          (sys.mountpoint ++ d ++ "/uevent".toList))) ↔
      size < 2 ^ 32 ∧ Kept sys d final lines size := by
  have hagree := agree_iff sys d hd final lines size hfile hkeys hlines
  have hnetlink : linuxParseRequest sys (netlinkMessage d hd lines) =
      some (parseRequest sys (netlinkMessage d hd lines)) := by
    refine linuxParseRequest_eq sys _ (addLines d hd lines) ?_ (by simp [netlinkMessage]) hmessage
    rw [netlinkMessage, skipHeader, untilNul_append_nul _ _ (by simp [hd]), if_pos (by simp),
      drop_append_nul]
  rw [hnetlink]
  constructor
  · rintro ⟨fuel, hboth⟩
    rw [linuxSysfsRegisterDevice_eq hfile hd hlines hmessage] at hboth
    split_ifs at hboth with hgo
    · exact hagree.mp ((bothAgree_ofRegistered _ _).mp hboth)
    · exact absurd hboth (not_bothAgree_running _)
  · intro hcond
    refine ⟨size + 1, ?_⟩
    rw [linuxSysfsRegisterDevice_eq hfile hd hlines hmessage,
      if_pos ⟨hcond.1, Nat.lt_succ_self size⟩, bothAgree_ofRegistered]
    exact hagree.mpr hcond

end File

/-- A serial port, which has a number and a name. -/
theorem hotplug_coldplug_agree_serial :
    ∃ fuel, BothAgree
      (linuxParseRequest (oneDevice serialPath serialLines)
        (netlinkMessage serialPath (by decide) serialLines))
      (linuxSysfsRegisterDevice (oneDevice serialPath serialLines) 0 (fun _ _ => 'x') fuel
        ("/sys".toList ++ serialPath ++ "/uevent".toList)) := by
  refine (hotplug_coldplug_agree _ serialPath (by decide) true serialLines 4096
    (oneDevice_hasFile _ _ (by decide)) (by decide) (by decide) (by decide) 0 _).mpr
    ⟨by decide, ?_⟩
  rintro l rest heq
  cases heq
  refine ⟨Or.inl rfl, ?_, Or.inl (by decide)⟩
  rintro ⟨found, hfound, _⟩
  rw [show strstr "DEVNAME=".toList _ = none from rfl] at hfound
  cases hfound

def largeSysfs : Sysfs where
  mountpoint := "/sys".toList
  mountpoint_ne := sysMountpoint_ne
  statSize _ := .ok (2 ^ 32)
  readFile _ := .ok (fileText true serialLines)
  readlink _ := .error .enoent

/-- A first line with an at sign is lost, a first line with a device name of one character ends
in an invalid `free`, and a file of 2^32 bytes is never read to its end. -/
theorem hotplug_coldplug_differ :
    (¬∃ fuel, BothAgree
      (linuxParseRequest (oneDevice serialPath [unitAddress])
        (netlinkMessage serialPath (by decide) [unitAddress]))
      (linuxSysfsRegisterDevice (oneDevice serialPath [unitAddress]) 0 (fun _ _ => 'x') fuel
        ("/sys".toList ++ serialPath ++ "/uevent".toList))) ∧
    linuxSysfsRegisterDevice (oneDevice serialPath [oneLetter]) 0 (fun _ _ => 'x') 4097
      ("/sys".toList ++ serialPath ++ "/uevent".toList) = .undefined ∧
    ∀ fuel, linuxSysfsRegisterDevice largeSysfs 0 (fun _ _ => 'x') fuel
      ("/sys".toList ++ serialPath ++ "/uevent".toList) = .running := by
  have hletter := oneDevice_hasFile serialPath [oneLetter] (by decide)
  have hlarge : HasFile largeSysfs serialPath true serialLines (2 ^ 32) :=
    ⟨rfl, rfl, by decide⟩
  refine ⟨?_, ?_, fun fuel => ?_⟩
  · intro hagree
    have hcond := (hotplug_coldplug_agree _ serialPath (by decide) true [unitAddress] 4096
      (oneDevice_hasFile _ _ (by decide)) (by decide) (by decide) (by decide) 0 _).mp hagree
    rcases (hcond.2 _ _ rfl).2.2 with hat | hrefused | ⟨hkey, _⟩
    · exact absurd hat (by decide)
    · simp [Refused] at hrefused
    · exact absurd hkey (by decide)
  · refine (linuxSysfsRegisterDevice_eq hletter (by decide) (by decide) (by decide) 0 _ 4097).trans ?_
    rw [if_pos (by decide), hletter.registerDevice_short (by decide) (by decide) (Or.inl rfl)
      ⟨"DEVNAME=a".toList, rfl, rfl⟩]
    rfl
  · refine (linuxSysfsRegisterDevice_eq hlarge (by decide) (by decide) (by decide) 0 _ fuel).trans ?_
    exact if_neg (fun hand => absurd hand.1 (by decide))

end Vdev.Hotplug
