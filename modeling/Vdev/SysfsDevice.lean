import Vdev.Uevent
import Mathlib.Data.List.TakeWhile

/-!
Devices found in sysfs (vdevd/os/linux.c). `vdev_linux_sysfs_register_device` reads
a uevent file, appends the action and the device path, and parses the result like
a message from the netlink socket. The parser takes a first line with an at sign
for the header of such a message; the request is the one that the kernel's own
message would give exactly when that line does not matter.
-/
namespace Vdev.SysfsDevice

open CString Data Parsing Paths Uevent

/-- The loop that finds the end of the uevent in the buffer. There is no result when
`strlen` reads past the end of the buffer. -/
def ueventLenLoop : ℕ → CStr → ℕ → Option ℕ
  | 0, _, len => some len
  | fuel + 1, buf, len =>
    if buf = [] ∨ buf.head? = some '\x00' then some len
    else if '\x00' ∉ buf then none
    else
      ueventLenLoop fuel (buf.drop ((untilNul buf).length + 1)) (len + (untilNul buf).length + 1)

def newlineToNul (c : Char) : Char := if c = '\n' then '\x00' else c

/-- `vdev_linux_sysfs_read_uevent`. The buffer has the size that `stat` reports and
is filled with NULs; newlines become NULs. The loop over them counts in an `unsigned int`:
for a size that it cannot count to the function does not return. -/
def readUevent (sys : Sysfs) (fpUevent : CStr) : Except Errno (Option CStr) :=
  match sys.statSize fpUevent with
  | .error e => .error e
  | .ok size =>
    match sys.readFile fpUevent with
    | .error e => .error e
    | .ok content =>
      let content := content.take size
      let buf := content ++ List.replicate (size - content.length) '\x00'
      let buf := buf.map newlineToNul
      .ok (if size < 2 ^ 32 then (ueventLenLoop (size + 1) buf 0).map buf.take else none)

/-- `vdev_linux_uevent_append`. -/
def ueventAppend (buf key value : CStr) : CStr := buf ++ key ++ '=' :: value ++ ['\x00']

/-- `strstr`: the rest of the string from the first occurrence on. -/
def strstr (needle : CStr) : CStr → Option CStr
  | [] => if needle = [] then some [] else none
  | c :: s => if needle <+: c :: s then some (c :: s) else strstr needle s

/-- `devname_len` of `vdev_linux_sysfs_register_device`, when the first string of the
buffer has `DEVNAME=` in it. The pointer is moved one byte too far. The name it
points to is given to the new request, and the parser replaces it. -/
def devnameLen (buf : CStr) : Option ℕ :=
  (strstr "DEVNAME=".toList (untilNul buf)).map (fun found =>
    let devname := buf.drop ((untilNul buf).length - found.length + 8 + 1)
    ((untilNul devname).takeWhile (· ≠ '\n')).length)

/-- How `vdev_linux_sysfs_register_device` ends: with a request, without one for an
empty uevent file, with an error, or with undefined behaviour or not at all. -/
inductive Registered
  | request (req : Request)
  | empty
  | failed (e : Errno)
  | undefined

/-- `vdev_linux_sysfs_register_device`. When `devname_len` is 0, `free` is called on
a pointer into the buffer. -/
def registerDevice (sys : Sysfs) (fpUevent : CStr) : Registered :=
  match readUevent sys fpUevent with
  | .error e => .failed e
  | .ok none => .undefined
  | .ok (some buf) =>
    if buf = [] then .empty
    else
      let devpath := (dirname fpUevent).drop sys.mountpoint.length
      let buf := ueventAppend buf "ACTION".toList "add".toList
      if devnameLen buf = some 0 then .undefined
      else
        match parseRequest sys (ueventAppend buf "DEVPATH".toList devpath) with
        | .error e => .failed e
        | .ok req => .request req

/-- The message of the kernel for the device at `d`. -/
def netlinkMessage (d : CStr) (hd : '\x00' ∉ d) (lines : List Line) : CStr :=
  "add@".toList ++ d ++ '\x00' :: nulText (addLines d hd lines)

def fileText (final : Bool) : List Line → CStr
  | [] => []
  | [l] => l.text ++ if final then ['\n'] else []
  | l :: m :: lines => l.text ++ '\n' :: fileText final (m :: lines)

/-- The uevent file of the device at `d` has the lines, and its size is large enough. -/
structure HasFile (sys : Sysfs) (d : CStr) (final : Bool) (lines : List Line) (size : ℕ) : Prop where
  stat : sys.statSize (sys.mountpoint ++ d ++ "/uevent".toList) = .ok size
  read : sys.readFile (sys.mountpoint ++ d ++ "/uevent".toList) = .ok (fileText final lines)
  fits : (fileText final lines).length ≤ size

/-- The two ways agree on a device: the same request, or none. There is nothing to
compare with an empty uevent file. -/
def Agree (netlink : Except Errno Request) : Registered → Prop
  | .request req => netlink = .ok req
  | .empty => True
  | .failed _ => ∃ e, netlink = .error e
  | .undefined => False

/-- `DEVNAME=` and one more character end the line. -/
def ShortDevname (l : Line) : Prop :=
  ∃ found, strstr "DEVNAME=".toList l.text = some found ∧ found.length = 9

/-- The parser does not lose anything with the first line. -/
def FirstLineKept (sys : Sysfs) (d : CStr) (l : Line) (rest : List Line) : Prop :=
  '@' ∉ l.text ∨ Refused rest ∨
    (l.key = "SUBSYSTEM".toList ∧ sysfsReadSubsystem sys d = .ok l.value)

theorem parseRequest_header (sys : Sysfs) (header : CStr) (lines : List Line)
    (hat : '@' ∈ header) (hnul : '\x00' ∉ header) :
    parseRequest sys (header ++ '\x00' :: nulText lines) = requestOf sys lines := by
  have hskip : skipHeader (header ++ '\x00' :: nulText lines) = nulText lines := by
    rw [skipHeader, untilNul_append_nul _ _ hnul, if_pos hat, drop_append_nul]
  have hlen := length_le_nulText lines
  rw [parseRequest, hskip, parseLoop_nulText lines {} _ (by omega), requestOf]
  cases gather {} lines <;> rfl

theorem parseRequest_plain (sys : Sysfs) (l : Line) (lines : List Line) (hat : '@' ∉ l.text) :
    parseRequest sys (nulText (l :: lines)) = requestOf sys (l :: lines) := by
  have hskip : skipHeader (nulText (l :: lines)) = nulText (l :: lines) := by
    rw [nulText_cons, skipHeader, untilNul_append_nul _ _ l.nul_not_mem_text, if_neg hat]
  have hlen := length_le_nulText (l :: lines)
  rw [parseRequest, hskip, parseLoop_nulText (l :: lines) {} _ (by omega), requestOf]
  cases gather {} (l :: lines) <;> rfl

theorem parseRequest_netlink (sys : Sysfs) (d : CStr) (hd : '\x00' ∉ d) (lines : List Line) :
    parseRequest sys (netlinkMessage d hd lines) = requestOf sys (addLines d hd lines) :=
  parseRequest_header sys _ _ (by simp) (by simp [hd])

theorem map_newlineToNul (s : CStr) (h : '\n' ∉ s) : s.map newlineToNul = s := by
  refine (List.map_congr_left (g := id) (fun c hc => if_neg ?_)).trans (List.map_id s)
  rintro rfl
  exact h hc

theorem map_fileText_final (lines : List Line) (h : ∀ l ∈ lines, '\n' ∉ l.text) :
    (fileText true lines).map newlineToNul = nulText lines := by
  induction lines using fileText.induct with
  | case1 => rfl
  | case2 l =>
    rw [fileText, List.map_append, map_newlineToNul _ (h l (by simp)), nulText_cons]
    rfl
  | case3 l m lines ih =>
    rw [fileText, List.map_append, List.map_cons, map_newlineToNul _ (h l (by simp)),
      ih (fun x hx => h x (List.mem_cons_of_mem _ hx)), nulText_cons l]
    rfl

theorem map_fileText_open (lines : List Line) (hne : lines ≠ []) (h : ∀ l ∈ lines, '\n' ∉ l.text) :
    (fileText false lines).map newlineToNul ++ ['\x00'] = nulText lines := by
  induction lines using fileText.induct with
  | case1 => exact absurd rfl hne
  | case2 l =>
    rw [fileText, List.map_append, map_newlineToNul _ (h l (by simp)), nulText_cons]
    simp [nulText]
  | case3 l m lines ih =>
    have hrest := ih (List.cons_ne_nil _ _) (fun x hx => h x (List.mem_cons_of_mem _ hx))
    rw [fileText, List.map_append, List.map_cons, map_newlineToNul _ (h l (by simp)), List.append_assoc,
      List.cons_append, hrest, nulText_cons l]
    rfl

theorem not_at_end (l : Line) (t : CStr) :
    ¬(l.text ++ t = [] ∨ (l.text ++ t).head? = some '\x00') := by
  have hhead : l.text.head? ≠ some '\x00' :=
    fun heq => l.nul_not_mem_text (List.mem_of_head? heq)
  rw [List.head?_append_of_ne_nil _ l.text_ne_nil]
  simp [hhead, l.text_ne_nil]

/-- The loop stops at the NULs behind the last line. -/
theorem ueventLenLoop_nulText (lines : List Line) (k fuel len : ℕ) (hfuel : lines.length < fuel) :
    ueventLenLoop fuel (nulText lines ++ List.replicate k '\x00') len =
      some (len + (nulText lines).length) := by
  induction lines generalizing fuel len with
  | nil =>
    obtain ⟨fuel, rfl⟩ := Nat.exists_eq_succ_of_ne_zero (Nat.ne_of_gt hfuel)
    rw [ueventLenLoop, if_pos (by cases k <;> simp [nulText, List.replicate_succ])]
    rfl
  | cons l lines ih =>
    obtain ⟨fuel, rfl⟩ := Nat.exists_eq_succ_of_ne_zero (Nat.ne_of_gt (Nat.zero_lt_of_lt hfuel))
    rw [nulText_cons, List.append_assoc, List.cons_append, ueventLenLoop, if_neg (not_at_end l _),
      if_neg (by simp), untilNul_append_nul _ _ l.nul_not_mem_text, drop_append_nul,
      ih fuel _ (by simpa using hfuel), List.length_append, List.length_cons]
    congr 1
    omega

/-- Without a NUL behind the last line the loop leaves the buffer. -/
theorem ueventLenLoop_open (lines : List Line) (fuel len : ℕ) (hne : lines ≠ [])
    (h : ∀ l ∈ lines, '\n' ∉ l.text) (hfuel : lines.length < fuel) :
    ueventLenLoop fuel ((fileText false lines).map newlineToNul) len = none := by
  induction lines using fileText.induct generalizing fuel len with
  | case1 => exact absurd rfl hne
  | case2 l =>
    obtain ⟨fuel, rfl⟩ := Nat.exists_eq_succ_of_ne_zero (Nat.ne_of_gt (Nat.zero_lt_of_lt hfuel))
    have hend := not_at_end l []
    rw [fileText, List.map_append, map_newlineToNul _ (h l (by simp))]
    simp only [Bool.false_eq_true, if_false, List.map_nil, List.append_nil] at hend ⊢
    rw [ueventLenLoop, if_neg hend, if_pos l.nul_not_mem_text]
  | case3 l m lines ih =>
    obtain ⟨fuel, rfl⟩ := Nat.exists_eq_succ_of_ne_zero (Nat.ne_of_gt (Nat.zero_lt_of_lt hfuel))
    rw [fileText, List.map_append, List.map_cons, map_newlineToNul _ (h l (by simp)),
      show newlineToNul '\n' = '\x00' from rfl, ueventLenLoop, if_neg (not_at_end l _),
      if_neg (by simp), untilNul_append_nul _ _ l.nul_not_mem_text, drop_append_nul]
    exact ih fuel _ (List.cons_ne_nil _ _) (fun x hx => h x (List.mem_cons_of_mem _ hx))
      (by simpa using hfuel)

section File

variable {sys : Sysfs} {d : CStr} {final : Bool} {lines : List Line} {size : ℕ}

/-- The buffer holds the lines, and NULs behind them when there is room for one. -/
theorem HasFile.buffer (h : HasFile sys d final lines size)
    (hlines : ∀ l ∈ lines, '\n' ∉ l.text)
    (hroom : lines = [] ∨ final = true ∨ (fileText final lines).length < size) :
    ∃ k, ((fileText final lines).take size ++
        List.replicate (size - ((fileText final lines).take size).length) '\x00').map newlineToNul =
      nulText lines ++ List.replicate k '\x00' := by
  have hfits := h.fits
  rw [List.take_of_length_le hfits, List.map_append, List.map_replicate,
    show newlineToNul '\x00' = '\x00' from rfl]
  cases final with
  | true => exact ⟨_, by rw [map_fileText_final lines hlines]⟩
  | false =>
    by_cases hne : lines = []
    · subst hne
      exact ⟨_, rfl⟩
    · have hlt : (fileText false lines).length < size := by
        rcases hroom with hnil | hfalse | hlt
        · exact absurd hnil hne
        · cases hfalse
        · exact hlt
      refine ⟨size - (fileText false lines).length - 1, ?_⟩
      rw [← map_fileText_open lines hne hlines, List.append_assoc, List.singleton_append,
        ← List.replicate_succ, Nat.sub_add_cancel (by omega)]

theorem HasFile.length_lt (h : HasFile sys d final lines size) (hlines : ∀ l ∈ lines, '\n' ∉ l.text) :
    lines.length < size + 1 := by
  have hfits := h.fits
  have htwo := length_le_nulText lines
  by_cases hne : lines = []
  · subst hne
    exact Nat.succ_pos size
  · have hpos := List.length_pos_of_ne_nil hne
    cases final with
    | true =>
      have hlen := congrArg List.length (map_fileText_final lines hlines)
      rw [List.length_map] at hlen
      omega
    | false =>
      have hlen := congrArg List.length (map_fileText_open lines hne hlines)
      rw [List.length_append, List.length_map, List.length_singleton] at hlen
      omega

/-- The file is read as the strings that the kernel would send. -/
theorem HasFile.readUevent (h : HasFile sys d final lines size) (hsize : size < 2 ^ 32)
    (hlines : ∀ l ∈ lines, '\n' ∉ l.text)
    (hroom : lines = [] ∨ final = true ∨ (fileText final lines).length < size) :
    readUevent sys (sys.mountpoint ++ d ++ "/uevent".toList) = .ok (some (nulText lines)) := by
  obtain ⟨k, hk⟩ := h.buffer hlines hroom
  rw [SysfsDevice.readUevent, h.stat]
  dsimp only
  rw [h.read]
  dsimp only
  rw [hk, ueventLenLoop_nulText lines k _ 0 (h.length_lt hlines), Option.map_some, Nat.zero_add,
    List.take_left, if_pos hsize]

theorem HasFile.readUevent_open (h : HasFile sys d final lines size)
    (hlines : ∀ l ∈ lines, '\n' ∉ l.text)
    (hroom : ¬(lines = [] ∨ final = true ∨ (fileText final lines).length < size)) :
    SysfsDevice.readUevent sys (sys.mountpoint ++ d ++ "/uevent".toList) = .ok none := by
  have hfits := h.fits
  have hfuel := h.length_lt hlines
  rw [not_or, not_or, Bool.not_eq_true] at hroom
  obtain ⟨hne, rfl, hfull⟩ := hroom
  have hsize : (fileText false lines).length = size := by omega
  rw [SysfsDevice.readUevent, h.stat]
  dsimp only
  rw [h.read]
  dsimp only
  rw [List.take_of_length_le hfits, hsize, Nat.sub_self, List.replicate_zero, List.append_nil,
    ueventLenLoop_open lines _ 0 hne hlines hfuel, Option.map_none, ite_self]

theorem HasFile.readUevent_large (h : HasFile sys d final lines size) (hsize : ¬size < 2 ^ 32) :
    SysfsDevice.readUevent sys (sys.mountpoint ++ d ++ "/uevent".toList) = .ok none := by
  rw [SysfsDevice.readUevent, h.stat]
  dsimp only
  rw [h.read]
  dsimp only
  rw [if_neg hsize]

end File

theorem strstr_spec (needle s found : CStr) (h : strstr needle s = some found) :
    (∃ before, s = before ++ found) ∧ needle.length ≤ found.length := by
  induction s with
  | nil =>
    rw [strstr] at h
    split_ifs at h with hnil
    cases h
    exact ⟨⟨[], rfl⟩, by rw [hnil]⟩
  | cons c s ih =>
    rw [strstr] at h
    split_ifs at h with hpre
    · cases h
      exact ⟨⟨[], rfl⟩, hpre.length_le⟩
    · obtain ⟨⟨before, rfl⟩, hlen⟩ := ih h
      exact ⟨⟨c :: before, rfl⟩, hlen⟩

theorem firstLen_ne_zero (s t : CStr) (hne : s ≠ []) (hnul : '\x00' ∉ s) (hnl : '\n' ∉ s) :
    ((untilNul (s ++ '\x00' :: t)).takeWhile (· ≠ '\n')).length ≠ 0 := by
  obtain ⟨c, u, rfl⟩ := List.exists_cons_of_ne_nil hne
  have hc : c ≠ '\n' := by
    rintro rfl
    exact hnl List.mem_cons_self
  rw [untilNul_append_nul _ _ hnul, List.takeWhile_cons_of_pos (by simpa using hc), List.length_cons]
  exact Nat.succ_ne_zero _

/-- The pointer is at the end of the string when one character follows `DEVNAME=`. -/
theorem devnameLen_eq_zero (l m : Line) (lines : List Line) (hl : '\n' ∉ l.text)
    (hm : '\n' ∉ m.text) : devnameLen (nulText (l :: m :: lines)) = some 0 ↔ ShortDevname l := by
  rw [devnameLen, nulText_cons, untilNul_append_nul _ _ l.nul_not_mem_text, ShortDevname]
  cases hfound : strstr "DEVNAME=".toList l.text with
  | none => simp
  | some found =>
    obtain ⟨⟨before, hbefore⟩, hlen⟩ := strstr_spec _ _ _ hfound
    have hle : 8 ≤ found.length := hlen
    have hdrop : (l.text ++ '\x00' :: nulText (m :: lines)).drop
        (l.text.length - found.length + 8 + 1) =
          (found ++ '\x00' :: nulText (m :: lines)).drop 9 := by
      rw [hbefore, List.length_append, Nat.add_sub_cancel, List.append_assoc, Nat.add_assoc,
        List.drop_length_add_append]
    have hnul : '\x00' ∉ found := by
      intro hmem
      exact l.nul_not_mem_text (hbefore ▸ List.mem_append_right before hmem)
    have hnl : '\n' ∉ found := by
      intro hmem
      exact hl (hbefore ▸ List.mem_append_right before hmem)
    simp only [Option.map_some, Option.some.injEq, hdrop, exists_eq_left']
    rcases Nat.lt_trichotomy found.length 9 with hlt | heq | hgt
    · -- Nothing follows: the pointer is at the next string.
      have hskip : (found ++ '\x00' :: nulText (m :: lines)).drop 9 = nulText (m :: lines) := by
        rw [show 9 = found.length + 1 by omega, drop_append_nul]
      rw [hskip, nulText_cons]
      exact iff_of_false (firstLen_ne_zero _ _ m.text_ne_nil m.nul_not_mem_text hm) (by omega)
    · have hskip : (found ++ '\x00' :: nulText (m :: lines)).drop 9 =
          '\x00' :: nulText (m :: lines) := by
        rw [← heq, List.drop_left]
      rw [hskip]
      exact iff_of_true rfl heq
    · have hskip : (found ++ '\x00' :: nulText (m :: lines)).drop 9 =
          found.drop 9 ++ '\x00' :: nulText (m :: lines) := by
        rw [List.drop_append_of_le_length (by omega)]
      rw [hskip]
      refine iff_of_false (firstLen_ne_zero _ _ ?_ ?_ ?_) (by omega)
      · rw [ne_eq, List.drop_eq_nil_iff]
        omega
      · exact fun hmem => hnul (List.mem_of_mem_drop hmem)
      · exact fun hmem => hnl (List.mem_of_mem_drop hmem)

theorem ueventAppend_line (lines : List Line) (l : Line) :
    ueventAppend (nulText lines) l.key l.value = nulText (lines ++ [l]) := by
  rw [nulText_append, nulText_cons, Line.text]
  simp [ueventAppend, nulText]

theorem ueventAppend_action (lines : List Line) :
    ueventAppend (nulText lines) "ACTION".toList "add".toList = nulText (lines ++ [actionLine]) :=
  ueventAppend_line lines actionLine

theorem ueventAppend_devpath (d : CStr) (hd : '\x00' ∉ d) (lines : List Line) :
    ueventAppend (nulText (lines ++ [actionLine])) "DEVPATH".toList d =
      nulText (addLines d hd lines) := by
  have happ : addLines d hd lines = lines ++ [actionLine] ++ [devpathLine d hd] := by
    rw [addLines, List.append_assoc]
    rfl
  rw [happ]
  exact ueventAppend_line _ (devpathLine d hd)

/-- The directory of the uevent file, without the mountpoint, is the device path. -/
theorem devpath_eq (sys : Sysfs) (d : CStr) :
    (dirname (sys.mountpoint ++ d ++ "/uevent".toList)).drop sys.mountpoint.length = d := by
  have hne : sys.mountpoint ++ d ≠ [] := by simp [sys.mountpoint_ne]
  have hdir := dirname_append (sys.mountpoint ++ d) "uevent".toList (by decide) (by decide)
  rw [show "/uevent".toList = '/' :: "uevent".toList from rfl, hdir, if_neg hne, List.drop_left]

theorem devnameLen_file (l : Line) (rest : List Line) (hlines : ∀ m ∈ l :: rest, '\n' ∉ m.text) :
    devnameLen (nulText (l :: rest ++ [actionLine])) = some 0 ↔ ShortDevname l := by
  cases rest with
  | nil => exact devnameLen_eq_zero l actionLine [] (hlines l (by simp)) (by decide)
  | cons m rest => exact devnameLen_eq_zero l m _ (hlines l (by simp)) (hlines m (by simp))

section Register

variable {sys : Sysfs} {d : CStr} {final : Bool} {l : Line} {rest : List Line} {size : ℕ}

/-- What becomes of a uevent file with at least one line. -/
theorem HasFile.registerDevice (h : HasFile sys d final (l :: rest) size)
    (hsize : size < 2 ^ 32) (hd : '\x00' ∉ d)
    (hlines : ∀ m ∈ l :: rest, '\n' ∉ m.text)
    (hroom : final = true ∨ (fileText final (l :: rest)).length < size) (hshort : ¬ShortDevname l) :
    registerDevice sys (sys.mountpoint ++ d ++ "/uevent".toList) =
      match requestOf sys (addLines d hd (if '@' ∈ l.text then rest else l :: rest)) with
      | .error e => .failed e
      | .ok req => .request req := by
  have hne : nulText (l :: rest) ≠ [] := by simp [nulText_cons]
  have hparse : parseRequest sys (nulText (addLines d hd (l :: rest))) =
      requestOf sys (addLines d hd (if '@' ∈ l.text then rest else l :: rest)) := by
    split_ifs with hat
    · rw [addLines, List.cons_append, nulText_cons]
      exact parseRequest_header sys l.text _ hat l.nul_not_mem_text
    · exact parseRequest_plain sys l _ hat
  rw [SysfsDevice.registerDevice, h.readUevent hsize hlines (Or.inr hroom)]
  dsimp only
  rw [if_neg hne, ueventAppend_action, if_neg (fun heq => hshort ((devnameLen_file l rest hlines).mp heq)),
    devpath_eq, ueventAppend_devpath d hd, hparse]

theorem HasFile.registerDevice_short (h : HasFile sys d final (l :: rest) size)
    (hsize : size < 2 ^ 32)
    (hlines : ∀ m ∈ l :: rest, '\n' ∉ m.text)
    (hroom : final = true ∨ (fileText final (l :: rest)).length < size) (hshort : ShortDevname l) :
    SysfsDevice.registerDevice sys (sys.mountpoint ++ d ++ "/uevent".toList) = .undefined := by
  have hne : nulText (l :: rest) ≠ [] := by simp [nulText_cons]
  rw [SysfsDevice.registerDevice, h.readUevent hsize hlines (Or.inr hroom)]
  dsimp only
  rw [if_neg hne, ueventAppend_action, if_pos ((devnameLen_file l rest hlines).mpr hshort)]

end Register

theorem mem_dropWhile (p : Char → Bool) (s : CStr) (c : Char) (hc : c ∈ s) (hp : p c = false) :
    c ∈ s.dropWhile p := by
  rw [← List.takeWhile_append_dropWhile (p := p) (l := s), List.mem_append] at hc
  rcases hc with hc | hc
  · exact absurd (List.mem_takeWhile_imp hc) (by rw [hp]; exact Bool.false_ne_true)
  · exact hc

/-- A number does not have an at sign in it. -/
theorem numberRest_ne_nil (value : CStr) (h : '@' ∈ value) : numberRest value ≠ [] := by
  have hrest : ∀ neg m rest, scanInt 10 value = some (neg, m, rest) → '@' ∈ rest := by
    intro neg m rest hscan
    have hspace := mem_dropWhile isspace value '@' h (by decide)
    rw [scanInt] at hscan
    generalize value.dropWhile isspace = t at hscan hspace
    split at hscan
    rename_i u hsign
    have hdigits : '@' ∈ u := by
      split at hsign <;> cases hsign <;> simpa using hspace
    dsimp only at hscan
    split_ifs at hscan
    cases hscan
    exact mem_dropWhile _ _ _ hdigits (by decide)
  intro hnil
  rw [numberRest, strtol] at hnil
  split at hnil
  · exact List.ne_nil_of_mem h hnil
  · rename_i hscan
    exact List.ne_nil_of_mem (hrest _ _ _ hscan) hnil
  · rename_i hscan
    exact List.ne_nil_of_mem (hrest _ _ _ hscan) hnil

theorem parseDeviceRequestType_at (value : CStr) (h : '@' ∈ value) :
    parseDeviceRequestType value = .invalid := by
  unfold parseDeviceRequestType
  split_ifs with hadd hremove hchange
  · rw [hadd] at h
    exact absurd h (by decide)
  · rw [hremove] at h
    exact absurd h (by decide)
  · rw [hchange] at h
    exact absurd h (by decide)
  · rfl

theorem unreadable_of_at (l : Line) (hat : '@' ∈ l.text) (hkey : Consumed l.key) : ¬Readable l := by
  have hvalue : '@' ∈ l.value := by
    rw [Line.text, List.mem_append, List.mem_cons] at hat
    rcases hat with hat | hat | hat
    · rcases hkey with hkey | hkey | hkey <;> rw [hkey] at hat <;> exact absurd hat (by decide)
    · exact absurd hat (by decide)
    · exact hat
  rintro ⟨haction, hnum⟩
  rcases hkey with hkey | hkey
  · exact haction hkey (parseDeviceRequestType_at _ hvalue)
  · exact numberRest_ne_nil _ hvalue (hnum hkey)

theorem refused_cons (l : Line) (rest : List Line) (hat : '@' ∈ l.text) (h : Refused rest) :
    Refused (l :: rest) := by
  rcases h with ⟨m, hm, hm'⟩ | h | h | h
  · exact Or.inl ⟨m, List.mem_cons_of_mem _ hm, hm'⟩
  · exact Or.inr (Or.inl (List.mem_cons_of_mem _ h))
  · exact Or.inr (Or.inr (Or.inl (List.mem_cons_of_mem _ h)))
  · by_cases hkey : Consumed l.key
    · exact Or.inl ⟨l, List.mem_cons_self, unreadable_of_at l hat hkey⟩
    · rw [Consumed, not_or, not_or] at hkey
      refine Or.inr (Or.inr (Or.inr ?_))
      rwa [List.map_cons, List.mem_cons, List.mem_cons, or_iff_right (Ne.symm hkey.2.1),
        or_iff_right (Ne.symm hkey.2.2)]

theorem refused_cons_subsystem (l : Line) (rest : List Line) (hkey : l.key = "SUBSYSTEM".toList)
    (h : ¬Refused rest) : ¬Refused (l :: rest) := by
  rw [Refused, not_or, not_or, not_or, not_not] at h ⊢
  rw [List.map_cons, hkey]
  refine ⟨?_, ?_, ?_, ?_⟩
  · rintro ⟨m, hm, hm'⟩
    rcases List.mem_cons.mp hm with rfl | hm
    · refine hm' ⟨fun heq => ?_, fun heq => ?_⟩ <;> rw [hkey] at heq <;> exact absurd heq (by decide)
    · exact h.1 ⟨m, hm, hm'⟩
  · rw [List.mem_cons, or_iff_right (by decide)]
    exact h.2.1
  · rw [List.mem_cons, or_iff_right (by decide)]
    exact h.2.2.1
  · rw [List.mem_cons, List.mem_cons, or_iff_right (by decide), or_iff_right (by decide)]
    exact h.2.2.2

/-- The subsystem may come from the line or from sysfs. -/
theorem describes_subsystem (sys : Sysfs) (d : CStr) (l : Line) (rest : List Line)
    (hkeys : ((l :: rest).map Line.key).Nodup) (hkey : l.key = "SUBSYSTEM".toList)
    (hread : sysfsReadSubsystem sys d = .ok l.value) (req req' : Request)
    (h : Describes sys d (l :: rest) req) (h' : Describes sys d rest req') : req = req' := by
  have hvalue : ∀ key, "SUBSYSTEM".toList ≠ key → valueOf key (l :: rest) = valueOf key rest :=
    fun key hne => valueOf_cons_of_ne key l rest (hkey ▸ hne)
  have hsub : valueOf "SUBSYSTEM".toList (l :: rest) = some l.value := by
    rw [← hkey, valueOf_cons_self]
  have hnone : valueOf "SUBSYSTEM".toList rest = none := by
    rw [valueOf_eq_none, ← hkey]
    exact (List.nodup_cons.mp hkeys).1
  have hnums : deviceNums sys (fieldsOf d (l :: rest)) = deviceNums sys (fieldsOf d rest) := by
    rw [deviceNums, deviceNums, fieldsOf, fieldsOf, hvalue "MAJOR".toList (by decide),
      hvalue "MINOR".toList (by decide)]
  have hsubsystem : subsystemOf sys (fieldsOf d (l :: rest)) = subsystemOf sys (fieldsOf d rest) := by
    rw [subsystemOf, subsystemOf, fieldsOf, fieldsOf, hsub, hnone]
    dsimp only
    rw [hread]
    rfl
  have hparams : req.params = req'.params := by
    refine Params.eq_of_mem_iff _ _ (fun x => ?_)
    rw [h.params, h'.params, hnone, hsub, hread]
    constructor
    · rintro (⟨m, hm, hc, hx⟩ | hx | hx | ⟨habs, _⟩)
      · rcases List.mem_cons.mp hm with rfl | hm
        · rw [hkey] at hx
          exact Or.inr (Or.inr (Or.inr ⟨rfl, _, rfl, hx⟩))
        · exact Or.inl ⟨m, hm, hc, hx⟩
      · exact Or.inr (Or.inl hx)
      · exact Or.inr (Or.inr (Or.inl hx))
      · cases habs
    · rintro (⟨m, hm, hc, hx⟩ | hx | hx | ⟨_, s, hs, hx⟩)
      · exact Or.inl ⟨m, List.mem_cons_of_mem _ hm, hc, hx⟩
      · exact Or.inr (Or.inl hx)
      · exact Or.inr (Or.inr (Or.inl hx))
      · cases hs
        exact Or.inl ⟨l, List.mem_cons_self, by rw [hkey]; decide, by rw [hkey]; exact hx⟩
  have htype := h.type.trans h'.type.symm
  have hpath := h.path.trans ((congrArg (fun v => some (v.getD unknownPath))
    (hvalue "DEVNAME".toList (by decide))).trans h'.path.symm)
  have hrenamed := h.renamedPath.trans h'.renamedPath.symm
  have hdev : req.dev = req'.dev := by rw [h.dev, h'.dev, hnums]
  have hmode : req.mode = req'.mode := by rw [h.mode, h'.mode, hnums, hsubsystem]
  have hexists := h.existsFlag.trans h'.existsFlag.symm
  cases req
  cases req'
  congr

/-- A line that the parser loses shows in the parameters. -/
theorem describes_lost (sys : Sysfs) (d : CStr) (l : Line) (rest : List Line)
    (hkeys : ((l :: rest).map Line.key).Nodup) (hkey : ¬Consumed l.key)
    (hrefused : ¬Refused (l :: rest)) (req : Request)
    (h : Describes sys d (l :: rest) req) (h' : Describes sys d rest req) :
    l.key = "SUBSYSTEM".toList ∧ sysfsReadSubsystem sys d = .ok l.value := by
  rw [Refused, not_or, not_or, not_or] at hrefused
  have hmem : (l.key, l.value) ∈ req.params.entries :=
    (h.params _).mpr (Or.inl ⟨l, List.mem_cons_self, hkey, rfl⟩)
  rcases (h'.params _).mp hmem with ⟨m, hm, _, hx⟩ | hx | hx | ⟨_, s, hs, hx⟩
  · exact absurd (List.mem_map_of_mem (f := Line.key) hm)
      (by rw [← (Prod.mk.inj hx).1]; exact (List.nodup_cons.mp hkeys).1)
  · exact absurd (by rw [List.map_cons, (Prod.mk.inj hx).1]; exact List.mem_cons_self) hrefused.2.1
  · exact absurd (by rw [List.map_cons, (Prod.mk.inj hx).1]; exact List.mem_cons_self) hrefused.2.2.1
  · exact ⟨(Prod.mk.inj hx).1, by rw [(Prod.mk.inj hx).2]; exact hs⟩

/-- The parser skips the first line, and the request does not show it. -/
theorem agree_skipped (sys : Sysfs) (d : CStr) (hd : '\x00' ∉ d) (l : Line) (rest : List Line)
    (hkeys : ((l :: rest).map Line.key).Nodup) (hat : '@' ∈ l.text) :
    Agree (requestOf sys (addLines d hd (l :: rest)))
        (match requestOf sys (addLines d hd rest) with
          | .error e => .failed e
          | .ok req => .request req) ↔
      Refused rest ∨ (l.key = "SUBSYSTEM".toList ∧ sysfsReadSubsystem sys d = .ok l.value) := by
  have hkeys' : (rest.map Line.key).Nodup := (List.nodup_cons.mp hkeys).2
  by_cases hrest : Refused rest
  · obtain ⟨e, he⟩ := requestOf_addLines_refused sys d hd rest hkeys' hrest
    rw [he]
    exact iff_of_true
      (requestOf_addLines_refused sys d hd (l :: rest) hkeys (refused_cons l rest hat hrest))
      (Or.inl hrest)
  · obtain ⟨req', hreq', hdesc'⟩ := requestOf_addLines sys d hd rest hkeys' hrest
    rw [hreq', or_iff_right hrest]
    change requestOf sys (addLines d hd (l :: rest)) = .ok req' ↔ _
    constructor
    · intro hreq
      have hrefused : ¬Refused (l :: rest) := by
        intro hrefused
        obtain ⟨e, he⟩ := requestOf_addLines_refused sys d hd (l :: rest) hkeys hrefused
        rw [hreq] at he
        cases he
      obtain ⟨req, hok, hdesc⟩ := requestOf_addLines sys d hd (l :: rest) hkeys hrefused
      cases hok.symm.trans hreq
      refine describes_lost sys d l rest hkeys (fun hkey => hrefused ?_) hrefused _ hdesc hdesc'
      exact Or.inl ⟨l, List.mem_cons_self, unreadable_of_at l hat hkey⟩
    · rintro ⟨hkey, hread⟩
      obtain ⟨req, hok, hdesc⟩ := requestOf_addLines sys d hd (l :: rest) hkeys
        (refused_cons_subsystem l rest hkey hrest)
      rw [hok, describes_subsystem sys d l rest hkeys hkey hread req req' hdesc hdesc']

/-- What is lost of a uevent file with at least one line: nothing, exactly when the buffer has
room for a NUL behind the file, the first line does not end one character behind `DEVNAME=`, and
the first line has no at sign or is not missed. -/
def Kept (sys : Sysfs) (d : CStr) (final : Bool) (lines : List Line) (size : ℕ) : Prop :=
  ∀ l rest, lines = l :: rest →
    (final = true ∨ (fileText final lines).length < size) ∧ ¬ShortDevname l ∧
      FirstLineKept sys d l rest

/-- The message from the kernel and the uevent file give the same request exactly when the file
is not too large and nothing of it is lost. -/
theorem agree_iff (sys : Sysfs) (d : CStr) (hd : '\x00' ∉ d) (final : Bool)
    (lines : List Line) (size : ℕ) (hfile : HasFile sys d final lines size)
    (hkeys : (lines.map Line.key).Nodup) (hlines : ∀ l ∈ lines, '\n' ∉ l.text) :
    Agree (parseRequest sys (netlinkMessage d hd lines))
        (registerDevice sys (sys.mountpoint ++ d ++ "/uevent".toList)) ↔
      size < 2 ^ 32 ∧ Kept sys d final lines size := by
  by_cases hsize : size < 2 ^ 32
  · rw [and_iff_right hsize]
    cases lines with
    | nil =>
      have hempty : registerDevice sys (sys.mountpoint ++ d ++ "/uevent".toList) = .empty := by
        rw [registerDevice, hfile.readUevent hsize hlines (Or.inl rfl)]
        rfl
      rw [hempty]
      exact iff_of_true trivial (fun l rest h => by cases h)
    | cons l rest =>
      have hcond : Kept sys d final (l :: rest) size ↔
          (final = true ∨ (fileText final (l :: rest)).length < size) ∧ ¬ShortDevname l ∧
            FirstLineKept sys d l rest := by
        refine ⟨fun h => h l rest rfl, fun h m rest' heq => ?_⟩
        cases heq
        exact h
      rw [hcond, parseRequest_netlink]
      by_cases hroom : final = true ∨ (fileText final (l :: rest)).length < size
      · by_cases hshort : ShortDevname l
        · rw [hfile.registerDevice_short hsize hlines hroom hshort]
          exact iff_of_false id (fun h => h.2.1 hshort)
        · rw [hfile.registerDevice hsize hd hlines hroom hshort, and_iff_right hroom,
            and_iff_right hshort, FirstLineKept]
          by_cases hat : '@' ∈ l.text
          · rw [if_pos hat, or_iff_right (not_not.mpr hat)]
            exact agree_skipped sys d hd l rest hkeys hat
          · rw [if_neg hat]
            refine iff_of_true ?_ (Or.inl hat)
            cases requestOf sys (addLines d hd (l :: rest)) with
            | error e => exact ⟨e, rfl⟩
            | ok req => exact rfl
      · have hnot : ¬(l :: rest = [] ∨ final = true ∨
            (fileText final (l :: rest)).length < size) := by
          rintro (habs | habs)
          · cases habs
          · exact hroom habs
        have hundefined :
            registerDevice sys (sys.mountpoint ++ d ++ "/uevent".toList) = .undefined := by
          rw [registerDevice, hfile.readUevent_open hlines hnot]
        rw [hundefined]
        exact iff_of_false id (fun h => hroom h.1)
  · have hundefined :
        registerDevice sys (sys.mountpoint ++ d ++ "/uevent".toList) = .undefined := by
      rw [registerDevice, hfile.readUevent_large hsize]
    rw [hundefined]
    exact iff_of_false id (fun h => hsize h.1)

/-- A sysfs on `/sys` with one device. -/
def oneDevice (d : CStr) (lines : List Line) : Sysfs where
  mountpoint := "/sys".toList
  mountpoint_ne := by decide
  statSize path := if path = "/sys".toList ++ d ++ "/uevent".toList then .ok 4096 else .error .enoent
  readFile path :=
    if path = "/sys".toList ++ d ++ "/uevent".toList then .ok (fileText true lines)
    else .error .enoent
  readlink _ := .error .enoent

theorem oneDevice_hasFile (d : CStr) (lines : List Line) (h : (fileText true lines).length ≤ 4096) :
    HasFile (oneDevice d lines) d true lines 4096 :=
  ⟨if_pos rfl, if_pos rfl, h⟩

def serialPath : CStr := "/devices/platform/serial".toList

def serialLines : List Line :=
  [⟨"MAJOR".toList, "4".toList, by decide, by decide⟩,
    ⟨"MINOR".toList, "64".toList, by decide, by decide⟩,
    ⟨"DEVNAME".toList, "ttyS0".toList, by decide, by decide⟩]

/-- A line of a device tree node, with a unit address in the name. -/
def unitAddress : Line := ⟨"OF_FULLNAME".toList, "/soc/serial@7e201000".toList, by decide, by decide⟩

def oneLetter : Line := ⟨"DEVNAME".toList, "a".toList, by decide, by decide⟩

end Vdev.SysfsDevice
