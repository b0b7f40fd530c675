import Vdev.Data
import Vdev.Parsing
import Vdev.Paths

/-!
Uevents (vdevd/os/linux.c). A uevent is a buffer of NUL-terminated `KEY=VALUE`
strings. It comes from the netlink socket with a header, or from a uevent file in
sysfs with the newlines replaced and two pairs appended; the same parser turns
both into a device request. Here the pairs that the parser gathers are related to
the request that it makes of them.
-/
namespace Vdev.Uevent

open CString Data Parsing Paths

/-- What the functions read of sysfs: the size that `stat` reports for a file, its
bytes, and the target of a symbolic link. -/
structure Sysfs where
  mountpoint : CStr
  mountpoint_ne : mountpoint ≠ []
  statSize : CStr → Except Errno ℕ
  readFile : CStr → Except Errno CStr
  readlink : CStr → Except Errno CStr

/-- `vdev_linux_parse_device_request_type`. -/
def parseDeviceRequestType (type : CStr) : RequestType :=
  if type = "add".toList then .add
  else if type = "remove".toList then .remove
  else if type = "change".toList then .change
  else .invalid

/-- `vdev_linux_sysfs_fullpath`. -/
def sysfsFullpath (mountpoint devpath attrPath : CStr) : CStr :=
  fullpath (fullpath mountpoint devpath) attrPath

/-- `vdev_linux_sysfs_read_dev_nums`, with a buffer of 100 bytes. -/
def sysfsReadDevNums (sys : Sysfs) (devpath : CStr) : Except Errno (ℕ × ℕ) :=
  match sys.readFile (sysfsFullpath sys.mountpoint devpath "dev".toList) with
  | .error e => .error e
  | .ok content =>
    match sscanfPair (untilNul (content.take 100)) with
    | none => .error .eio
    | some nums => .ok nums

/-- `vdev_linux_sysfs_read_subsystem`: the last component of a link of at most
`PATH_MAX` bytes. -/
def sysfsReadSubsystem (sys : Sysfs) (devpath : CStr) : Except Errno CStr :=
  match sys.readlink (sysfsFullpath sys.mountpoint devpath "subsystem".toList) with
  | .error e => .error e
  | .ok linkpath => .ok (basename (untilNul (linkpath.take 4096)))

/-- The variables of `vdev_linux_parse_request` that its loop fills in. -/
structure Fields where
  type : RequestType := .invalid
  devpath : Option CStr := none
  devname : CStr := unknownPath
  subsystem : Option CStr := none
  major : Option ℕ := none
  minor : Option ℕ := none
  params : Params := Params.empty

/-- `vdev_device_request_add_param`. -/
def Fields.addParam (f : Fields) (key value : CStr) : Except Errno Fields :=
  match f.params.add key value with
  | .error e => .error e
  | .ok params => .ok { f with params := params }

/-- The rest of a value behind the number that `strtol` reads. -/
def numberRest (value : CStr) : CStr := (strtol 10 value).2

/-- `(int)strtol( value, &tmp, 10 )`, stored in an unsigned int. -/
def numberOf (value : CStr) : ℕ := ((strtol 10 value).1 % 2 ^ 32).toNat

/-- The body of the loop of `vdev_linux_parse_request`. -/
def parseField (f : Fields) (key value : CStr) : Except Errno Fields :=
  if key = "ACTION".toList then
    if parseDeviceRequestType value = .invalid then .error .einval
    else .ok { f with type := parseDeviceRequestType value }
  else if key = "DEVPATH".toList then { f with devpath := some value }.addParam key value
  else if key = "DEVNAME".toList then { f with devname := value }.addParam key value
  else if key = "SUBSYSTEM".toList then { f with subsystem := some value }.addParam key value
  else if key = "MAJOR".toList ∧ f.major = none then
    if numberRest value ≠ [] then .error .einval
    else .ok { f with major := some (numberOf value) }
  else if key = "MINOR".toList ∧ f.minor = none then
    if numberRest value ≠ [] then .error .einval
    else .ok { f with minor := some (numberOf value) }
  else f.addParam key value

/-- The loop of `vdev_linux_parse_request`, at the bytes `buf`. A NUL follows the
last byte. -/
def parseLoop : ℕ → CStr → Fields → Except Errno Fields
  | 0, _, f => .ok f
  | fuel + 1, buf, f =>
    if buf = [] then .ok f
    else
      match keyvalueNext (untilNul buf) with
      | none => .error .einval
      | some (key, value) =>
        match parseField f key value with
        | .error e => .error e
        | .ok f => parseLoop fuel (buf.drop ((untilNul buf).length + 1)) f

/-- The device numbers, as given or else as found in sysfs. -/
def deviceNums (sys : Sysfs) (f : Fields) : Option (ℕ × ℕ) :=
  match f.major, f.minor, f.devpath with
  | some major, some minor, _ => some (major, minor)
  | _, _, some devpath => (sysfsReadDevNums sys devpath).toOption
  | _, _, none => none

/-- The subsystem, as given or else as found in sysfs. -/
def subsystemOf (sys : Sysfs) (f : Fields) : Option CStr :=
  match f.subsystem, f.devpath with
  | some subsystem, _ => some subsystem
  | none, some devpath => (sysfsReadSubsystem sys devpath).toOption
  | none, none => none

/-- A subsystem that was found in sysfs becomes a parameter. -/
def addSubsystem (sys : Sysfs) (f : Fields) : Except Errno Fields :=
  match f.subsystem, subsystemOf sys f with
  | none, some subsystem => f.addParam "SUBSYSTEM".toList subsystem
  | _, _ => .ok f

def deviceMode (nums : Option (ℕ × ℕ)) (subsystem : Option CStr) : ℕ :=
  if nums = none then 0
  else if subsystem.any (strcaseEq · "block".toList) then S_IFBLK
  else S_IFCHR

def requestWith (sys : Sysfs) (f : Fields) (params : Params) : Request where
  type := f.type
  path := some f.devname
  dev := (deviceNums sys f).elim 0 (fun nums => makedev nums.1 nums.2)
  mode := deviceMode (deviceNums sys f) (subsystemOf sys f)
  params := params

/-- What `vdev_linux_parse_request` does after its loop. -/
def makeRequest (sys : Sysfs) (f : Fields) : Except Errno Request :=
  if f.type = .invalid then .error .einval
  else if f.major.isSome ≠ f.minor.isSome then .error .einval
  else
    match addSubsystem sys f with
    | .error e => .error e
    | .ok g =>
      match g.addParam "SYSFS_MOUNTPOINT".toList sys.mountpoint with
      | .error e => .error e
      | .ok g => .ok (requestWith sys f g.params)

/-- The first string is skipped when it looks like the header of a netlink message. -/
def skipHeader (nlbuf : CStr) : CStr :=
  if '@' ∈ untilNul nlbuf then nlbuf.drop ((untilNul nlbuf).length + 1) else nlbuf

/-- `vdev_linux_parse_request`, for a new request. Each round of the loop takes at
least one byte. -/
def parseRequest (sys : Sysfs) (nlbuf : CStr) : Except Errno Request :=
  match parseLoop ((skipHeader nlbuf).length + 1) (skipHeader nlbuf) {} with
  | .error e => .error e
  | .ok f => makeRequest sys f

/-- A `KEY=VALUE` line. -/
structure Line where
  key : CStr
  value : CStr
  key_ok : '=' ∉ key ∧ '\x00' ∉ key
  value_ok : '\x00' ∉ value

namespace Line

def text (l : Line) : CStr := l.key ++ '=' :: l.value

theorem nul_not_mem_text (l : Line) : '\x00' ∉ l.text := by
  simp [text, l.key_ok.2, l.value_ok]

theorem text_ne_nil (l : Line) : l.text ≠ [] := by
  simp [text]

end Line

def nulText (lines : List Line) : CStr := lines.flatMap (fun l => l.text ++ ['\x00'])

theorem nulText_cons (l : Line) (lines : List Line) :
    nulText (l :: lines) = l.text ++ '\x00' :: nulText lines := by
  simp [nulText]

theorem nulText_append (lines lines' : List Line) :
    nulText (lines ++ lines') = nulText lines ++ nulText lines' := List.flatMap_append

theorem untilNul_append_nul (a b : CStr) (ha : '\x00' ∉ a) : untilNul (a ++ '\x00' :: b) = a := by
  refine (takeWhile_append_stop _ a b '\x00' (fun x hx => ?_) (by decide)).1
  rw [decide_eq_true_eq]
  rintro rfl
  exact ha hx

theorem drop_append_nul (a b : CStr) : (a ++ '\x00' :: b).drop (a.length + 1) = b := by
  rw [List.drop_length_add_append]
  rfl

def gather (f : Fields) (lines : List Line) : Except Errno Fields :=
  lines.foldlM (fun f l => parseField f l.key l.value) f

theorem gather_append (f : Fields) (lines lines' : List Line) :
    gather f (lines ++ lines') = (gather f lines).bind (fun g => gather g lines') :=
  List.foldlM_append

theorem gather_singleton (f : Fields) (l : Line) :
    gather f [l] = parseField f l.key l.value := by
  rw [gather, List.foldlM_cons]
  exact bind_pure _

/-- The loop goes over the buffer line by line. -/
theorem parseLoop_nulText (lines : List Line) (f : Fields) (fuel : ℕ)
    (hfuel : lines.length < fuel) : parseLoop fuel (nulText lines) f = gather f lines := by
  induction lines generalizing f fuel with
  | nil =>
    cases fuel with
    | zero => rfl
    | succ fuel => rfl
  | cons l lines ih =>
    obtain ⟨fuel, rfl⟩ := Nat.exists_eq_succ_of_ne_zero (Nat.ne_of_gt (Nat.zero_lt_of_lt hfuel))
    have hnext : keyvalueNext l.text = some (l.key, l.value) :=
      keyvalueNext_pair l.key l.value l.key_ok.1
    rw [nulText_cons, parseLoop, if_neg (by simp), untilNul_append_nul _ _ l.nul_not_mem_text, hnext,
      drop_append_nul, gather, List.foldlM_cons]
    dsimp only
    cases parseField f l.key l.value with
    | error e => rfl
    | ok g => exact ih g fuel (by simpa using hfuel)

theorem length_le_nulText (lines : List Line) : 2 * lines.length ≤ (nulText lines).length := by
  induction lines with
  | nil => exact Nat.zero_le _
  | cons l lines ih =>
    have hpos := List.length_pos_of_ne_nil l.text_ne_nil
    rw [nulText_cons, List.length_append, List.length_cons, List.length_cons]
    omega

def valueOf (key : CStr) (lines : List Line) : Option CStr :=
  (lines.find? (fun l => l.key = key)).map Line.value

/-- The keys that do not become parameters. -/
def Consumed (key : CStr) : Prop :=
  key = "ACTION".toList ∨ key = "MAJOR".toList ∨ key = "MINOR".toList

instance (key : CStr) : Decidable (Consumed key) :=
  inferInstanceAs (Decidable (_ ∨ _ ∨ _))

/-- A line that the parser does not refuse: the action is known, and a device number
is a number. -/
def Readable (l : Line) : Prop :=
  (l.key = "ACTION".toList → parseDeviceRequestType l.value ≠ .invalid) ∧
  (l.key = "MAJOR".toList ∨ l.key = "MINOR".toList → numberRest l.value = [])

/-- The fields that the loop has after lines with distinct keys. -/
structure Gathered (lines : List Line) (f : Fields) : Prop where
  devpath : f.devpath = valueOf "DEVPATH".toList lines
  devname : f.devname = (valueOf "DEVNAME".toList lines).getD unknownPath
  subsystem : f.subsystem = valueOf "SUBSYSTEM".toList lines
  major : f.major = (valueOf "MAJOR".toList lines).map numberOf
  minor : f.minor = (valueOf "MINOR".toList lines).map numberOf
  params : ∀ x, x ∈ f.params.entries ↔ ∃ l ∈ lines, ¬Consumed l.key ∧ x = (l.key, l.value)

theorem valueOf_append (key : CStr) (lines : List Line) (l : Line) :
    valueOf key (lines ++ [l]) =
      (valueOf key lines).or (if l.key = key then some l.value else none) := by
  rw [valueOf, List.find?_append, Option.map_or, List.find?_singleton]
  split_ifs <;> simp_all [valueOf]

theorem valueOf_cons_self (l : Line) (lines : List Line) :
    valueOf l.key (l :: lines) = some l.value := by
  rw [valueOf, List.find?_cons_of_pos (by simp), Option.map_some]

theorem valueOf_cons_of_ne (key : CStr) (l : Line) (lines : List Line) (h : l.key ≠ key) :
    valueOf key (l :: lines) = valueOf key lines := by
  rw [valueOf, List.find?_cons_of_neg (by simpa using h), valueOf]

theorem valueOf_eq_none (key : CStr) (lines : List Line) :
    valueOf key lines = none ↔ key ∉ lines.map Line.key := by
  rw [valueOf, Option.map_eq_none_iff, List.find?_eq_none]
  simp

def Fields.withParams (f : Fields) (params : Params) : Fields := { f with params := params }

@[simp]
theorem Fields.withParams_params (f : Fields) (p : Params) : (f.withParams p).params = p := rfl

@[simp]
theorem Fields.withParams_subsystem (f : Fields) (p : Params) :
    (f.withParams p).subsystem = f.subsystem := rfl

@[simp]
theorem Fields.withParams_withParams (f : Fields) (p q : Params) :
    (f.withParams p).withParams q = f.withParams q := rfl

/-- A new parameter. -/
theorem addParam_of_new (f : Fields) (key value : CStr)
    (h : ∀ x ∈ f.params.entries, x.1 ≠ key) :
    ∃ params, f.addParam key value = .ok (f.withParams params) ∧
      ∀ x, x ∈ params.entries ↔ x = (key, value) ∨ x ∈ f.params.entries := by
  have hnew : key ∉ f.params.entries.map Prod.fst := by
    rw [List.mem_map]
    rintro ⟨x, hx, rfl⟩
    exact h x hx rfl
  obtain ⟨params, hadd, hmem⟩ := f.params.add_of_new key value hnew
  exact ⟨params, by rw [Fields.addParam, hadd, Fields.withParams], hmem⟩

theorem addParam_of_old (f : Fields) (key value : CStr)
    (h : ∃ x ∈ f.params.entries, x.1 = key) : f.addParam key value = .error .eexist := by
  obtain ⟨x, hx, rfl⟩ := h
  rw [Fields.addParam, f.params.add_of_mem _ _ (List.mem_map_of_mem hx)]

/-- The parser refuses an unreadable line with a new key. -/
theorem parseField_unreadable (f : Fields) (l : Line) (hmajor : l.key = "MAJOR".toList → f.major = none)
    (hminor : l.key = "MINOR".toList → f.minor = none) (h : ¬Readable l) :
    parseField f l.key l.value = .error .einval := by
  by_cases ha : l.key = "ACTION".toList
  · have hinvalid : parseDeviceRequestType l.value = .invalid := by
      by_contra hvalid
      refine h ⟨fun _ => hvalid, fun hnum => ?_⟩
      rw [ha] at hnum
      exact absurd hnum (by decide)
    rw [parseField, if_pos ha, if_pos hinvalid]
  · have hnum : (l.key = "MAJOR".toList ∨ l.key = "MINOR".toList) ∧ numberRest l.value ≠ [] := by
      by_contra hnot
      rw [not_and, not_not] at hnot
      exact h ⟨fun heq => absurd heq ha, hnot⟩
    rcases hnum with ⟨hkey | hkey, hrest⟩
    · rw [parseField, hmajor hkey, hkey, if_neg (by decide), if_neg (by decide), if_neg (by decide),
        if_neg (by decide), if_pos ⟨rfl, rfl⟩, if_pos hrest]
    · rw [parseField, hminor hkey, hkey, if_neg (by decide), if_neg (by decide), if_neg (by decide),
        if_neg (by decide), if_neg (fun hand => absurd hand.1 (by decide)), if_pos ⟨rfl, rfl⟩,
        if_pos hrest]

theorem Gathered.addParam {lines : List Line} {f g : Fields} (h : Gathered lines f) (l : Line)
    (hnew : l.key ∉ lines.map Line.key) (hl : ¬Consumed l.key) (hg : g.params = f.params) :
    ∃ params, g.addParam l.key l.value = .ok (g.withParams params) ∧
      ∀ x, x ∈ params.entries ↔
        ∃ m ∈ lines ++ [l], ¬Consumed m.key ∧ x = (m.key, m.value) := by
  obtain ⟨params, hadd, hmem⟩ := addParam_of_new g l.key l.value (fun x hx heq => by
    rw [hg] at hx
    obtain ⟨m, hm, _, rfl⟩ := (h.params x).mp hx
    exact hnew (heq ▸ List.mem_map_of_mem hm))
  refine ⟨params, hadd, fun x => ?_⟩
  rw [hmem, hg, h.params]
  constructor
  · rintro (rfl | ⟨m, hm, hand⟩)
    · exact ⟨l, by simp, hl, rfl⟩
    · exact ⟨m, List.mem_append_left _ hm, hand⟩
  · rintro ⟨m, hm, hand⟩
    rcases List.mem_append.mp hm with hm | hm
    · exact Or.inr ⟨m, hm, hand⟩
    · rw [List.mem_singleton.mp hm] at hand
      exact Or.inl hand.2

theorem Gathered.params_consumed {lines : List Line} {f : Fields} (h : Gathered lines f) (l : Line)
    (hl : Consumed l.key) (x : CStr × CStr) :
    x ∈ f.params.entries ↔ ∃ m ∈ lines ++ [l], ¬Consumed m.key ∧ x = (m.key, m.value) := by
  rw [h.params]
  constructor
  · rintro ⟨m, hm, hand⟩
    exact ⟨m, List.mem_append_left _ hm, hand⟩
  · rintro ⟨m, hm, hand⟩
    rcases List.mem_append.mp hm with hm | hm
    · exact ⟨m, hm, hand⟩
    · rw [List.mem_singleton.mp hm] at hand
      exact absurd hl hand.1

/-- One more readable line with a new key. -/
theorem Gathered.parseField {lines : List Line} {f : Fields} (h : Gathered lines f) (l : Line)
    (hnew : l.key ∉ lines.map Line.key) (hl : Readable l) :
    ∃ g, parseField f l.key l.value = .ok g ∧ Gathered (lines ++ [l]) g := by
  have hnone := (valueOf_eq_none l.key lines).mpr hnew
  -- A key that is not read by name, or read for the first time, adds one value.
  have hvalue : ∀ key, valueOf key (lines ++ [l]) =
      if l.key = key then some l.value else valueOf key lines := by
    intro key
    rw [valueOf_append]
    split_ifs with heq
    · rw [← heq, hnone, Option.none_or]
    · rw [Option.or_none]
  have hmajor : l.key = "MAJOR".toList → f.major = none := by
    intro hkey
    rw [h.major, ← hkey, hnone, Option.map_none]
  have hminor : l.key = "MINOR".toList → f.minor = none := by
    intro hkey
    rw [h.minor, ← hkey, hnone, Option.map_none]
  unfold Uevent.parseField
  split_ifs with haction hinvalid hdevpath hdevname hsubsystem hmaj hrest hmin hrest
  · exact absurd hinvalid (hl.1 haction)
  · refine ⟨_, rfl, ?_, ?_, ?_, ?_, ?_, h.params_consumed l (Or.inl haction)⟩ <;>
      simp [hvalue, haction, h.devpath, h.devname, h.subsystem, h.major, h.minor]
  · obtain ⟨params, hadd, hmem⟩ := h.addParam (g := { f with devpath := some l.value }) l hnew
      (by rw [hdevpath]; decide) rfl
    refine ⟨_, hadd, ?_, ?_, ?_, ?_, ?_, hmem⟩ <;>
      simp [Fields.withParams, hvalue, hdevpath, h.devname, h.subsystem, h.major, h.minor]
  · obtain ⟨params, hadd, hmem⟩ := h.addParam (g := { f with devname := l.value }) l hnew
      (by rw [hdevname]; decide) rfl
    refine ⟨_, hadd, ?_, ?_, ?_, ?_, ?_, hmem⟩ <;>
      simp [Fields.withParams, hvalue, hdevname, h.devpath, h.subsystem, h.major, h.minor]
  · obtain ⟨params, hadd, hmem⟩ := h.addParam (g := { f with subsystem := some l.value }) l hnew
      (by rw [hsubsystem]; decide) rfl
    refine ⟨_, hadd, ?_, ?_, ?_, ?_, ?_, hmem⟩ <;>
      simp [Fields.withParams, hvalue, hsubsystem, h.devpath, h.devname, h.major, h.minor]
  · exact absurd (hl.2 (Or.inl hmaj.1)) hrest
  · refine ⟨_, rfl, ?_, ?_, ?_, ?_, ?_, h.params_consumed l (Or.inr (Or.inl hmaj.1))⟩ <;>
      simp [hvalue, hmaj.1, h.devpath, h.devname, h.subsystem, h.minor]
  · exact absurd (hl.2 (Or.inr hmin.1)) hrest
  · refine ⟨_, rfl, ?_, ?_, ?_, ?_, ?_, h.params_consumed l (Or.inr (Or.inr hmin.1))⟩ <;>
      simp [hvalue, hmin.1, h.devpath, h.devname, h.subsystem, h.major]
  · have hnmaj : l.key ≠ "MAJOR".toList := fun hkey => hmaj ⟨hkey, hmajor hkey⟩
    have hnmin : l.key ≠ "MINOR".toList := fun hkey => hmin ⟨hkey, hminor hkey⟩
    obtain ⟨params, hadd, hmem⟩ := h.addParam (g := f) l hnew
      (by rintro (hkey | hkey | hkey) <;> contradiction) rfl
    refine ⟨_, hadd, ?_, ?_, ?_, ?_, ?_, hmem⟩
    · rw [hvalue, if_neg hdevpath]
      exact h.devpath
    · rw [hvalue, if_neg hdevname, ← h.devname]
      rfl
    · rw [hvalue, if_neg hsubsystem]
      exact h.subsystem
    · rw [hvalue, if_neg hnmaj, ← h.major]
      rfl
    · rw [hvalue, if_neg hnmin, ← h.minor]
      rfl

theorem gather_readable (lines : List Line) (hkeys : (lines.map Line.key).Nodup)
    (h : ∀ l ∈ lines, Readable l) : ∃ f, gather {} lines = .ok f ∧ Gathered lines f := by
  induction lines using List.reverseRecOn with
  | nil => exact ⟨{}, rfl, rfl, rfl, rfl, rfl, rfl, by simp [Params.empty]⟩
  | append_singleton lines l ih =>
    rw [List.map_append, List.nodup_append] at hkeys
    obtain ⟨f, hf, hgathered⟩ := ih hkeys.1 (fun m hm => h m (List.mem_append_left _ hm))
    obtain ⟨g, hg, hgathered⟩ := hgathered.parseField l
      (fun hmem => hkeys.2.2 _ hmem _ (by simp) rfl) (h l (by simp))
    refine ⟨g, ?_, hgathered⟩
    rw [gather_append, hf]
    exact (gather_singleton f l).trans hg

theorem gather_unreadable (lines : List Line) (hkeys : (lines.map Line.key).Nodup)
    (h : ∃ l ∈ lines, ¬Readable l) : ∃ e, gather {} lines = .error e := by
  induction lines using List.reverseRecOn with
  | nil =>
    obtain ⟨l, hl, _⟩ := h
    cases hl
  | append_singleton lines l ih =>
    rw [List.map_append, List.nodup_append] at hkeys
    rw [gather_append]
    by_cases hbefore : ∃ m ∈ lines, ¬Readable m
    · obtain ⟨e, he⟩ := ih hkeys.1 hbefore
      exact ⟨e, by rw [he]; rfl⟩
    · push Not at hbefore
      obtain ⟨f, hf, hgathered⟩ := gather_readable lines hkeys.1 hbefore
      have hl : ¬Readable l := by
        obtain ⟨m, hm, hnot⟩ := h
        rcases List.mem_append.mp hm with hm | hm
        · exact absurd (hbefore m hm) hnot
        · rwa [List.mem_singleton.mp hm] at hnot
      have hnone := (valueOf_eq_none l.key lines).mpr
        (fun hmem => hkeys.2.2 _ hmem _ (by simp) rfl)
      refine ⟨.einval, ?_⟩
      rw [hf]
      refine (gather_singleton f l).trans (parseField_unreadable f l ?_ ?_ hl)
      · intro hkey
        rw [hgathered.major, ← hkey, hnone, Option.map_none]
      · intro hkey
        rw [hgathered.minor, ← hkey, hnone, Option.map_none]

def actionLine : Line where
  key := "ACTION".toList
  value := "add".toList
  key_ok := by decide
  value_ok := by decide

def devpathLine (d : CStr) (hd : '\x00' ∉ d) : Line where
  key := "DEVPATH".toList
  value := d
  key_ok := by decide
  value_ok := hd

/-- The lines of the uevent that adds the device at `d`. -/
def addLines (d : CStr) (hd : '\x00' ∉ d) (lines : List Line) : List Line :=
  lines ++ [actionLine, devpathLine d hd]

/-- The lines for which there is no request. -/
def Refused (lines : List Line) : Prop :=
  (∃ l ∈ lines, ¬Readable l) ∨
  "DEVPATH".toList ∈ lines.map Line.key ∨
  "SYSFS_MOUNTPOINT".toList ∈ lines.map Line.key ∨
  ¬("MAJOR".toList ∈ lines.map Line.key ↔ "MINOR".toList ∈ lines.map Line.key)

/-- The fields for the device at `d`, without the parameters. -/
def fieldsOf (d : CStr) (lines : List Line) : Fields where
  type := .add
  devpath := some d
  devname := (valueOf "DEVNAME".toList lines).getD unknownPath
  subsystem := valueOf "SUBSYSTEM".toList lines
  major := (valueOf "MAJOR".toList lines).map numberOf
  minor := (valueOf "MINOR".toList lines).map numberOf

/-- The request to add the device at `d`. -/
structure Describes (sys : Sysfs) (d : CStr) (lines : List Line) (req : Request) : Prop where
  type : req.type = .add
  path : req.path = some ((valueOf "DEVNAME".toList lines).getD unknownPath)
  renamedPath : req.renamedPath = none
  dev : req.dev = (deviceNums sys (fieldsOf d lines)).elim 0 (fun nums => makedev nums.1 nums.2)
  mode : req.mode =
    deviceMode (deviceNums sys (fieldsOf d lines)) (subsystemOf sys (fieldsOf d lines))
  existsFlag : req.existsFlag = false
  params : ∀ x, x ∈ req.params.entries ↔
    (∃ l ∈ lines, ¬Consumed l.key ∧ x = (l.key, l.value)) ∨
    x = ("DEVPATH".toList, d) ∨
    x = ("SYSFS_MOUNTPOINT".toList, sys.mountpoint) ∨
    (valueOf "SUBSYSTEM".toList lines = none ∧
      ∃ s, sysfsReadSubsystem sys d = .ok s ∧ x = ("SUBSYSTEM".toList, s))

def requestOf (sys : Sysfs) (lines : List Line) : Except Errno Request :=
  (gather {} lines).bind (makeRequest sys)

theorem Gathered.mem_keys {lines : List Line} {f : Fields} (h : Gathered lines f) (key : CStr)
    (hkey : ¬Consumed key) :
    (∃ x ∈ f.params.entries, x.1 = key) ↔ key ∈ lines.map Line.key := by
  constructor
  · rintro ⟨x, hx, rfl⟩
    obtain ⟨m, hm, _, rfl⟩ := (h.params x).mp hx
    exact List.mem_map_of_mem hm
  · intro hmem
    obtain ⟨m, hm, rfl⟩ := List.mem_map.mp hmem
    exact ⟨(m.key, m.value), (h.params _).mpr ⟨m, hm, hkey, rfl⟩, rfl⟩

/-- The last two lines fix the action and the device path. -/
theorem gather_addLines (d : CStr) (hd : '\x00' ∉ d) (lines : List Line) (f : Fields)
    (hf : gather {} lines = .ok f) (h : Gathered lines f) :
    gather {} (addLines d hd lines) =
      ((fieldsOf d lines).withParams f.params).addParam "DEVPATH".toList d := by
  have hfields : { f with type := .add, devpath := some d } =
      ((fieldsOf d lines).withParams f.params) := by
    rw [Fields.withParams, fieldsOf, ← h.devname, ← h.subsystem, ← h.major, ← h.minor]
  have haction : gather f [actionLine] = .ok { f with type := .add } := rfl
  rw [addLines, gather_append, hf, ← hfields, ← List.singleton_append]
  change gather f ([actionLine] ++ [devpathLine d hd]) = _
  rw [gather_append, haction]
  exact gather_singleton _ _

/-- A subsystem from sysfs is a new parameter. -/
theorem addSubsystem_ok (sys : Sysfs) (d : CStr) (f : Fields) (hd : f.devpath = some d)
    (hnew : f.subsystem = none → ∀ x ∈ f.params.entries, x.1 ≠ "SUBSYSTEM".toList) :
    ∃ q, addSubsystem sys f = .ok (f.withParams q) ∧
      ∀ x, x ∈ q.entries ↔ x ∈ f.params.entries ∨ (f.subsystem = none ∧
        ∃ s, sysfsReadSubsystem sys d = .ok s ∧ x = ("SUBSYSTEM".toList, s)) := by
  rw [addSubsystem, subsystemOf, hd]
  cases hsub : f.subsystem with
  | some s => exact ⟨f.params, rfl, by simp⟩
  | none =>
    dsimp only
    cases hread : sysfsReadSubsystem sys d with
    | error e => exact ⟨f.params, rfl, by simp⟩
    | ok s =>
      obtain ⟨q, hadd, hmem⟩ := addParam_of_new f "SUBSYSTEM".toList s (hnew hsub)
      refine ⟨q, hadd, fun x => ?_⟩
      rw [hmem]
      constructor
      · rintro (rfl | hx)
        · exact Or.inr ⟨rfl, s, rfl, rfl⟩
        · exact Or.inl hx
      · rintro (hx | ⟨_, t, ht, rfl⟩)
        · exact Or.inr hx
        · cases ht
          exact Or.inl rfl

section Requests

variable (sys : Sysfs) (d : CStr) (hd : '\x00' ∉ d) (lines : List Line)
  (hkeys : (lines.map Line.key).Nodup)

/-- What the parser makes of the fields, once the device path is a parameter. -/
theorem makeRequest_fieldsOf (p : Params)
    (hp : ∀ x, x ∈ p.entries ↔
      (∃ l ∈ lines, ¬Consumed l.key ∧ x = (l.key, l.value)) ∨ x = ("DEVPATH".toList, d)) :
    (("MAJOR".toList ∈ lines.map Line.key ↔ "MINOR".toList ∈ lines.map Line.key) →
      "SYSFS_MOUNTPOINT".toList ∉ lines.map Line.key →
      ∃ req, makeRequest sys ((fieldsOf d lines).withParams p) = .ok req ∧
        Describes sys d lines req) ∧
    (("MAJOR".toList ∈ lines.map Line.key ↔ "MINOR".toList ∈ lines.map Line.key) →
      "SYSFS_MOUNTPOINT".toList ∈ lines.map Line.key →
      makeRequest sys ((fieldsOf d lines).withParams p) = .error .eexist) ∧
    (¬("MAJOR".toList ∈ lines.map Line.key ↔ "MINOR".toList ∈ lines.map Line.key) →
      makeRequest sys ((fieldsOf d lines).withParams p) = .error .einval) := by
  have hsome : ∀ key, ((valueOf key lines).map numberOf).isSome = decide (key ∈ lines.map Line.key) := by
    intro key
    rw [Option.isSome_map, Bool.eq_iff_iff, decide_eq_true_eq, Option.isSome_iff_ne_none, ne_eq,
      valueOf_eq_none, not_not]
  have hvalid : ((fieldsOf d lines).withParams p).type ≠ .invalid := nofun
  have hboth : (((fieldsOf d lines).withParams p).major.isSome ≠
      ((fieldsOf d lines).withParams p).minor.isSome) ↔
      ¬("MAJOR".toList ∈ lines.map Line.key ↔ "MINOR".toList ∈ lines.map Line.key) := by
    rw [Fields.withParams, fieldsOf, ne_eq, hsome, hsome, decide_eq_decide]
  obtain ⟨q, hq, hqmem⟩ := addSubsystem_ok sys d ((fieldsOf d lines).withParams p) rfl (by
    intro hnone x hx heq
    rcases (hp x).mp hx with ⟨l, hl, _, rfl⟩ | rfl
    · exact (valueOf_eq_none _ _).mp hnone (heq ▸ List.mem_map_of_mem hl)
    · exact absurd heq (by simp))
  rw [Fields.withParams_withParams] at hq
  simp only [Fields.withParams_params, Fields.withParams_subsystem] at hqmem
  have hold : "SYSFS_MOUNTPOINT".toList ∈ lines.map Line.key ↔
      ∃ x ∈ q.entries, x.1 = "SYSFS_MOUNTPOINT".toList := by
    constructor
    · intro hmem
      obtain ⟨l, hl, hkey⟩ := List.mem_map.mp hmem
      exact ⟨(l.key, l.value), (hqmem _).mpr (Or.inl ((hp _).mpr
        (Or.inl ⟨l, hl, by rw [hkey]; decide, rfl⟩))), hkey⟩
    · rintro ⟨x, hx, heq⟩
      rcases (hqmem x).mp hx with hx | ⟨_, s, _, rfl⟩
      · rcases (hp x).mp hx with ⟨l, hl, _, rfl⟩ | rfl
        · exact heq ▸ List.mem_map_of_mem hl
        · exact absurd heq (by simp)
      · exact absurd heq (by simp)
  refine ⟨fun hpair hnew => ?_, fun hpair hmem => ?_, fun hpair => ?_⟩
  · obtain ⟨r, hr, hrmem⟩ := addParam_of_new ((fieldsOf d lines).withParams q)
      "SYSFS_MOUNTPOINT".toList sys.mountpoint
      (fun x hx heq => hnew (hold.mpr ⟨x, hx, heq⟩))
    refine ⟨requestWith sys ((fieldsOf d lines).withParams p) r, ?_, ?_⟩
    · rw [makeRequest, if_neg hvalid, if_neg (fun hne => hboth.mp hne hpair), hq]
      dsimp only
      rw [hr]
      rfl
    · refine ⟨rfl, rfl, rfl, rfl, rfl, rfl, fun x => ?_⟩
      change x ∈ r.entries ↔ _
      rw [hrmem, Fields.withParams_params, hqmem, hp]
      constructor
      · rintro (h | (h | h) | h)
        · exact Or.inr (Or.inr (Or.inl h))
        · exact Or.inl h
        · exact Or.inr (Or.inl h)
        · exact Or.inr (Or.inr (Or.inr h))
      · rintro (h | h | h | h)
        · exact Or.inr (Or.inl (Or.inl h))
        · exact Or.inr (Or.inl (Or.inr h))
        · exact Or.inl h
        · exact Or.inr (Or.inr h)
  · rw [makeRequest, if_neg hvalid, if_neg (fun hne => hboth.mp hne hpair), hq]
    dsimp only
    rw [addParam_of_old _ _ _ (hold.mp hmem)]
  · rw [makeRequest, if_neg hvalid, if_pos (hboth.mpr hpair)]

include hkeys

/-- Lines that are not refused give a request that describes them. -/
theorem requestOf_addLines (h : ¬Refused lines) :
    ∃ req, requestOf sys (addLines d hd lines) = .ok req ∧ Describes sys d lines req := by
  rw [Refused, not_or, not_or, not_or, not_not] at h
  obtain ⟨hreadable, hdevpath, hmount, hpair⟩ := h
  push Not at hreadable
  obtain ⟨f, hf, hgathered⟩ := gather_readable lines hkeys hreadable
  obtain ⟨p, hadd, hmem⟩ := addParam_of_new ((fieldsOf d lines).withParams f.params)
    "DEVPATH".toList d
    (fun x hx heq => hdevpath ((hgathered.mem_keys _ (by decide)).mp ⟨x, hx, heq⟩))
  have hspec := makeRequest_fieldsOf sys d lines p fun x =>
    (hmem x).trans (by rw [or_comm]; exact or_congr_left (hgathered.params x))
  obtain ⟨req, hreq, hdesc⟩ := hspec.1 hpair hmount
  refine ⟨req, ?_, hdesc⟩
  rw [requestOf, gather_addLines d hd lines f hf hgathered, hadd]
  exact hreq

theorem requestOf_addLines_refused (h : Refused lines) :
    ∃ e, requestOf sys (addLines d hd lines) = .error e := by
  by_cases hunreadable : ∃ l ∈ lines, ¬Readable l
  · obtain ⟨e, he⟩ := gather_unreadable lines hkeys hunreadable
    refine ⟨e, ?_⟩
    rw [requestOf, addLines, gather_append, he]
    rfl
  · have hreadable := hunreadable
    push Not at hreadable
    obtain ⟨f, hf, hgathered⟩ := gather_readable lines hkeys hreadable
    rw [requestOf, gather_addLines d hd lines f hf hgathered]
    by_cases hdevpath : "DEVPATH".toList ∈ lines.map Line.key
    · refine ⟨.eexist, ?_⟩
      rw [addParam_of_old ((fieldsOf d lines).withParams f.params) _ d
        ((hgathered.mem_keys _ (by decide)).mpr hdevpath)]
      rfl
    · obtain ⟨p, hadd, hmem⟩ := addParam_of_new ((fieldsOf d lines).withParams f.params)
        "DEVPATH".toList d
        (fun x hx heq => hdevpath ((hgathered.mem_keys _ (by decide)).mp ⟨x, hx, heq⟩))
      have hspec := makeRequest_fieldsOf sys d lines p
        (fun x => (hmem x).trans (by rw [or_comm]; exact or_congr_left (hgathered.params x)))
      rw [hadd]
      by_cases hpair : "MAJOR".toList ∈ lines.map Line.key ↔ "MINOR".toList ∈ lines.map Line.key
      · rcases h with h | h | h | h
        · exact absurd h hunreadable
        · exact absurd h hdevpath
        · exact ⟨.eexist, hspec.2.1 hpair h⟩
        · exact absurd hpair h
      · exact ⟨.einval, hspec.2.2 hpair⟩

end Requests

end Vdev.Uevent
