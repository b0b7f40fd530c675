import Vdev.SysfsDevice
import Vdev.SysfsParents

/-!
The two readers of uevents: `vdev_sysfs_uevent_get_key` (vdevd/helpers/LINUX/common.c), which cuts
the text of a uevent file into lines and looks for one key, and `vdev_linux_parse_request`
(vdevd/os/linux.c), which goes over a buffer in which the newlines are NULs and makes parameters of
all keys. Both find the same values.
-/
namespace Vdev.UeventKeys

open CString Data Parsing Uevent SysfsDevice SysfsParents

/-- The keys that vdevd puts in itself, or reads as something else than a parameter. -/
def reserved : List CStr :=
  ["ACTION".toList, "MAJOR".toList, "MINOR".toList, "DEVPATH".toList, "SYSFS_MOUNTPOINT".toList]

/-- The lines of a uevent file. The first one does not look like the header of a message, and
the length of each is one that an `int` holds. -/
structure UeventFile where
  lines : List Line
  no_newline : ∀ l ∈ lines, '\n' ∉ l.text
  short : ∀ l ∈ lines, l.text.length < 2 ^ 31
  distinct : (lines.map Line.key).Nodup
  unreserved : ∀ l ∈ lines, l.key ∉ reserved
  no_header : ∀ l ∈ lines.head?, '@' ∉ l.text

namespace UeventFile

def text (u : UeventFile) (final : Bool) : CStr := fileText final u.lines

/-- What the parser is given: the newlines are replaced, and the action is appended. -/
def buffer (u : UeventFile) : CStr :=
  ueventAppend ((u.text true).map newlineToNul) "ACTION".toList "add".toList

end UeventFile

section Helper

theorem nul_not_mem_fileText (final : Bool) (lines : List Line) :
    '\x00' ∉ fileText final lines := by
  induction lines using fileText.induct with
  | case1 => simp [fileText]
  | case2 l =>
    have hl := l.nul_not_mem_text
    cases final <;> simp [fileText, hl]
  | case3 l m lines ih =>
    have hl := l.nul_not_mem_text
    simp [fileText, hl, ih]

/-- The first token is the first line. -/
theorem strtok_line (a rest : CStr) (hne : a ≠ []) (ha : '\n' ∉ a)
    (hrest : rest = [] ∨ rest.head? = some '\n') :
    strtok ['\n'] (a ++ rest) = some (a, rest.tail) := by
  have hdelim : ∀ c ∈ a, decide (c ∉ ['\n']) = true := by
    intro c hc
    rw [decide_eq_true_eq, List.mem_singleton]
    rintro rfl
    exact ha hc
  have hstart : (a ++ rest).dropWhile (· ∈ ['\n']) = a ++ rest := by
    cases a with
    | nil => exact absurd rfl hne
    | cons c a =>
      have hc := hdelim c List.mem_cons_self
      rw [List.cons_append, List.dropWhile_cons_of_neg (by simpa using hc)]
  have hend : rest.takeWhile (· ∉ ['\n']) = [] ∧ rest.dropWhile (· ∉ ['\n']) = rest := by
    rcases hrest with rfl | hhead
    · exact ⟨rfl, rfl⟩
    · obtain ⟨t, rfl⟩ := List.head?_eq_some_iff.mp hhead
      exact ⟨List.takeWhile_cons_of_neg (by simp), List.dropWhile_cons_of_neg (by simp)⟩
  rw [strtok, hstart, if_neg (by simp [hne]), List.takeWhile_append_of_pos hdelim, hend.1,
    List.append_nil, List.dropWhile_append_of_pos hdelim, hend.2]

/-- One round of the loop, over one line. -/
theorem getKeyLoop_line (key : CStr) (fuel : ℕ) (l : Line) (rest : CStr) (hl : '\n' ∉ l.text)
    (hrest : rest = [] ∨ rest.head? = some '\n') :
    getKeyLoop key (fuel + 1) (l.text ++ rest) =
      if l.key = key then some l.value else getKeyLoop key fuel rest.tail := by
  have hnext : keyvalueNext l.text = some (l.key, l.value) :=
    keyvalueNext_pair l.key l.value l.key_ok.1
  rw [getKeyLoop, strtok_line l.text rest l.text_ne_nil hl hrest]
  dsimp only
  rw [hnext]

theorem getKeyLoop_nil (key : CStr) (fuel : ℕ) : getKeyLoop key fuel [] = none := by
  cases fuel <;> rfl

theorem valueOf_cons (key : CStr) (l : Line) (lines : List Line) :
    valueOf key (l :: lines) = if l.key = key then some l.value else valueOf key lines := by
  split_ifs with h
  · rw [← h, valueOf_cons_self]
  · exact valueOf_cons_of_ne key l lines h

/-- The loop finds the first line with the key. -/
theorem getKeyLoop_fileText (key : CStr) (final : Bool) (lines : List Line) (fuel : ℕ)
    (hlines : ∀ l ∈ lines, '\n' ∉ l.text) (hfuel : (fileText final lines).length < fuel) :
    getKeyLoop key fuel (fileText final lines) = valueOf key lines := by
  induction lines using fileText.induct generalizing fuel with
  | case1 => exact getKeyLoop_nil key fuel
  | case2 l =>
    obtain ⟨fuel, rfl⟩ := Nat.exists_eq_succ_of_ne_zero (Nat.ne_of_gt (Nat.zero_lt_of_lt hfuel))
    have hl : '\n' ∉ l.text := hlines l List.mem_cons_self
    rw [fileText, valueOf_cons]
    cases final with
    | true =>
      rw [if_pos rfl, getKeyLoop_line key fuel l _ hl (Or.inr rfl), List.tail_cons,
        getKeyLoop_nil]
      rfl
    | false =>
      rw [if_neg Bool.false_ne_true, getKeyLoop_line key fuel l _ hl (Or.inl rfl), List.tail_nil,
        getKeyLoop_nil]
      rfl
  | case3 l m lines ih =>
    obtain ⟨fuel, rfl⟩ := Nat.exists_eq_succ_of_ne_zero (Nat.ne_of_gt (Nat.zero_lt_of_lt hfuel))
    rw [fileText, List.length_append, List.length_cons] at hfuel
    rw [fileText, getKeyLoop_line key fuel l _ (hlines l List.mem_cons_self) (Or.inr rfl),
      valueOf_cons, List.tail_cons]
    rw [ih fuel (fun x hx => hlines x (List.mem_cons_of_mem l hx)) (by omega)]

theorem ueventGetKey_text (u : UeventFile) (final : Bool) (key : CStr) :
    ueventGetKey (u.text final) key = valueOf key u.lines := by
  have hnul : untilNul (u.text final) = u.text final := by
    refine List.takeWhile_eq_self_iff.mpr (fun c hc => ?_)
    rw [decide_eq_true_eq]
    rintro rfl
    exact nul_not_mem_fileText final u.lines hc
  rw [ueventGetKey, hnul]
  exact getKeyLoop_fileText key final u.lines _ u.no_newline (Nat.lt_succ_self _)

/-- With distinct keys, the first line with a key is the only one. -/
theorem valueOf_eq_some (key value : CStr) (lines : List Line)
    (hkeys : (lines.map Line.key).Nodup) :
    valueOf key lines = some value ↔ ∃ l ∈ lines, (key, value) = (l.key, l.value) := by
  induction lines with
  | nil => simp [valueOf]
  | cons l lines ih =>
    rw [List.map_cons, List.nodup_cons] at hkeys
    rw [valueOf_cons, List.exists_mem_cons_iff]
    split_ifs with h
    · subst h
      constructor
      · intro hvalue
        rw [Option.some.inj hvalue]
        exact Or.inl rfl
      · rintro (heq | ⟨m, hm, heq⟩)
        · rw [(Prod.mk.inj heq).2]
        · exact absurd ((Prod.mk.inj heq).1 ▸ List.mem_map_of_mem hm) hkeys.1
    · rw [ih hkeys.2]
      refine ⟨Or.inr, ?_⟩
      rintro (heq | hmem)
      · exact absurd (Prod.mk.inj heq).1.symm h
      · exact hmem

end Helper

section Vdevd

variable (sys : Uevent.Sysfs) (u : UeventFile)

theorem buffer_eq : u.buffer = nulText (u.lines ++ [actionLine]) := by
  rw [UeventFile.buffer, UeventFile.text, map_fileText_final u.lines u.no_newline, nulText_append,
    ueventAppend]
  simp [nulText, actionLine, Line.text]

theorem parseRequest_buffer :
    parseRequest sys u.buffer = requestOf sys (u.lines ++ [actionLine]) := by
  rw [buffer_eq]
  cases hlines : u.lines with
  | nil => exact parseRequest_plain sys actionLine [] (by decide)
  | cons l lines =>
    exact parseRequest_plain sys l (lines ++ [actionLine]) (u.no_header l (by rw [hlines]; rfl))

theorem valueOf_reserved {key : CStr} (hkey : key ∈ reserved) : valueOf key u.lines = none := by
  rw [valueOf_eq_none]
  intro hmem
  obtain ⟨l, hl, rfl⟩ := List.mem_map.mp hmem
  exact u.unreserved l hl hkey

theorem not_consumed {l : Line} (hl : l ∈ u.lines) : ¬Consumed l.key := by
  have hkey := u.unreserved l hl
  rintro (h | h | h) <;> exact hkey (by rw [h]; decide)

/-- The lines have become parameters, and nothing else but the mount point of sysfs. -/
theorem exists_request :
    ∃ req, parseRequest sys u.buffer = .ok req ∧
      ∀ x, x ∈ req.params.entries ↔
        x = ("SYSFS_MOUNTPOINT".toList, sys.mountpoint) ∨
          ∃ l ∈ u.lines, x = (l.key, l.value) := by
  have hreadable : ∀ l ∈ u.lines, Readable l := by
    intro l hl
    have hnot := not_consumed u hl
    exact ⟨fun h => absurd (Or.inl h) hnot, fun h => absurd (Or.inr h) hnot⟩
  obtain ⟨f, hf, hgathered⟩ := gather_readable u.lines u.distinct hreadable
  have hdevpath : f.devpath = none := by
    rw [hgathered.devpath, valueOf_reserved u (by decide)]
  have hmajor : f.major = none := by
    rw [hgathered.major, valueOf_reserved u (by decide), Option.map_none]
  have hminor : f.minor = none := by
    rw [hgathered.minor, valueOf_reserved u (by decide), Option.map_none]
  have haction : gather {} (u.lines ++ [actionLine]) = .ok { f with type := .add } := by
    rw [gather_append, hf]
    exact (gather_singleton f actionLine).trans rfl
  have hsubsystem : addSubsystem sys { f with type := .add } = .ok { f with type := .add } := by
    rw [addSubsystem, subsystemOf]
    dsimp only
    rw [hdevpath]
    cases f.subsystem <;> rfl
  have hentries : ∀ x, x ∈ f.params.entries ↔ ∃ l ∈ u.lines, x = (l.key, l.value) := by
    intro x
    rw [hgathered.params]
    constructor
    · rintro ⟨l, hl, -, hx⟩
      exact ⟨l, hl, hx⟩
    · rintro ⟨l, hl, hx⟩
      exact ⟨l, hl, not_consumed u hl, hx⟩
  obtain ⟨params, hadd, hmem⟩ := addParam_of_new { f with type := .add }
    "SYSFS_MOUNTPOINT".toList sys.mountpoint (by
      intro x hx heq
      obtain ⟨l, hl, rfl⟩ := (hentries x).mp hx
      have hkey : l.key = "SYSFS_MOUNTPOINT".toList := heq
      exact u.unreserved l hl (by rw [hkey]; decide))
  refine ⟨requestWith sys { f with type := .add } params, ?_, fun x => ?_⟩
  · rw [parseRequest_buffer, requestOf, haction]
    change makeRequest sys { f with type := .add } = _
    rw [makeRequest, if_neg (by dsimp only; decide), if_neg, hsubsystem]
    · dsimp only
      rw [hadd]
      rfl
    · dsimp only
      rw [hmajor, hminor]
      exact not_not_intro rfl
  · exact (hmem x).trans (or_congr_right (hentries x))

end Vdevd

/-- The value that a helper finds for a key is the parameter of the request that vdevd makes of the
same lines, and what the one does not find is no parameter of the other. -/
theorem get_key_iff_param (sys : Uevent.Sysfs) (u : UeventFile) :
    ∃ req, parseRequest sys u.buffer = .ok req ∧
      ∀ (final : Bool) (key : CStr), key ≠ "SYSFS_MOUNTPOINT".toList →
        (∀ value, ueventGetKey (u.text final) key = some value ↔
          (key, value) ∈ req.params.entries) ∧
        (ueventGetKey (u.text final) key = none ↔ ∀ value, (key, value) ∉ req.params.entries) := by
  obtain ⟨req, hreq, hentries⟩ := exists_request sys u
  refine ⟨req, hreq, fun final key hkey => ?_⟩
  have hparam : ∀ value, ueventGetKey (u.text final) key = some value ↔
      (key, value) ∈ req.params.entries := by
    intro value
    rw [ueventGetKey_text, valueOf_eq_some key value u.lines u.distinct, hentries, or_iff_right]
    exact fun heq => hkey (Prod.mk.inj heq).1
  refine ⟨hparam, ?_⟩
  rw [Option.eq_none_iff_forall_not_mem]
  exact forall_congr' (fun value => not_congr (hparam value))

/-- The uevent file of a disk. One value is empty, and one has more equals signs. -/
def diskFile : UeventFile where
  lines := [⟨"DISKSEQ".toList, "17".toList, by decide, by decide⟩,
    ⟨"DEVTYPE".toList, "disk".toList, by decide, by decide⟩,
    ⟨"DRIVER".toList, [], by decide, by decide⟩,
    ⟨"MODALIAS".toList, "scsi:t-0x00=v=1".toList, by decide, by decide⟩]
  no_newline := by decide
  short := by decide
  distinct := by decide
  unreserved := by decide
  no_header := by decide

theorem get_key_iff_param_disk :
    ∃ req, parseRequest (oneDevice [] []) diskFile.buffer = .ok req ∧
      ("DEVTYPE".toList, "disk".toList) ∈ req.params.entries ∧
      ("DRIVER".toList, []) ∈ req.params.entries ∧
      ("MODALIAS".toList, "scsi:t-0x00=v=1".toList) ∈ req.params.entries ∧
      ∀ value, ("SEQNUM".toList, value) ∉ req.params.entries := by
  obtain ⟨req, hreq, hparams⟩ := get_key_iff_param (oneDevice [] []) diskFile
  refine ⟨req, hreq, ?_, ?_, ?_, ?_⟩
  · exact ((hparams true "DEVTYPE".toList (by decide)).1 _).mp (by decide)
  · exact ((hparams true "DRIVER".toList (by decide)).1 _).mp (by decide)
  · exact ((hparams false "MODALIAS".toList (by decide)).1 _).mp (by decide)
  · exact (hparams false "SEQNUM".toList (by decide)).2.mp (by decide)

end Vdev.UeventKeys
