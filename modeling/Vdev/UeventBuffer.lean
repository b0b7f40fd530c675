import Vdev.SysfsDevice

/-!
The buffer of a uevent file, byte by byte (vdevd/os/linux.c, libvdev/util.c). The buffer is as
large as the size that `stat` reports, and what it holds is found by its NULs. A file that fills
the buffer and has no newline at its end leaves no room for the last NUL. The loop over the
newlines counts in an `unsigned int`, and the results of `vdev_read_file` and
`vdev_keyvalue_next` are an `int`.
-/
namespace Vdev.UeventBuffer

open CString Data Parsing Uevent SysfsDevice

/-- Bytes on the heap, as many as were allocated, and how many of them are in use. -/
structure Buffer where
  bytes : List Char
  len : ℕ
  deriving DecidableEq

/-- How a function ends, if it has ended: `undefined` when it touches a byte that is not
in the buffer. -/
inductive Outcome (α : Type)
  | running
  | undefined
  | failed (rc : Int)
  | returned (a : α)
  deriving DecidableEq

/-- A length that is stored in an `int`. -/
def asInt (n : ℕ) : Int := Int.bmod n (2 ^ 32)

/-- What `vdev_read_file` returns when the file has `n` bytes. A negative number of bytes
counts as an error, with the `errno` of an earlier call. -/
def readFileRc (errno n : ℕ) : Int := if asInt n < 0 then -errno else 0

/-- The loop over the newlines, as far as it gets. -/
def newlineLoop : ℕ → ℕ → List Char → Option (List Char)
  | 0, _, _ => none
  | fuel + 1, i, buf =>
    if i < buf.length then newlineLoop fuel ((i + 1) % 2 ^ 32) (buf.modify i newlineToNul)
    else some buf

/-- The two loops of `vdev_linux_sysfs_read_uevent`, over the buffer. -/
def splitLines (fuel : ℕ) (buf : List Char) : Outcome Buffer :=
  match newlineLoop fuel 0 buf with
  | none => .running
  | some buf =>
    match ueventLenLoop (buf.length + 1) buf 0 with
    | none => .undefined
    | some len => .returned ⟨buf, len⟩

/-- `vdev_linux_sysfs_read_uevent`. -/
def linuxSysfsReadUevent (sys : Sysfs) (errno fuel : ℕ) (fpUevent : CStr) : Outcome Buffer :=
  match sys.statSize fpUevent with
  | .error e => .failed e.rc
  | .ok size =>
    match sys.readFile fpUevent with
    | .error e => .failed e.rc
    | .ok content =>
      let content := content.take size
      let rc := readFileRc errno content.length
      if rc ≠ 0 then .failed rc
      else splitLines fuel (content ++ List.replicate (size - content.length) '\x00')

def write (i : ℕ) (s : CStr) (bytes : List Char) : Option (List Char) :=
  if i + s.length ≤ bytes.length then some (bytes.take i ++ s ++ bytes.drop (i + s.length))
  else none

/-- `realloc`. Bytes that are new can have any value. -/
def realloc (junk : ℕ → ℕ → Char) (n : ℕ) (bytes : List Char) : List Char :=
  bytes.take n ++ (List.range (n - bytes.length)).map (junk n)

/-- `vdev_linux_uevent_append`. It has no result when it writes outside of the buffer. -/
def linuxUeventAppend (junk : ℕ → ℕ → Char) (b : Buffer) (key value : CStr) : Option Buffer := do
  let bytes := realloc junk (b.len + 1 + key.length + 1 + value.length + 1) b.bytes
  let bytes ← write b.len key bytes
  let len := b.len + key.length
  let bytes ← write len ['='] bytes
  let len := len + 1
  let bytes ← write len value bytes
  let len := len + value.length
  let bytes ← write len ['\x00'] bytes
  return ⟨bytes, len + 1⟩

/-- The pairs that `vdev_keyvalue_next` finds from an offset on, as the loop of
`vdev_linux_parse_request` calls it. There are none when a call fails or leaves the buffer. -/
def keyvaluesFrom (b : Buffer) : ℕ → ℕ → Option (List (CStr × CStr))
  | 0, _ => none
  | fuel + 1, offset =>
    if offset < b.len then
      if '\x00' ∉ b.bytes.drop offset then none
      else
        let s := untilNul (b.bytes.drop offset)
        match keyvalueNext s with
        | none => none
        | some pair =>
          if asInt s.length < 0 then none
          else (keyvaluesFrom b fuel (offset + (asInt s.length).toNat + 1)).map (pair :: ·)
    else some []

/-- Each pair takes at least one byte. -/
def keyvalues (b : Buffer) : Option (List (CStr × CStr)) := keyvaluesFrom b (b.len + 1) 0

def appendAll (junk : ℕ → ℕ → Char) (pairs : List Line) (b : Buffer) : Option Buffer :=
  pairs.foldlM (fun b l => linuxUeventAppend junk b l.key l.value) b

/-- The file is read and the pairs are appended, all inside of the buffer, the length is that
of the lines and the pairs, and these are found again in their order. -/
def Decodes (sys : Sysfs) (errno : ℕ) (junk : ℕ → ℕ → Char) (fpUevent : CStr)
    (lines pairs : List Line) : Prop :=
  ∃ fuel b b', linuxSysfsReadUevent sys errno fuel fpUevent = .returned b ∧
    appendAll junk pairs b = some b' ∧
    b'.len = ((lines ++ pairs).map (fun l => l.text.length + 1)).sum ∧
    keyvalues b' = some ((lines ++ pairs).map (fun l => (l.key, l.value)))

section Newlines

theorem newlineLoop_eq (before rest : List Char) (fuel : ℕ)
    (hlen : (before ++ rest).length < 2 ^ 32) :
    newlineLoop fuel before.length (before ++ rest) =
      if rest.length < fuel then some (before ++ rest.map newlineToNul) else none := by
  induction rest generalizing before fuel with
  | nil =>
    cases fuel with
    | zero => rfl
    | succ fuel =>
      rw [newlineLoop, List.append_nil, if_neg (lt_irrefl _), List.length_nil,
        if_pos (Nat.zero_lt_succ fuel), List.map_nil, List.append_nil]
  | cons c rest ih =>
    cases fuel with
    | zero => rfl
    | succ fuel =>
      have hmodify : (before ++ c :: rest).modify before.length newlineToNul =
          (before ++ [newlineToNul c]) ++ rest := by
        rw [List.modify_eq_take_cons_drop (by simp)]
        simp
      have hnext := ih (before ++ [newlineToNul c]) fuel (by simpa using hlen)
      rw [List.length_append, List.length_cons] at hlen
      rw [List.length_append, List.length_singleton] at hnext
      rw [newlineLoop, if_pos (by simp), hmodify, Nat.mod_eq_of_lt (by omega), hnext]
      simp

/-- In a large buffer the loop does not come to an end. -/
theorem newlineLoop_large (fuel i : ℕ) (buf : List Char) (hlen : 2 ^ 32 ≤ buf.length)
    (hi : i < 2 ^ 32) : newlineLoop fuel i buf = none := by
  induction fuel generalizing i buf with
  | zero => rfl
  | succ fuel ih =>
    rw [newlineLoop, if_pos (by omega)]
    exact ih _ _ (by rwa [List.length_modify]) (Nat.mod_lt _ (by decide))

theorem splitLines_returned_iff (buf : List Char) (b : Buffer) :
    (∃ fuel, splitLines fuel buf = .returned b) ↔
      buf.length < 2 ^ 32 ∧ b.bytes = buf.map newlineToNul ∧
        ueventLenLoop (buf.length + 1) (buf.map newlineToNul) 0 = some b.len := by
  by_cases hsize : buf.length < 2 ^ 32
  · have hloop := fun fuel => newlineLoop_eq [] buf fuel hsize
    simp only [List.nil_append, List.length_nil] at hloop
    rw [and_iff_right hsize]
    constructor
    · rintro ⟨fuel, hret⟩
      rw [splitLines, hloop] at hret
      by_cases hfuel : buf.length < fuel
      · rw [if_pos hfuel] at hret
        dsimp only at hret
        rw [List.length_map] at hret
        split at hret
        · cases hret
        · rename_i len hlen
          cases hret
          exact ⟨rfl, hlen⟩
      · rw [if_neg hfuel] at hret
        cases hret
    · rintro ⟨hbytes, hlen⟩
      refine ⟨buf.length + 1, ?_⟩
      rw [splitLines, hloop, if_pos (Nat.lt_succ_self _)]
      dsimp only
      rw [List.length_map, hlen]
      dsimp only
      rw [← hbytes]
  · refine iff_of_false ?_ (fun hand => hsize hand.1)
    rintro ⟨fuel, hret⟩
    rw [splitLines, newlineLoop_large _ _ _ (not_lt.mp hsize) (by decide)] at hret
    cases hret

end Newlines

theorem asInt_neg_iff {n : ℕ} (h : n < 2 ^ 32) : asInt n < 0 ↔ 2 ^ 31 ≤ n := by
  unfold asInt
  rw [Int.bmod_def]
  omega

theorem asInt_of_lt {n : ℕ} (h : n < 2 ^ 31) : asInt n = n := by
  unfold asInt
  rw [Int.bmod_def]
  omega

/-- The file is read in full. -/
theorem readFileRc_eq_zero_iff (errno : ℕ) {n : ℕ} (h : n < 2 ^ 32) :
    readFileRc errno n = 0 ↔ n < 2 ^ 31 ∨ errno = 0 := by
  unfold readFileRc
  split_ifs with hneg
  · rw [asInt_neg_iff h] at hneg
    omega
  · rw [asInt_neg_iff h] at hneg
    exact iff_of_true rfl (Or.inl (by omega))

section Read

variable {sys : Sysfs} {d : CStr} {final : Bool} {lines : List Line} {size : ℕ}

/-- The buffer behind the loop over the newlines. -/
def filled (final : Bool) (lines : List Line) (size : ℕ) : List Char :=
  (fileText final lines ++
    List.replicate (size - (fileText final lines).length) '\x00').map newlineToNul

def Room (final : Bool) (lines : List Line) (size : ℕ) : Prop :=
  lines = [] ∨ final = true ∨ (fileText final lines).length < size

theorem filled_eq (h : HasFile sys d final lines size) (hlines : ∀ l ∈ lines, '\n' ∉ l.text)
    (hroom : Room final lines size) :
    ∃ k, filled final lines size = nulText lines ++ List.replicate k '\x00' := by
  have hbuffer := h.buffer hlines hroom
  rwa [List.take_of_length_le h.fits] at hbuffer

/-- The length of the uevent is found if there is room. -/
theorem ueventLen_eq (h : HasFile sys d final lines size) (hlines : ∀ l ∈ lines, '\n' ∉ l.text)
    (len : ℕ) : ueventLenLoop (size + 1) (filled final lines size) 0 = some len ↔
      Room final lines size ∧ len = (nulText lines).length := by
  have hfuel := h.length_lt hlines
  by_cases hroom : Room final lines size
  · obtain ⟨k, hk⟩ := filled_eq h hlines hroom
    rw [hk, ueventLenLoop_nulText lines k _ 0 hfuel, Nat.zero_add, and_iff_right hroom]
    exact ⟨fun heq => (Option.some.inj heq).symm, fun heq => congrArg some heq.symm⟩
  · have hfits := h.fits
    have hopen := hroom
    rw [Room, not_or, not_or, Bool.not_eq_true] at hopen
    obtain ⟨hne, rfl, hfull⟩ := hopen
    have hsize : (fileText false lines).length = size := by omega
    rw [filled, hsize, Nat.sub_self, List.replicate_zero, List.append_nil,
      ueventLenLoop_open lines _ 0 hne hlines hfuel]
    exact iff_of_false nofun (fun hand => hroom hand.1)

/-- The buffer is returned exactly if the counter of the loop gets to its end, the file is not
too long, and there is room for the last NUL. -/
theorem returned_iff (h : HasFile sys d final lines size) (hlines : ∀ l ∈ lines, '\n' ∉ l.text)
    (errno : ℕ) (b : Buffer) :
    (∃ fuel, linuxSysfsReadUevent sys errno fuel (sys.mountpoint ++ d ++ "/uevent".toList) =
        .returned b) ↔
      size < 2 ^ 32 ∧ ((fileText final lines).length < 2 ^ 31 ∨ errno = 0) ∧
        Room final lines size ∧ b = ⟨filled final lines size, (nulText lines).length⟩ := by
  have hfits := h.fits
  have hlen : (fileText final lines ++
      List.replicate (size - (fileText final lines).length) '\x00').length = size := by
    rw [List.length_append, List.length_replicate]
    omega
  have hread : ∀ fuel, linuxSysfsReadUevent sys errno fuel
      (sys.mountpoint ++ d ++ "/uevent".toList) =
      if readFileRc errno (fileText final lines).length ≠ 0 then
        .failed (readFileRc errno (fileText final lines).length)
      else splitLines fuel (fileText final lines ++
        List.replicate (size - (fileText final lines).length) '\x00') := by
    intro fuel
    rw [linuxSysfsReadUevent, h.stat]
    dsimp only
    rw [h.read]
    dsimp only
    rw [List.take_of_length_le hfits]
  have hsplit := splitLines_returned_iff (fileText final lines ++
    List.replicate (size - (fileText final lines).length) '\x00') b
  rw [hlen, ← filled, ueventLen_eq h hlines] at hsplit
  obtain ⟨bytes, len⟩ := b
  rw [Buffer.mk.injEq]
  constructor
  · rintro ⟨fuel, hret⟩
    rw [hread] at hret
    split_ifs at hret with hrc
    obtain ⟨hsize, hbytes, hroom, hlen'⟩ := hsplit.mp ⟨fuel, hret⟩
    rw [not_not, readFileRc_eq_zero_iff errno (by omega)] at hrc
    exact ⟨hsize, hrc, hroom, hbytes, hlen'⟩
  · rintro ⟨hsize, hrc, hroom, hbytes, hlen'⟩
    obtain ⟨fuel, hret⟩ := hsplit.mpr ⟨hsize, hbytes, hroom, hlen'⟩
    refine ⟨fuel, ?_⟩
    rw [hread, if_neg, hret]
    rw [not_not, readFileRc_eq_zero_iff errno (by omega)]
    exact hrc

end Read

section Append

/-- `realloc` keeps the bytes in use. -/
theorem realloc_eq (junk : ℕ → ℕ → Char) (n : ℕ) (used rest : List Char) (hn : used.length ≤ n) :
    ∃ tail, realloc junk n (used ++ rest) = used ++ tail ∧ used.length + tail.length = n := by
  refine ⟨rest.take (n - used.length) ++
    (List.range (n - (used ++ rest).length)).map (junk n), ?_, ?_⟩
  · rw [realloc, List.take_append, List.take_of_length_le hn, List.append_assoc]
  · simp only [List.length_append, List.length_take, List.length_map, List.length_range]
    omega

theorem write_eq {u s t : List Char} {n : ℕ} (hn : n = u.length) (hlen : s.length ≤ t.length) :
    write n s (u ++ t) = some (u ++ s ++ t.drop s.length) := by
  rw [write, hn, if_pos (by rw [List.length_append]; omega), List.take_left,
    List.drop_length_add_append]

/-- A pair is appended to the bytes in use, inside of the new buffer. -/
theorem linuxUeventAppend_eq (junk : ℕ → ℕ → Char) (l : Line) (used rest : List Char) :
    ∃ rest', linuxUeventAppend junk ⟨used ++ rest, used.length⟩ l.key l.value =
      some ⟨used ++ (l.text ++ ['\x00']) ++ rest',
        (used ++ (l.text ++ ['\x00'])).length⟩ := by
  obtain ⟨tail, htail, hlen⟩ :=
    realloc_eq junk (used.length + 1 + l.key.length + 1 + l.value.length + 1) used rest (by omega)
  refine ⟨(((tail.drop l.key.length).drop 1).drop l.value.length).drop 1, ?_⟩
  have hkey := write_eq (u := used) (s := l.key) (t := tail) rfl (by omega)
  have heq := write_eq (u := used ++ l.key) (s := ['=']) (t := tail.drop l.key.length)
    (List.length_append).symm (by simp only [List.length_drop, List.length_singleton]; omega)
  have hvalue := write_eq (u := used ++ l.key ++ ['=']) (s := l.value)
    (t := (tail.drop l.key.length).drop 1) (n := used.length + l.key.length + 1)
    (by simp only [List.length_append, List.length_singleton])
    (by simp only [List.length_drop]; omega)
  have hnul := write_eq (u := used ++ l.key ++ ['='] ++ l.value) (s := ['\x00'])
    (t := ((tail.drop l.key.length).drop 1).drop l.value.length)
    (n := used.length + l.key.length + 1 + l.value.length)
    (by simp only [List.length_append, List.length_singleton])
    (by simp only [List.length_drop, List.length_singleton]; omega)
  rw [linuxUeventAppend]
  dsimp only
  rw [List.length_singleton] at heq hnul
  rw [htail, Option.bind_eq_bind, hkey, Option.bind_some, heq, Option.bind_some, hvalue,
    Option.bind_some, hnul, Option.bind_some]
  refine congrArg some ?_
  rw [Buffer.mk.injEq]
  refine ⟨by simp [Line.text], ?_⟩
  simp only [Line.text, List.length_append, List.length_cons, List.length_nil]
  omega

theorem linuxUeventAppend_line (junk : ℕ → ℕ → Char) (l : Line) (lines : List Line)
    (rest : List Char) :
    ∃ rest', linuxUeventAppend junk ⟨nulText lines ++ rest, (nulText lines).length⟩ l.key l.value =
      some ⟨nulText (lines ++ [l]) ++ rest', (nulText (lines ++ [l])).length⟩ := by
  have hone : nulText lines ++ (l.text ++ ['\x00']) = nulText (lines ++ [l]) := by
    rw [nulText_append, nulText_cons]
    rfl
  rw [← hone]
  exact linuxUeventAppend_eq junk l (nulText lines) rest

/-- After the pairs are appended, the bytes in use hold the lines and the pairs. -/
theorem appendAll_eq (junk : ℕ → ℕ → Char) (pairs lines : List Line) (rest : List Char) :
    ∃ rest', appendAll junk pairs ⟨nulText lines ++ rest, (nulText lines).length⟩ =
      some ⟨nulText (lines ++ pairs) ++ rest', (nulText (lines ++ pairs)).length⟩ := by
  induction pairs generalizing lines rest with
  | nil => exact ⟨rest, by rw [List.append_nil]; rfl⟩
  | cons l pairs ih =>
    obtain ⟨mid, hmid⟩ := linuxUeventAppend_line junk l lines rest
    obtain ⟨rest', hrest⟩ := ih (lines ++ [l]) mid
    rw [List.append_assoc, List.singleton_append] at hrest
    refine ⟨rest', ?_⟩
    rw [appendAll, List.foldlM_cons, hmid]
    exact hrest

end Append

section Used

def Buffer.used (b : Buffer) : CStr := b.bytes.take b.len

/-- What is returned is what the file is read as. -/
theorem readUevent_of_returned {sys : Sysfs} {errno fuel : ℕ} {fpUevent : CStr} {b : Buffer}
    (h : linuxSysfsReadUevent sys errno fuel fpUevent = .returned b) :
    readUevent sys fpUevent = .ok (some b.used) := by
  unfold linuxSysfsReadUevent at h
  unfold readUevent
  cases hsize : sys.statSize fpUevent with
  | error e =>
    rw [hsize] at h
    cases h
  | ok size =>
    cases hcontent : sys.readFile fpUevent with
    | error e =>
      rw [hsize] at h
      dsimp only at h
      rw [hcontent] at h
      cases h
    | ok content =>
      rw [hsize] at h
      dsimp only at h ⊢
      rw [hcontent] at h
      dsimp only at h ⊢
      split_ifs at h
      obtain ⟨hsize', hbytes, hlen⟩ := (splitLines_returned_iff _ b).mp ⟨fuel, h⟩
      have hfull : (content.take size ++
          List.replicate (size - (content.take size).length) '\x00').length = size := by
        rw [List.length_append, List.length_replicate, List.length_take]
        omega
      rw [hfull] at hlen hsize'
      rw [if_pos hsize', hlen, Buffer.used, hbytes]
      rfl

end Used

section Keyvalues

theorem untilNul_drop (bytes before s after : List Char)
    (hbytes : bytes = before ++ s ++ '\x00' :: after) (hs : '\x00' ∉ s) : '\x00' ∈ bytes.drop before.length ∧
      untilNul (bytes.drop before.length) = s := by
  rw [hbytes, List.append_assoc, List.drop_left]
  exact ⟨by simp, untilNul_append_nul s after hs⟩

theorem asInt_long {n : ℕ} (h : 2 ^ 31 ≤ n) (hpos : 0 ≤ asInt n) :
    ∃ q, n = (asInt n).toNat + 2 ^ 32 * (q + 1) := by
  have hval : asInt n = n % 2 ^ 32 := by
    unfold asInt at hpos ⊢
    rw [Int.bmod_def] at hpos ⊢
    omega
  refine ⟨n / 2 ^ 32 - 1, ?_⟩
  rw [hval] at hpos ⊢
  have hneg : asInt n < 2 ^ 31 := by
    unfold asInt
    rw [Int.bmod_def]
    omega
  omega

theorem asInt_pred (q : ℕ) : asInt (2 ^ 32 * (q + 1) - 1) = -1 := by
  unfold asInt
  rw [Int.bmod_def]
  omega

theorem keyvaluesFrom_negative (b : Buffer) (fuel offset : ℕ) (hlt : offset < b.len)
    (hneg : asInt (untilNul (b.bytes.drop offset)).length < 0) :
    keyvaluesFrom b fuel offset = none := by
  cases fuel with
  | zero => rfl
  | succ fuel =>
    rw [keyvaluesFrom, if_pos hlt]
    split_ifs
    · dsimp only
      cases keyvalueNext (untilNul (b.bytes.drop offset)) with
      | none => rfl
      | some pair =>
        dsimp only
        rw [if_pos hneg]
    · rfl

/-- One call, at a line. -/
theorem keyvaluesFrom_line (b : Buffer) (fuel : ℕ) (l : Line) (before after : List Char)
    (hbytes : b.bytes = before ++ l.text ++ '\x00' :: after) (hlt : before.length < b.len) :
    keyvaluesFrom b (fuel + 1) before.length =
      if asInt l.text.length < 0 then none
      else (keyvaluesFrom b fuel (before.length + (asInt l.text.length).toNat + 1)).map
        ((l.key, l.value) :: ·) := by
  obtain ⟨hmem, huntil⟩ := untilNul_drop b.bytes before l.text after hbytes l.nul_not_mem_text
  have hnext : keyvalueNext l.text = some (l.key, l.value) :=
    keyvalueNext_pair l.key l.value l.key_ok.1
  rw [keyvaluesFrom, if_pos hlt, if_neg (not_not.mpr hmem)]
  dsimp only
  rw [huntil, hnext]

/-- After a line that is too long, the next call is in the middle of the line, and finds a
string that is too long. -/
theorem keyvaluesFrom_long (b : Buffer) (fuel : ℕ) (l : Line) (before after : List Char)
    (hbytes : b.bytes = before ++ l.text ++ '\x00' :: after)
    (hlt : before.length + l.text.length < b.len) (hlong : 2 ^ 31 ≤ l.text.length) :
    keyvaluesFrom b (fuel + 1) before.length = none := by
  rw [keyvaluesFrom_line b fuel l before after hbytes (by omega)]
  split_ifs with hneg
  · rfl
  · obtain ⟨q, hq⟩ := asInt_long hlong (not_lt.mp hneg)
    generalize (asInt l.text.length).toNat = r at hq ⊢
    have hsplit : b.bytes = (before ++ l.text.take (r + 1)) ++ l.text.drop (r + 1) ++
        '\x00' :: after := by
      rw [List.append_assoc before, List.take_append_drop, hbytes]
    have hlen : (before ++ l.text.take (r + 1)).length = before.length + r + 1 := by
      rw [List.length_append, List.length_take]
      omega
    have hrest := untilNul_drop b.bytes _ _ after hsplit
      (fun hmem => l.nul_not_mem_text (List.mem_of_mem_drop hmem))
    rw [hlen] at hrest
    rw [keyvaluesFrom_negative b fuel _ (by omega)]
    · rfl
    · rw [hrest.2, List.length_drop, show l.text.length - (r + 1) = 2 ^ 32 * (q + 1) - 1 by omega,
        asInt_pred]
      decide

/-- The calls find the lines one by one exactly if the length of each fits in an `int`. -/
theorem keyvaluesFrom_iff (lines rest : List Line) (tail : List Char) (fuel : ℕ)
    (hfuel : rest.length < fuel) :
    keyvaluesFrom ⟨nulText (lines ++ rest) ++ tail, (nulText (lines ++ rest)).length⟩ fuel
        (nulText lines).length = some (rest.map (fun l => (l.key, l.value))) ↔
      ∀ l ∈ rest, l.text.length < 2 ^ 31 := by
  obtain ⟨fuel, rfl⟩ := Nat.exists_eq_succ_of_ne_zero (Nat.ne_of_gt (Nat.zero_lt_of_lt hfuel))
  induction rest generalizing lines fuel with
  | nil =>
    rw [List.append_nil, keyvaluesFrom, if_neg (lt_irrefl _)]
    exact iff_of_true rfl nofun
  | cons l rest ih =>
    have hbytes : nulText (lines ++ l :: rest) ++ tail =
        nulText lines ++ l.text ++ '\x00' :: (nulText rest ++ tail) := by
      rw [nulText_append, nulText_cons]
      simp
    have hlen : (nulText (lines ++ l :: rest)).length =
        (nulText lines).length + (l.text.length + 1) + (nulText rest).length := by
      rw [nulText_append, nulText_cons]
      simp only [List.length_append, List.length_cons]
      omega
    by_cases hlong : 2 ^ 31 ≤ l.text.length
    · rw [Nat.succ_eq_add_one, keyvaluesFrom_long _ fuel l _ _ hbytes (by dsimp only; omega) hlong]
      exact iff_of_false nofun
        (fun hall => absurd (hall l List.mem_cons_self) (not_lt.mpr hlong))
    · have hshort := not_le.mp hlong
      have hone : (nulText (lines ++ [l])).length = (nulText lines).length + l.text.length + 1 := by
        rw [nulText_append, nulText_cons]
        simp [nulText]
        omega
      rw [Nat.succ_eq_add_one, keyvaluesFrom_line _ fuel l _ _ hbytes (by dsimp only; omega),
        asInt_of_lt hshort, if_neg (by omega), Int.toNat_natCast, ← hone, List.forall_mem_cons,
        and_iff_right hshort]
      obtain ⟨fuel, rfl⟩ := Nat.exists_eq_succ_of_ne_zero
        (show fuel ≠ 0 by rw [List.length_cons] at hfuel; omega)
      have hnext := ih (lines ++ [l]) fuel (by rw [List.length_cons] at hfuel; omega)
      rw [List.append_assoc, List.singleton_append] at hnext
      rw [← hnext, List.map_cons, Option.map_eq_some_iff]
      constructor
      · rintro ⟨pairs, hpairs, heq⟩
        rw [hpairs, (List.cons.inj heq).2]
      · exact fun h => ⟨_, h, rfl⟩

end Keyvalues

theorem length_nulText (lines : List Line) :
    (nulText lines).length = (lines.map (fun l => l.text.length + 1)).sum := by
  rw [nulText, List.length_flatMap]
  simp

/-- The file decodes exactly if there is room for the last NUL, the counter of the loop and the
`int` of `vdev_read_file` hold the sizes, and the lengths of the pairs fit in an `int`. -/
theorem decodes_iff (sys : Sysfs) (d : CStr) (final : Bool) (lines pairs : List Line) (size : ℕ)
    (hfile : HasFile sys d final lines size) (hlines : ∀ l ∈ lines, '\n' ∉ l.text) (errno : ℕ)
    (junk : ℕ → ℕ → Char) :
    Decodes sys errno junk (sys.mountpoint ++ d ++ "/uevent".toList) lines pairs ↔
      size < 2 ^ 32 ∧ ((fileText final lines).length < 2 ^ 31 ∨ errno = 0) ∧
        Room final lines size ∧ ∀ l ∈ lines ++ pairs, l.text.length < 2 ^ 31 := by
  have hreturned := returned_iff hfile hlines errno
  have hdecode : ∀ {b' : Buffer}, Room final lines size →
      appendAll junk pairs ⟨filled final lines size, (nulText lines).length⟩ = some b' →
      b'.len = (nulText (lines ++ pairs)).length ∧
        (keyvalues b' = some ((lines ++ pairs).map (fun l => (l.key, l.value))) ↔
          ∀ l ∈ lines ++ pairs, l.text.length < 2 ^ 31) := by
    intro b' hroom happend
    obtain ⟨k, hk⟩ := filled_eq hfile hlines hroom
    obtain ⟨rest, hrest⟩ := appendAll_eq junk pairs lines (List.replicate k '\x00')
    rw [hk, hrest] at happend
    cases happend
    have htwo := length_le_nulText (lines ++ pairs)
    exact ⟨rfl, keyvaluesFrom_iff [] (lines ++ pairs) rest _ (by dsimp only; omega)⟩
  constructor
  · rintro ⟨fuel, b, b', hread, happend, -, hpairs⟩
    obtain ⟨hsize, hrc, hroom, rfl⟩ := (hreturned b).mp ⟨fuel, hread⟩
    exact ⟨hsize, hrc, hroom, (hdecode hroom happend).2.mp hpairs⟩
  · rintro ⟨hsize, hrc, hroom, hshort⟩
    obtain ⟨fuel, hread⟩ := (hreturned _).mpr ⟨hsize, hrc, hroom, rfl⟩
    obtain ⟨k, hk⟩ := filled_eq hfile hlines hroom
    obtain ⟨rest, happend⟩ := appendAll_eq junk pairs lines (List.replicate k '\x00')
    rw [← hk] at happend
    obtain ⟨hlen, hpairs⟩ := hdecode hroom happend
    exact ⟨fuel, _, _, hread, happend, hlen.trans (length_nulText _), hpairs.mpr hshort⟩

/-- The pair that says what to do with a device in sysfs. -/
theorem decodes_serial : Decodes (oneDevice serialPath serialLines) 0 (fun _ _ => 'x')
      ("/sys".toList ++ serialPath ++ "/uevent".toList) serialLines [actionLine] ∧
    ∃ buf, readUevent (oneDevice serialPath serialLines)
      ("/sys".toList ++ serialPath ++ "/uevent".toList) = .ok (some buf) := by
  have hdecodes := (decodes_iff _ serialPath true serialLines [actionLine] 4096
    (oneDevice_hasFile _ _ (by decide)) (by decide) 0 fun _ _ => 'x').mpr
      ⟨by decide, Or.inr rfl, Or.inr (Or.inl rfl), by decide⟩
  refine ⟨hdecodes, ?_⟩
  obtain ⟨fuel, b, b', hread, -⟩ := hdecodes
  exact ⟨b.used, readUevent_of_returned hread⟩

theorem sysMountpoint_ne : "/sys".toList ≠ [] := (oneDevice [] []).mountpoint_ne

def exactSysfs : Sysfs where
  mountpoint := "/sys".toList
  mountpoint_ne := sysMountpoint_ne
  statSize _ := .ok 9
  readFile _ := .ok "DEVNAME=a".toList
  readlink _ := .error .enoent

/-- `strlen` reads behind the end of a buffer that is full. -/
theorem exactSysfs_not_decodes :
    HasFile exactSysfs serialPath false [oneLetter] 9 ∧
    linuxSysfsReadUevent exactSysfs 0 10 ("/sys".toList ++ serialPath ++ "/uevent".toList) =
      .undefined ∧
    ∀ junk, ¬Decodes exactSysfs 0 junk ("/sys".toList ++ serialPath ++ "/uevent".toList)
      [oneLetter] [] := by
  have hfile : HasFile exactSysfs serialPath false [oneLetter] 9 := ⟨rfl, rfl, by decide⟩
  refine ⟨hfile, by decide +kernel, ?_⟩
  rintro junk ⟨fuel, b, b', hread, -⟩
  obtain ⟨-, -, hroom, -⟩ := (returned_iff hfile (by decide) 0 b).mp ⟨fuel, hread⟩
  rcases hroom with hnil | hfinal | hlt
  · cases hnil
  · cases hfinal
  · exact absurd hlt (by decide)

end Vdev.UeventBuffer
