import Vdev.SysfsNames

/-!
The search for an ancestor of a device in sysfs (vdevd/helpers/LINUX/common.c). A device is a
directory with a uevent file. `vdev_sysfs_get_parent_device` takes one name after the other off the
path; `vdev_sysfs_get_parent_with_subsystem_devtype` calls it until the subsystem and the device
type are the ones looked for. Memory is always to be had, and the paths fit into the buffers.
-/
namespace Vdev.SysfsParents

open CString Parsing Paths Enumeration SysfsNames

/-- What the calls return for a path: `stat`, `readlink` and `vdev_read_file`. -/
structure Sysfs where
  stat : CStr → Bool
  readlink : CStr → Except Errno CStr
  readFile : CStr → Except Errno CStr

/-- The loop that zeroes the slashes at the end of the parent path, back from an index: how much of
the path is left. The first character stays. -/
def slashesBack (path : CStr) : ℕ → ℕ
  | 0 => 1
  | i + 1 => if path[i + 1]? = some '/' then slashesBack path i else i + 2

/-- `vdev_sysfs_get_parent_device`. With `none` its loop has not ended after so many rounds. -/
def getParentDevice (sys : Sysfs) : ℕ → CStr → Option (Except Errno CStr)
  | 0, _ => none
  | fuel + 1, path =>
    if path = [] then some (.ok [])
    else
      match slashBelow path path.length with
      | none => some (.error .einval)
      | some 0 => some (.error .enoent)
      | some (delim + 1) =>
        let parent := path.take (slashesBack path (delim + 1))
        if sys.stat (parent ++ "/uevent".toList) then some (.ok parent)
        else getParentDevice sys fuel parent

/-- The loop of `vdev_sysfs_uevent_get_key`. -/
def getKeyLoop (key : CStr) : ℕ → CStr → Option CStr
  | 0, _ => none
  | fuel + 1, s =>
    match strtok ['\n'] s with
    | none => none
    | some (tok, rest) =>
      match keyvalueNext tok with
      | none => getKeyLoop key fuel rest
      | some (k, value) => if k = key then some value else getKeyLoop key fuel rest

/-- `vdev_sysfs_uevent_get_key`: the value, or `-ENOENT`. -/
def ueventGetKey (uevent key : CStr) : Option CStr :=
  getKeyLoop key (uevent.length + 1) (untilNul uevent)

/-- What the search returns. It writes through a null pointer when a link has no slash. -/
inductive Found
  | device (devpath : CStr)
  | error (e : Errno)
  | crash
  deriving DecidableEq

inductive Look
  | done (found : Found)
  | nextParent
  deriving DecidableEq

/-- The device type, which is only looked at if one is asked for. -/
def lookDevtype (sys : Sysfs) (devtype : Option CStr) (parent : CStr) : Look :=
  match devtype with
  | none => .done (.device parent)
  | some devtype =>
    match sys.readFile (parent ++ "/uevent".toList) with
    | .error e => .done (.error e)
    | .ok uevent =>
      if ueventGetKey uevent "DEVTYPE".toList = some devtype then .done (.device parent)
      else .nextParent

/-- What the loop does with a parent device. `readlink` is given room for 4096 bytes. -/
def lookAt (sys : Sysfs) (subsystem : CStr) (devtype : Option CStr) (parent : CStr) : Look :=
  match sys.readlink (parent ++ "/subsystem".toList) with
  | .error e => .done (.error e)
  | .ok link =>
    match rindexSlash (link.take 4096) with
    | none => .done .crash
    | some delim =>
      if delim.drop 1 ≠ subsystem then .nextParent else lookDevtype sys devtype parent

/-- `vdev_sysfs_get_parent_with_subsystem_devtype`, with the rounds that the search for a parent
may take. -/
def getParentWith (sys : Sysfs) (subsystem : CStr) (devtype : Option CStr) (rounds : ℕ) :
    ℕ → CStr → Option Found
  | 0, _ => none
  | fuel + 1, curDir =>
    match getParentDevice sys rounds curDir with
    | none => none
    | some (.error e) => some (.error e)
    | some (.ok parent) =>
      match lookAt sys subsystem devtype parent with
      | .done found => some found
      | .nextParent => getParentWith sys subsystem devtype rounds fuel parent

def pathOf (names : List CStr) : CStr := names.flatMap ('/' :: ·)

/-- The names of a path that has no trailing or repeated slashes. -/
def Names (names : List CStr) : Prop := ∀ c ∈ names, c ≠ [] ∧ '/' ∉ c

/-- The path of a proper ancestor below `/`, with this many names, is the nearest with a
property. -/
structure Nearest (P : CStr → Prop) (names : List CStr) (k : ℕ) : Prop where
  pos : 0 < k
  proper : k < names.length
  holds : P (pathOf (names.take k))
  nearest : ∀ j, k < j → j < names.length → ¬P (pathOf (names.take j))

/-- No proper ancestor below `/` has the property. -/
def NoAncestor (P : CStr → Prop) (names : List CStr) : Prop :=
  ∀ k, 0 < k → k < names.length → ¬P (pathOf (names.take k))

def IsDevice (sys : Sysfs) (path : CStr) : Prop := sys.stat (path ++ "/uevent".toList) = true

def valueIn (key uevent : CStr) : Option CStr :=
  ((untilNul uevent).splitOn '\n').findSome? fun line =>
    if key ++ ['='] <+: line then some (line.drop (key.length + 1)) else none

def Matches (sys : Sysfs) (subsystem : CStr) (devtype : Option CStr) (path : CStr) : Prop :=
  IsDevice sys path ∧
    (∃ dir, sys.readlink (path ++ "/subsystem".toList) = .ok (dir ++ '/' :: subsystem) ∧
      '/' ∉ subsystem) ∧
    ∀ type, devtype = some type → ∃ uevent,
      sys.readFile (path ++ "/uevent".toList) = .ok uevent ∧
        valueIn "DEVTYPE".toList uevent = some type

/-- Each ancestor that is a device has a subsystem link with a slash, which fits into the buffer,
and its uevent file can be read. -/
def Populated (sys : Sysfs) (names : List CStr) : Prop :=
  ∀ k, 0 < k → k < names.length → IsDevice sys (pathOf (names.take k)) →
    (∃ link, sys.readlink (pathOf (names.take k) ++ "/subsystem".toList) = .ok link ∧ '/' ∈ link ∧
      link.length ≤ 4096) ∧
    ∃ uevent, sys.readFile (pathOf (names.take k) ++ "/uevent".toList) = .ok uevent

section Paths

theorem pathOf_append_singleton (names : List CStr) (c : CStr) :
    pathOf (names ++ [c]) = pathOf names ++ '/' :: c := by
  rw [pathOf, List.flatMap_append, List.flatMap_singleton]
  rfl

theorem Names.init {names : List CStr} {c : CStr} (h : Names (names ++ [c])) : Names names :=
  fun d hd => h d (List.mem_append_left _ hd)

theorem Names.last {names : List CStr} {c : CStr} (h : Names (names ++ [c])) :
    c ≠ [] ∧ '/' ∉ c := h c (by simp)

theorem Names.take {names : List CStr} (h : Names names) (k : ℕ) : Names (names.take k) :=
  fun c hc => h c (List.mem_of_mem_take hc)

/-- A path ends in the last character of its last name. -/
theorem exists_last_char (names : List CStr) (h : Names names) (hne : names ≠ []) :
    ∃ p x, pathOf names = p ++ [x] ∧ x ≠ '/' := by
  obtain ⟨names, c, rfl⟩ := (List.eq_nil_or_concat names).resolve_left hne
  rw [List.concat_eq_append] at h ⊢
  obtain ⟨hcne, hslash⟩ := h.last
  obtain ⟨c, x, rfl⟩ := (List.eq_nil_or_concat c).resolve_left hcne
  rw [List.concat_eq_append] at hslash ⊢
  refine ⟨pathOf names ++ '/' :: c, x, ?_, ?_⟩
  · rw [pathOf_append_singleton]
    simp
  · rintro rfl
    exact hslash (by simp)

theorem slashesBack_append (p c : CStr) (x : Char) (hx : x ≠ '/') :
    slashesBack (p ++ [x] ++ '/' :: c) (p.length + 1) = p.length + 1 := by
  have hslash : (p ++ [x] ++ '/' :: c)[p.length + 1]? = some '/' := by simp
  rw [slashesBack, if_pos hslash]
  cases hlen : p.length with
  | zero => rfl
  | succ k =>
    have hchar : (p ++ [x] ++ '/' :: c)[k + 1]? = some x := by simp [← hlen]
    rw [slashesBack, if_neg (by rw [hchar, Option.some.injEq]; exact hx)]

end Paths

section ParentDevice

variable (sys : Sysfs)

/-- Nothing is above the only name of a path. -/
theorem getParentDevice_single (fuel : ℕ) (c : CStr) (hc : '/' ∉ c) :
    getParentDevice sys (fuel + 1) (pathOf [c]) = some (.error .enoent) := by
  have hscan := slashBelow_append [] c hc c.length (by omega)
  rw [List.nil_append, List.length_nil, Nat.zero_add, Nat.add_comm] at hscan
  have hpath : pathOf [c] = '/' :: c := by simp [pathOf]
  rw [getParentDevice, hpath, if_neg (List.cons_ne_nil _ _), List.length_cons, hscan]

/-- One round takes the last name off the path. -/
theorem getParentDevice_round (fuel : ℕ) (names : List CStr) (c : CStr) (hc : '/' ∉ c)
    (hnames : Names names) (hne : names ≠ []) :
    getParentDevice sys (fuel + 1) (pathOf (names ++ [c])) =
      if sys.stat (pathOf names ++ "/uevent".toList) then some (.ok (pathOf names))
      else getParentDevice sys fuel (pathOf names) := by
  obtain ⟨p, x, hp, hx⟩ := exists_last_char names hnames hne
  have hscan := slashBelow_append (p ++ [x]) c hc c.length (by omega)
  have hlen : (p ++ [x] ++ '/' :: c).length = (p ++ [x]).length + 1 + c.length := by
    rw [List.length_append, List.length_cons]
    omega
  rw [getParentDevice, pathOf_append_singleton, hp, if_neg (by simp), hlen, hscan]
  simp only [List.length_append, List.length_singleton]
  rw [slashesBack_append p c x hx]
  have htake : (p ++ [x] ++ '/' :: c).take (p.length + 1) = p ++ [x] := by
    rw [show p.length + 1 = (p ++ [x]).length by simp, List.take_left]
  rw [htake]

variable {P Q : CStr → Prop}

theorem Nearest.snoc {names : List CStr} {k : ℕ} (h : Nearest P names k) (c : CStr)
    (hnot : ¬P (pathOf names)) : Nearest P (names ++ [c]) k where
  pos := h.pos
  proper := by
    rw [List.length_append]
    exact Nat.lt_add_right _ h.proper
  holds := by
    rw [List.take_append_of_le_length h.proper.le]
    exact h.holds
  nearest := by
    intro j hkj hj
    rw [List.length_append, List.length_singleton] at hj
    rw [List.take_append_of_le_length (by omega)]
    rcases Nat.lt_or_eq_of_le (Nat.le_of_lt_succ hj) with hlt | rfl
    · exact h.nearest j hkj hlt
    · rw [List.take_length]
      exact hnot

theorem NoAncestor.snoc {names : List CStr} (h : NoAncestor P names) (c : CStr)
    (hnot : ¬P (pathOf names)) : NoAncestor P (names ++ [c]) := by
  intro k hpos hk
  rw [List.length_append, List.length_singleton] at hk
  rw [List.take_append_of_le_length (by omega)]
  rcases Nat.lt_or_eq_of_le (Nat.le_of_lt_succ hk) with hlt | rfl
  · exact h k hpos hlt
  · rw [List.take_length]
    exact hnot

theorem nearest_parent {names : List CStr} (c : CStr) (hne : names ≠ []) (h : P (pathOf names)) :
    Nearest P (names ++ [c]) names.length where
  pos := List.length_pos_of_ne_nil hne
  proper := by simp
  holds := by
    rw [List.take_left]
    exact h
  nearest := by
    intro j hj hlt
    rw [List.length_append, List.length_singleton] at hlt
    omega

/-- The search for a parent device ends after as many rounds as there are names. -/
theorem getParentDevice_spec (names : List CStr) (hnames : Names names) (hne : names ≠ [])
    (fuel : ℕ) (hfuel : names.length ≤ fuel) :
    (∃ k, Nearest (IsDevice sys) names k ∧
      getParentDevice sys fuel (pathOf names) = some (.ok (pathOf (names.take k)))) ∨
    (NoAncestor (IsDevice sys) names ∧
      getParentDevice sys fuel (pathOf names) = some (.error .enoent)) := by
  induction names using List.reverseRecOn generalizing fuel with
  | nil => exact absurd rfl hne
  | append_singleton names c ih =>
    rw [List.length_append, List.length_singleton] at hfuel
    obtain ⟨fuel, rfl⟩ : ∃ n, fuel = n + 1 := ⟨fuel - 1, by omega⟩
    by_cases hnil : names = []
    · subst names
      refine Or.inr ⟨?_, getParentDevice_single sys fuel c hnames.last.2⟩
      intro k hpos hk
      simp only [List.nil_append, List.length_singleton] at hk
      omega
    · rw [getParentDevice_round sys fuel names c hnames.last.2 hnames.init hnil]
      by_cases hdev : sys.stat (pathOf names ++ "/uevent".toList) = true
      · rw [if_pos hdev]
        refine Or.inl ⟨names.length, nearest_parent c hnil hdev, ?_⟩
        rw [List.take_left]
      · rw [if_neg hdev]
        rcases ih hnames.init hnil fuel (by omega) with ⟨k, hk, heq⟩ | ⟨hnone, heq⟩
        · refine Or.inl ⟨k, hk.snoc c hdev, ?_⟩
          rw [heq, List.take_append_of_le_length hk.proper.le]
        · exact Or.inr ⟨hnone.snoc c hdev, heq⟩

end ParentDevice

section Key

variable (key : CStr)

def lineValue (line : CStr) : Option CStr :=
  if key ++ ['='] <+: line then some (line.drop (key.length + 1)) else none

theorem lineValue_nil : lineValue key [] = none := by
  rw [lineValue, if_neg]
  intro h
  simpa using List.prefix_nil.mp h

/-- A line is cut at its first equals sign. -/
theorem lineValue_eq (hkey : '=' ∉ key) (line : CStr) :
    lineValue key line =
      match keyvalueNext line with
      | none => none
      | some (k, value) => if k = key then some value else none := by
  by_cases heq : '=' ∈ line
  · obtain ⟨k, value, rfl, hk⟩ := List.eq_append_cons_of_mem heq
    rw [keyvalueNext_pair k value hk, lineValue]
    dsimp only
    by_cases hsame : k = key
    · subst k
      have hdrop : (key ++ '=' :: value).drop (key.length + 1) = value := by
        rw [← List.singleton_append, ← List.append_assoc,
          show key.length + 1 = (key ++ ['=']).length by simp, List.drop_left]
      rw [if_pos ⟨value, by simp⟩, if_pos rfl, hdrop]
    · rw [if_neg hsame, if_neg]
      rintro ⟨t, ht⟩
      rw [List.append_assoc, List.singleton_append] at ht
      have hcut := congrArg keyvalueNext ht
      rw [keyvalueNext_pair key t hkey, keyvalueNext_pair k value hk] at hcut
      exact hsame (Prod.mk.inj (Option.some.inj hcut)).1.symm
  · have hnone : keyvalueNext line = none := if_neg heq
    rw [hnone, lineValue, if_neg]
    intro h
    exact heq (h.subset (by simp))

def linesValue (s : CStr) : Option CStr := (s.splitOn '\n').findSome? (lineValue key)

theorem linesValue_newline (s : CStr) : linesValue key ('\n' :: s) = linesValue key s := by
  have hsplit : ('\n' :: s).splitOn '\n' = [] :: s.splitOn '\n' :=
    List.splitOn_append_cons_self_of_not_mem List.not_mem_nil s
  rw [linesValue, hsplit, List.findSome?_cons, lineValue_nil, linesValue]

theorem linesValue_dropWhile (s : CStr) :
    linesValue key (s.dropWhile (· ∈ ['\n'])) = linesValue key s := by
  induction s with
  | nil => rfl
  | cons c s ih =>
    by_cases hc : c = '\n'
    · subst c
      rw [List.dropWhile_cons_of_pos (by simp), ih, linesValue_newline]
    · rw [List.dropWhile_cons_of_neg (by simpa using hc)]

/-- The first line and the lines after it. -/
theorem linesValue_takeWhile (s : CStr) :
    linesValue key s = (lineValue key (s.takeWhile (· ∉ ['\n']))).or
      (linesValue key (s.dropWhile (· ∉ ['\n'])).tail) := by
  have hline : '\n' ∉ s.takeWhile (· ∉ ['\n']) := by
    intro hmem
    have hnot := List.mem_takeWhile_imp hmem
    simp at hnot
  have hnil : linesValue key [] = none := by
    rw [linesValue, List.splitOn_nil, List.findSome?_cons, lineValue_nil]
    rfl
  have hsplit := List.takeWhile_append_dropWhile (p := (· ∉ ['\n'])) (l := s)
  cases hrest : s.dropWhile (· ∉ ['\n']) with
  | nil =>
    rw [hrest, List.append_nil] at hsplit
    rw [List.tail_nil, hnil, Option.or_none, hsplit]
    rw [hsplit] at hline
    rw [linesValue, List.splitOn_eq_singleton hline, List.findSome?_singleton]
  | cons c rest =>
    have hc : c = '\n' := by
      have hhead := List.head?_dropWhile_not (· ∉ ['\n']) s
      rw [hrest] at hhead
      simpa using hhead
    subst c
    rw [hrest] at hsplit
    rw [List.tail_cons]
    conv_lhs => rw [← hsplit]
    rw [linesValue, List.splitOn_append_cons_self_of_not_mem hline rest, List.findSome?_cons]
    cases lineValue key (s.takeWhile (· ∉ ['\n'])) <;> rfl

theorem linesValue_nil : linesValue key [] = none := by
  rw [linesValue, List.splitOn_nil, List.findSome?_cons, lineValue_nil]
  rfl

/-- The loop over the tokens looks at every line. -/
theorem getKeyLoop_eq (hkey : '=' ∉ key) (fuel : ℕ) (s : CStr) (hfuel : s.length < fuel) :
    getKeyLoop key fuel s = linesValue key s := by
  induction fuel generalizing s with
  | zero => exact absurd hfuel (Nat.not_lt_zero _)
  | succ fuel ih =>
    rw [getKeyLoop, strtok, ← linesValue_dropWhile]
    have ht := List.length_dropWhile_le (· ∈ ['\n']) s
    generalize s.dropWhile (· ∈ ['\n']) = t at ht ⊢
    by_cases hnil : t = []
    · rw [if_pos hnil, hnil, linesValue_nil]
    have hpos := List.length_pos_of_ne_nil hnil
    have hdrop := List.length_dropWhile_le (· ∉ ['\n']) t
    have hrest := ih (t.dropWhile (· ∉ ['\n'])).tail (by rw [List.length_tail]; omega)
    rw [if_neg hnil, linesValue_takeWhile, lineValue_eq key hkey]
    dsimp only
    rw [hrest]
    cases keyvalueNext (t.takeWhile (· ∉ ['\n'])) with
    | none => rfl
    | some pair =>
      obtain ⟨k, value⟩ := pair
      dsimp only
      split_ifs <;> rfl

theorem ueventGetKey_eq (hkey : '=' ∉ key) (uevent : CStr) :
    ueventGetKey uevent key = valueIn key uevent := by
  have hlen : (untilNul uevent).length < uevent.length + 1 :=
    Nat.lt_succ_of_le (List.takeWhile_prefix _).length_le
  rw [ueventGetKey, getKeyLoop_eq key hkey _ _ hlen]
  rfl

end Key

section Search

variable (sys : Sysfs) (subsystem : CStr) (devtype : Option CStr)

/-- What follows the last slash of a link. -/
theorem exists_delim {link : CStr} (h : '/' ∈ link) :
    ∃ dir name, link = dir ++ '/' :: name ∧ '/' ∉ name ∧ rindexSlash link = some ('/' :: name) := by
  obtain ⟨dir, name, rfl, hname⟩ := exists_last_slash link h
  exact ⟨dir, name, rfl, hname, rindexSlash_append dir name hname⟩

theorem last_name_unique {dir dir' name name' : CStr} (h : '/' ∉ name) (h' : '/' ∉ name')
    (heq : dir ++ '/' :: name = dir' ++ '/' :: name') : name = name' := by
  have hindex := congrArg rindexSlash heq
  rw [rindexSlash_append dir name h, rindexSlash_append dir' name' h'] at hindex
  exact (List.cons.inj (Option.some.inj hindex)).2

theorem lookDevtype_spec (parent uevent : CStr)
    (hread : sys.readFile (parent ++ "/uevent".toList) = .ok uevent) :
    lookDevtype sys devtype parent =
      if ∀ type, devtype = some type → valueIn "DEVTYPE".toList uevent = some type then
        .done (.device parent)
      else .nextParent := by
  cases devtype with
  | none =>
    rw [lookDevtype, if_pos]
    intro type htype
    cases htype
  | some type =>
    rw [lookDevtype, hread]
    dsimp only
    rw [ueventGetKey_eq _ (by decide)]
    simp only [Option.some.injEq, forall_eq']

/-- A device with a subsystem link is taken exactly when it matches. -/
theorem lookAt_spec (parent link uevent : CStr) (hdev : IsDevice sys parent)
    (hlink : sys.readlink (parent ++ "/subsystem".toList) = .ok link) (hslash : '/' ∈ link)
    (hlen : link.length ≤ 4096)
    (hread : sys.readFile (parent ++ "/uevent".toList) = .ok uevent) :
    (Matches sys subsystem devtype parent ∧
      lookAt sys subsystem devtype parent = .done (.device parent)) ∨
    (¬Matches sys subsystem devtype parent ∧ lookAt sys subsystem devtype parent = .nextParent) := by
  obtain ⟨dir, name, rfl, hname, hdelim⟩ := exists_delim hslash
  have htypes : (∀ type, devtype = some type → ∃ uevent',
      sys.readFile (parent ++ "/uevent".toList) = .ok uevent' ∧
        valueIn "DEVTYPE".toList uevent' = some type) ↔
      ∀ type, devtype = some type → valueIn "DEVTYPE".toList uevent = some type := by
    simp only [hread, Except.ok.injEq, exists_eq_left']
  rw [lookAt, hlink]
  dsimp only
  rw [List.take_of_length_le hlen, hdelim]
  dsimp only
  rw [lookDevtype_spec sys devtype parent uevent hread, Matches, htypes, hlink]
  by_cases hsub : name = subsystem
  · subst name
    rw [List.drop_one, List.tail_cons, if_neg (not_not_intro rfl)]
    split_ifs with htype
    · exact Or.inl ⟨⟨hdev, ⟨dir, rfl, hname⟩, htype⟩, rfl⟩
    · exact Or.inr ⟨fun h => htype h.2.2, rfl⟩
  · rw [List.drop_one, List.tail_cons, if_pos hsub]
    refine Or.inr ⟨?_, rfl⟩
    rintro ⟨-, ⟨dir', heq, hsubsystem⟩, -⟩
    exact hsub (last_name_unique hname hsubsystem (Except.ok.inj heq))

/-- A property of devices has its nearest ancestor no nearer than the parent device. -/
theorem Nearest.of_parent {P Q : CStr → Prop} {names : List CStr} {k m : ℕ}
    (hQ : ∀ path, P path → Q path) (hk : Nearest Q names k)
    (hnot : ¬P (pathOf (names.take k))) (hm : Nearest P (names.take k) m) :
    Nearest P names m where
  pos := hm.pos
  proper := hm.proper.trans_le (List.length_take_le' _ _)
  holds := by
    have hlt := hm.proper
    rw [List.length_take] at hlt
    have hholds := hm.holds
    rwa [List.take_take, min_eq_left (by omega)] at hholds
  nearest := by
    intro j hmj hj hP
    have hlen : (names.take k).length = k := List.length_take_of_le hk.proper.le
    rcases Nat.lt_trichotomy j k with hlt | rfl | hgt
    · refine hm.nearest j hmj (by omega) ?_
      rwa [List.take_take, min_eq_left hlt.le]
    · exact hnot hP
    · exact hk.nearest j hgt hj (hQ _ hP)

theorem NoAncestor.of_parent {P Q : CStr → Prop} {names : List CStr} {k : ℕ}
    (hQ : ∀ path, P path → Q path) (hk : Nearest Q names k)
    (hnot : ¬P (pathOf (names.take k))) (hnone : NoAncestor P (names.take k)) :
    NoAncestor P names := by
  intro j hpos hj hP
  have hlen : (names.take k).length = k := List.length_take_of_le hk.proper.le
  rcases Nat.lt_trichotomy j k with hlt | rfl | hgt
  · refine hnone j hpos (by omega) ?_
    rwa [List.take_take, min_eq_left hlt.le]
  · exact hnot hP
  · exact hk.nearest j hgt hj (hQ _ hP)

theorem Populated.take {sys : Sysfs} {names : List CStr} (h : Populated sys names) (k : ℕ) :
    Populated sys (names.take k) := by
  intro j hpos hj hdev
  rw [List.length_take] at hj
  rw [List.take_take, min_eq_left (by omega)] at hdev ⊢
  exact h j hpos (by omega) hdev

/-- The search ends after as many rounds as there are names. -/
theorem getParentWith_spec (rounds fuel : ℕ) (names : List CStr) (hnames : Names names)
    (hne : names ≠ []) (hpop : Populated sys names) (hrounds : names.length ≤ rounds)
    (hfuel : names.length ≤ fuel) :
    (∃ k, Nearest (Matches sys subsystem devtype) names k ∧
      getParentWith sys subsystem devtype rounds fuel (pathOf names) =
        some (.device (pathOf (names.take k)))) ∨
    (NoAncestor (Matches sys subsystem devtype) names ∧
      getParentWith sys subsystem devtype rounds fuel (pathOf names) = some (.error .enoent)) := by
  have hdevice : ∀ path, Matches sys subsystem devtype path → IsDevice sys path := fun _ h => h.1
  induction fuel generalizing names with
  | zero =>
    have hpos := List.length_pos_of_ne_nil hne
    omega
  | succ fuel ih =>
    rw [getParentWith]
    rcases getParentDevice_spec sys names hnames hne rounds hrounds with ⟨k, hk, heq⟩ | ⟨hnone, heq⟩
    · obtain ⟨⟨link, hlink, hslash, hlen⟩, uevent, hread⟩ := hpop k hk.pos hk.proper hk.holds
      have hlook := lookAt_spec sys subsystem devtype (pathOf (names.take k)) link uevent hk.holds
        hlink hslash hlen hread
      rw [heq]
      dsimp only
      rcases hlook with ⟨hmatch, hlook⟩ | ⟨hnot, hlook⟩
      · rw [hlook]
        refine Or.inl ⟨k, ⟨hk.pos, hk.proper, hmatch, fun j hkj hj hP => ?_⟩, rfl⟩
        exact hk.nearest j hkj hj (hdevice _ hP)
      · rw [hlook]
        dsimp only
        have htake : (names.take k).length = k := List.length_take_of_le hk.proper.le
        have hlt := hk.proper
        have hkpos := hk.pos
        have hne' : names.take k ≠ [] := by
          intro hnil
          rw [hnil] at htake
          rw [← htake] at hkpos
          exact absurd hkpos (Nat.lt_irrefl 0)
        rcases ih (names.take k) (hnames.take k) hne' (hpop.take k) (by omega) (by omega) with
          ⟨m, hm, hrest⟩ | ⟨hnone, hrest⟩
        · refine Or.inl ⟨m, Nearest.of_parent hdevice hk hnot hm, ?_⟩
          have hmk := hm.proper
          rw [hrest, List.take_take, min_eq_left (by omega)]
        · exact Or.inr ⟨NoAncestor.of_parent hdevice hk hnot hnone, hrest⟩
    · rw [heq]
      exact Or.inr ⟨fun j hpos hj hP => hnone j hpos hj (hdevice _ hP), rfl⟩

end Search

/-- The path of the nearest ancestor with a property was found, or there is none. -/
def FindsNearest {ρ : Type} (P : CStr → Prop) (names : List CStr) (found : CStr → ρ) (none : ρ)
    (result : Option ρ) : Prop :=
  (∃ k, Nearest P names k ∧ result = some (found (pathOf (names.take k)))) ∨
    (NoAncestor P names ∧ result = some none)

/-- Both searches end, however many rounds beyond the names of the path they may take, and find the
nearest ancestor. -/
theorem ancestor_search (sys : Sysfs) (names : List CStr) (hnames : Names names) (hne : names ≠ [])
    (hpop : Populated sys names) (subsystem : CStr) (devtype : Option CStr) (rounds fuel : ℕ)
    (hrounds : names.length ≤ rounds) (hfuel : names.length ≤ fuel) :
    FindsNearest (IsDevice sys) names .ok (.error .enoent)
      (getParentDevice sys rounds (pathOf names)) ∧
    FindsNearest (Matches sys subsystem devtype) names .device (.error .enoent)
      (getParentWith sys subsystem devtype rounds fuel (pathOf names)) :=
  ⟨getParentDevice_spec sys names hnames hne rounds hrounds,
    getParentWith_spec sys subsystem devtype rounds fuel names hnames hne hpop hrounds hfuel⟩

/-- A disk behind an interface and a device of the usb subsystem, and a directory that is no
device in between. -/
def usbTree : Sysfs where
  stat := fun path => path ∈ ["/pci/dev/if/host".toList ++ "/uevent".toList,
    "/pci/dev".toList ++ "/uevent".toList]
  readlink := fun _ => .ok "../bus/usb".toList
  readFile := fun path =>
    .ok (if path = "/pci/dev/uevent".toList then "BUSNUM=1\nDEVTYPE=usb_device\n".toList
      else "DEVTYPE=usb_host\n".toList)

def diskNames : List CStr := ["pci", "dev", "if", "host", "disk"].map String.toList

theorem diskNames_names : Names diskNames := by
  unfold Names
  decide

theorem usbTree_populated : Populated usbTree diskNames :=
  fun _ _ _ _ => ⟨⟨_, rfl, by decide, by decide⟩, _, rfl⟩

/-- The nearest device is not the one with the type that is asked for. -/
theorem ancestor_search_usb :
    FindsNearest (IsDevice usbTree) diskNames .ok (.error .enoent)
      (getParentDevice usbTree 5 (pathOf diskNames)) ∧
    FindsNearest (Matches usbTree "usb".toList (some "usb_device".toList)) diskNames .device
      (.error .enoent)
      (getParentWith usbTree "usb".toList (some "usb_device".toList) 5 5 (pathOf diskNames)) :=
  ancestor_search usbTree diskNames diskNames_names (by decide) usbTree_populated "usb".toList
    (some "usb_device".toList) 5 5 (by decide) (by decide)

example : getParentWith usbTree "usb".toList (some "usb_device".toList) 5 5 (pathOf diskNames) =
    some (.device "/pci/dev".toList) := by decide +kernel

end Vdev.SysfsParents
