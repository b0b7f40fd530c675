import Vdev.Multicast

/-!
Removing the directory of a monitor (libudev-compat/libudev-fs.c). The loop of
`udev_monitor_fs_destroy` tests for the end of the directory only after it has handled the entry in
the buffer, so that the last entry is handled twice: the second time it is missing, and the
directory stays.
-/
namespace Vdev.MonitorDestroy

open CString Multicast

/-- A name in the events directory: a file, or an empty sub-directory. -/
structure Node where
  name : CStr
  isDir : Bool
  deriving DecidableEq

structure EventsDir where
  contents : List Node
  present : Bool
  deriving DecidableEq

def EventsDir.find (d : EventsDir) (name : CStr) : Option Node :=
  d.contents.find? (·.name == name)

def EventsDir.erase (d : EventsDir) (name : CStr) : EventsDir :=
  { d with contents := d.contents.filter (·.name != name) }

/-- `rmdir` of a path in the events directory. -/
def rmdir (d : EventsDir) (name : CStr) : Except Errno EventsDir :=
  match d.find name with
  | none => .error .enoent
  | some node => if node.isDir then .ok (d.erase name) else .error .enotdir

/-- `unlink` of a path in the events directory. -/
def unlink (d : EventsDir) (name : CStr) : Except Errno EventsDir :=
  match d.find name with
  | none => .error .enoent
  | some node => if node.isDir then .error .eisdir else .ok (d.erase name)

/-- `rmdir` of the events directory itself. -/
def rmdirEvents (d : EventsDir) : Int × EventsDir :=
  if !d.present then (Errno.enoent.rc, d)
  else if d.contents ≠ [] then (Errno.enotempty.rc, d)
  else (0, { d with present := false })

def isDots (name : CStr) : Bool := name == ".".toList || name == "..".toList

/-- The body of the loop behind `readdir_r`, with `can_rmdir`. A buffer that was never filled holds
no name. -/
def handle (entry : Option Entry) (canRmdir : Bool) (d : EventsDir) : Bool × EventsDir :=
  match entry with
  | none => (canRmdir, d)
  | some e =>
    if isDots e.name then (canRmdir, d)
    else
      match (if e.isDir then rmdir d e.name else unlink d e.name) with
      | .ok d' => (canRmdir, d')
      | .error _ => (false, d)

/-- The loop over `readdir_r`: at the end of the directory the buffer still holds the last entry,
and is handled once more. -/
def destroyLoop : List (Except Errno Entry) → Option Entry → Bool → EventsDir → Bool × EventsDir
  | [], entry, canRmdir, d => handle entry canRmdir d
  | .error _ :: _, _, canRmdir, d => (canRmdir, d)
  | .ok e :: rest, _, canRmdir, d =>
    let (canRmdir, d) := handle (some e) canRmdir d
    destroyLoop rest (some e) canRmdir d

/-- `udev_monitor_fs_destroy` behind the shutdown of the monitor, with the outcomes of `open` and
`fdopendir` and what `readdir_r` returns before the end of the directory. -/
def fsDestroy (opened dirh : Except Errno Unit) (reads : List (Except Errno Entry)) (d : EventsDir) :
    Int × EventsDir :=
  match opened, dirh with
  | .error e, _ => (e.rc, d)
  | .ok _, .error e => (e.rc, d)
  | .ok _, .ok _ =>
    let (canRmdir, d) := destroyLoop reads none true d
    if canRmdir then rmdirEvents d else (Errno.enotempty.rc, d)

/-- The names of the entries, without `.` and `..`. -/
def realNames (es : List Entry) : List CStr := (es.map Entry.name).filter (!isDots ·)

/-- What `readdir_r` returns for a directory: `.`, `..` and every name, each once, in any order. -/
structure Lists (es : List Entry) (d : EventsDir) : Prop where
  nodup : (es.map Entry.name).Nodup
  dots : ".".toList ∈ es.map Entry.name ∧ "..".toList ∈ es.map Entry.name
  names : (realNames es).Perm (d.contents.map Node.name)

/-- A name is reported as a directory exactly when it is one: a file system that knows no types
reports none. -/
def TypesKnown (es : List Entry) (d : EventsDir) : Prop :=
  ∀ e ∈ es, ∀ node ∈ d.contents, node.name = e.name → node.isDir = e.isDir

/-- The last name that `readdir_r` returns is `.` or `..`. -/
def EndsInDots (es : List Entry) : Prop := ∃ e, es.getLast? = some e ∧ isDots e.name = true

/-- Every entry is removed and the directory too, and the caller is told so. -/
def Destroyed (result : Int × EventsDir) : Prop := result = (0, ⟨[], false⟩)

instance (es : List Entry) : Decidable (EndsInDots es) :=
  decidable_of_iff (es.getLast?.any (isDots ·.name)) (by simp [EndsInDots, Option.any_eq_true])

/-- In the loop, the names in the directory are those that `readdir_r` has not yet returned. -/
structure Left (es : List Entry) (d : EventsDir) : Prop where
  nodup : (es.map Entry.name).Nodup
  names : (realNames es).Perm (d.contents.map Node.name)

theorem realNames_cons (e : Entry) (es : List Entry) :
    realNames (e :: es) = if isDots e.name then realNames es else e.name :: realNames es := by
  rw [realNames, List.map_cons, List.filter_cons]
  cases isDots e.name <;> rfl

theorem mem_realNames (es : List Entry) (name : CStr) :
    name ∈ realNames es ↔ name ∈ es.map Entry.name ∧ isDots name = false := by
  rw [realNames, List.mem_filter, Bool.not_eq_true']

section Handle

variable {e : Entry} {d : EventsDir} (canRmdir : Bool)

theorem find_eq_none (h : e.name ∉ d.contents.map Node.name) : d.find e.name = none := by
  rw [EventsDir.find, List.find?_eq_none]
  intro node hnode hname
  exact h (beq_iff_eq.mp hname ▸ List.mem_map_of_mem hnode)

theorem find_eq_some (h : e.name ∈ d.contents.map Node.name) :
    ∃ node ∈ d.contents, node.name = e.name ∧ d.find e.name = some node := by
  have hsome : (d.find e.name).isSome := by
    obtain ⟨node, hnode, hname⟩ := List.mem_map.mp h
    exact List.find?_isSome.mpr ⟨node, hnode, beq_iff_eq.mpr hname⟩
  obtain ⟨node, hnode⟩ := Option.isSome_iff_exists.mp hsome
  have hfind := hnode
  rw [EventsDir.find] at hfind
  have hname := List.find?_some hfind
  exact ⟨node, List.mem_of_find?_eq_some hfind, beq_iff_eq.mp hname, hnode⟩

theorem handle_dots (h : isDots e.name = true) : handle (some e) canRmdir d = (canRmdir, d) := by
  rw [handle, if_pos h]

theorem handle_missing (h : isDots e.name = false) (hfind : d.find e.name = none) :
    handle (some e) canRmdir d = (false, d) := by
  have hremove : (if e.isDir then rmdir d e.name else unlink d e.name) = .error .enoent := by
    simp [rmdir, unlink, hfind]
  rw [handle, if_neg (by rw [h]; decide), hremove]

theorem handle_found {node : Node} (h : isDots e.name = false) (hfind : d.find e.name = some node) :
    handle (some e) canRmdir d =
      if node.isDir = e.isDir then (canRmdir, d.erase e.name) else (false, d) := by
  rw [handle, if_neg (by rw [h]; decide)]
  cases hdir : e.isDir <;> cases hnode : node.isDir <;> simp [rmdir, unlink, hfind, hnode]

end Handle

/-- Once an entry could not be removed, the directory is not removed either. -/
theorem destroyLoop_false (reads : List (Except Errno Entry)) (entry : Option Entry)
    (d : EventsDir) : (destroyLoop reads entry false d).1 = false := by
  have hhandle : ∀ entry d, (handle entry false d).1 = false := by
    intro entry d
    unfold handle
    split
    · rfl
    · split_ifs
      · rfl
      · split <;> rfl
      · split <;> rfl
  induction reads generalizing entry d with
  | nil => exact hhandle entry d
  | cons read rest ih =>
    cases read with
    | error _ => rfl
    | ok e =>
      rw [destroyLoop]
      dsimp only
      rw [hhandle]
      exact ih _ _

/-- What is left when an entry with the right type has been removed. -/
theorem Left.erase {e : Entry} {es : List Entry} {d : EventsDir} (h : Left (e :: es) d)
    (hdots : isDots e.name = false) : Left es (d.erase e.name) where
  nodup := h.nodup.of_cons
  names := by
    have hfresh : e.name ∉ realNames es := fun hmem =>
      (List.nodup_cons.mp h.nodup).1 ((mem_realNames es e.name).mp hmem).1
    have hnames := h.names.filter (· != e.name)
    rw [realNames_cons, if_neg (by rw [hdots]; decide), List.filter_cons_of_neg (by simp),
      List.filter_eq_self.mpr (by
        intro name hname
        exact bne_iff_ne.mpr (ne_of_mem_of_not_mem hname hfresh)), List.filter_map] at hnames
    exact hnames

theorem Left.of_dots {e : Entry} {es : List Entry} {d : EventsDir} (h : Left (e :: es) d)
    (hdots : isDots e.name = true) : Left es d where
  nodup := h.nodup.of_cons
  names := by
    have hnames := h.names
    rw [realNames_cons, if_pos hdots] at hnames
    exact hnames

theorem Left.not_dots {es : List Entry} {d : EventsDir} (h : Left es d) {node : Node}
    (hnode : node ∈ d.contents) : isDots node.name = false :=
  ((mem_realNames es node.name).mp (h.names.mem_iff.mpr (List.mem_map_of_mem hnode))).2

theorem Left.nodup_contents {es : List Entry} {d : EventsDir} (h : Left es d) :
    (d.contents.map Node.name).Nodup :=
  h.names.nodup_iff.mp (h.nodup.filter _)

theorem typesKnown_dots {e : Entry} {es : List Entry} {d : EventsDir} (h : Left (e :: es) d)
    (hdots : isDots e.name = true) : TypesKnown (e :: es) d ↔ TypesKnown es d := by
  rw [TypesKnown, List.forall_mem_cons, and_iff_right]
  · rfl
  intro node hnode hname
  rw [← hname, h.not_dots hnode] at hdots
  exact absurd hdots Bool.false_ne_true

theorem typesKnown_erase {e : Entry} {es : List Entry} {d : EventsDir} (h : Left (e :: es) d)
    {node : Node} (hnode : node ∈ d.contents) (hname : node.name = e.name)
    (htype : node.isDir = e.isDir) : TypesKnown (e :: es) d ↔ TypesKnown es (d.erase e.name) := by
  constructor
  · intro hknown e' he' node' hnode'
    exact hknown e' (List.mem_cons_of_mem _ he') node' (List.mem_of_mem_filter hnode')
  · intro hknown e' he' node' hnode' hname'
    rcases List.mem_cons.mp he' with rfl | he'
    · have hsame : node' = node :=
        List.inj_on_of_nodup_map h.nodup_contents hnode' hnode (hname'.trans hname.symm)
      rw [hsame, htype]
    · refine hknown e' he' node' (List.mem_filter.mpr ⟨hnode', bne_iff_ne.mpr ?_⟩) hname'
      rw [hname']
      intro heq
      exact (List.nodup_cons.mp h.nodup).1 (heq ▸ List.mem_map_of_mem he')

/-- The loop can remove the directory exactly when all types are known and the entry that is left
in the buffer is `.` or `..`. -/
theorem destroyLoop_spec (es : List Entry) (entry : Option Entry) (d : EventsDir)
    (h : Left es d) :
    ((destroyLoop (es.map .ok) entry true d).1 = true ↔
      TypesKnown es d ∧ ∀ e, es.getLast?.or entry = some e → isDots e.name = true) ∧
    ((destroyLoop (es.map .ok) entry true d).1 = true →
      (destroyLoop (es.map .ok) entry true d).2 = { d with contents := [] }) := by
  induction es generalizing entry d with
  | nil =>
    have hnil : d.contents = [] := List.map_eq_nil_iff.mp (List.nil_perm.mp h.names)
    have hknown : TypesKnown [] d := fun _ he => absurd he List.not_mem_nil
    have hd : d = { d with contents := [] } := by rw [← hnil]
    cases entry with
    | none => exact ⟨iff_of_true rfl ⟨hknown, fun _ he => by cases he⟩, fun _ => hd⟩
    | some e =>
      simp only [List.map_nil, destroyLoop, List.getLast?_nil, Option.none_or, Option.some.injEq,
        forall_eq', hknown, true_and]
      cases hdots : isDots e.name with
      | true => exact ⟨iff_of_true (by rw [handle_dots _ hdots]) rfl,
          fun _ => by rw [handle_dots _ hdots]; exact hd⟩
      | false =>
        have hmissing : d.find e.name = none := find_eq_none (by rw [hnil]; exact List.not_mem_nil)
        rw [handle_missing _ hdots hmissing]
        exact ⟨Iff.rfl, fun hfalse => absurd hfalse Bool.false_ne_true⟩
  | cons e rest ih =>
    rw [List.map_cons, destroyLoop, getLast?_cons_or]
    dsimp only
    cases hdots : isDots e.name with
    | true =>
      rw [handle_dots _ hdots, typesKnown_dots h hdots]
      exact ih (some e) d (h.of_dots hdots)
    | false =>
      have hmem : e.name ∈ d.contents.map Node.name :=
        h.names.mem_iff.mp ((mem_realNames _ _).mpr ⟨List.mem_cons_self, hdots⟩)
      obtain ⟨node, hnode, hname, hfind⟩ := find_eq_some hmem
      rw [handle_found _ hdots hfind]
      by_cases htype : node.isDir = e.isDir
      · rw [if_pos htype, typesKnown_erase h hnode hname htype]
        exact ih (some e) (d.erase e.name) (h.erase hdots)
      -- an entry that is not removed stays, and so does the directory
      · rw [if_neg htype]
        have hfalse := destroyLoop_false (rest.map .ok) (some e) d
        refine ⟨iff_of_false (by rw [hfalse]; decide) ?_, fun htrue => ?_⟩
        · rintro ⟨hknown, -⟩
          exact htype (hknown e List.mem_cons_self node hnode hname)
        · rw [hfalse] at htrue
          exact absurd htrue Bool.false_ne_true

/-- The directory of a monitor is removed exactly when every type is known and the last name that
is read is `.` or `..`. -/
theorem fsDestroy_destroyed_iff (es : List Entry) (d : EventsDir) (h : Lists es d)
    (hpresent : d.present = true) :
    Destroyed (fsDestroy (.ok ()) (.ok ()) (es.map .ok) d) ↔ TypesKnown es d ∧ EndsInDots es := by
  obtain ⟨hiff, hleft⟩ := destroyLoop_spec es none d ⟨h.nodup, h.names⟩
  have hends : (∀ e, es.getLast?.or none = some e → isDots e.name = true) ↔ EndsInDots es := by
    have hne : es ≠ [] := List.map_eq_nil_iff.not.mp (List.ne_nil_of_mem h.dots.1)
    rw [Option.or_none, List.getLast?_eq_some_getLast hne, EndsInDots,
      List.getLast?_eq_some_getLast hne]
    simp
  rw [hends] at hiff
  rw [← hiff, fsDestroy]
  dsimp only
  cases hloop : (destroyLoop (es.map .ok) none true d).1 with
  | true =>
    rw [if_pos rfl, hleft hloop, rmdirEvents, if_neg (by rw [hpresent]; decide), if_neg (by simp)]
    exact iff_of_true rfl rfl
  | false =>
    rw [if_neg Bool.false_ne_true]
    refine iff_of_false (fun heq => ?_) Bool.false_ne_true
    exact Errno.enotempty.rc_ne_zero (Prod.mk.inj heq).1

/-- One event file, which is returned before or behind the names `.` and `..`. -/
def oneEvent : EventsDir := ⟨[⟨"17".toList, false⟩], true⟩

def dotsLast : List Entry := [⟨"17".toList, false⟩, ⟨".".toList, true⟩, ⟨"..".toList, true⟩]

def eventLast : List Entry := [⟨".".toList, true⟩, ⟨"..".toList, true⟩, ⟨"17".toList, false⟩]

theorem fsDestroy_destroyed_iff_dots :
    Destroyed (fsDestroy (.ok ()) (.ok ()) (dotsLast.map .ok) oneEvent) :=
  (fsDestroy_destroyed_iff dotsLast oneEvent ⟨by decide, by decide, by decide⟩ rfl).mpr
    ⟨by unfold TypesKnown; decide, by decide⟩

/-- The file is gone, and the directory stays. -/
theorem fsDestroy_leaks : ¬∀ (es : List Entry) (d : EventsDir), Lists es d → TypesKnown es d →
    d.present = true → Destroyed (fsDestroy (.ok ()) (.ok ()) (es.map .ok) d) := by
  intro h
  have hdestroyed := h eventLast oneEvent ⟨by decide, by decide, by decide⟩
    (by unfold TypesKnown; decide) rfl
  have hresult : fsDestroy (.ok ()) (.ok ()) (eventLast.map .ok) oneEvent =
      (Errno.enotempty.rc, ⟨[], true⟩) := by decide
  rw [Destroyed, hresult] at hdestroyed
  exact absurd hdestroyed (by decide)

end Vdev.MonitorDestroy
