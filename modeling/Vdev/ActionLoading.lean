import Vdev.ActionFields

/-!
Loading a directory of actions as a whole (vdevd/action.c, libvdev/util.c). The loaders stop at
the first file that is refused. What the documentation promises for a directory holds exactly
when that file, if there is one, has only entries that the parser accepts, and fails the sanity
check: the parser reports a file that it refuses by a line number, which is positive, and a
helper cannot be found without a directory of helpers.
-/
namespace Vdev.ActionLoading

open CString Data FileTree SystemCalls Paths Directories Ini ActionFile ActionFields

structure RegularFile where
  name : Name
  content : CStr

def IsRegular (T : FS) (dir : CStr) (file : RegularFile) : Prop :=
  ∃ l mode, resolve T dir = .ok l ∧ T.get (file.name :: l) = some (.leaf (.file mode file.content))

/-- `*ret_acts` and `*ret_num_acts`. -/
structure Output where
  acts : Option (List FileAction)
  num : ℕ

/-- `vdev_action_load_all` with its return code and what it returns through pointers. -/
def actionLoadAllInto (regcomp : CStr → Int) (actsDir helpersDir : Option CStr) (T : FS)
    (ret : Output) : Option (Int × Output) :=
  match actsDir with
  | none => some (Errno.einval.rc, ret)
  | some dir =>
    let (rc, l) := loadAll (fun _ => T) (actionLoader regcomp helpersDir T) dir {}
    if l.died then none
    else if rc ≠ 0 then some (rc, ret)
    else if l.acts.length = 0 then some (0, ⟨none, 0⟩)
    else some (0, ⟨some l.acts, l.acts.length⟩)

structure Parses (regcomp : CStr → Int) (file : RegularFile) (es : List Entry) : Prop where
  entries_eq : entries file.content = some es
  wellFormed : WellFormed regcomp es

structure Sane (es : List Entry) : Prop where
  runs : lastValue .command es ≠ none ∨ lastValue .renameCommand es ≠ none ∨
    lastValue .helper es ≠ none
  single : lastValue .command es = none ∨ lastValue .helper es = none
  event : lastValue .event es ≠ none

def Accepted (regcomp : CStr → Int) (helpersDir : Option CStr) (file : RegularFile) : Prop :=
  ∃ es, Parses regcomp file es ∧ Sane es ∧ (lastValue .helper es ≠ none → helpersDir ≠ none)

def Insane (regcomp : CStr → Int) (file : RegularFile) : Prop :=
  ∃ es, Parses regcomp file es ∧ ¬Sane es

/-- The first file in the order of names that makes no action. -/
structure FirstRefused (regcomp : CStr → Int) (helpersDir : Option CStr) (T : FS) (dir : CStr)
    (file : RegularFile) : Prop where
  regular : IsRegular T dir file
  refused : ¬Accepted regcomp helpersDir file
  first : ∀ earlier, IsRegular T dir earlier → earlier.name.val < file.name.val →
    Accepted regcomp helpersDir earlier

def FromHelper (helpersDir : Option CStr) (es : List Entry) (command : Option CStr) : Prop :=
  lastValue .command es = none ∧
    ∃ dir helper, helpersDir = some dir ∧ lastValue .helper es = some helper ∧
      command = some (dir ++ '/' :: helper)

/-- An action that was loaded from a file with these entries. -/
structure Sound (regcomp : CStr → Int) (helpersDir : Option CStr) (es : List Entry)
    (act : FileAction) : Prop where
  trigger : act.trigger ≠ .invalid
  runs : act.command ≠ none ∨ act.renameCommand ≠ none
  useShell : act.useShell = false ↔ FromHelper helpersDir es act.command
  path : act.path = lastValue .path es
  compiles : ∀ regex, act.path = some regex → regcomp regex = 0

def LoadedFrom (regcomp : CStr → Int) (helpersDir : Option CStr) (dir : CStr) (file : RegularFile)
    (act : FileAction) : Prop :=
  act.name = fullpath dir file.name.val ∧
    ∃ es, entries file.content = some es ∧ Sound regcomp helpersDir es act

/-- What `vdev_action_load_all` should do with a directory. -/
inductive AllOrNothing (regcomp : CStr → Int) (helpersDir : Option CStr) (T : FS) (dir : CStr)
    (ret : Output) : Option (Int × Output) → Prop
  | all (files : List RegularFile) (acts : List FileAction)
      (hfiles : ∀ file, file ∈ files ↔ IsRegular T dir file)
      (hsorted : files.Pairwise (fun a b => a.name.val < b.name.val))
      (hacts : List.Forall₂ (LoadedFrom regcomp helpersDir dir) files acts) :
      AllOrNothing regcomp helpersDir T dir ret
        (some (0, ⟨if acts = [] then none else some acts, acts.length⟩))
  | unreadable (e : Errno) (h : scandir T dir = .error e) :
      AllOrNothing regcomp helpersDir T dir ret (some (e.rc, ret))
  | nothing (file : RegularFile) (hregular : IsRegular T dir file)
      (hrefused : ¬Accepted regcomp helpersDir file) :
      AllOrNothing regcomp helpersDir T dir ret (some (Errno.einval.rc, ret))

variable {regcomp : CStr → Int} {helpersDir : Option CStr} {T : FS} {dir : CStr}

/-- The actions and the return code are those of the loading without the pointers. -/
theorem actionLoadAllInto_eq (actsDir : Option CStr) (ret : Output) :
    actionLoadAllInto regcomp actsDir helpersDir T ret =
      (actionLoadAll regcomp actsDir helpersDir T).map (fun result =>
        match result with
        | .error rc => (rc, ret)
        | .ok acts => (0, ⟨if acts = [] then none else some acts, acts.length⟩)) := by
  cases actsDir with
  | none => rfl
  | some dir =>
    rw [actionLoadAllInto, actionLoadAll]
    dsimp only
    split_ifs with hdied hrc hlen
    · rfl
    · rfl
    · rw [List.length_eq_zero_iff.mp hlen]
      rfl
    · rw [Option.map_some]
      dsimp only
      rw [if_neg (fun h => hlen (List.length_eq_zero_iff.mpr h))]

/-- The check of the source, in terms of the entries. -/
theorem actionSanityCheck_eq {es : List Entry} (hwell : WellFormed regcomp es) :
    (Sane es → actionSanityCheck (es.foldl withEntry actionInit) = 0) ∧
      (¬Sane es → actionSanityCheck (es.foldl withEntry actionInit) = Errno.einval.rc) := by
  obtain ⟨-, hrename, hcommand, hhelper, htrigger⟩ := parsed_fields es
  have hevent : (es.foldl withEntry actionInit).trigger = .invalid ↔
      lastValue .event es = none := by
    rw [htrigger]
    cases hlast : lastValue .event es with
    | none => exact iff_of_true rfl rfl
    | some value => exact iff_of_false (hwell.takes hlast) nofun
  unfold actionSanityCheck
  rw [hrename, hcommand, hhelper]
  constructor
  · rintro ⟨hruns, hsingle, hev⟩
    rw [if_neg, if_neg, if_neg]
    · intro h
      exact hev (hevent.mp h)
    · rintro ⟨hc, hh⟩
      exact hsingle.elim hc hh
    · rintro ⟨hc, hr, hh⟩
      exact hruns.elim (fun h => h hc) (fun h => h.elim (fun h => h hr) (fun h => h hh))
  · intro hnot
    split_ifs with h₁ h₂ h₃
    · rfl
    · rfl
    · rfl
    · have hruns := (not_and_or.mp h₁).imp_right not_and_or.mp
      have hsingle := (not_and_or.mp h₂).imp not_not.mp not_not.mp
      exact absurd ⟨hruns, hsingle, fun h => h₃ (hevent.mpr h)⟩ hnot

/-- A file that the parser refuses is reported by a line number. -/
theorem actionLoadFile_of_not_parses (helpersDir : Option CStr) {file : RegularFile}
    (h : ¬∃ es, Parses regcomp file es) :
    ∃ n : ℕ, n ≠ 0 ∧ actionLoadFile regcomp helpersDir file.content = some (.error n) := by
  unfold actionLoadFile
  cases hparse : iniParseFile (actionIniParser regcomp) file.content actionInit with
  | error n => exact ⟨n, iniParseFile_error_ne_zero hparse, rfl⟩
  | ok act =>
    obtain ⟨es, hes, hwell, -⟩ := (iniParseFile_eq_ok_iff _ _).mp hparse
    exact absurd ⟨es, hes, hwell⟩ h

theorem Parses.iniParseFile_eq {file : RegularFile} {es : List Entry} (h : Parses regcomp file es) :
    iniParseFile (actionIniParser regcomp) file.content actionInit =
      .ok (es.foldl withEntry actionInit) :=
  (iniParseFile_eq_ok_iff _ _).mpr ⟨es, h.entries_eq, h.wellFormed, rfl⟩

theorem actionLoadFile_of_insane {file : RegularFile} (h : Insane regcomp file) :
    actionLoadFile regcomp helpersDir file.content = some (.error Errno.einval.rc) := by
  obtain ⟨es, hes, hsane⟩ := h
  have hcheck := (actionSanityCheck_eq hes.wellFormed).2 hsane
  unfold actionLoadFile
  rw [hes.iniParseFile_eq]
  dsimp only
  rw [hcheck, if_pos Errno.einval.rc_ne_zero]

theorem actionPostprocess_of_no_helper {act : FileAction} (h : act.helper = none) :
    actionPostprocess helpersDir act = some { act with useShell := true } := by
  unfold actionPostprocess
  split
  · rename_i helper _ hhelper
    cases h.symm.trans hhelper
  · rfl

theorem actionPostprocess_of_helper {act : FileAction} {helper : CStr}
    (hcommand : act.command = none) (hhelper : act.helper = some helper) :
    actionPostprocess helpersDir act = helpersDir.map (fun dir =>
      { act with command := some (dir ++ '/' :: helper), useShell := false }) := by
  unfold actionPostprocess
  split
  · rename_i helper' _ hhelper'
    cases hhelper.symm.trans hhelper'
    rfl
  · rename_i hnot
    exact absurd hhelper (hnot helper hcommand)

/-- Without a directory of helpers the process dies at the first helper. -/
theorem actionLoadFile_of_helper {file : RegularFile} {es : List Entry}
    (hes : Parses regcomp file es) (hsane : Sane es) (hhelper : lastValue .helper es ≠ none) :
    actionLoadFile regcomp none file.content = none := by
  have hcheck := (actionSanityCheck_eq hes.wellFormed).1 hsane
  obtain ⟨-, -, hcommand, hhelp, -⟩ := parsed_fields es
  have hnone := hsane.single.resolve_right hhelper
  obtain ⟨helper, hlast⟩ := Option.ne_none_iff_exists'.mp hhelper
  unfold actionLoadFile
  rw [hes.iniParseFile_eq]
  dsimp only
  rw [hcheck, if_neg (not_not.mpr rfl),
    actionPostprocess_of_helper (hcommand.trans hnone) (hhelp.trans hlast)]
  rfl

theorem actionLoadFile_of_accepted {file : RegularFile} (h : Accepted regcomp helpersDir file) :
    ∃ es act, entries file.content = some es ∧ Sound regcomp helpersDir es act ∧
      actionLoadFile regcomp helpersDir file.content = some (.ok act) := by
  obtain ⟨es, hes, hsane, hdir⟩ := h
  have hcheck := (actionSanityCheck_eq hes.wellFormed).1 hsane
  obtain ⟨hpath, hrename, hcommand, hhelp, htrigger⟩ := parsed_fields es
  have htrigger : (es.foldl withEntry actionInit).trigger ≠ .invalid := by
    obtain ⟨value, hlast⟩ := Option.ne_none_iff_exists'.mp hsane.event
    rw [htrigger, hlast]
    exact hes.wellFormed.takes hlast
  have hcompiles : ∀ regex, (es.foldl withEntry actionInit).path = some regex →
      regcomp regex = 0 := by
    intro regex hregex
    have hlast : lastValue .path es = some regex := hpath.symm.trans hregex
    exact hes.wellFormed.takes hlast
  have hload : actionLoadFile regcomp helpersDir file.content =
      (actionPostprocess helpersDir (es.foldl withEntry actionInit)).map Except.ok := by
    unfold actionLoadFile
    rw [hes.iniParseFile_eq]
    dsimp only
    rw [hcheck, if_neg (not_not.mpr rfl)]
  cases hlast : lastValue .helper es with
  | none =>
    refine ⟨es, { es.foldl withEntry actionInit with useShell := true }, hes.entries_eq, ?_, ?_⟩
    · refine ⟨htrigger, ?_, ?_, hpath, hcompiles⟩
      · have hruns := hsane.runs
        rw [hlast, ← hcommand, ← hrename] at hruns
        tauto
      · refine iff_of_false nofun ?_
        rintro ⟨-, d, helper, -, hhelper, -⟩
        cases hlast.symm.trans hhelper
    · rw [hload, actionPostprocess_of_no_helper (hhelp.trans hlast)]
      rfl
  | some helper =>
    have hnone := hsane.single.resolve_right (hlast ▸ nofun)
    obtain ⟨d, rfl⟩ := Option.ne_none_iff_exists'.mp (hdir (hlast ▸ nofun))
    refine ⟨es, { es.foldl withEntry actionInit with
      command := some (d ++ '/' :: helper), useShell := false }, hes.entries_eq, ?_, ?_⟩
    · refine ⟨htrigger, Or.inl nofun, ?_, hpath, hcompiles⟩
      exact iff_of_true rfl ⟨hnone, d, helper, rfl, hlast, rfl⟩
    · rw [hload, actionPostprocess_of_helper (hcommand.trans hnone) (hhelp.trans hlast)]
      rfl

theorem scandir_eq_ok {names : List CStr} (h : scandir T dir = .ok names) :
    ∃ l, resolve T dir = .ok l ∧ T.IsDir l ∧ names = entryNames T l := by
  unfold scandir at h
  split at h
  · cases h
  rename_i l hl
  split at h
  · cases h
  · cases h
  · rename_i a ha
    cases h
    exact ⟨l, hl, ⟨a, ha⟩, rfl⟩

theorem scandir_of_isDir {l : Location} (hres : resolve T dir = .ok l) (hl : T.IsDir l) :
    scandir T dir = .ok (entryNames T l) := by
  obtain ⟨a, ha⟩ := hl
  rw [scandir, hres]
  dsimp only
  rw [ha]
  rfl

/-- A path to a directory, without the slash that it may end in. -/
theorem walk_of_resolve {l : Location} (hres : resolve T dir = .ok l) :
    dir ≠ [] ∧ walk T [] (names dir) = .ok l := by
  have hne : dir ≠ [] := by
    rintro rfl
    cases hres
  refine ⟨hne, ?_⟩
  rw [resolve, if_neg hne, walk_append] at hres
  split_ifs at hres
  · cases hwalk : walk T [] (names dir) with
    | error e =>
      rw [hwalk] at hres
      cases hres
    | ok m =>
      rw [hwalk] at hres
      change walk T m [['.']] = .ok l at hres
      rw [walk] at hres
      split at hres
      · cases hres
      · cases hres
      · rw [dif_neg (by decide), if_neg (by decide), walk] at hres
        exact hres
  · cases hwalk : walk T [] (names dir) with
    | error e =>
      rw [hwalk] at hres
      cases hres
    | ok m =>
      rw [hwalk] at hres
      exact hres

/-- Where the path of an entry of a directory leads. -/
theorem resolve_fullpath {l : Location} (hres : resolve T dir = .ok l) {c : CStr}
    (hc : names c = [c]) (hslash : slashed c = false) (hne : c ≠ []) (hone : c ≠ ['/']) :
    resolve T (fullpath dir c) = walk T l [c] := by
  obtain ⟨hdir, hwalk⟩ := walk_of_resolve hres
  rw [resolve, if_neg (fullpath_ne_nil dir c hdir), slashed_fullpath dir c hne hone, hslash,
    names_fullpath dir c hdir, hc, walk_append, walk_append, hwalk]
  change walk T l [c] >>= _ = _
  cases walk T l [c] <;> rfl

theorem stat_of_resolve {s : CStr} {l : Location} (hres : resolve T s = .ok l)
    {e : FileTree.Entry ℕ Leaf} (he : T.get l = some e) : stat T s = .ok e := by
  rw [stat, hres]
  simp only [he]

theorem walk_dot {l : Location} (hl : T.IsDir l) : walk T l [['.']] = .ok l := by
  obtain ⟨a, ha⟩ := hl
  rw [walk, ha]
  simp [Plain, walk]

theorem walk_dotdot {l : Location} (hl : T.IsDir l) :
    walk T l [['.', '.']] = .ok l.tail := by
  obtain ⟨a, ha⟩ := hl
  rw [walk, ha]
  simp [Plain, walk]

theorem walk_plain {l : Location} (hl : T.IsDir l) (n : Name) :
    walk T l [n.val] = .ok (n :: l) := by
  obtain ⟨a, ha⟩ := hl
  rw [walk_name, ha]

theorem stat_child {l : Location} (hres : resolve T dir = .ok l) (hl : T.IsDir l) {n : Name}
    {e : FileTree.Entry ℕ Leaf} (he : T.get (n :: l) = some e) :
    stat T (fullpath dir n.val) = .ok e := by
  have hone : n.val ≠ ['/'] := by
    intro h
    exact n.property.2.1 (h ▸ List.mem_singleton_self _)
  have hn := resolve_fullpath hres (names_of_plain _ n.property)
    (slashed_of_plain _ n.property) n.property.1 hone
  exact stat_of_resolve (hn.trans (walk_plain hl n)) he

/-- The entries `.` and `..` are directories. -/
theorem stat_dots {l : Location} (hres : resolve T dir = .ok l) (hl : T.IsDir l) {c : CStr}
    (hc : c = ['.'] ∨ c = ['.', '.']) : ∃ a, stat T (fullpath dir c) = .ok (.dir a) := by
  have hparent : T.IsDir l.tail := by
    cases l with
    | nil => exact hl
    | cons n l => exact T.isDir_parent n l hl.get_ne_none
  rcases hc with rfl | rfl
  · have hn := resolve_fullpath hres (c := ['.']) rfl rfl nofun (by decide)
    obtain ⟨a, ha⟩ := hl
    exact ⟨a, stat_of_resolve (hn.trans (walk_dot ⟨a, ha⟩)) ha⟩
  · have hn := resolve_fullpath hres (c := ['.', '.']) rfl rfl nofun (by decide)
    obtain ⟨b, hb⟩ := hparent
    exact ⟨b, stat_of_resolve (hn.trans (walk_dotdot hl)) hb⟩

def regularAt (T : FS) (l : Location) (c : CStr) : Option RegularFile :=
  if h : Plain c then
    match T.get (⟨c, h⟩ :: l) with
    | some (.leaf (.file _ content)) => some ⟨⟨c, h⟩, content⟩
    | _ => none
  else none

def regularFiles (T : FS) (l : Location) : List RegularFile :=
  (entryNames T l).filterMap (regularAt T l)

theorem regularAt_eq_some {l : Location} {c : CStr} {file : RegularFile} :
    regularAt T l c = some file ↔
      file.name.val = c ∧
        ∃ mode, T.get (file.name :: l) = some (.leaf (.file mode file.content)) := by
  unfold regularAt
  split_ifs with h
  · split
    · rename_i mode content hget
      constructor
      · intro heq
        cases heq
        exact ⟨rfl, mode, hget⟩
      · rintro ⟨rfl, mode', hget'⟩
        cases hget.symm.trans hget'
        rfl
    · rename_i hnot
      refine iff_of_false nofun ?_
      rintro ⟨rfl, mode, hget⟩
      exact hnot mode file.content hget
  · refine iff_of_false nofun ?_
    rintro ⟨rfl, -⟩
    exact h file.name.property

theorem mem_regularFiles {l : Location} (hres : resolve T dir = .ok l) (file : RegularFile) :
    file ∈ regularFiles T l ↔ IsRegular T dir file := by
  rw [regularFiles, List.mem_filterMap]
  constructor
  · rintro ⟨c, -, hfile⟩
    obtain ⟨-, mode, hget⟩ := regularAt_eq_some.mp hfile
    exact ⟨l, mode, hres, hget⟩
  · rintro ⟨l', mode, hres', hget⟩
    cases hres.symm.trans hres'
    refine ⟨file.name.val, (val_mem_entryNames T l file.name).mpr ?_,
      regularAt_eq_some.mpr ⟨rfl, mode, hget⟩⟩
    rw [hget]
    exact nofun

theorem sorted_regularFiles (T : FS) (l : Location) :
    (regularFiles T l).Pairwise (fun a b => a.name.val < b.name.val) := by
  have hle : (entryNames T l).Pairwise (· ≤ ·) := sorted_sortMultiset _
  have hlt : (entryNames T l).Pairwise (· < ·) :=
    hle.imp₂ (fun a b hab hne => lt_of_le_of_ne hab hne) (nodup_entryNames T l)
  refine List.pairwise_filterMap.mpr (hlt.imp (fun {c d} hcd a ha b hb => ?_))
  rw [(regularAt_eq_some.mp ha).1, (regularAt_eq_some.mp hb).1]
  exact hcd

section Loop

variable {l : Location} (hres : resolve T dir = .ok l) (hl : T.IsDir l) {c : CStr}

include hres hl

/-- The loader passes over what is not a regular file. -/
theorem actionLoader_of_other (hc : c ∈ entryNames T l) (hnone : regularAt T l c = none)
    (L : Loading) : actionLoader regcomp helpersDir T (fullpath dir c) L = (0, L) := by
  have hdots : (c = ['.'] ∨ c = ['.', '.']) →
      actionLoader regcomp helpersDir T (fullpath dir c) L = (0, L) := by
    intro hdots
    obtain ⟨a, ha⟩ := stat_dots hres hl hdots
    rw [actionLoader, ha]
  rcases (mem_entryNames T l c).mp hc with h | h | ⟨n, rfl, hget⟩
  · exact hdots (Or.inl h)
  · exact hdots (Or.inr h)
  · obtain ⟨e, he⟩ := Option.ne_none_iff_exists'.mp hget
    rw [actionLoader, stat_child hres hl he]
    cases e with
    | dir a => rfl
    | leaf leaf =>
      cases leaf with
      | device mode dev => rfl
      | file mode content =>
        have hsome : regularAt T l n.val = some ⟨n, content⟩ :=
          regularAt_eq_some.mpr ⟨rfl, mode, he⟩
        cases hnone.symm.trans hsome

theorem actionLoader_of_regular {file : RegularFile} (hfile : regularAt T l c = some file)
    (L : Loading) :
    actionLoader regcomp helpersDir T (fullpath dir c) L =
      match actionLoadFile regcomp helpersDir file.content with
      | none => (-1, { L with died := true })
      | some (.error rc) => (rc, L)
      | some (.ok act) =>
        (0, { L with acts := L.acts ++ [{ act with name := fullpath dir c }] }) := by
  obtain ⟨rfl, mode, hget⟩ := regularAt_eq_some.mp hfile
  have hstat := stat_child hres hl hget
  rw [actionLoader, hstat]
  dsimp only
  rw [actionLoad, fopen, hstat]
  dsimp only
  cases actionLoadFile regcomp helpersDir file.content with
  | none => rfl
  | some result => cases result <;> rfl

theorem loadAllLoop_cons_of_other (names : List CStr) (hc : c ∈ entryNames T l)
    (hnone : regularAt T l c = none) (L : Loading) :
    loadAllLoop (actionLoader regcomp helpersDir T) dir (c :: names) L =
      loadAllLoop (actionLoader regcomp helpersDir T) dir names L := by
  rw [loadAllLoop, actionLoader_of_other hres hl hc hnone]
  dsimp only
  rw [if_neg (not_not.mpr rfl)]

/-- The loop adds the action of a file that makes one, and goes on. -/
theorem loadAllLoop_cons_of_accepted (names : List CStr) {file : RegularFile}
    (hfile : regularAt T l c = some file) (haccept : Accepted regcomp helpersDir file) :
    ∃ act, LoadedFrom regcomp helpersDir dir file act ∧ ∀ L : Loading,
      loadAllLoop (actionLoader regcomp helpersDir T) dir (c :: names) L =
        loadAllLoop (actionLoader regcomp helpersDir T) dir names
          { L with acts := L.acts ++ [act] } := by
  obtain ⟨es, act, hes, hsound, hload⟩ := actionLoadFile_of_accepted haccept
  refine ⟨{ act with name := fullpath dir c }, ⟨?_, es, hes, ?_⟩, fun L => ?_⟩
  · rw [(regularAt_eq_some.mp hfile).1]
  · exact ⟨hsound.trigger, hsound.runs, hsound.useShell, hsound.path, hsound.compiles⟩
  · rw [loadAllLoop, actionLoader_of_regular hres hl hfile, hload]
    dsimp only
    rw [if_neg (not_not.mpr rfl)]

/-- Files that make actions are loaded in their order. -/
theorem loadAllLoop_accepted (names : List CStr) (hnames : ∀ c ∈ names, c ∈ entryNames T l)
    (hall : ∀ file ∈ names.filterMap (regularAt T l), Accepted regcomp helpersDir file)
    (L : Loading) :
    ∃ acts,
      List.Forall₂ (LoadedFrom regcomp helpersDir dir) (names.filterMap (regularAt T l)) acts ∧
      loadAllLoop (actionLoader regcomp helpersDir T) dir names L =
        (0, { L with acts := L.acts ++ acts }) := by
  induction names generalizing L with
  | nil =>
    refine ⟨[], List.Forall₂.nil, ?_⟩
    rw [loadAllLoop, List.append_nil]
  | cons c names ih =>
    have hnext := List.forall_mem_cons.mp hnames
    cases hc : regularAt T l c with
    | none =>
      rw [List.filterMap_cons_none hc] at hall ⊢
      rw [loadAllLoop_cons_of_other hres hl names hnext.1 hc]
      exact ih hnext.2 hall L
    | some file =>
      rw [List.filterMap_cons_some hc] at hall ⊢
      obtain ⟨hfile, hrest⟩ := List.forall_mem_cons.mp hall
      obtain ⟨act, hact, hstep⟩ := loadAllLoop_cons_of_accepted hres hl names hc hfile
      obtain ⟨acts, hacts, hloop⟩ := ih hnext.2 hrest { L with acts := L.acts ++ [act] }
      refine ⟨act :: acts, List.Forall₂.cons hact hacts, ?_⟩
      rw [hstep, hloop, List.append_assoc, List.singleton_append]

/-- What is returned for a file that makes no action. -/
theorem loadAllLoop_refused (names : List CStr) (hnames : ∀ c ∈ names, c ∈ entryNames T l)
    {pre post : List RegularFile} {file : RegularFile}
    (hsplit : names.filterMap (regularAt T l) = pre ++ file :: post)
    (hpre : ∀ earlier ∈ pre, Accepted regcomp helpersDir earlier) (L : Loading) :
    ∃ acts,
      (actionLoadFile regcomp helpersDir file.content = none →
        (loadAllLoop (actionLoader regcomp helpersDir T) dir names L).2 = ⟨acts, true⟩) ∧
      ∀ rc, actionLoadFile regcomp helpersDir file.content = some (.error rc) → rc ≠ 0 →
        loadAllLoop (actionLoader regcomp helpersDir T) dir names L =
          (rc, { L with acts := acts }) := by
  induction names generalizing pre L with
  | nil => cases pre <;> cases hsplit
  | cons c names ih =>
    have hnext := List.forall_mem_cons.mp hnames
    cases hc : regularAt T l c with
    | none =>
      rw [List.filterMap_cons_none hc] at hsplit
      rw [loadAllLoop_cons_of_other hres hl names hnext.1 hc]
      exact ih hnext.2 hsplit hpre L
    | some first =>
      rw [List.filterMap_cons_some hc] at hsplit
      cases pre with
      | nil =>
        obtain ⟨rfl, -⟩ := List.cons.inj hsplit
        rw [loadAllLoop, actionLoader_of_regular hres hl hc]
        refine ⟨L.acts, fun hdied => ?_, fun rc hrefused hrc => ?_⟩
        · rw [hdied]
          rfl
        · rw [hrefused]
          dsimp only
          rw [if_pos hrc]
      | cons early pre =>
        obtain ⟨rfl, htail⟩ := List.cons.inj hsplit
        obtain ⟨hfirst, hrest⟩ := List.forall_mem_cons.mp hpre
        obtain ⟨act, -, hstep⟩ := loadAllLoop_cons_of_accepted hres hl names hc hfirst
        rw [hstep]
        exact ih hnext.2 htail hrest _

end Loop

/-- The first refused file is the one that the files before are accepted. -/
theorem firstRefused_split {l : Location} (hres : resolve T dir = .ok l)
    {pre post : List RegularFile} {file : RegularFile}
    (hsplit : regularFiles T l = pre ++ file :: post)
    (hpre : ∀ earlier ∈ pre, Accepted regcomp helpersDir earlier)
    (hfile : ¬Accepted regcomp helpersDir file) : FirstRefused regcomp helpersDir T dir file := by
  have hmem : file ∈ regularFiles T l := by
    rw [hsplit]
    exact List.mem_append_right _ List.mem_cons_self
  refine ⟨(mem_regularFiles hres file).mp hmem, hfile, fun earlier hregular hlt => ?_⟩
  have hearlier := (mem_regularFiles hres earlier).mpr hregular
  have hsorted := sorted_regularFiles T l
  rw [hsplit] at hearlier hsorted
  rcases List.mem_append.mp hearlier with h | h
  · exact hpre earlier h
  have hafter := (List.pairwise_cons.mp (List.pairwise_append.mp hsorted).2.1).1
  rcases List.mem_cons.mp h with rfl | h
  · exact absurd hlt (List.lt_irrefl _)
  · exact absurd (List.lt_trans hlt (hafter earlier h)) (List.lt_irrefl _)

theorem FirstRefused.unique {a b : RegularFile} (ha : FirstRefused regcomp helpersDir T dir a)
    (hb : FirstRefused regcomp helpersDir T dir b) : a = b := by
  obtain ⟨l, mode, hres, hget⟩ := ha.regular
  obtain ⟨l', mode', hres', hget'⟩ := hb.regular
  cases hres.symm.trans hres'
  rcases lt_trichotomy a.name.val b.name.val with h | h | h
  · exact absurd (hb.first a ha.regular h) ha.refused
  · obtain ⟨name, content⟩ := a
    obtain ⟨name', content'⟩ := b
    cases Subtype.ext h
    cases hget.symm.trans hget'
    rfl
  · exact absurd (ha.first b hb.regular h) hb.refused

/-- What `vdev_action_load_all` returns for a directory. -/
theorem actionLoadAllInto_cases (regcomp : CStr → Int) (helpersDir : Option CStr) {l : Location}
    (hres : resolve T dir = .ok l) (hl : T.IsDir l) (ret : Output) :
    ((∀ file ∈ regularFiles T l, Accepted regcomp helpersDir file) →
      ∃ acts, List.Forall₂ (LoadedFrom regcomp helpersDir dir) (regularFiles T l) acts ∧
        actionLoadAllInto regcomp (some dir) helpersDir T ret =
          some (0, ⟨if acts = [] then none else some acts, acts.length⟩)) ∧
    ∀ file, FirstRefused regcomp helpersDir T dir file →
      (actionLoadFile regcomp helpersDir file.content = none →
        actionLoadAllInto regcomp (some dir) helpersDir T ret = none) ∧
      ∀ rc, actionLoadFile regcomp helpersDir file.content = some (.error rc) → rc ≠ 0 →
        actionLoadAllInto regcomp (some dir) helpersDir T ret = some (rc, ret) := by
  have hload : loadAll (fun _ => T) (actionLoader regcomp helpersDir T) dir {} =
      loadAllLoop (actionLoader regcomp helpersDir T) dir (entryNames T l) {} := by
    rw [loadAll, scandir_of_isDir hres hl]
  refine ⟨fun hall => ?_, fun file hfirst => ?_⟩
  · obtain ⟨acts, hacts, hloop⟩ :=
      loadAllLoop_accepted hres hl (entryNames T l) (fun _ h => h) hall {}
    refine ⟨acts, hacts, ?_⟩
    rw [actionLoadAllInto]
    dsimp only
    rw [hload, hloop]
    cases acts with
    | nil => rfl
    | cons act acts => rfl
  · have hnot : ¬∀ file ∈ regularFiles T l, Accepted regcomp helpersDir file := fun hall =>
      hfirst.refused (hall file ((mem_regularFiles hres file).mpr hfirst.regular))
    obtain ⟨pre, other, post, hsplit, hpre, hother⟩ :=
      (forall_or_first _ _).resolve_left hnot
    cases (firstRefused_split hres hsplit hpre hother).unique hfirst
    obtain ⟨acts, hdied, hfailed⟩ :=
      loadAllLoop_refused hres hl (entryNames T l) (fun _ h => h) hsplit hpre {}
    refine ⟨fun hnone => ?_, fun rc hrefused hrc => ?_⟩
    · rw [actionLoadAllInto]
      dsimp only
      rw [hload, hdied hnone]
      rfl
    · rw [actionLoadAllInto]
      dsimp only
      rw [hload, hfailed rc hrefused hrc]
      dsimp only
      rw [if_neg nofun, if_pos hrc]

theorem AllOrNothing.rc_le {ret : Output} {result : Option (Int × Output)}
    (h : AllOrNothing regcomp helpersDir T dir ret result) :
    ∃ rc out, result = some (rc, out) ∧ rc ≤ 0 := by
  cases h with
  | all files acts _ _ _ => exact ⟨0, _, rfl, le_refl 0⟩
  | unreadable e _ => exact ⟨_, _, rfl, e.rc_neg.le⟩
  | nothing _ _ _ => exact ⟨_, _, rfl, Errno.einval.rc_neg.le⟩

/-- A directory is loaded as promised, unless the parser refuses a file before the sanity check
does, or the process dies for want of a directory of helpers. -/
theorem actionLoadAll_allOrNothing_iff (regcomp : CStr → Int) (helpersDir : Option CStr) (T : FS)
    (dir : CStr) (ret : Output) :
    AllOrNothing regcomp helpersDir T dir ret
        (actionLoadAllInto regcomp (some dir) helpersDir T ret) ↔
      ∀ file, FirstRefused regcomp helpersDir T dir file → Insane regcomp file := by
  cases hscan : scandir T dir with
  | error e =>
    have hload : actionLoadAllInto regcomp (some dir) helpersDir T ret = some (e.rc, ret) := by
      rw [actionLoadAllInto]
      dsimp only
      rw [loadAll, hscan]
      dsimp only
      rw [if_neg nofun, if_pos e.rc_ne_zero]
    refine iff_of_true (hload ▸ .unreadable e hscan) (fun file hfirst => ?_)
    obtain ⟨l, mode, hres, hget⟩ := hfirst.regular
    have hl : T.IsDir l := T.isDir_parent file.name l (hget ▸ nofun)
    cases hscan.symm.trans (scandir_of_isDir hres hl)
  | ok names =>
    obtain ⟨l, hres, hl, -⟩ := scandir_eq_ok hscan
    obtain ⟨hall, hrefused⟩ := actionLoadAllInto_cases regcomp helpersDir hres hl ret
    by_cases haccept : ∀ file ∈ regularFiles T l, Accepted regcomp helpersDir file
    · obtain ⟨acts, hacts, hload⟩ := hall haccept
      have hsorted := sorted_regularFiles T l
      refine iff_of_true (hload ▸ .all _ acts (mem_regularFiles hres) hsorted hacts)
        (fun file hfirst => ?_)
      exact absurd (haccept file ((mem_regularFiles hres file).mpr hfirst.regular)) hfirst.refused
    obtain ⟨pre, file, post, hsplit, hpre, hfile⟩ :=
      (forall_or_first _ _).resolve_left haccept
    have hfirst := firstRefused_split hres hsplit hpre hfile
    obtain ⟨hdies, hfails⟩ := hrefused file hfirst
    have hcond : (∀ other, FirstRefused regcomp helpersDir T dir other → Insane regcomp other) ↔
        Insane regcomp file :=
      ⟨fun h => h file hfirst, fun h other hother => hfirst.unique hother ▸ h⟩
    rw [hcond]
    by_cases hparse : ∃ es, Parses regcomp file es
    swap
    · obtain ⟨n, hn, hload⟩ := actionLoadFile_of_not_parses helpersDir hparse
      rw [hfails n hload (by exact_mod_cast hn)]
      refine iff_of_false (fun h => ?_) (fun h => hparse (h.imp fun _ hes => hes.1))
      obtain ⟨rc, out, heq, hle⟩ := h.rc_le
      cases heq
      omega
    obtain ⟨es, hes⟩ := hparse
    by_cases hsane : Sane es
    swap
    · have hinsane : Insane regcomp file := ⟨es, hes, hsane⟩
      rw [hfails _ (actionLoadFile_of_insane hinsane) Errno.einval.rc_ne_zero]
      exact iff_of_true (.nothing file hfirst.regular hfile) hinsane
    have hneeds : lastValue .helper es ≠ none ∧ helpersDir = none := by
      by_contra hnot
      refine hfile ⟨es, hes, hsane, fun hhelper hnone => hnot ⟨hhelper, hnone⟩⟩
    obtain ⟨hhelper, rfl⟩ := hneeds
    rw [hdies (actionLoadFile_of_helper hes hsane hhelper)]
    refine iff_of_false (fun h => ?_) (fun h => ?_)
    · obtain ⟨rc, out, heq, -⟩ := h.rc_le
      cases heq
    · obtain ⟨es', hes', hinsane⟩ := h
      cases hes.entries_eq.symm.trans hes'.entries_eq
      exact hinsane hsane

def nameActs : Name := ⟨"acts".toList, by decide⟩

def nameBad : Name := ⟨"bad.act".toList, by decide⟩

def badTree : FS :=
  ((Tree.bare 0o755).put nameActs [] (.dir 0o755)).put nameBad [nameActs]
    (.leaf (.file 0o644 "event=add
".toList))

/-- The return code for this directory is 1, the number of the line. -/
theorem not_allOrNothing_bad :
    ¬AllOrNothing (fun _ => 0) (some "/helpers".toList) badTree "/acts".toList ⟨none, 0⟩
      (actionLoadAllInto (fun _ => 0) (some "/acts".toList) (some "/helpers".toList) badTree
        ⟨none, 0⟩) := by
  have hrc : (actionLoadAllInto (fun _ => 0) (some "/acts".toList) (some "/helpers".toList)
      badTree ⟨none, 0⟩).map Prod.fst = some 1 := by
    decide +kernel
  intro h
  obtain ⟨rc, out, heq, hle⟩ := h.rc_le
  rw [heq] at hrc
  have hone : rc = 1 := Option.some.inj hrc
  omega

end Vdev.ActionLoading
