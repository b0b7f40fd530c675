import Vdev.AccessControl
import Vdev.Ini

/-!
Loading an access control list (fs/acl.c). The handler `vdev_acl_ini_parser` turns
the entries of a file into an ACL. Of the process criteria that a file lists only
the path of the binary is enforced: the flag for the inode is never set, and the
predicate command is never passed on.
-/
namespace Vdev.AclFile

open CString Parsing Ini AccessControl

/-- The C library below the parser: the users and groups by name, whether a user or
group number is known, and `regcomp`. Errors are return codes. -/
structure Accounts where
  getPasswd : CStr → Except Int ℕ
  getGroup : CStr → Except Int ℕ
  validateUid : ℕ → Int
  validateGid : ℕ → Int
  regcomp : CStr → Int

/-- `vdev_acl_parse_mode`. -/
def parseMode (modeStr : CStr) : Except Errno (BitVec 32) :=
  if (strtol 8 modeStr).2 ≠ [] then .error .einval
  else .ok (BitVec.ofInt 32 (strtol 8 modeStr).1 &&& 0o777#32)

/-- A number, or else a name that is looked up. -/
def parseId (lookup : CStr → Except Int ℕ) (str : CStr) : Except Int ℕ :=
  match parseUint64 str with
  | some n => .ok (n % 2 ^ 32)
  | none => lookup str

/-- `vdev_parse_uid`. -/
def parseUid (db : Accounts) (uidStr : CStr) : Except Int ℕ := parseId db.getPasswd uidStr

/-- `vdev_parse_gid`. -/
def parseGid (db : Accounts) (gidStr : CStr) : Except Int ℕ := parseId db.getGroup gidStr

/-- `vdev_acl_ini_parser`. -/
def aclIniParser (db : Accounts) (e : Entry) (acl : Acl) : Option Acl :=
  if e.sect ≠ "vdev-acl".toList then none
  else if e.name = "uid".toList then
    match parseUid db e.value with
    | .error _ => none
    | .ok uid => some { acl with uid := some uid }
  else if e.name = "setuid".toList then
    match parseUid db e.value with
    | .error _ => none
    | .ok uid => some { acl with setuid := some uid }
  else if e.name = "gid".toList then
    match parseGid db e.value with
    | .error _ => none
    | .ok gid => some { acl with gid := some gid }
  else if e.name = "setgid".toList then
    match parseGid db e.value with
    | .error _ => none
    | .ok gid => some { acl with setgid := some gid }
  else if e.name = "setmode".toList then
    match parseMode e.value with
    | .error _ => none
    | .ok mode => some { acl with setmode := some mode }
  else if e.name = "paths".toList then
    if db.regcomp e.value ≠ 0 then none else some { acl with paths := acl.paths ++ [e.value] }
  else if e.name = "bin".toList then
    if acl.procPath ≠ none then none
    else some { acl with hasProc := true, procPath := some e.value }
  else if e.name = "predicate".toList then
    if acl.procPredicateCmd ≠ none then none
    else some { acl with hasProc := true, procPredicateCmd := some e.value }
  else if e.name = "inode".toList then
    match parseUint64 e.value with
    | none => none
    | some inode => some { acl with hasProc := true, procInode := inode }
  else none

/-- `vdev_acl_sanity_check`. For the group and the user to set it validates the group
and the user to match. -/
def aclSanityCheck (db : Accounts) (acl : Acl) : Int :=
  let rc := if acl.gid.isSome then db.validateGid (acl.gid.getD 0) else 0
  if rc ≠ 0 then rc
  else
    let rc := if acl.setgid.isSome then db.validateGid (acl.gid.getD 0) else 0
    if rc ≠ 0 then rc
    else
      let rc := if acl.uid.isSome then db.validateUid (acl.uid.getD 0) else 0
      if rc ≠ 0 then rc
      else if acl.setuid.isSome then db.validateUid (acl.uid.getD 0) else 0

/-- `vdev_acl_load_file`. -/
def aclLoadFile (db : Accounts) (file : CStr) : Except Int Acl :=
  match iniParseFile (aclIniParser db) file {} with
  | .error lineno => .error lineno
  | .ok acl => if aclSanityCheck db acl ≠ 0 then .error (aclSanityCheck db acl) else .ok acl

def processKeys : List CStr := ["bin".toList, "predicate".toList, "inode".toList]

inductive Effect (e : Entry) (acl : Acl) : Acl → Prop
  | bin (hname : e.name = "bin".toList) (hnone : acl.procPath = none) :
      Effect e acl { acl with hasProc := true, procPath := some e.value }
  | predicate (hname : e.name = "predicate".toList) (hnone : acl.procPredicateCmd = none) :
      Effect e acl { acl with hasProc := true, procPredicateCmd := some e.value }
  | inode (hname : e.name = "inode".toList) (n : ℕ) (hparse : parseUint64 e.value = some n) :
      Effect e acl { acl with hasProc := true, procInode := n }
  | setmode (hname : e.name ∉ processKeys) (mode : BitVec 32) (hmode : parseMode e.value = .ok mode) :
      Effect e acl { acl with setmode := some mode }
  | other (hname : e.name ∉ processKeys) (uid gid setuid setgid : Option ℕ) (paths : List CStr) :
      Effect e acl { acl with uid, gid, setuid, setgid, paths }

/-- Setting a user or a group. -/
theorem Effect.of_parse {e : Entry} {acl acl' : Acl} (parsed : Except Int ℕ) (set : ℕ → Acl)
    (h : (match parsed with | .error _ => none | .ok id => some (set id)) = some acl')
    (hset : ∀ id, Effect e acl (set id)) : Effect e acl acl' := by
  cases parsed with
  | error rc => cases h
  | ok id =>
    cases h
    exact hset id

/-- The keys are tested one after the other. -/
theorem aclIniParser_effect (db : Accounts) (e : Entry) (acl acl' : Acl)
    (h : aclIniParser db e acl = some acl') : Effect e acl acl' := by
  unfold aclIniParser at h
  rcases ite_eq_iff.mp h with ⟨-, h⟩ | ⟨-, h⟩
  · cases h
  rcases ite_eq_iff.mp h with ⟨huid, h⟩ | ⟨-, h⟩
  · exact Effect.of_parse _ _ h (fun _ => .other (by rw [huid]; decide) _ _ _ _ _)
  rcases ite_eq_iff.mp h with ⟨hsetuid, h⟩ | ⟨-, h⟩
  · exact Effect.of_parse _ _ h (fun _ => .other (by rw [hsetuid]; decide) _ _ _ _ _)
  rcases ite_eq_iff.mp h with ⟨hgid, h⟩ | ⟨-, h⟩
  · exact Effect.of_parse _ _ h (fun _ => .other (by rw [hgid]; decide) _ _ _ _ _)
  rcases ite_eq_iff.mp h with ⟨hsetgid, h⟩ | ⟨-, h⟩
  · exact Effect.of_parse _ _ h (fun _ => .other (by rw [hsetgid]; decide) _ _ _ _ _)
  rcases ite_eq_iff.mp h with ⟨hsetmode, h⟩ | ⟨-, h⟩
  · cases hmode : parseMode e.value with
    | error err =>
      rw [hmode] at h
      cases h
    | ok mode =>
      rw [hmode] at h
      cases h
      exact .setmode (by rw [hsetmode]; decide) mode hmode
  rcases ite_eq_iff.mp h with ⟨hpaths, h⟩ | ⟨-, h⟩
  · rcases ite_eq_iff.mp h with ⟨-, h⟩ | ⟨-, h⟩
    · cases h
    · cases h
      exact .other (by rw [hpaths]; decide) _ _ _ _ _
  rcases ite_eq_iff.mp h with ⟨hbin, h⟩ | ⟨-, h⟩
  · rcases ite_eq_iff.mp h with ⟨-, h⟩ | ⟨hdup, h⟩
    · cases h
    · cases h
      exact .bin hbin (not_not.mp hdup)
  rcases ite_eq_iff.mp h with ⟨hpred, h⟩ | ⟨-, h⟩
  · rcases ite_eq_iff.mp h with ⟨-, h⟩ | ⟨hdup, h⟩
    · cases h
    · cases h
      exact .predicate hpred (not_not.mp hdup)
  rcases ite_eq_iff.mp h with ⟨hinode, h⟩ | ⟨-, h⟩
  · cases hparse : parseUint64 e.value with
    | none =>
      rw [hparse] at h
      cases h
    | some n =>
      rw [hparse] at h
      cases h
      exact .inode hinode n hparse
  cases h

def Lists (es : List Entry) (name value : CStr) : Prop := ∃ e ∈ es, e.name = name ∧ e.value = value

theorem lists_append (es : List Entry) (e : Entry) (name value : CStr) :
    Lists (es ++ [e]) name value ↔ Lists es name value ∨ (e.name = name ∧ e.value = value) := by
  simp only [Lists, List.mem_append, List.mem_singleton]
  constructor
  · rintro ⟨x, hx | rfl, hand⟩
    · exact Or.inl ⟨x, hx, hand⟩
    · exact Or.inr hand
  · rintro (⟨x, hx, hand⟩ | hand)
    · exact ⟨x, Or.inl hx, hand⟩
    · exact ⟨e, Or.inr rfl, hand⟩

theorem lists_append_other (es : List Entry) (e : Entry) (name value : CStr) (h : e.name ≠ name) :
    Lists (es ++ [e]) name value ↔ Lists es name value := by
  rw [lists_append]
  exact or_iff_left (fun hand => h hand.1)

/-- A criterion that is listed at most once. -/
theorem lists_append_new (es : List Entry) (e : Entry) (name value : CStr) (old : Option CStr)
    (hold : ∀ v, old = some v ↔ Lists es name v) (hnone : old = none) (h : e.name = name) :
    some e.value = some value ↔ Lists (es ++ [e]) name value := by
  rw [lists_append]
  constructor
  · intro hval
    exact Or.inr ⟨h, Option.some.inj hval⟩
  · rintro (hlists | ⟨-, rfl⟩)
    · have hsome := (hold value).mpr hlists
      rw [hnone] at hsome
      cases hsome
    · rfl

/-- The ACL that entries are made into, as far as it concerns the process. -/
structure ProcessPart (es : List Entry) (acl : Acl) : Prop where
  hasProc : acl.hasProc = true ↔ ∃ e ∈ es, e.name ∈ processKeys
  procPath : ∀ value, acl.procPath = some value ↔ Lists es "bin".toList value
  procPredicateCmd : ∀ value, acl.procPredicateCmd = some value ↔ Lists es "predicate".toList value
  hasProcInode : acl.hasProcInode = false

theorem ProcessPart.nil : ProcessPart [] {} where
  hasProc := by simp
  procPath := by simp [Lists]
  procPredicateCmd := by simp [Lists]
  hasProcInode := rfl

/-- An entry that is no process criterion. -/
theorem ProcessPart.other {es : List Entry} {acl : Acl} (h : ProcessPart es acl) (e : Entry)
    (hname : e.name ∉ processKeys) : ProcessPart (es ++ [e]) acl where
  hasProc := by
    rw [h.hasProc]
    constructor
    · rintro ⟨x, hx, hkey⟩
      exact ⟨x, List.mem_append_left _ hx, hkey⟩
    · rintro ⟨x, hx, hkey⟩
      rcases List.mem_append.mp hx with hx | hx
      · exact ⟨x, hx, hkey⟩
      · cases List.mem_singleton.mp hx
        exact (hname hkey).elim
  procPath := fun value => (h.procPath value).trans
    (lists_append_other es e _ value (fun heq => hname (by rw [heq]; decide))).symm
  procPredicateCmd := fun value => (h.procPredicateCmd value).trans
    (lists_append_other es e _ value (fun heq => hname (by rw [heq]; decide))).symm
  hasProcInode := h.hasProcInode

/-- One more entry. -/
theorem ProcessPart.step (db : Accounts) (es : List Entry) (e : Entry) (acl acl' : Acl)
    (h : ProcessPart es acl) (hstep : aclIniParser db e acl = some acl') :
    ProcessPart (es ++ [e]) acl' := by
  have hkey : e.name ∈ processKeys → ∃ x ∈ es ++ [e], x.name ∈ processKeys :=
    fun hmem => ⟨e, List.mem_append_right _ List.mem_cons_self, hmem⟩
  cases aclIniParser_effect db e acl acl' hstep with
  | bin hname hnone =>
    have hpred : e.name ≠ "predicate".toList := by rw [hname]; decide
    exact {
      hasProc := iff_of_true rfl (hkey (by rw [hname]; decide))
      procPath := fun value => lists_append_new es e _ value _ h.procPath hnone hname
      procPredicateCmd := fun value =>
        (h.procPredicateCmd value).trans (lists_append_other es e _ value hpred).symm
      hasProcInode := h.hasProcInode }
  | predicate hname hnone =>
    have hbin : e.name ≠ "bin".toList := by rw [hname]; decide
    exact {
      hasProc := iff_of_true rfl (hkey (by rw [hname]; decide))
      procPath := fun value =>
        (h.procPath value).trans (lists_append_other es e _ value hbin).symm
      procPredicateCmd := fun value =>
        lists_append_new es e _ value _ h.procPredicateCmd hnone hname
      hasProcInode := h.hasProcInode }
  | inode hname n hparse =>
    -- the inode is stored, its flag is not set
    have hbin : e.name ≠ "bin".toList := by rw [hname]; decide
    have hpred : e.name ≠ "predicate".toList := by rw [hname]; decide
    exact {
      hasProc := iff_of_true rfl (hkey (by rw [hname]; decide))
      procPath := fun value =>
        (h.procPath value).trans (lists_append_other es e _ value hbin).symm
      procPredicateCmd := fun value =>
        (h.procPredicateCmd value).trans (lists_append_other es e _ value hpred).symm
      hasProcInode := h.hasProcInode }
  | setmode hname mode hmode =>
    obtain ⟨hproc, hpath, hcmd, hflag⟩ := h.other e hname
    exact ⟨hproc, hpath, hcmd, hflag⟩
  | other hname uid gid setuid setgid paths =>
    obtain ⟨hproc, hpath, hcmd, hflag⟩ := h.other e hname
    exact ⟨hproc, hpath, hcmd, hflag⟩

/-- What a file that is accepted says about the process. -/
theorem processPart_of_accepted (db : Accounts) (file : CStr) (es : List Entry)
    (hes : entries file = some es) (acl : Acl)
    (h : iniParseFile (aclIniParser db) file {} = .ok acl) : ProcessPart es acl :=
  iniParseFile_induct (aclIniParser db) ProcessPart {} ProcessPart.nil
    (ProcessPart.step db) file es hes acl h

/-- Without the flag for the inode, the path of the binary decides, and then a
predicate is an error. -/
theorem aclMatchProcess_eq (run : CStr → List CStr → Except Int Int) (acl : Acl) (ps : Process)
    (callerUid callerGid : ℕ) (hinode : acl.hasProcInode = false)
    (hnone : acl.hasProc = false → acl.procPath = none ∧ acl.procPredicateCmd = none) :
    aclMatchProcess run acl ps callerUid callerGid =
      if acl.procPath.any (· ≠ ps.path) then 0
      else if acl.procPredicateCmd.isSome then Errno.einval.rc else 1 := by
  rw [aclMatchProcess, hinode]
  cases hproc : acl.hasProc with
  | true => rfl
  | false =>
    obtain ⟨hpath, hcmd⟩ := hnone hproc
    rw [hpath, hcmd]
    rfl

/-- The process criteria that the entries list hold of a process, where `exitStatus`
is the exit status of a command in an environment. -/
def Satisfied (es : List Entry) (exitStatus : CStr → List CStr → Int) (ps : Process)
    (callerUid callerGid : ℕ) : Prop :=
  (∀ path, Lists es "bin".toList path → path = ps.path) ∧
  (∀ inode, Lists es "inode".toList inode → parseUint64 inode = some ps.inode) ∧
  (∀ cmd, Lists es "predicate".toList cmd →
    exitStatus cmd (predicateEnv ps callerUid callerGid) = 0)

/-- A return code enforces criteria: it is 1 if they hold and 0 if they do not. -/
def Enforces (rc : Int) (criteria : Prop) : Prop := (rc = 1 ↔ criteria) ∧ (¬criteria → rc = 0)

theorem ProcessPart.hasProc_false {es : List Entry} {acl : Acl} (h : ProcessPart es acl)
    (hproc : acl.hasProc = false) : acl.procPath = none ∧ acl.procPredicateCmd = none := by
  have hno : ¬∃ e ∈ es, e.name ∈ processKeys := by
    rw [← h.hasProc, hproc]
    exact Bool.false_ne_true
  constructor
  · refine Option.eq_none_iff_forall_ne_some.mpr (fun value hvalue => ?_)
    obtain ⟨e, he, hname, -⟩ := (h.procPath value).mp hvalue
    exact hno ⟨e, he, by rw [hname]; decide⟩
  · refine Option.eq_none_iff_forall_ne_some.mpr (fun value hvalue => ?_)
    obtain ⟨e, he, hname, -⟩ := (h.procPredicateCmd value).mp hvalue
    exact hno ⟨e, he, by rw [hname]; decide⟩

theorem ProcessPart.any_procPath {es : List Entry} {acl : Acl} (h : ProcessPart es acl)
    (ps : Process) : acl.procPath.any (· ≠ ps.path) = true ↔
      ∃ path, Lists es "bin".toList path ∧ path ≠ ps.path := by
  rw [Option.any_eq_true]
  constructor
  · rintro ⟨path, hpath, hne⟩
    exact ⟨path, (h.procPath path).mp hpath, of_decide_eq_true hne⟩
  · rintro ⟨path, hpath, hne⟩
    exact ⟨path, (h.procPath path).mpr hpath, decide_eq_true hne⟩

theorem ProcessPart.isSome_procPredicateCmd {es : List Entry} {acl : Acl} (h : ProcessPart es acl) :
    acl.procPredicateCmd.isSome = true ↔ ∃ cmd, Lists es "predicate".toList cmd := by
  rw [Option.isSome_iff_exists]
  exact exists_congr h.procPredicateCmd

/-- The process criteria of a file are enforced for a process whose binary has another
path than a listed one, and else only without a predicate and for the inodes listed.
A predicate command always exits here: an error can only come from the code. -/
theorem criteria_enforced_iff (db : Accounts) (file : CStr) (es : List Entry)
    (hes : entries file = some es) (acl : Acl)
    (h : iniParseFile (aclIniParser db) file {} = .ok acl)
    (exitStatus : CStr → List CStr → Int) (ps : Process) (callerUid callerGid : ℕ) :
    Enforces (aclMatchProcess (fun cmd env => .ok (exitStatus cmd env)) acl ps callerUid callerGid)
      (Satisfied es exitStatus ps callerUid callerGid) ↔
    (∃ path, Lists es "bin".toList path ∧ path ≠ ps.path) ∨
      (¬∃ cmd, Lists es "predicate".toList cmd) ∧
        ∀ inode, Lists es "inode".toList inode → parseUint64 inode = some ps.inode := by
  have hpart := processPart_of_accepted db file es hes acl h
  rw [Enforces, aclMatchProcess_eq _ acl ps callerUid callerGid hpart.hasProcInode
    (fun hproc => hpart.hasProc_false hproc)]
  by_cases hbin : ∃ path, Lists es "bin".toList path ∧ path ≠ ps.path
  · -- the binary has another path: no match, whatever the other criteria
    have hnot : ¬Satisfied es exitStatus ps callerUid callerGid := by
      obtain ⟨path, hpath, hne⟩ := hbin
      exact fun hsat => hne (hsat.1 path hpath)
    rw [if_pos ((hpart.any_procPath ps).mpr hbin)]
    exact iff_of_true ⟨iff_of_false Int.zero_ne_one hnot, fun _ => rfl⟩ (Or.inl hbin)
  rw [if_neg (fun hany => hbin ((hpart.any_procPath ps).mp hany))]
  have hpaths : ∀ path, Lists es "bin".toList path → path = ps.path :=
    fun path hpath => not_not.mp (fun hne => hbin ⟨path, hpath, hne⟩)
  by_cases hpred : ∃ cmd, Lists es "predicate".toList cmd
  · -- an error is neither of the results
    rw [if_pos (hpart.isSome_procPredicateCmd.mpr hpred)]
    refine iff_of_false ?_ ?_
    · rintro ⟨hone, hzero⟩
      by_cases hsat : Satisfied es exitStatus ps callerUid callerGid
      · exact absurd (hone.mpr hsat) (by decide)
      · exact absurd (hzero hsat) (by decide)
    · rintro (hother | ⟨hnone, -⟩)
      · exact hbin hother
      · exact hnone hpred
  · -- the listed inodes make the difference
    have hsat : Satisfied es exitStatus ps callerUid callerGid ↔
        ∀ inode, Lists es "inode".toList inode → parseUint64 inode = some ps.inode :=
      ⟨fun hsat => hsat.2.1,
        fun hinode => ⟨hpaths, hinode, fun cmd hcmd => (hpred ⟨cmd, hcmd⟩).elim⟩⟩
    rw [if_neg (fun hsome => hpred (hpart.isSome_procPredicateCmd.mp hsome)), hsat]
    constructor
    · rintro ⟨hone, -⟩
      exact Or.inr ⟨hpred, hone.mp rfl⟩
    · rintro (hother | ⟨-, hinode⟩)
      · exact (hbin hother).elim
      · exact ⟨iff_of_true rfl hinode, fun hnot => (hnot hinode).elim⟩

def anyone : Accounts where
  getPasswd := fun _ => .ok 0
  getGroup := fun _ => .ok 0
  validateUid := fun _ => 0
  validateGid := fun _ => 0
  regcomp := fun _ => 0

def binAndInode : CStr := "[vdev-acl]\nbin=/bin/x\ninode=7\n".toList

def binAndInodeEntries : List Entry :=
  [⟨"vdev-acl".toList, "bin".toList, "/bin/x".toList⟩,
    ⟨"vdev-acl".toList, "inode".toList, "7".toList⟩]

def binAndInodeAcl : Acl :=
  { hasProc := true, procPath := some "/bin/x".toList, procInode := 7 }

theorem criteria_enforced_iff_inode :
    Enforces (aclMatchProcess (fun _ _ => .ok 0) binAndInodeAcl ⟨1, "/bin/x".toList, 7⟩ 0 0)
      (Satisfied binAndInodeEntries (fun _ _ => 0) ⟨1, "/bin/x".toList, 7⟩ 0 0) := by
  refine (criteria_enforced_iff anyone binAndInode binAndInodeEntries (by decide) binAndInodeAcl rfl
    (fun _ _ => 0) ⟨1, "/bin/x".toList, 7⟩ 0 0).mpr (Or.inr ⟨?_, ?_⟩)
  · rintro ⟨cmd, e, he, hname, -⟩
    exact absurd hname ((by decide : ∀ e ∈ binAndInodeEntries, e.name ≠ "predicate".toList) e he)
  · rintro inode ⟨e, he, hname, rfl⟩
    exact (by decide : ∀ e ∈ binAndInodeEntries, e.name = "inode".toList →
      parseUint64 e.value = some 7) e he hname

def predicateOnly : CStr := "[vdev-acl]\npredicate=/bin/true\n".toList

def predicateOnlyEntries : List Entry :=
  [⟨"vdev-acl".toList, "predicate".toList, "/bin/true".toList⟩]

def predicateOnlyAcl : Acl := { hasProc := true, procPredicateCmd := some "/bin/true".toList }

/-- A binary with another inode matches, and a command that exits with 0 is an error. -/
theorem criteria_not_enforced :
    (entries binAndInode = some binAndInodeEntries ∧
      iniParseFile (aclIniParser anyone) binAndInode {} = .ok binAndInodeAcl ∧
      aclMatchProcess (fun _ _ => .ok 0) binAndInodeAcl ⟨1, "/bin/x".toList, 8⟩ 0 0 = 1 ∧
      ¬Enforces (aclMatchProcess (fun _ _ => .ok 0) binAndInodeAcl ⟨1, "/bin/x".toList, 8⟩ 0 0)
        (Satisfied binAndInodeEntries (fun _ _ => 0) ⟨1, "/bin/x".toList, 8⟩ 0 0)) ∧
    (entries predicateOnly = some predicateOnlyEntries ∧
      iniParseFile (aclIniParser anyone) predicateOnly {} = .ok predicateOnlyAcl ∧
      aclMatchProcess (fun _ _ => .ok 0) predicateOnlyAcl ⟨1, "/bin/x".toList, 8⟩ 0 0 = -22 ∧
      ¬Enforces (aclMatchProcess (fun _ _ => .ok 0) predicateOnlyAcl ⟨1, "/bin/x".toList, 8⟩ 0 0)
        (Satisfied predicateOnlyEntries (fun _ _ => 0) ⟨1, "/bin/x".toList, 8⟩ 0 0)) := by
  refine ⟨⟨by decide, rfl, rfl, ?_⟩, by decide, rfl, rfl, ?_⟩
  · rintro ⟨hone, -⟩
    have hinode := (hone.mp rfl).2.1 "7".toList
      ⟨⟨"vdev-acl".toList, "inode".toList, "7".toList⟩, by decide, rfl, rfl⟩
    exact absurd hinode (by decide)
  · rintro ⟨hone, hzero⟩
    by_cases hsat : Satisfied predicateOnlyEntries (fun _ _ => 0) ⟨1, "/bin/x".toList, 8⟩ 0 0
    · exact absurd (hone.mpr hsat) (by decide)
    · exact absurd (hzero hsat) (by decide)

theorem and_clear (x : BitVec 32) : x &&& 0o777#32 &&& ~~~0o777#32 = 0 := by
  rw [BitVec.and_assoc, show 0o777#32 &&& ~~~0o777#32 = 0#32 by decide]
  exact BitVec.and_zero

/-- `vdev_acl_parse_mode` masks the number that it reads. -/
theorem parseMode_clear (modeStr : CStr) (mode : BitVec 32) (h : parseMode modeStr = .ok mode) :
    mode &&& ~~~0o777#32 = 0 := by
  unfold parseMode at h
  split_ifs at h
  cases h
  exact and_clear _

theorem onlyPermissions_step (db : Accounts) (e : Entry) (acl acl' : Acl)
    (h : OnlyPermissions acl) (hstep : aclIniParser db e acl = some acl') : OnlyPermissions acl' := by
  cases aclIniParser_effect db e acl acl' hstep with
  | bin hname hnone => exact h
  | predicate hname hnone => exact h
  | inode hname n hparse => exact h
  | setmode hname mode hmode =>
    intro setmode hset
    cases hset
    exact parseMode_clear e.value mode hmode
  | other hname uid gid setuid setgid paths => exact h

/-- An ACL that was loaded sets permission bits only. -/
theorem onlyPermissions_of_aclLoadFile (db : Accounts) (file : CStr) (acl : Acl)
    (h : aclLoadFile db file = .ok acl) : OnlyPermissions acl := by
  have hparse : iniParseFile (aclIniParser db) file {} = .ok acl := by
    unfold aclLoadFile at h
    split at h
    · cases h
    · split_ifs at h
      cases h
      assumption
  obtain ⟨es, hes, -⟩ := (iniParseFile_eq_ok _ file _ acl).mp hparse
  exact iniParseFile_induct (aclIniParser db) (fun _ acl => OnlyPermissions acl) {} nofun
    (fun _ e u u' hu hstep => onlyPermissions_step db e u u' hu hstep) file es hes acl hparse

end Vdev.AclFile
