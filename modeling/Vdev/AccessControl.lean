import Vdev.Action
import Vdev.Parsing

/-!
Access control lists of vdevfs (fs/acl.c). An ACL selects callers by user, group
and process, and device paths by regular expressions; the ACLs that match a caller
and a path change the owner, the group and the permission bits in a stat buffer.
`vdev_acl_apply_all` looks for the next match in what is left of the array; the main
result is that it applies exactly the ACLs that match, in order, up to the first
one whose evaluation fails.
-/
namespace Vdev.AccessControl

open CString Vdev.Action

/-- `struct stat`; `mode_t` has 32 bits. -/
structure Stat where
  dev : ℕ := 0
  ino : ℕ := 0
  mode : BitVec 32 := 0
  nlink : ℕ := 0
  uid : ℕ := 0
  gid : ℕ := 0
  rdev : ℕ := 0
  size : ℕ := 0
  blksize : ℕ := 0
  blocks : ℕ := 0
  atime : ℕ := 0
  mtime : ℕ := 0
  ctime : ℕ := 0
  deriving DecidableEq

/-- `struct vdev_acl`. A field with a flag is an option, but for the inode: its flag
and its value are kept apart. A regular expression is the text that it was compiled
from. -/
structure Acl where
  uid : Option ℕ := none
  gid : Option ℕ := none
  hasProc : Bool := false
  procPath : Option CStr := none
  procPredicateCmd : Option CStr := none
  hasProcInode : Bool := false
  procInode : ℕ := 0
  setuid : Option ℕ := none
  setgid : Option ℕ := none
  setmode : Option (BitVec 32) := none
  paths : List CStr := []
  deriving DecidableEq

/-- What `pstat` reports about the calling process. -/
structure Process where
  pid : ℕ
  path : CStr
  inode : ℕ

/-- A caller, and what `pstat` reports about its process or the error it returns. -/
structure Caller where
  uid : ℕ
  gid : ℕ
  pstat : Except Int Process

/-- The matchers that the search depends on: `regexec`, and
`vdev_acl_match_process`. -/
structure Matchers where
  regexec : CStr → Option CStr → Int
  matchProcess : Acl → Process → ℕ → ℕ → Int

/-- `vdev_acl_do_set_user`. -/
def doSetUser (acl : Acl) (callerUid : ℕ) (sb : Stat) : Stat :=
  match acl.setuid, acl.uid with
  | some setuid, some uid => if uid = callerUid then { sb with uid := setuid } else sb
  | _, _ => sb

/-- `vdev_acl_do_set_group`. -/
def doSetGroup (acl : Acl) (callerGid : ℕ) (sb : Stat) : Stat :=
  match acl.setgid, acl.gid with
  | some setgid, some gid => if gid = callerGid then { sb with gid := setgid } else sb
  | _, _ => sb

/-- `vdev_acl_do_set_mode`. -/
def doSetMode (acl : Acl) (sb : Stat) : Stat :=
  match acl.setmode with
  | some setmode => { sb with mode := sb.mode &&& ~~~0o777#32 ||| setmode }
  | none => sb

/-- `vdev_acl_apply`. -/
def aclApply (callerUid callerGid : ℕ) (acl : Acl) (sb : Stat) : Stat :=
  doSetMode acl (doSetGroup acl callerGid (doSetUser acl callerUid sb))

/-- `vdev_subprocess` in the system shell, where `run` runs a command with an
environment and returns its exit status. -/
def subprocess (run : CStr → List CStr → Except Int Int) (cmd : Option CStr) (env : List CStr) :
    Except Int Int :=
  match cmd with
  | none => .error Errno.einval.rc
  | some cmd => run cmd env

def predicateEnv (ps : Process) (callerUid callerGid : ℕ) : List CStr :=
  ["VDEV_UID=".toList ++ Nat.toDigits 10 callerUid, "VDEV_GID=".toList ++ Nat.toDigits 10 callerGid,
    "VDEV_PID=".toList ++ Nat.toDigits 10 ps.pid]

/-- `vdev_acl_run_predicate`. Its command buffer is never filled in. -/
def runPredicate (run : CStr → List CStr → Except Int Int) (ps : Process)
    (callerUid callerGid : ℕ) : Except Int Int :=
  subprocess run none (predicateEnv ps callerUid callerGid)

/-- `vdev_acl_match_process`. -/
def aclMatchProcess (run : CStr → List CStr → Except Int Int) (acl : Acl) (ps : Process)
    (callerUid callerGid : ℕ) : Int :=
  if !acl.hasProc then 1
  else if acl.procPath.any (· ≠ ps.path) then 0
  else if acl.hasProcInode && acl.procInode ≠ ps.inode then 0
  else if acl.procPredicateCmd.isSome then
    match runPredicate run ps callerUid callerGid with
    | .error rc => rc
    | .ok exitStatus => if exitStatus = 0 then 1 else 0
  else 1

def codeMatchers (regexec : CStr → Option CStr → Int)
    (run : CStr → List CStr → Except Int Int) : Matchers :=
  ⟨regexec, aclMatchProcess run⟩

/-- The loop of `vdev_match_first_regex`, at index `i`. -/
def matchFirstRegexLoop (regexec : CStr → Option CStr → Int) (path : CStr) : List CStr → ℕ → Int
  | [], i => i
  | regex :: rest, i =>
    let matched := matchRegex regexec (some path) regex
    if matched > 0 then i
    else if matched < 0 then matched
    else matchFirstRegexLoop regexec path rest (i + 1)

/-- `vdev_match_first_regex`. -/
def matchFirstRegex (regexec : CStr → Option CStr → Int) (path : CStr) (regexes : List CStr) : Int :=
  matchFirstRegexLoop regexec path regexes 0

section Evaluation

variable (m : Matchers) (path : CStr) (ps : Process) (callerUid callerGid : ℕ)

/-- The loop of `vdev_acl_find_next`, at index `i`. -/
def findNextLoop : List Acl → ℕ → Int
  | [], i => i
  | acl :: rest, i =>
    if acl.uid.any (· ≠ callerUid) then findNextLoop rest (i + 1)
    else if acl.gid.any (· ≠ callerGid) then findNextLoop rest (i + 1)
    else
      let rc := if acl.paths.length > 0 then matchFirstRegex m.regexec path acl.paths else 0
      if acl.paths.length > 0 ∧ rc ≥ acl.paths.length then findNextLoop rest (i + 1)
      else if rc < 0 then rc
      else
        let rc := m.matchProcess acl ps callerUid callerGid
        if rc = 0 then findNextLoop rest (i + 1)
        else if rc < 0 then rc
        else i

/-- `vdev_acl_find_next`. -/
def findNext (acls : List Acl) : Int := findNextLoop m path ps callerUid callerGid acls 0

/-- The loop of `vdev_acl_apply_all`, with the return code at its end. -/
def applyAllLoop (acls : List Acl) : ℕ → ℕ → Bool → Stat → Int × Stat
  | 0, _, found, sb => (if found then 1 else 0, sb)
  | fuel + 1, aclOffset, found, sb =>
    if aclOffset < acls.length then
      let rc := findNext m path ps callerUid callerGid (acls.drop aclOffset)
      if rc = ((acls.length - aclOffset : ℕ) : Int) then (if found then 1 else 0, sb)
      else if rc < 0 then (rc, sb)
      else
        match acls[aclOffset + rc.toNat]? with
        | none => (if found then 1 else 0, sb)
        | some acl =>
          applyAllLoop acls fuel (aclOffset + rc.toNat + 1) true (aclApply callerUid callerGid acl sb)
    else (if found then 1 else 0, sb)

/-- `vdev_acl_apply_all`. The offset grows in each round. -/
def applyAll (defaultPolicy : Int) (acls : List Acl) (sb : Stat) : Int × Stat :=
  if acls.length = 0 then (defaultPolicy, sb)
  else applyAllLoop m path ps callerUid callerGid acls (acls.length + 1) 0 false sb

/-- The criteria of an ACL all hold. -/
def Selects (acl : Acl) : Prop :=
  (∀ uid ∈ acl.uid, uid = callerUid) ∧ (∀ gid ∈ acl.gid, gid = callerGid) ∧
    (acl.paths = [] ∨ ∃ regex ∈ acl.paths, m.regexec regex (some path) = 0) ∧
    0 < m.matchProcess acl ps callerUid callerGid

instance (acl : Acl) : Decidable (Selects m path ps callerUid callerGid acl) :=
  inferInstanceAs (Decidable (_ ∧ _ ∧ _ ∧ _))

/-- The result of evaluating one ACL: 1 for a match, 0 for none, or an error. -/
def verdict (acl : Acl) : Int :=
  if acl.uid.any (· ≠ callerUid) then 0
  else if acl.gid.any (· ≠ callerGid) then 0
  else
    let rc := if acl.paths.length > 0 then matchFirstRegex m.regexec path acl.paths else 0
    if acl.paths.length > 0 ∧ rc ≥ acl.paths.length then 0
    else if rc < 0 then rc
    else
      let rc := m.matchProcess acl ps callerUid callerGid
      if rc = 0 then 0 else if rc < 0 then rc else 1

/-- Going through the ACLs one by one, up to the first error. -/
def applied : List Acl → Bool → Stat → Int × Stat
  | [], found, sb => (if found then 1 else 0, sb)
  | acl :: rest, found, sb =>
    if verdict m path ps callerUid callerGid acl = 0 then applied rest found sb
    else if verdict m path ps callerUid callerGid acl < 0 then
      (verdict m path ps callerUid callerGid acl, sb)
    else applied rest true (aclApply callerUid callerGid acl sb)

end Evaluation

theorem matchRegex_cases (regexec : CStr → Option CStr → Int) (path : Option CStr) (regex : CStr) :
    (regexec regex path = 0 ∧ matchRegex regexec path regex = 1) ∨
    (regexec regex path ≠ 0 ∧ matchRegex regexec path regex ≤ 0) := by
  unfold matchRegex
  by_cases hzero : regexec regex path = 0
  · exact Or.inl ⟨hzero, by simp [hzero]⟩
  · refine Or.inr ⟨hzero, ?_⟩
    dsimp only
    rw [if_pos hzero]
    split_ifs
    · exact le_rfl
    · exact neg_nonpos.mpr (abs_nonneg _)

/-- The index of the first regular expression that matches, the number of them, or
an error that comes before any match. -/
theorem matchFirstRegexLoop_spec (regexec : CStr → Option CStr → Int) (path : CStr)
    (regexes : List CStr) (i : ℕ) :
    matchFirstRegexLoop regexec path regexes i < 0 ∨
    (matchFirstRegexLoop regexec path regexes i = i + regexes.length ∧
      ∀ regex ∈ regexes, regexec regex (some path) ≠ 0) ∨
    (0 ≤ matchFirstRegexLoop regexec path regexes i ∧
      matchFirstRegexLoop regexec path regexes i < i + regexes.length ∧
      ∃ regex ∈ regexes, regexec regex (some path) = 0) := by
  induction regexes generalizing i with
  | nil => exact Or.inr (Or.inl ⟨by simp [matchFirstRegexLoop], by simp⟩)
  | cons regex rest ih =>
    rw [matchFirstRegexLoop]
    rcases matchRegex_cases regexec (some path) regex with ⟨hzero, hone⟩ | ⟨hne, hle⟩
    · rw [hone, if_pos Int.one_pos]
      refine Or.inr (Or.inr ⟨Int.natCast_nonneg i, ?_, regex, List.mem_cons_self, hzero⟩)
      rw [List.length_cons]
      omega
    · rw [if_neg (not_lt.mpr hle)]
      split_ifs with hneg
      · exact Or.inl hneg
      · rcases ih (i + 1) with herr | ⟨hlen, hnone⟩ | ⟨hge, hlt, hsome⟩
        · exact Or.inl herr
        · refine Or.inr (Or.inl ⟨?_, List.forall_mem_cons.mpr ⟨hne, hnone⟩⟩)
          rw [hlen, List.length_cons]
          push_cast
          ring
        · obtain ⟨r, hr, hr0⟩ := hsome
          refine Or.inr (Or.inr ⟨hge, ?_, r, List.mem_cons_of_mem _ hr, hr0⟩)
          rw [List.length_cons]
          push_cast at hlt ⊢
          omega

section Fold

variable (m : Matchers) (path : CStr) (ps : Process) (callerUid callerGid : ℕ)

theorem findNextLoop_cons (acl : Acl) (rest : List Acl) (i : ℕ) :
    findNextLoop m path ps callerUid callerGid (acl :: rest) i =
      if verdict m path ps callerUid callerGid acl = 0 then
        findNextLoop m path ps callerUid callerGid rest (i + 1)
      else if verdict m path ps callerUid callerGid acl < 0 then
        verdict m path ps callerUid callerGid acl
      else i := by
  rw [findNextLoop, verdict]
  dsimp only
  generalize (if acl.paths.length > 0 then matchFirstRegex m.regexec path acl.paths else 0) = rc
  generalize m.matchProcess acl ps callerUid callerGid = rc'
  split_ifs <;> first | rfl | omega

/-- The paths of an ACL: an error, no match, or a match. An ACL without paths matches
every path. -/
theorem paths_cases (acl : Acl) :
    let rc := if acl.paths.length > 0 then matchFirstRegex m.regexec path acl.paths else 0
    (rc < 0 ∧ ¬(acl.paths.length > 0 ∧ rc ≥ acl.paths.length)) ∨
    ((acl.paths.length > 0 ∧ rc ≥ acl.paths.length) ∧
      ¬(acl.paths = [] ∨ ∃ regex ∈ acl.paths, m.regexec regex (some path) = 0)) ∨
    (¬rc < 0 ∧ ¬(acl.paths.length > 0 ∧ rc ≥ acl.paths.length) ∧
      (acl.paths = [] ∨ ∃ regex ∈ acl.paths, m.regexec regex (some path) = 0)) := by
  intro rc
  by_cases hpos : acl.paths.length > 0
  · have hrc : rc = matchFirstRegexLoop m.regexec path acl.paths 0 := if_pos hpos
    have hne : acl.paths ≠ [] := List.ne_nil_of_length_pos hpos
    have hspec := matchFirstRegexLoop_spec m.regexec path acl.paths 0
    rw [← hrc] at hspec
    rcases hspec with herr | ⟨hlen, hnone⟩ | ⟨hge, hlt, hsome⟩
    · exact Or.inl ⟨herr, by omega⟩
    · refine Or.inr (Or.inl ⟨⟨hpos, by omega⟩, ?_⟩)
      rintro (hnil | ⟨regex, hmem, hzero⟩)
      · exact hne hnil
      · exact hnone regex hmem hzero
    · exact Or.inr (Or.inr ⟨by omega, by omega, Or.inr hsome⟩)
  · have hrc : rc = 0 := if_neg hpos
    have hnil : acl.paths = [] := List.length_eq_zero_iff.mp (by omega)
    exact Or.inr (Or.inr ⟨by omega, fun hand => hpos hand.1, Or.inl hnil⟩)

/-- An ACL without an error matches exactly when its criteria hold. -/
theorem verdict_eq_one_iff (acl : Acl) (h : 0 ≤ verdict m path ps callerUid callerGid acl) :
    verdict m path ps callerUid callerGid acl = 1 ↔ Selects m path ps callerUid callerGid acl := by
  have huid : acl.uid.any (· ≠ callerUid) = true ↔ ¬∀ uid ∈ acl.uid, uid = callerUid := by
    cases acl.uid <;> simp
  have hgid : acl.gid.any (· ≠ callerGid) = true ↔ ¬∀ gid ∈ acl.gid, gid = callerGid := by
    cases acl.gid <;> simp
  have hpaths := paths_cases m path acl
  rw [Selects]
  rw [verdict] at h ⊢
  dsimp only at h hpaths ⊢
  generalize (if acl.paths.length > 0 then matchFirstRegex m.regexec path acl.paths else 0) = rc
    at h hpaths ⊢
  generalize m.matchProcess acl ps callerUid callerGid = rc' at h ⊢
  by_cases hu : acl.uid.any (· ≠ callerUid) = true
  · rw [if_pos hu]
    exact iff_of_false Int.zero_ne_one (fun hand => huid.mp hu hand.1)
  · rw [if_neg hu] at h ⊢
    have hu' := not_not.mp (fun hnot => hu (huid.mpr hnot))
    by_cases hg : acl.gid.any (· ≠ callerGid) = true
    · rw [if_pos hg]
      exact iff_of_false Int.zero_ne_one (fun hand => hgid.mp hg hand.2.1)
    · rw [if_neg hg] at h ⊢
      have hg' := not_not.mp (fun hnot => hg (hgid.mpr hnot))
      rcases hpaths with ⟨herr, hin⟩ | ⟨hout, hno⟩ | ⟨hrc, hin, hyes⟩
      · rw [if_neg hin, if_pos herr] at h
        omega
      · rw [if_pos hout]
        exact iff_of_false Int.zero_ne_one (fun hand => hno hand.2.2.1)
      · rw [if_neg hin, if_neg hrc] at h ⊢
        split_ifs at h ⊢ with hzero hneg
        · exact iff_of_false Int.zero_ne_one (fun hand => by omega)
        · omega
        · exact iff_of_true rfl ⟨hu', hg', hyes, by omega⟩

theorem verdict_le_one (acl : Acl) : verdict m path ps callerUid callerGid acl ≤ 1 := by
  rw [verdict]
  dsimp only
  split_ifs <;> omega

/-- The next match is the first ACL that is not passed over. -/
theorem findNextLoop_append (pre : List Acl) (i : ℕ)
    (hpre : ∀ acl ∈ pre, verdict m path ps callerUid callerGid acl = 0) (rest : List Acl) :
    findNextLoop m path ps callerUid callerGid (pre ++ rest) i =
      findNextLoop m path ps callerUid callerGid rest (i + pre.length) := by
  induction pre generalizing i with
  | nil => rfl
  | cons acl pre ih =>
    rw [List.cons_append, findNextLoop_cons, if_pos (hpre acl List.mem_cons_self),
      ih (i + 1) (fun x hx => hpre x (List.mem_cons_of_mem _ hx)), List.length_cons,
      show i + 1 + pre.length = i + (pre.length + 1) by omega]

theorem applied_append (pre : List Acl)
    (hpre : ∀ acl ∈ pre, verdict m path ps callerUid callerGid acl = 0) (rest : List Acl)
    (found : Bool) (sb : Stat) :
    applied m path ps callerUid callerGid (pre ++ rest) found sb =
      applied m path ps callerUid callerGid rest found sb := by
  induction pre with
  | nil => rfl
  | cons acl pre ih =>
    rw [List.cons_append, applied, if_pos (hpre acl List.mem_cons_self)]
    exact ih (fun x hx => hpre x (List.mem_cons_of_mem _ hx))

/-- The repeated search comes to the same as going through the ACLs one by one. -/
theorem applyAllLoop_eq (acls : List Acl) (fuel aclOffset : ℕ) (found : Bool) (sb : Stat)
    (hoff : aclOffset ≤ acls.length) (hfuel : acls.length - aclOffset < fuel) :
    applyAllLoop m path ps callerUid callerGid acls fuel aclOffset found sb =
      applied m path ps callerUid callerGid (acls.drop aclOffset) found sb := by
  induction fuel generalizing aclOffset found sb with
  | zero => omega
  | succ fuel ih =>
    rw [applyAllLoop]
    by_cases hlt : aclOffset < acls.length
    · rw [if_pos hlt, findNext]
      have hlen : (acls.drop aclOffset).length = acls.length - aclOffset := List.length_drop
      rcases Data.forall_or_first (fun acl => verdict m path ps callerUid callerGid acl = 0)
        (acls.drop aclOffset) with hall | ⟨pre, acl, rest, hdrop, hpre, hacl⟩
      · have hfind := findNextLoop_append m path ps callerUid callerGid _ 0 hall []
        have happ := applied_append m path ps callerUid callerGid _ hall [] found sb
        rw [List.append_nil] at hfind happ
        rw [hfind, happ, findNextLoop, Nat.zero_add, hlen, if_pos rfl, applied]
      · have hfind := findNextLoop_append m path ps callerUid callerGid pre 0 hpre (acl :: rest)
        have happ := applied_append m path ps callerUid callerGid pre hpre (acl :: rest) found sb
        have hget : acls[aclOffset + pre.length]? = some acl := by
          rw [← List.getElem?_drop, hdrop, List.getElem?_append_right le_rfl, Nat.sub_self]
          rfl
        have hnext : acls.drop (aclOffset + pre.length + 1) = rest := by
          rw [Nat.add_assoc, ← List.drop_drop, hdrop, List.drop_length_add_append]
          rfl
        have hsize : pre.length + 1 + rest.length = acls.length - aclOffset := by
          rw [← hlen, hdrop, List.length_append, List.length_cons]
          omega
        rw [hdrop, hfind, happ, findNextLoop_cons, if_neg hacl, applied, if_neg hacl, Nat.zero_add]
        by_cases hneg : verdict m path ps callerUid callerGid acl < 0
        · rw [if_pos hneg, if_pos hneg, if_neg (by omega), if_pos hneg]
        · rw [if_neg hneg, if_neg hneg, if_neg (by omega), if_neg (by omega), Int.toNat_natCast, hget]
          dsimp only
          rw [ih _ true _ (by omega) (by omega), hnext]
    · rw [if_neg hlt, List.drop_eq_nil_of_le (by omega), applied]

/-- Without errors, the ACLs that match are applied in order. -/
theorem applied_of_no_error (acls : List Acl)
    (h : ∀ acl ∈ acls, 0 ≤ verdict m path ps callerUid callerGid acl) (found : Bool) (sb : Stat) :
    applied m path ps callerUid callerGid acls found sb =
      (if found = true ∨ ∃ acl ∈ acls, Selects m path ps callerUid callerGid acl then 1 else 0,
        (acls.filter (Selects m path ps callerUid callerGid)).foldl
          (fun sb acl => aclApply callerUid callerGid acl sb) sb) := by
  induction acls generalizing found sb with
  | nil => simp [applied]
  | cons acl rest ih =>
    have hacl := h acl List.mem_cons_self
    have hrest := ih (fun x hx => h x (List.mem_cons_of_mem _ hx))
    have hone := verdict_eq_one_iff m path ps callerUid callerGid acl hacl
    have hle := verdict_le_one m path ps callerUid callerGid acl
    rw [applied]
    by_cases hsel : Selects m path ps callerUid callerGid acl
    · rw [hone.mpr hsel, if_neg Int.one_ne_zero, if_neg (by decide), hrest,
        List.filter_cons_of_pos (by simpa using hsel), List.foldl_cons]
      simp [hsel]
    · have hzero : verdict m path ps callerUid callerGid acl = 0 := by
        have hne : verdict m path ps callerUid callerGid acl ≠ 1 := fun heq => hsel (hone.mp heq)
        omega
      rw [if_pos hzero, hrest, List.filter_cons_of_neg (by simpa using hsel)]
      simp [hsel]

/-- At the first ACL with an error the ACLs before it have been applied. -/
theorem applied_of_error (pre : List Acl) (acl : Acl) (rest : List Acl)
    (hpre : ∀ x ∈ pre, 0 ≤ verdict m path ps callerUid callerGid x)
    (hacl : verdict m path ps callerUid callerGid acl < 0) (found : Bool) (sb : Stat) :
    (applied m path ps callerUid callerGid (pre ++ acl :: rest) found sb).1 =
      verdict m path ps callerUid callerGid acl := by
  induction pre generalizing found sb with
  | nil => rw [List.nil_append, applied, if_neg hacl.ne, if_pos hacl]
  | cons x pre ih =>
    have hx := hpre x List.mem_cons_self
    rw [List.cons_append, applied, if_neg (not_lt.mpr hx)]
    split_ifs
    · exact ih (fun y hy => hpre y (List.mem_cons_of_mem _ hy)) found sb
    · exact ih (fun y hy => hpre y (List.mem_cons_of_mem _ hy)) true _

theorem applyAll_eq (defaultPolicy : Int) (acls : List Acl) (hne : acls ≠ []) (sb : Stat) :
    applyAll m path ps callerUid callerGid defaultPolicy acls sb =
      applied m path ps callerUid callerGid acls false sb := by
  rw [applyAll, if_neg (List.length_pos_of_ne_nil hne).ne',
    applyAllLoop_eq m path ps callerUid callerGid acls _ 0 false sb (Nat.zero_le _) (by omega),
    List.drop_zero]

end Fold

/-- Only the owner, the group and the mode may differ. -/
def SameRest (sb sb' : Stat) : Prop :=
  sb' = { sb with uid := sb'.uid, gid := sb'.gid, mode := sb'.mode }

theorem SameRest.trans {a b c : Stat} (hab : SameRest a b) (hbc : SameRest b c) : SameRest a c := by
  rw [SameRest] at hab hbc ⊢
  rw [hbc, hab]

def setsUid (callerUid : ℕ) (acl : Acl) : Option ℕ :=
  match acl.setuid, acl.uid with
  | some setuid, some uid => if uid = callerUid then some setuid else none
  | _, _ => none

def setsGid (callerGid : ℕ) (acl : Acl) : Option ℕ :=
  match acl.setgid, acl.gid with
  | some setgid, some gid => if gid = callerGid then some setgid else none
  | _, _ => none

theorem doSetUser_eq (acl : Acl) (callerUid : ℕ) (sb : Stat) :
    doSetUser acl callerUid sb = { sb with uid := (setsUid callerUid acl).getD sb.uid } := by
  unfold doSetUser setsUid
  split
  · split_ifs <;> rfl
  · rfl

theorem doSetGroup_eq (acl : Acl) (callerGid : ℕ) (sb : Stat) :
    doSetGroup acl callerGid sb = { sb with gid := (setsGid callerGid acl).getD sb.gid } := by
  unfold doSetGroup setsGid
  split
  · split_ifs <;> rfl
  · rfl

theorem doSetMode_eq (acl : Acl) (sb : Stat) :
    doSetMode acl sb =
      { sb with mode := acl.setmode.elim sb.mode (fun s => sb.mode &&& ~~~0o777#32 ||| s) } := by
  unfold doSetMode
  cases acl.setmode <;> rfl

theorem aclApply_eq (callerUid callerGid : ℕ) (acl : Acl) (sb : Stat) :
    aclApply callerUid callerGid acl sb =
      { sb with
        uid := (setsUid callerUid acl).getD sb.uid
        gid := (setsGid callerGid acl).getD sb.gid
        mode := acl.setmode.elim sb.mode (fun s => sb.mode &&& ~~~0o777#32 ||| s) } := by
  rw [aclApply, doSetMode_eq, doSetGroup_eq, doSetUser_eq]

theorem sameRest_aclApply (callerUid callerGid : ℕ) (acl : Acl) (sb : Stat) :
    SameRest sb (aclApply callerUid callerGid acl sb) := by
  rw [aclApply_eq]
  rfl

def OnlyPermissions (acl : Acl) : Prop := ∀ setmode ∈ acl.setmode, setmode &&& ~~~0o777#32 = 0

theorem mode_aclApply (callerUid callerGid : ℕ) (acl : Acl) (hacl : OnlyPermissions acl) (sb : Stat) :
    (aclApply callerUid callerGid acl sb).mode &&& ~~~0o777#32 = sb.mode &&& ~~~0o777#32 := by
  rw [aclApply_eq]
  cases hset : acl.setmode with
  | none => rfl
  | some setmode =>
    have hclear := hacl setmode (by rw [hset]; rfl)
    change (sb.mode &&& ~~~0o777#32 ||| setmode) &&& ~~~0o777#32 = _
    rw [BitVec.and_or_distrib_right, hclear, BitVec.and_assoc, BitVec.and_self]
    exact BitVec.or_zero

theorem sameRest_foldl (callerUid callerGid : ℕ) (acls : List Acl) (sb : Stat) :
    SameRest sb (acls.foldl (fun sb acl => aclApply callerUid callerGid acl sb) sb) := by
  induction acls generalizing sb with
  | nil => rfl
  | cons acl rest ih => exact (sameRest_aclApply callerUid callerGid acl sb).trans (ih _)

theorem mode_foldl (callerUid callerGid : ℕ) (acls : List Acl)
    (hacls : ∀ acl ∈ acls, OnlyPermissions acl) (sb : Stat) :
    (acls.foldl (fun sb acl => aclApply callerUid callerGid acl sb) sb).mode &&& ~~~0o777#32 =
      sb.mode &&& ~~~0o777#32 := by
  induction acls generalizing sb with
  | nil => rfl
  | cons acl rest ih =>
    rw [List.foldl_cons, ih (fun x hx => hacls x (List.mem_cons_of_mem _ hx)),
      mode_aclApply callerUid callerGid acl (hacls acl List.mem_cons_self)]

end Vdev.AccessControl
