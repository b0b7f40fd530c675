import Vdev.AclFile
import Vdev.Paths

/-!
The access checks of vdevfs (fs/fs.c). `vdevfs_access_check`, `vdevfs_stat` and
`vdevfs_readdir` evaluate the ACLs for a caller. Whether a path is shown does not
depend on the stat buffer that the evaluation starts from, as long as it has a
permission bit: it is decided by the ACLs that match, and of these by the last one
that sets a mode. The listing evaluates the ACLs for another path than that of the
child, and the stat buffer of the caller is not the one that the ACLs change.
-/
namespace Vdev.Vdevfs

open CString AccessControl

section Checks

variable (m : Matchers) (defaultPolicy : Int) (acls : List Acl) (caller : Caller)

/-- `vdevfs_access_check`. -/
def accessCheck (path : CStr) : Int :=
  match caller.pstat with
  | .error _ => Errno.eio.rc
  | .ok ps =>
    let (rc, sb) := applyAll m path ps caller.uid caller.gid defaultPolicy acls { mode := 0o777#32 }
    if rc < 0 then Errno.eio.rc
    else if rc = 0 ∨ sb.mode &&& 0o777#32 = 0 then Errno.eperm.rc
    else 0

/-- `vdevfs_stat` at a path, on the entry there if there is one, with the stat buffer
that fskit has filled in. -/
def vdevfsStat (path : CStr) (fent : Option Stat) (sb : Stat) : Int × Stat :=
  if fent.isNone then (Errno.enoent.rc, sb)
  else if accessCheck m defaultPolicy acls caller path < 0 then (Errno.enoent.rc, sb)
  else (0, sb)

/-- What fskit tells a handler about the routed entry, and `fskit_fullpath`. -/
structure Route where
  path : CStr
  name : CStr
  fullpath : CStr → CStr → CStr

/-- The first loop of `vdevfs_readdir`, at index `i`, with the indices omitted so far.
`children` finds the stat of a child by its name. -/
def readdirLoop (ps : Process) (grp : Route) (children : CStr → Option Stat) :
    List CStr → ℕ → List ℕ → Int × List ℕ
  | [], _, omitted => (0, omitted)
  | name :: rest, i, omitted =>
    if name = ".".toList ∨ name = "..".toList then
      readdirLoop ps grp children rest (i + 1) omitted
    else
      match children name with
      | none => readdirLoop ps grp children rest (i + 1) omitted
      | some fskitSb =>
        let sb : Stat := { uid := fskitSb.uid, gid := fskitSb.gid, mode := fskitSb.mode }
        let childPath := grp.fullpath grp.path grp.name
        let (rc, sb) := applyAll m childPath ps caller.uid caller.gid defaultPolicy acls sb
        if rc < 0 then (Errno.eio.rc, omitted)
        else if rc = 0 ∨ sb.mode &&& 0o777#32 = 0 then
          readdirLoop ps grp children rest (i + 1) (omitted ++ [i])
        else readdirLoop ps grp children rest (i + 1) omitted

/-- `fskit_readdir_omit`. -/
def readdirOmit (dirents : List (Option CStr)) (i : ℕ) : List (Option CStr) := dirents.set i none

/-- `vdevfs_readdir`: the return code, and the entries where the omitted ones are gone. -/
def vdevfsReaddir (grp : Route) (children : CStr → Option Stat) (dirents : List CStr) :
    Int × List (Option CStr) :=
  match caller.pstat with
  | .error _ => (Errno.eio.rc, dirents.map some)
  | .ok ps =>
    let (rc, omitted) := readdirLoop m defaultPolicy acls caller ps grp children dirents 0 []
    (rc, omitted.foldl readdirOmit (dirents.map some))

end Checks

def lastSet {α : Type} (f : Acl → Option α) (acls : List Acl) : Option α :=
  (acls.filterMap f).getLast?

theorem lastSet_cons {α : Type} (f : Acl → Option α) (acl : Acl) (acls : List Acl) (default : α) :
    (lastSet f (acl :: acls)).getD default = (lastSet f acls).getD ((f acl).getD default) := by
  unfold lastSet
  cases hf : f acl with
  | none =>
    rw [List.filterMap_cons_none hf]
    rfl
  | some x =>
    rw [List.filterMap_cons_some hf, List.getLast?_cons]
    rfl

/-- The mode that `vdev_acl_do_set_mode` leaves. -/
def setMode (mode setmode : BitVec 32) : BitVec 32 := mode &&& ~~~0o777#32 ||| setmode

theorem setMode_low (mode setmode : BitVec 32) :
    setMode mode setmode &&& 0o777#32 = setmode &&& 0o777#32 := by
  rw [setMode, BitVec.and_or_distrib_right, BitVec.and_assoc,
    show ~~~0o777#32 &&& 0o777#32 = 0#32 by decide, BitVec.and_zero, BitVec.zero_or]

/-- The permission bits are those that were set last. -/
theorem foldl_setMode_low (setmodes : List (BitVec 32)) (mode : BitVec 32) :
    setmodes.foldl setMode mode &&& 0o777#32 = setmodes.getLast?.getD mode &&& 0o777#32 := by
  induction setmodes generalizing mode with
  | nil => rfl
  | cons setmode rest ih =>
    rw [List.foldl_cons, ih, List.getLast?_cons]
    cases rest.getLast? with
    | none => exact setMode_low mode setmode
    | some last => rfl

theorem getLsbD_permissions (i : ℕ) : (0o777#32).getLsbD i = decide (i < 9) := by
  rw [BitVec.getLsbD_ofNat, show 0o777 = 2 ^ 9 - 1 by rfl, Nat.testBit_two_pow_sub_one]
  by_cases h : i < 9
  · simp [h, show i < 32 by omega]
  · simp [h]

/-- The other bits are those of all the modes. -/
theorem foldl_setMode_high (setmodes : List (BitVec 32)) (mode : BitVec 32) (i : ℕ) (hi : ¬i < 9)
    (hlt : i < 32) : (setmodes.foldl setMode mode).getLsbD i =
      (mode.getLsbD i || setmodes.any (·.getLsbD i)) := by
  induction setmodes generalizing mode with
  | nil => simp
  | cons setmode rest ih =>
    have hbit : (setMode mode setmode).getLsbD i = (mode.getLsbD i || setmode.getLsbD i) := by
      rw [setMode, BitVec.getLsbD_or, BitVec.getLsbD_and, BitVec.getLsbD_not, getLsbD_permissions]
      simp [hi, hlt]
    rw [List.foldl_cons, ih, hbit, List.any_cons, Bool.or_assoc]

/-- Setting modes leaves a mode as it is when the last one has its permission bits and
none has another bit that the mode lacks. -/
theorem foldl_setMode_eq_self (setmodes : List (BitVec 32)) (mode : BitVec 32) :
    setmodes.foldl setMode mode = mode ↔
      (∀ setmode ∈ setmodes.getLast?, setmode &&& 0o777#32 = mode &&& 0o777#32) ∧
      ∀ setmode ∈ setmodes, setmode &&& ~~~0o777#32 &&& ~~~mode = 0#32 := by
  have hlow := foldl_setMode_low setmodes mode
  constructor
  · intro heq
    constructor
    · intro setmode hset
      rw [heq, hset] at hlow
      exact hlow.symm
    · intro setmode hmem
      refine BitVec.eq_of_getLsbD_eq (fun i hlt => ?_)
      rw [BitVec.getLsbD_and, BitVec.getLsbD_and, BitVec.getLsbD_not, BitVec.getLsbD_not,
        getLsbD_permissions]
      by_cases hi : i < 9
      · simp [hi]
      · have hbit := foldl_setMode_high setmodes mode i hi hlt
        rw [heq] at hbit
        cases hs : setmode.getLsbD i with
        | false => simp
        | true =>
          rw [List.any_eq_true.mpr ⟨setmode, hmem, hs⟩, Bool.or_true] at hbit
          simp [hbit]
  · rintro ⟨hlast, hrest⟩
    have hmode : setmodes.getLast?.getD mode &&& 0o777#32 = mode &&& 0o777#32 := by
      cases hget : setmodes.getLast? with
      | none => rfl
      | some setmode => exact hlast setmode hget
    refine BitVec.eq_of_getLsbD_eq (fun i hlt => ?_)
    by_cases hi : i < 9
    · have hbit := congrArg (BitVec.getLsbD · i) (hlow.trans hmode)
      simpa [BitVec.getLsbD_and, getLsbD_permissions, hi] using hbit
    · rw [foldl_setMode_high setmodes mode i hi hlt]
      cases hbit : mode.getLsbD i with
      | true => rfl
      | false =>
        -- a bit of one of the modes would be a bit of the mode
        rw [Bool.false_or, List.any_eq_false]
        intro setmode hmem hs
        have hzero : (setmode &&& ~~~0o777#32 &&& ~~~mode).getLsbD i = (0#32).getLsbD i := by
          rw [hrest setmode hmem]
        rw [BitVec.getLsbD_and, BitVec.getLsbD_and, BitVec.getLsbD_not, BitVec.getLsbD_not,
          getLsbD_permissions, hs, hbit] at hzero
        simp [hi, hlt] at hzero

section Folds

variable (callerUid callerGid : ℕ)

theorem foldl_uid (acls : List Acl) (sb : Stat) :
    (acls.foldl (fun sb acl => aclApply callerUid callerGid acl sb) sb).uid =
      (lastSet (setsUid callerUid) acls).getD sb.uid := by
  induction acls generalizing sb with
  | nil => rfl
  | cons acl rest ih => rw [List.foldl_cons, ih, lastSet_cons, aclApply_eq]

theorem foldl_gid (acls : List Acl) (sb : Stat) :
    (acls.foldl (fun sb acl => aclApply callerUid callerGid acl sb) sb).gid =
      (lastSet (setsGid callerGid) acls).getD sb.gid := by
  induction acls generalizing sb with
  | nil => rfl
  | cons acl rest ih => rw [List.foldl_cons, ih, lastSet_cons, aclApply_eq]

theorem foldl_mode (acls : List Acl) (sb : Stat) :
    (acls.foldl (fun sb acl => aclApply callerUid callerGid acl sb) sb).mode =
      (acls.filterMap (·.setmode)).foldl setMode sb.mode := by
  induction acls generalizing sb with
  | nil => rfl
  | cons acl rest ih =>
    rw [List.foldl_cons, ih, aclApply_eq]
    cases hset : acl.setmode with
    | none =>
      rw [List.filterMap_cons_none hset]
      rfl
    | some setmode =>
      rw [List.filterMap_cons_some hset]
      rfl

structure SetsNothing (acls : List Acl) (sb : Stat) : Prop where
  uid : ∀ uid ∈ lastSet (setsUid callerUid) acls, uid = sb.uid
  gid : ∀ gid ∈ lastSet (setsGid callerGid) acls, gid = sb.gid
  permissions : ∀ setmode ∈ lastSet (·.setmode) acls, setmode &&& 0o777#32 = sb.mode &&& 0o777#32
  mode : ∀ acl ∈ acls, ∀ setmode ∈ acl.setmode, setmode &&& ~~~0o777#32 &&& ~~~sb.mode = 0#32

theorem getD_eq_iff {α : Type} (o : Option α) (x : α) : o.getD x = x ↔ ∀ y ∈ o, y = x := by
  cases o <;> simp

theorem foldl_eq_self_iff (acls : List Acl) (sb : Stat) :
    acls.foldl (fun sb acl => aclApply callerUid callerGid acl sb) sb = sb ↔
      SetsNothing callerUid callerGid acls sb := by
  have hrest := sameRest_foldl callerUid callerGid acls sb
  have huid := foldl_uid callerUid callerGid acls sb
  have hgid := foldl_gid callerUid callerGid acls sb
  have hmode := foldl_mode callerUid callerGid acls sb
  have hmodes := foldl_setMode_eq_self (acls.filterMap (·.setmode)) sb.mode
  rw [← hmode] at hmodes
  constructor
  · intro heq
    rw [heq] at huid hgid hmodes
    obtain ⟨hlast, hbits⟩ := hmodes.mp rfl
    exact {
      uid := (getD_eq_iff _ _).mp huid.symm
      gid := (getD_eq_iff _ _).mp hgid.symm
      permissions := hlast
      mode := fun acl hacl setmode hset => hbits setmode (List.mem_filterMap.mpr ⟨acl, hacl, hset⟩) }
  · rintro ⟨hu, hg, hlast, hbits⟩
    rw [hrest, huid, hgid, (getD_eq_iff _ _).mpr hu, (getD_eq_iff _ _).mpr hg, hmodes.mpr ⟨hlast, ?_⟩]
    intro setmode hset
    obtain ⟨acl, hacl, hset⟩ := List.mem_filterMap.mp hset
    exact hbits acl hacl setmode hset

end Folds

section Visibility

variable (m : Matchers) (defaultPolicy : Int) (acls : List Acl) (path : CStr) (ps : Process)
  (callerUid callerGid : ℕ)

def matching : List Acl := acls.filter (Selects m path ps callerUid callerGid)

def Fails : Prop :=
  (acls = [] ∧ defaultPolicy < 0) ∨ ∃ acl ∈ acls, verdict m path ps callerUid callerGid acl < 0

/-- The ACLs show a path: one of them matches, and the last mode set, if any, has a
permission bit. Without ACLs it is the default policy. -/
def Shows : Prop :=
  (acls = [] ∧ 0 < defaultPolicy) ∨
  (matching m acls path ps callerUid callerGid ≠ [] ∧
    ∀ setmode ∈ lastSet (·.setmode) (matching m acls path ps callerUid callerGid),
      setmode &&& 0o777#32 ≠ 0)

instance : Decidable (Fails m defaultPolicy acls path ps callerUid callerGid) :=
  inferInstanceAs (Decidable (_ ∨ _))

instance : Decidable (Shows m defaultPolicy acls path ps callerUid callerGid) :=
  haveI := Option.decidableForallMem (p := fun setmode => setmode &&& 0o777#32 ≠ 0)
    (lastSet (·.setmode) (matching m acls path ps callerUid callerGid))
  inferInstanceAs (Decidable (_ ∨ _ ∧ _))

theorem matching_ne_nil_iff : matching m acls path ps callerUid callerGid ≠ [] ↔
    ∃ acl ∈ acls, Selects m path ps callerUid callerGid acl := by
  rw [matching, ne_eq, List.filter_eq_nil_iff]
  simp

/-- Without ACLs that fail, the matching ones are applied in order. -/
theorem applyAll_of_no_error (hne : acls ≠ [])
    (hok : ∀ acl ∈ acls, 0 ≤ verdict m path ps callerUid callerGid acl) (sb : Stat) :
    applyAll m path ps callerUid callerGid defaultPolicy acls sb =
      (if ∃ acl ∈ acls, Selects m path ps callerUid callerGid acl then 1 else 0,
        (matching m acls path ps callerUid callerGid).foldl
          (fun sb acl => aclApply callerUid callerGid acl sb) sb) := by
  rw [applyAll_eq m path ps callerUid callerGid defaultPolicy acls hne,
    applied_of_no_error m path ps callerUid callerGid acls hok]
  simp [matching]

theorem foldl_mode_low (sb : Stat) :
    ((matching m acls path ps callerUid callerGid).foldl
      (fun sb acl => aclApply callerUid callerGid acl sb) sb).mode &&& 0o777#32 =
      (lastSet (·.setmode) (matching m acls path ps callerUid callerGid)).getD sb.mode &&&
        0o777#32 := by
  rw [foldl_mode, foldl_setMode_low]
  rfl

/-- Whether the evaluation fails does not depend on the stat buffer. -/
theorem applyAll_neg_iff (sb : Stat) :
    (applyAll m path ps callerUid callerGid defaultPolicy acls sb).1 < 0 ↔
      Fails m defaultPolicy acls path ps callerUid callerGid := by
  by_cases hne : acls = []
  · rw [applyAll, Fails, hne]
    simp
  rcases Data.forall_or_first (fun acl => 0 ≤ verdict m path ps callerUid callerGid acl) acls with
    hnone | ⟨pre, acl, rest, hacls, hpre, hacl⟩
  · rw [applyAll_of_no_error m defaultPolicy acls path ps callerUid callerGid hne hnone]
    refine iff_of_false ?_ ?_
    · dsimp only
      split_ifs <;> decide
    · rintro (⟨hnil, -⟩ | ⟨acl, hmem, hneg⟩)
      · exact hne hnil
      · exact not_lt.mpr (hnone acl hmem) hneg
  · have hneg := not_le.mp hacl
    have hmem : acl ∈ acls := by
      rw [hacls]
      exact List.mem_append_right _ List.mem_cons_self
    refine iff_of_true ?_ (Or.inr ⟨acl, hmem, hneg⟩)
    rw [applyAll_eq m path ps callerUid callerGid defaultPolicy acls hne, hacls,
      applied_of_error m path ps callerUid callerGid pre acl rest hpre hneg]
    exact hneg

/-- From any stat buffer with a permission bit, the evaluation hides the paths that the
ACLs do not show. -/
theorem applyAll_hides_iff (hok : ¬Fails m defaultPolicy acls path ps callerUid callerGid)
    (sb : Stat) (hsb : sb.mode &&& 0o777#32 ≠ 0) :
    ((applyAll m path ps callerUid callerGid defaultPolicy acls sb).1 = 0 ∨
      (applyAll m path ps callerUid callerGid defaultPolicy acls sb).2.mode &&& 0o777#32 = 0) ↔
    ¬Shows m defaultPolicy acls path ps callerUid callerGid := by
  by_cases hne : acls = []
  · have hnneg : ¬defaultPolicy < 0 := fun hneg => hok (Or.inl ⟨hne, hneg⟩)
    rw [applyAll, Shows, matching, hne, if_pos List.length_nil]
    constructor
    · rintro (hzero | hbits)
      · rintro (⟨-, hpos⟩ | ⟨hnil, -⟩)
        · exact hpos.ne' hzero
        · exact hnil rfl
      · exact (hsb hbits).elim
    · intro hnot
      refine Or.inl (le_antisymm ?_ (not_lt.mp hnneg))
      exact not_lt.mp (fun hpos => hnot (Or.inl ⟨rfl, hpos⟩))
  · have hnone : ∀ acl ∈ acls, 0 ≤ verdict m path ps callerUid callerGid acl :=
      fun acl hmem => not_lt.mp (fun hlt => hok (Or.inr ⟨acl, hmem, hlt⟩))
    rw [applyAll_of_no_error m defaultPolicy acls path ps callerUid callerGid hne hnone, Shows,
      foldl_mode_low, matching_ne_nil_iff]
    dsimp only
    by_cases hex : ∃ acl ∈ acls, Selects m path ps callerUid callerGid acl
    · rw [if_pos hex]
      cases lastSet (·.setmode) (matching m acls path ps callerUid callerGid) with
      | none => simpa [hne, hex] using hsb
      | some setmode => simp [hne, hex]
    · rw [if_neg hex]
      simp [hne, hex]

end Visibility

section Handlers

variable (m : Matchers) (defaultPolicy : Int) (acls : List Acl) (caller : Caller)

/-- The access check grants what the ACLs show. -/
theorem accessCheck_eq_zero_iff (path : CStr) :
    accessCheck m defaultPolicy acls caller path = 0 ↔
      ∃ ps, caller.pstat = .ok ps ∧ ¬Fails m defaultPolicy acls path ps caller.uid caller.gid ∧
        Shows m defaultPolicy acls path ps caller.uid caller.gid := by
  unfold accessCheck
  cases hps : caller.pstat with
  | error rc =>
    refine iff_of_false Errno.eio.rc_ne_zero ?_
    rintro ⟨ps, h, -⟩
    cases h
  | ok ps =>
    dsimp only
    have hneg := applyAll_neg_iff m defaultPolicy acls path ps caller.uid caller.gid
      { mode := 0o777#32 }
    by_cases hfail : Fails m defaultPolicy acls path ps caller.uid caller.gid
    · rw [if_pos (hneg.mpr hfail)]
      refine iff_of_false (by decide) ?_
      rintro ⟨ps', h, hok, -⟩
      cases h
      exact hok hfail
    · have hhides := applyAll_hides_iff m defaultPolicy acls path ps caller.uid caller.gid hfail
        { mode := 0o777#32 } (by decide)
      rw [if_neg (fun hlt => hfail (hneg.mp hlt))]
      split_ifs with hhide
      · refine iff_of_false (by decide) ?_
        rintro ⟨ps', h, -, hshow⟩
        cases h
        exact hhides.mp hhide hshow
      · exact iff_of_true rfl ⟨ps, rfl, hfail, not_not.mp (fun hno => hhide (hhides.mpr hno))⟩

theorem accessCheck_le_zero (path : CStr) : accessCheck m defaultPolicy acls caller path ≤ 0 := by
  unfold accessCheck
  split
  · decide
  · dsimp only
    split_ifs <;> decide

theorem vdevfsStat_eq (path : CStr) (fent sb : Stat) :
    vdevfsStat m defaultPolicy acls caller path (some fent) sb =
      (if accessCheck m defaultPolicy acls caller path = 0 then 0 else Errno.enoent.rc, sb) := by
  have hle := accessCheck_le_zero m defaultPolicy acls caller path
  unfold vdevfsStat
  rw [if_neg (by simp)]
  by_cases hzero : accessCheck m defaultPolicy acls caller path = 0
  · rw [if_pos hzero, hzero, if_neg (lt_irrefl 0)]
  · rw [if_neg hzero, if_pos (lt_of_le_of_ne hle hzero)]

/-- The listing omits a name: that of a child which the evaluation hides. -/
def Omits (ps : Process) (grp : Route) (children : CStr → Option Stat) (name : CStr) : Prop :=
  name ≠ ".".toList ∧ name ≠ "..".toList ∧ ∃ fskitSb, children name = some fskitSb ∧
    let result := applyAll m (grp.fullpath grp.path grp.name) ps caller.uid caller.gid
      defaultPolicy acls { uid := fskitSb.uid, gid := fskitSb.gid, mode := fskitSb.mode }
    result.1 = 0 ∨ result.2.mode &&& 0o777#32 = 0

section Listing

variable (ps : Process) (grp : Route) (children : CStr → Option Stat)
  (hok : ¬Fails m defaultPolicy acls (grp.fullpath grp.path grp.name) ps caller.uid caller.gid)

include hok in
theorem readdirLoop_cons (name : CStr) (rest : List CStr) (i : ℕ) (omitted : List ℕ) :
    (Omits m defaultPolicy acls caller ps grp children name ∧
      readdirLoop m defaultPolicy acls caller ps grp children (name :: rest) i omitted =
        readdirLoop m defaultPolicy acls caller ps grp children rest (i + 1) (omitted ++ [i])) ∨
    (¬Omits m defaultPolicy acls caller ps grp children name ∧
      readdirLoop m defaultPolicy acls caller ps grp children (name :: rest) i omitted =
        readdirLoop m defaultPolicy acls caller ps grp children rest (i + 1) omitted) := by
  rw [readdirLoop]
  by_cases hdot : name = ".".toList ∨ name = "..".toList
  · rw [if_pos hdot]
    refine Or.inr ⟨?_, rfl⟩
    rintro ⟨hone, htwo, -⟩
    exact hdot.elim hone htwo
  rw [if_neg hdot]
  obtain ⟨hone, htwo⟩ := not_or.mp hdot
  cases hchild : children name with
  | none =>
    refine Or.inr ⟨?_, rfl⟩
    rintro ⟨-, -, fskitSb, hsome, -⟩
    cases hchild.symm.trans hsome
  | some fskitSb =>
    dsimp only
    rw [if_neg (fun hlt => hok ((applyAll_neg_iff m defaultPolicy acls _ ps _ _ _).mp hlt))]
    split_ifs with hhide
    · exact Or.inl ⟨⟨hone, htwo, fskitSb, hchild, hhide⟩, rfl⟩
    · refine Or.inr ⟨?_, rfl⟩
      rintro ⟨-, -, sb, hsome, hhide'⟩
      cases hchild.symm.trans hsome
      exact hhide hhide'

include hok in
/-- The indices that are omitted, without errors. -/
theorem mem_readdirLoop (names : List CStr) (i : ℕ) (omitted : List ℕ) (k : ℕ) :
    k ∈ (readdirLoop m defaultPolicy acls caller ps grp children names i omitted).2 ↔
      k ∈ omitted ∨ ∃ j name, k = i + j ∧ names[j]? = some name ∧
        Omits m defaultPolicy acls caller ps grp children name := by
  induction names generalizing i omitted with
  | nil => simp [readdirLoop]
  | cons name rest ih =>
    -- the first name is at index `i`, the others are those of the rest
    have hcons : (∃ j name', k = i + j ∧ (name :: rest)[j]? = some name' ∧
          Omits m defaultPolicy acls caller ps grp children name') ↔
        (k = i ∧ Omits m defaultPolicy acls caller ps grp children name) ∨
        ∃ j name', k = i + 1 + j ∧ rest[j]? = some name' ∧
          Omits m defaultPolicy acls caller ps grp children name' := by
      constructor
      · rintro ⟨j, name', hk, hget, homits⟩
        cases j with
        | zero =>
          cases hget
          exact Or.inl ⟨hk, homits⟩
        | succ j => exact Or.inr ⟨j, name', by omega, hget, homits⟩
      · rintro (⟨hk, homits⟩ | ⟨j, name', hk, hget, homits⟩)
        · exact ⟨0, name, hk, rfl, homits⟩
        · exact ⟨j + 1, name', by omega, hget, homits⟩
    rw [hcons]
    rcases readdirLoop_cons m defaultPolicy acls caller ps grp children hok name rest i omitted with
      ⟨homits, hstep⟩ | ⟨hkeeps, hstep⟩
    · rw [hstep, ih, List.mem_append, List.mem_singleton, or_assoc]
      simp only [homits, and_true]
    · rw [hstep, ih]
      simp only [hkeeps, and_false, false_or]

end Listing

/-- The entries that are left. -/
theorem mem_foldl_readdirOmit (omitted : List ℕ) (dirents : List (Option CStr)) (c : CStr) :
    some c ∈ omitted.foldl readdirOmit dirents ↔
      ∃ k, dirents[k]? = some (some c) ∧ k ∉ omitted := by
  induction omitted generalizing dirents with
  | nil => simp [List.mem_iff_getElem?]
  | cons i rest ih =>
    rw [List.foldl_cons, ih]
    refine exists_congr (fun k => ?_)
    rw [readdirOmit, List.getElem?_set, List.mem_cons, not_or]
    by_cases hk : i = k
    · subst hk
      simp
    · rw [if_neg hk]
      simp [Ne.symm hk]

theorem not_mem_vdevfsReaddir_iff (ps : Process) (hps : caller.pstat = .ok ps) (grp : Route)
    (children : CStr → Option Stat)
    (hok : ¬Fails m defaultPolicy acls (grp.fullpath grp.path grp.name) ps caller.uid caller.gid)
    (dirents : List CStr) (c : CStr) (hc : c ∈ dirents) :
    some c ∉ (vdevfsReaddir m defaultPolicy acls caller grp children dirents).2 ↔
      Omits m defaultPolicy acls caller ps grp children c := by
  have hindex := mem_readdirLoop m defaultPolicy acls caller ps grp children hok dirents 0 []
  rw [vdevfsReaddir, hps]
  dsimp only
  rw [mem_foldl_readdirOmit]
  constructor
  · intro hnone
    obtain ⟨k, hk⟩ := List.mem_iff_getElem?.mp hc
    have hmem := not_not.mp (fun hnot => hnone ⟨k, by rw [List.getElem?_map, hk]; rfl, hnot⟩)
    rcases (hindex k).mp hmem with hnil | ⟨j, name, rfl, hname, homits⟩
    · cases hnil
    · rw [Nat.zero_add] at hk
      cases hk.symm.trans hname
      exact homits
  · rintro homits ⟨k, hk, hnot⟩
    rw [List.getElem?_map] at hk
    obtain ⟨name, hname, hsome⟩ := Option.map_eq_some_iff.mp hk
    rw [Option.some.inj hsome] at hname
    exact hnot ((hindex k).mpr (Or.inr ⟨k, c, (Nat.zero_add k).symm, hname, homits⟩))

theorem omits_iff (ps : Process) (grp : Route) (children : CStr → Option Stat)
    (hok : ¬Fails m defaultPolicy acls (grp.fullpath grp.path grp.name) ps caller.uid caller.gid)
    (c : CStr) (hone : c ≠ ".".toList) (htwo : c ≠ "..".toList) (fskitSb : Stat)
    (hchild : children c = some fskitSb) (hbits : fskitSb.mode &&& 0o777#32 ≠ 0) :
    Omits m defaultPolicy acls caller ps grp children c ↔
      ¬Shows m defaultPolicy acls (grp.fullpath grp.path grp.name) ps caller.uid caller.gid := by
  have hhides := applyAll_hides_iff m defaultPolicy acls _ ps caller.uid caller.gid hok
    { uid := fskitSb.uid, gid := fskitSb.gid, mode := fskitSb.mode } hbits
  rw [← hhides]
  constructor
  · rintro ⟨-, -, sb, hsome, hhide⟩
    cases hchild.symm.trans hsome
    exact hhide
  · exact fun hhide => ⟨hone, htwo, fskitSb, hchild, hhide⟩

/-- The listing and `vdevfs_stat` agree about a child exactly when the ACLs show both or
neither of two paths: that of the child, and the one made with the name of the routed
entry, which the listing evaluates for every child. If the process of the caller is
not found they disagree: the listing omits nothing. -/
theorem listing_agrees_iff (grp : Route) (children : CStr → Option Stat) (dirents : List CStr)
    (c : CStr) (hc : c ∈ dirents) (hone : c ≠ ".".toList) (htwo : c ≠ "..".toList)
    (fskitSb : Stat) (hchild : children c = some fskitSb) (hbits : fskitSb.mode &&& 0o777#32 ≠ 0)
    (hok : ∀ ps, caller.pstat = .ok ps →
      ¬Fails m defaultPolicy acls (grp.fullpath grp.path grp.name) ps caller.uid caller.gid ∧
      ¬Fails m defaultPolicy acls (grp.fullpath grp.path c) ps caller.uid caller.gid) (sb : Stat) :
    (some c ∉ (vdevfsReaddir m defaultPolicy acls caller grp children dirents).2 ↔
      (vdevfsStat m defaultPolicy acls caller (grp.fullpath grp.path c) (children c) sb).1 =
        Errno.enoent.rc) ↔
    ∃ ps, caller.pstat = .ok ps ∧
      (Shows m defaultPolicy acls (grp.fullpath grp.path grp.name) ps caller.uid caller.gid ↔
        Shows m defaultPolicy acls (grp.fullpath grp.path c) ps caller.uid caller.gid) := by
  have hstat : (vdevfsStat m defaultPolicy acls caller (grp.fullpath grp.path c) (children c) sb).1 =
      Errno.enoent.rc ↔ ¬accessCheck m defaultPolicy acls caller (grp.fullpath grp.path c) = 0 := by
    rw [hchild, vdevfsStat_eq]
    dsimp only
    split_ifs with hzero
    · exact iff_of_false (by decide) (not_not.mpr hzero)
    · exact iff_of_true rfl hzero
  rw [hstat, accessCheck_eq_zero_iff]
  cases hps : caller.pstat with
  | error rc =>
    have hlisted : some c ∈ (vdevfsReaddir m defaultPolicy acls caller grp children dirents).2 := by
      rw [vdevfsReaddir, hps]
      exact List.mem_map_of_mem hc
    refine iff_of_false ?_ ?_
    · intro hagree
      refine hagree.mpr ?_ hlisted
      rintro ⟨ps, h, -⟩
      cases h
    · rintro ⟨ps, h, -⟩
      cases h
  | ok ps =>
    obtain ⟨hlist, hpath⟩ := hok ps hps
    rw [not_mem_vdevfsReaddir_iff m defaultPolicy acls caller ps hps grp children hlist dirents c hc,
      omits_iff m defaultPolicy acls caller ps grp children hlist c hone htwo fskitSb hchild hbits]
    simp [hpath, not_iff_not]

end Handlers

def whitelist : Acl := { uid := some 1000 }

/-- The device that the example configuration hides from the user. -/
def hiddenRandom : Acl :=
  { uid := some 1000, paths := [".*random".toList], setmode := some 0o000#32 }

def randomMatchers : Matchers :=
  codeMatchers (fun _ path => if path.any ("random".toList.isSuffixOf ·) then 0 else 1)
    (fun _ _ => .ok 0)

def shell : Process := ⟨42, "/bin/sh".toList, 7⟩

def user : Caller := ⟨1000, 1000, .ok shell⟩

def hw : Route := ⟨"/hw".toList, "hw".toList, Paths.fullpath⟩

def hwChildren (name : CStr) : Option Stat :=
  if name = "random".toList then some { mode := 0o020666#32 } else none

theorem listing_agrees_iff_whitelist :
    some "random".toList ∉
      (vdevfsReaddir randomMatchers 0 [whitelist] user hw hwChildren ["random".toList]).2 ↔
    (vdevfsStat randomMatchers 0 [whitelist] user (hw.fullpath hw.path "random".toList)
      (hwChildren "random".toList) {}).1 = Errno.enoent.rc := by
  refine (listing_agrees_iff randomMatchers 0 [whitelist] user hw hwChildren ["random".toList]
    "random".toList (by decide) (by decide) (by decide) { mode := 0o020666#32 } rfl (by decide)
    ?_ {}).mpr ⟨shell, rfl, by decide⟩
  intro ps hps
  cases hps
  decide

/-- The device is listed, and hidden from `vdevfs_stat`. -/
theorem listing_disagrees :
    let acls := [whitelist, hiddenRandom]
    let path := hw.fullpath hw.path "random".toList
    hwChildren "random".toList = some { mode := 0o020666#32 } ∧
    ¬Fails randomMatchers 0 acls (hw.fullpath hw.path hw.name) shell 1000 1000 ∧
    ¬Fails randomMatchers 0 acls path shell 1000 1000 ∧
    some "random".toList ∈
      (vdevfsReaddir randomMatchers 0 acls user hw hwChildren ["random".toList]).2 ∧
    (vdevfsStat randomMatchers 0 acls user path (hwChildren "random".toList) {}).1 =
      Errno.enoent.rc := by
  decide

section Handlers

variable (m : Matchers) (defaultPolicy : Int) (acls : List Acl) (caller : Caller)

/-- The stat buffer that the caller gets shows what the ACLs set exactly when they set
nothing but what it has already, or the entry is hidden. -/
theorem stat_shows_acls_iff (path : CStr) (sb : Stat) :
    ((vdevfsStat m defaultPolicy acls caller path (some sb) sb).1 = 0 →
      ∀ ps, caller.pstat = .ok ps →
        (vdevfsStat m defaultPolicy acls caller path (some sb) sb).2 =
          (matching m acls path ps caller.uid caller.gid).foldl
            (fun sb acl => aclApply caller.uid caller.gid acl sb) sb) ↔
    ∀ ps, caller.pstat = .ok ps → ¬Fails m defaultPolicy acls path ps caller.uid caller.gid →
      Shows m defaultPolicy acls path ps caller.uid caller.gid →
      SetsNothing caller.uid caller.gid (matching m acls path ps caller.uid caller.gid) sb := by
  have hzero : (vdevfsStat m defaultPolicy acls caller path (some sb) sb).1 = 0 ↔
      accessCheck m defaultPolicy acls caller path = 0 := by
    rw [vdevfsStat_eq]
    dsimp only
    split_ifs with h
    · exact iff_of_true rfl h
    · exact iff_of_false (by decide) h
  rw [hzero, accessCheck_eq_zero_iff, vdevfsStat_eq]
  constructor
  · intro h ps hps hfail hshow
    exact (foldl_eq_self_iff caller.uid caller.gid _ sb).mp
      (h ⟨ps, hps, hfail, hshow⟩ ps hps).symm
  · rintro h ⟨ps, hps, hfail, hshow⟩ ps' hps'
    cases hps.symm.trans hps'
    exact ((foldl_eq_self_iff caller.uid caller.gid _ sb).mpr (h ps hps hfail hshow)).symm

end Handlers

def owned : Acl := { uid := some 1000, setuid := some 1000 }

/-- The device still has the owner it had. -/
theorem stat_not_shows_acls :
    let sb : Stat := { mode := 0o020666#32 }
    let result := vdevfsStat randomMatchers 0 [owned] user "/hw/random".toList (some sb) sb
    result.1 = 0 ∧ result.2 = sb ∧
    result.2 ≠ (matching randomMatchers [owned] "/hw/random".toList shell 1000 1000).foldl
      (fun sb acl => aclApply 1000 1000 acl sb) sb := by
  decide

/-- Going through a list of ACLs comes to applying the matching ones in order. The ACLs
that a file was loaded into change the owner, the group and the permission bits. At
the first ACL with an error the result is negative, and the access is denied. -/
theorem applyAll_fold (m : Matchers) (path : CStr) (ps : Process) (callerUid callerGid : ℕ)
    (defaultPolicy : Int) (acls : List Acl) (hne : acls ≠ []) (sb : Stat) :
    ((∀ acl ∈ acls, 0 ≤ verdict m path ps callerUid callerGid acl) →
      applyAll m path ps callerUid callerGid defaultPolicy acls sb =
        (if ∃ acl ∈ acls, Selects m path ps callerUid callerGid acl then 1 else 0,
          (acls.filter (Selects m path ps callerUid callerGid)).foldl
            (fun sb acl => aclApply callerUid callerGid acl sb) sb) ∧
      ((∀ acl ∈ acls, ∃ db file, AclFile.aclLoadFile db file = .ok acl) →
        let sb' := (applyAll m path ps callerUid callerGid defaultPolicy acls sb).2
        SameRest sb sb' ∧ sb'.mode &&& ~~~0o777#32 = sb.mode &&& ~~~0o777#32)) ∧
    (∀ pre acl rest, acls = pre ++ acl :: rest →
      (∀ x ∈ pre, 0 ≤ verdict m path ps callerUid callerGid x) →
      verdict m path ps callerUid callerGid acl < 0 →
      (applyAll m path ps callerUid callerGid defaultPolicy acls sb).1 < 0 ∧
      accessCheck m defaultPolicy acls ⟨callerUid, callerGid, .ok ps⟩ path < 0) := by
  constructor
  · intro hok
    have heq := applyAll_of_no_error m defaultPolicy acls path ps callerUid callerGid hne hok sb
    refine ⟨heq, ?_⟩
    intro hloaded
    rw [heq]
    refine ⟨sameRest_foldl callerUid callerGid _ sb, mode_foldl callerUid callerGid _ ?_ sb⟩
    intro acl hmem
    obtain ⟨db, file, hload⟩ := hloaded acl (List.mem_of_mem_filter hmem)
    exact AclFile.onlyPermissions_of_aclLoadFile db file acl hload
  · intro pre acl rest hacls hpre hacl
    have hmem : acl ∈ acls := by
      rw [hacls]
      exact List.mem_append_right _ List.mem_cons_self
    have hfails : Fails m defaultPolicy acls path ps callerUid callerGid :=
      Or.inr ⟨acl, hmem, hacl⟩
    refine ⟨(applyAll_neg_iff m defaultPolicy acls path ps callerUid callerGid sb).mpr hfails, ?_⟩
    refine lt_of_le_of_ne (accessCheck_le_zero m defaultPolicy acls _ path) ?_
    rw [ne_eq, accessCheck_eq_zero_iff]
    rintro ⟨ps', hps, hno, -⟩
    cases hps
    exact hno hfails

/-- The example configuration: the mode that hides the device is set last. -/
theorem applyAll_fold_random :
    applyAll randomMatchers "/hw/random".toList shell 1000 1000 0 [whitelist, hiddenRandom]
      { mode := 0o020666#32 } = (1, { mode := 0o020000#32 }) ∧
    SameRest { mode := 0o020666#32 }
      (applyAll randomMatchers "/hw/random".toList shell 1000 1000 0 [whitelist, hiddenRandom]
        { mode := 0o020666#32 }).2 := by
  obtain ⟨heq, hsame⟩ := (applyAll_fold randomMatchers "/hw/random".toList shell 1000 1000 0
    [whitelist, hiddenRandom] (by decide) { mode := 0o020666#32 }).1 (by decide)
  refine ⟨heq.trans (by decide), (hsame ?_).1⟩
  intro acl hmem
  rcases List.mem_pair.mp hmem with rfl | rfl
  · exact ⟨AclFile.anyone, "[vdev-acl]\nuid=1000\n".toList, rfl⟩
  · exact ⟨AclFile.anyone,
      "[vdev-acl]\nuid=1000\npaths=.*random\nsetmode=000\n".toList, rfl⟩

end Vdev.Vdevfs
