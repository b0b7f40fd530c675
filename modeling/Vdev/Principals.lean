import Vdev.AclFile

/-!
The users and groups that an access control list names (fs/acl.c). A text that begins
with a number is read as that number, whatever follows: it is looked up as a name only
if it begins with none. After a file is loaded, the user and the group to set are not
validated, and an error in the file leaves what was read before it.
-/
namespace Vdev.Principals

open CString Parsing Ini AccessControl AclFile

section Number

def DecimalText (s : CStr) (n : ℕ) : Prop :=
  s ≠ [] ∧ (∀ c ∈ s, isDigit 10 c = true) ∧ digitsValue 10 s = n

theorem not_isspace_of_isDigit {c : Char} (h : isDigit 10 c = true) : isspace c = false := by
  rw [Bool.eq_false_iff]
  intro hspace
  simp only [isspace, Bool.or_eq_true, beq_iff_eq, or_assoc] at hspace
  rcases hspace with rfl | rfl | rfl | rfl | rfl | rfl <;> exact absurd h (by decide)

def signOf : CStr → Bool × CStr
  | '-' :: t => (true, t)
  | '+' :: t => (false, t)
  | t => (false, t)

theorem signOf_cases (t : CStr) :
    ∃ sign ∈ [[], ['-'], ['+']], t = sign ++ (signOf t).2 := by
  unfold signOf
  split
  · exact ⟨['-'], by decide, rfl⟩
  · exact ⟨['+'], by decide, rfl⟩
  · exact ⟨[], by decide, rfl⟩

theorem signOf_digit {d : Char} (t : CStr) (hd : isDigit 10 d = true) :
    signOf (d :: t) = (false, d :: t) := by
  unfold signOf
  split
  · next heq =>
    cases heq
    exact absurd hd (by decide)
  · next heq =>
    cases heq
    exact absurd hd (by decide)
  · rfl

/-- What `scanInt` reads after the sign. -/
def scanDigits (base : ℕ) (neg : Bool) (t : CStr) : Option (Bool × ℕ × CStr) :=
  if t.takeWhile (isDigit base) = [] then none
  else some (neg, digitsValue base (t.takeWhile (isDigit base)), t.dropWhile (isDigit base))

theorem scanInt_eq (base : ℕ) (s : CStr) : scanInt base s =
    scanDigits base (signOf (s.dropWhile isspace)).1 (signOf (s.dropWhile isspace)).2 := rfl

theorem exists_digit_of_scanDigits {neg : Bool} {t : CStr} (h : scanDigits 10 neg t ≠ none) :
    ∃ d rest, t = d :: rest ∧ isDigit 10 d = true := by
  cases t with
  | nil => exact absurd rfl h
  | cons d rest =>
    refine ⟨d, rest, rfl, ?_⟩
    by_contra hd
    exact h (by rw [scanDigits, List.takeWhile_cons_of_neg hd, if_pos rfl])

theorem dropWhile_isspace (blanks t : CStr) (c : Char) (hblanks : ∀ c ∈ blanks, isspace c = true)
    (hc : isspace c = false) : (blanks ++ c :: t).dropWhile isspace = c :: t :=
  (takeWhile_append_stop isspace blanks t c hblanks hc).2

/-- At least one character is read. -/
theorem scanInt_rest_ne {s : CStr} {neg : Bool} {m : ℕ} {rest : CStr}
    (h : scanInt 10 s = some (neg, m, rest)) : rest ≠ s := by
  rw [scanInt_eq] at h
  obtain ⟨d, t, ht, hd⟩ := exists_digit_of_scanDigits (h ▸ Option.some_ne_none _)
  rw [ht, scanDigits, List.takeWhile_cons_of_pos hd, if_neg (List.cons_ne_nil _ _),
    List.dropWhile_cons_of_pos hd] at h
  cases h
  have hrest : (t.dropWhile (isDigit 10)).length < (d :: t).length :=
    Nat.lt_succ_of_le (List.length_dropWhile_le _ _)
  have hsigned : (d :: t).length ≤ (s.dropWhile isspace).length := by
    obtain ⟨sign, -, hsign⟩ := signOf_cases (s.dropWhile isspace)
    rw [hsign, ht, List.length_append]
    exact Nat.le_add_left _ _
  have hspace : (s.dropWhile isspace).length ≤ s.length := List.length_dropWhile_le _ _
  exact fun heq => absurd ((hrest.trans_le hsigned).trans_le hspace) (by rw [heq]; exact lt_irrefl _)

theorem scanInt_decimalText {s : CStr} {n : ℕ} (h : DecimalText s n) :
    scanInt 10 s = some (false, n, []) := by
  obtain ⟨hne, hdigits, hvalue⟩ := h
  cases s with
  | nil => exact absurd rfl hne
  | cons d ds =>
    have hd := hdigits d List.mem_cons_self
    have htake : (d :: ds).takeWhile (isDigit 10) = d :: ds :=
      List.takeWhile_eq_self_iff.mpr hdigits
    have hdrop : (d :: ds).dropWhile (isDigit 10) = [] := List.dropWhile_eq_nil_iff.mpr hdigits
    rw [scanInt_eq, List.dropWhile_cons_of_neg (by rw [not_isspace_of_isDigit hd]; decide),
      signOf_digit ds hd]
    dsimp only
    rw [scanDigits, htake, hdrop, if_neg hne, hvalue]

theorem DecimalText.unique {s : CStr} {n n' : ℕ} (h : DecimalText s n) (h' : DecimalText s n') :
    n = n' := h.2.2.symm.trans h'.2.2

/-- A user and a group whose names begin with a digit. -/
def digitNames : Accounts where
  getPasswd := fun name => if name = "7up".toList then .ok 1007 else .error Errno.enoent.rc
  getGroup := fun name => if name = "7up".toList then .ok 1007 else .error Errno.enoent.rc
  validateUid := fun id => if id = 1007 then 0 else Errno.enoent.rc
  validateGid := fun id => if id = 1007 then 0 else Errno.enoent.rc
  regcomp := fun _ => 0

end Number

section Load

/-- `vdev_acl_load_file`: the return code, and the ACL that is left. Only a failed check
of the users and groups clears it. -/
def aclLoadFileLeft (db : Accounts) (file : CStr) : Int × Acl :=
  let parsed := iniParseFileLeft (aclIniParser db) file {}
  if parsed.1 ≠ 0 then (parsed.1, parsed.2)
  else
    let rc := aclSanityCheck db parsed.2
    if rc ≠ 0 then (rc, {}) else (rc, parsed.2)

/-- The keys whose values are users and groups. -/
inductive IdKey
  | uid | setuid | gid | setgid
  deriving DecidableEq

namespace IdKey

def name : IdKey → CStr
  | .uid => "uid".toList
  | .setuid => "setuid".toList
  | .gid => "gid".toList
  | .setgid => "setgid".toList

def get (acl : Acl) : IdKey → Option ℕ
  | .uid => acl.uid
  | .setuid => acl.setuid
  | .gid => acl.gid
  | .setgid => acl.setgid

def parse (db : Accounts) : IdKey → CStr → Except Int ℕ
  | .uid | .setuid => parseUid db
  | .gid | .setgid => parseGid db

def validate (db : Accounts) : IdKey → ℕ → Int
  | .uid | .setuid => db.validateUid
  | .gid | .setgid => db.validateGid

theorem name_injective {key key' : IdKey} (h : key.name = key'.name) : key = key' := by
  cases key <;> cases key' <;> first | rfl | exact absurd h (by decide)

def given (key : IdKey) (es : List Entry) : Option Entry :=
  es.reverse.find? (fun e => e.sect = "vdev-acl".toList ∧ e.name = key.name)

theorem given_append (key : IdKey) (es : List Entry) (e : Entry) : key.given (es ++ [e]) =
    if e.sect = "vdev-acl".toList ∧ e.name = key.name then some e else key.given es := by
  rw [given, List.reverse_append, List.reverse_singleton, List.singleton_append, List.find?_cons]
  by_cases h : e.sect = "vdev-acl".toList ∧ e.name = key.name
  · rw [if_pos h, decide_eq_true h]
  · rw [if_neg h, decide_eq_false h]
    rfl

def idOf (db : Accounts) (key : IdKey) (es : List Entry) : Option ℕ :=
  (key.given es).bind (fun e => (key.parse db e.value).toOption)

def Known (db : Accounts) (key : IdKey) (e : Entry) : Prop :=
  ∃ id, key.parse db e.value = .ok id ∧ key.validate db id = 0

end IdKey

def ValidIds (db : Accounts) (acl : Acl) : Prop :=
  ∀ (key : IdKey) id, key.get acl = some id → key.validate db id = 0

structure Stored (db : Accounts) (e : Entry) (acl acl' : Acl) : Prop where
  sect : e.sect = "vdev-acl".toList
  ne_zero : acl' ≠ {}
  own : ∀ key : IdKey, e.name = key.name →
    ∃ id, key.parse db e.value = .ok id ∧ key.get acl' = some id
  other : ∀ key : IdKey, e.name ≠ key.name → key.get acl' = key.get acl

theorem Stored.of_parse {db : Accounts} {e : Entry} {acl acl' : Acl} (key : IdKey)
    (set : ℕ → Acl) (hsect : e.sect = "vdev-acl".toList) (hname : e.name = key.name)
    (h : (match key.parse db e.value with | .error _ => none | .ok id => some (set id)) = some acl')
    (hown : ∀ id, key.get (set id) = some id)
    (hother : ∀ id key', key' ≠ key → key'.get (set id) = key'.get acl) : Stored db e acl acl' := by
  cases hparse : key.parse db e.value with
  | error rc =>
    rw [hparse] at h
    cases h
  | ok id =>
    rw [hparse] at h
    cases h
    refine ⟨hsect, fun hzero => ?_, fun key' hkey => ?_, fun key' hkey => ?_⟩
    · have hget := hown id
      rw [hzero] at hget
      cases key <;> cases hget
    · cases IdKey.name_injective (hname.symm.trans hkey)
      exact ⟨id, hparse, hown id⟩
    · refine hother id key' (fun heq => hkey ?_)
      rw [heq, hname]

theorem Stored.of_other {db : Accounts} {e : Entry} {acl acl' : Acl}
    (hsect : e.sect = "vdev-acl".toList) (hname : ∀ key : IdKey, e.name ≠ key.name)
    (hne : acl' ≠ {}) (hget : ∀ key : IdKey, key.get acl' = key.get acl) : Stored db e acl acl' :=
  ⟨hsect, hne, fun key hkey => (hname key hkey).elim, fun key _ => hget key⟩

theorem name_ne_of_eq {name text : CStr} (h : name = text)
    (htext : text ∉ ["uid".toList, "setuid".toList, "gid".toList, "setgid".toList]) (key : IdKey) :
    name ≠ key.name := by
  rintro hkey
  refine htext ?_
  rw [← h, hkey]
  cases key <;> decide

theorem IdKey.get_congr {acl acl' : Acl} (huid : acl'.uid = acl.uid)
    (hsetuid : acl'.setuid = acl.setuid) (hgid : acl'.gid = acl.gid)
    (hsetgid : acl'.setgid = acl.setgid) (key : IdKey) : key.get acl' = key.get acl := by
  cases key with
  | uid => exact huid
  | setuid => exact hsetuid
  | gid => exact hgid
  | setgid => exact hsetgid

theorem ne_empty_of_hasProc {acl : Acl} (htrue : acl.hasProc = true) : acl ≠ {} := by
  rintro rfl
  cases htrue

theorem aclIniParser_stored (db : Accounts) (e : Entry) (acl acl' : Acl)
    (h : aclIniParser db e acl = some acl') : Stored db e acl acl' := by
  unfold aclIniParser at h
  rcases ite_eq_iff.mp h with ⟨-, h⟩ | ⟨hsect, h⟩
  · cases h
  rw [not_not] at hsect
  rcases ite_eq_iff.mp h with ⟨huid, h⟩ | ⟨-, h⟩
  · refine .of_parse .uid (fun id => { acl with uid := some id }) hsect huid h (fun _ => rfl) ?_
    intro id key hkey
    cases key <;> first | rfl | exact absurd rfl hkey
  rcases ite_eq_iff.mp h with ⟨hsetuid, h⟩ | ⟨-, h⟩
  · refine .of_parse .setuid (fun id => { acl with setuid := some id }) hsect hsetuid h
      (fun _ => rfl) ?_
    intro id key hkey
    cases key <;> first | rfl | exact absurd rfl hkey
  rcases ite_eq_iff.mp h with ⟨hgid, h⟩ | ⟨-, h⟩
  · refine .of_parse .gid (fun id => { acl with gid := some id }) hsect hgid h (fun _ => rfl) ?_
    intro id key hkey
    cases key <;> first | rfl | exact absurd rfl hkey
  rcases ite_eq_iff.mp h with ⟨hsetgid, h⟩ | ⟨-, h⟩
  · refine .of_parse .setgid (fun id => { acl with setgid := some id }) hsect hsetgid h
      (fun _ => rfl) ?_
    intro id key hkey
    cases key <;> first | rfl | exact absurd rfl hkey
  rcases ite_eq_iff.mp h with ⟨hsetmode, h⟩ | ⟨-, h⟩
  · have hother := name_ne_of_eq hsetmode (by decide)
    cases hmode : parseMode e.value with
    | error err =>
      rw [hmode] at h
      cases h
    | ok mode =>
      rw [hmode] at h
      cases h
      exact .of_other hsect hother (fun hzero => nomatch congrArg Acl.setmode hzero)
        (IdKey.get_congr rfl rfl rfl rfl)
  rcases ite_eq_iff.mp h with ⟨hpaths, h⟩ | ⟨-, h⟩
  · have hother := name_ne_of_eq hpaths (by decide)
    rcases ite_eq_iff.mp h with ⟨-, h⟩ | ⟨-, h⟩
    · cases h
    · cases h
      exact .of_other hsect hother
        (fun hzero => List.append_ne_nil_of_right_ne_nil _ (List.cons_ne_nil _ _)
          (congrArg Acl.paths hzero)) (IdKey.get_congr rfl rfl rfl rfl)
  rcases ite_eq_iff.mp h with ⟨hbin, h⟩ | ⟨-, h⟩
  · have hother := name_ne_of_eq hbin (by decide)
    rcases ite_eq_iff.mp h with ⟨-, h⟩ | ⟨-, h⟩
    · cases h
    · cases h
      exact .of_other hsect hother (ne_empty_of_hasProc rfl) (IdKey.get_congr rfl rfl rfl rfl)
  rcases ite_eq_iff.mp h with ⟨hpred, h⟩ | ⟨-, h⟩
  · have hother := name_ne_of_eq hpred (by decide)
    rcases ite_eq_iff.mp h with ⟨-, h⟩ | ⟨-, h⟩
    · cases h
    · cases h
      exact .of_other hsect hother (ne_empty_of_hasProc rfl) (IdKey.get_congr rfl rfl rfl rfl)
  rcases ite_eq_iff.mp h with ⟨hinode, h⟩ | ⟨-, h⟩
  · have hother := name_ne_of_eq hinode (by decide)
    cases hparse : parseUint64 e.value with
    | none =>
      rw [hparse] at h
      cases h
    | some n =>
      rw [hparse] at h
      cases h
      exact .of_other hsect hother (ne_empty_of_hasProc rfl) (IdKey.get_congr rfl rfl rfl rfl)
  cases h

structure IdsOf (db : Accounts) (es : List Entry) (acl : Acl) : Prop where
  get : ∀ key : IdKey, key.get acl = key.idOf db es
  parsed : ∀ (key : IdKey) e, key.given es = some e → ∃ id, key.parse db e.value = .ok id
  ne_zero : es ≠ [] → acl ≠ {}

theorem IdsOf.nil (db : Accounts) : IdsOf db [] {} where
  get := fun key => by cases key <;> rfl
  parsed := fun key e h => nomatch h
  ne_zero := fun h => absurd rfl h

theorem IdsOf.step (db : Accounts) (es : List Entry) (e : Entry) (acl acl' : Acl)
    (h : IdsOf db es acl) (hstep : aclIniParser db e acl = some acl') :
    IdsOf db (es ++ [e]) acl' := by
  have hstored := aclIniParser_stored db e acl acl' hstep
  refine ⟨fun key => ?_, fun key e' hgiven => ?_, fun _ => hstored.ne_zero⟩
  · rw [IdKey.idOf, IdKey.given_append]
    by_cases hname : e.name = key.name
    · obtain ⟨id, hparse, hget⟩ := hstored.own key hname
      rw [if_pos ⟨hstored.sect, hname⟩, hget, Option.bind_some, hparse]
      rfl
    · rw [if_neg (fun hand => hname hand.2), hstored.other key hname, h.get key]
      rfl
  · rw [IdKey.given_append] at hgiven
    split_ifs at hgiven with hand
    · cases hgiven
      obtain ⟨id, hparse, -⟩ := hstored.own key hand.2
      exact ⟨id, hparse⟩
    · exact h.parsed key e' hgiven

variable (db : Accounts) (file : CStr)

def acceptedEntries : List Entry × Acl := feed (aclIniParser db) (readEntries file).1 {}

def Parses : Prop := (readEntries file).2 = true ∧ (acceptedEntries db file).1 = (readEntries file).1

/-- The entries of a file up to the first error. -/
def givenEntries : List Entry := handed (aclIniParser db) (readEntries file).1 {}

def RealIds : Prop := ∀ (key : IdKey) e, key.given (givenEntries db file) = some e → key.Known db e

/-- One of the numbers that are validated is not in the database: the group, if a group
or a group to set is given, or the user, if a user or a user to set is given. -/
def CheckedUnknown : Prop :=
  (((IdKey.gid.idOf db (givenEntries db file)).isSome ∨
      (IdKey.setgid.idOf db (givenEntries db file)).isSome) ∧
    db.validateGid ((IdKey.gid.idOf db (givenEntries db file)).getD 0) ≠ 0) ∨
  (((IdKey.uid.idOf db (givenEntries db file)).isSome ∨
      (IdKey.setuid.idOf db (givenEntries db file)).isSome) ∧
    db.validateUid ((IdKey.uid.idOf db (givenEntries db file)).getD 0) ≠ 0)

/-- An ACL that is loaded has users and groups of the database only, and one with others
is refused and left zero. -/
def NamesReal : Prop :=
  ((aclLoadFileLeft db file).1 = 0 → ValidIds db (aclLoadFileLeft db file).2) ∧
    (¬RealIds db file → (aclLoadFileLeft db file).1 ≠ 0 ∧ (aclLoadFileLeft db file).2 = {})

theorem idsOf_accepted : IdsOf db (acceptedEntries db file).1 (acceptedEntries db file).2 :=
  feed_induct (aclIniParser db) (IdsOf db) (IdsOf.step db) (readEntries file).1 [] {} (.nil db)

theorem givenEntries_of_parses (h : Parses db file) :
    givenEntries db file = (acceptedEntries db file).1 := by
  have hall : (feed (aclIniParser db) (readEntries file).1 {}).1 = (readEntries file).1 := h.2
  rw [givenEntries, handed, acceptedEntries, hall]
  exact List.take_of_length_le (Nat.le_succ _)

theorem parses_iff : (iniParseFileLeft (aclIniParser db) file {}).1 = 0 ↔ Parses db file :=
  (iniLoopLeft_eq (aclIniParser db) _ 1 Nat.one_pos [] file {}).2

theorem left_eq : (iniParseFileLeft (aclIniParser db) file {}).2 = (acceptedEntries db file).2 :=
  (iniLoopLeft_eq (aclIniParser db) _ 1 Nat.one_pos [] file {}).1

theorem aclLoadFileLeft_of_not_parses (h : ¬Parses db file) : (aclLoadFileLeft db file).1 ≠ 0 ∧
    (aclLoadFileLeft db file).2 = (acceptedEntries db file).2 := by
  have hrc : (iniParseFileLeft (aclIniParser db) file {}).1 ≠ 0 :=
    fun hzero => h ((parses_iff db file).mp hzero)
  have hleft : aclLoadFileLeft db file = (((iniParseFileLeft (aclIniParser db) file {}).1 : Int),
      (iniParseFileLeft (aclIniParser db) file {}).2) := if_pos hrc
  rw [hleft]
  exact ⟨fun hzero => hrc (Int.ofNat_eq_zero.mp hzero), left_eq db file⟩

theorem aclLoadFileLeft_of_parses (h : Parses db file) : aclLoadFileLeft db file =
    if aclSanityCheck db (acceptedEntries db file).2 ≠ 0 then
      (aclSanityCheck db (acceptedEntries db file).2, {})
    else (0, (acceptedEntries db file).2) := by
  have hrc : ¬(iniParseFileLeft (aclIniParser db) file {}).1 ≠ 0 :=
    not_not.mpr ((parses_iff db file).mpr h)
  refine (if_neg hrc).trans ?_
  rw [left_eq]
  split_ifs with hcheck
  · rfl
  · rw [not_not.mp hcheck]

/-- The result of `vdev_acl_load_file` is the ACL that is left with return code 0. -/
theorem aclLoadFile_eq_left (acl : Acl) :
    aclLoadFile db file = .ok acl ↔ aclLoadFileLeft db file = (0, acl) := by
  have hparse : iniParseFile (aclIniParser db) file {} =
      leftResult (iniParseFileLeft (aclIniParser db) file {}) :=
    iniLoop_eq_left (aclIniParser db) _ 1 Nat.one_pos [] file {}
  rw [aclLoadFile, hparse]
  by_cases h : Parses db file
  · rw [leftResult, if_pos ((parses_iff db file).mpr h), left_eq,
      aclLoadFileLeft_of_parses db file h]
    dsimp only
    split_ifs with hcheck
    · refine iff_of_false nofun (fun hpair => hcheck (congrArg Prod.fst hpair))
    · constructor
      · intro hok
        cases hok
        rfl
      · intro hpair
        cases hpair
        rfl
  · rw [leftResult, if_neg (fun hzero => h ((parses_iff db file).mp hzero))]
    exact iff_of_false nofun (fun hpair =>
      (aclLoadFileLeft_of_not_parses db file h).1 (congrArg Prod.fst hpair))

theorem aclSanityCheck_ne_zero_iff (acl : Acl) : aclSanityCheck db acl ≠ 0 ↔
    ((acl.gid.isSome ∨ acl.setgid.isSome) ∧ db.validateGid (acl.gid.getD 0) ≠ 0) ∨
      ((acl.uid.isSome ∨ acl.setuid.isSome) ∧ db.validateUid (acl.uid.getD 0) ≠ 0) := by
  unfold aclSanityCheck
  cases acl.gid.isSome <;> cases acl.setgid.isSome <;> cases acl.uid.isSome <;>
    cases acl.setuid.isSome <;> grind

/-- The checks fail for the numbers that the entries give. -/
theorem checkedUnknown_iff (h : Parses db file) :
    CheckedUnknown db file ↔ aclSanityCheck db (acceptedEntries db file).2 ≠ 0 := by
  have hget := (idsOf_accepted db file).get
  rw [aclSanityCheck_ne_zero_iff, CheckedUnknown, givenEntries_of_parses db file h,
    ← hget .gid, ← hget .setgid, ← hget .uid, ← hget .setuid]
  rfl

/-- After a file without errors, the users and groups of the ACL are those of the file. -/
theorem realIds_iff_validIds (h : Parses db file) :
    RealIds db file ↔ ValidIds db (acceptedEntries db file).2 := by
  have hids := idsOf_accepted db file
  rw [RealIds, givenEntries_of_parses db file h]
  constructor
  · intro hreal key id hget
    rw [hids.get key, IdKey.idOf] at hget
    obtain ⟨e, hgiven, hid⟩ := Option.bind_eq_some_iff.mp hget
    obtain ⟨id', hparse, hvalid⟩ := hreal key e hgiven
    rw [hparse] at hid
    cases hid
    exact hvalid
  · intro hvalid key e hgiven
    obtain ⟨id, hparse⟩ := hids.parsed key e hgiven
    refine ⟨id, hparse, hvalid key id ?_⟩
    rw [hids.get key, IdKey.idOf, hgiven, Option.bind_some, hparse]
    rfl

theorem acceptedEntries_eq_nil_iff :
    (acceptedEntries db file).1 = [] ↔ (acceptedEntries db file).2 = {} := by
  have hids := idsOf_accepted db file
  constructor
  · intro hnil
    unfold acceptedEntries at hnil ⊢
    cases hes : (readEntries file).1 with
    | nil => rfl
    | cons e es =>
      rw [hes, feed] at hnil
      rw [feed]
      cases hnext : aclIniParser db e {} with
      | none => rfl
      | some next =>
        rw [hnext] at hnil
        cases hnil
  · intro hzero
    by_contra hne
    exact hids.ne_zero hne hzero

/-- The ACL of a file has real users and groups exactly if all that the file gives are
in the database, or a number that is validated is not, or the file has an error before
anything is stored. -/
theorem namesReal_iff : NamesReal db file ↔
    RealIds db file ∨ (Parses db file ∧ CheckedUnknown db file) ∨
      (¬Parses db file ∧ (acceptedEntries db file).1 = []) := by
  by_cases h : Parses db file
  · rw [checkedUnknown_iff db file h, realIds_iff_validIds db file h, NamesReal,
      realIds_iff_validIds db file h, aclLoadFileLeft_of_parses db file h]
    by_cases hcheck : aclSanityCheck db (acceptedEntries db file).2 ≠ 0
    · rw [if_pos hcheck]
      exact iff_of_true ⟨fun hzero => (hcheck hzero).elim, fun _ => ⟨hcheck, rfl⟩⟩
        (Or.inr (Or.inl ⟨h, hcheck⟩))
    · rw [if_neg hcheck]
      constructor
      · intro hreal
        exact Or.inl (hreal.1 rfl)
      · rintro (hvalid | ⟨-, hbad⟩ | ⟨hno, -⟩)
        · exact ⟨fun _ => hvalid, fun hnot => (hnot hvalid).elim⟩
        · exact (hcheck hbad).elim
        · exact (hno h).elim
  · -- nothing is validated after an error, and nothing is cleared
    obtain ⟨hrc, hleft⟩ := aclLoadFileLeft_of_not_parses db file h
    rw [NamesReal, hleft, acceptedEntries_eq_nil_iff]
    constructor
    · rintro ⟨-, hzero⟩
      by_cases hreal : RealIds db file
      · exact Or.inl hreal
      · exact Or.inr (Or.inr ⟨h, (hzero hreal).2⟩)
    · rintro (hreal | ⟨hyes, -⟩ | ⟨-, hzero⟩)
      · exact ⟨fun hz => (hrc hz).elim, fun hnot => (hnot hreal).elim⟩
      · exact (h hyes).elim
      · exact ⟨fun hz => (hrc hz).elim, fun _ => ⟨hrc, hzero⟩⟩

def setuidUnknown : CStr := "[vdev-acl]\nuid=1007\nsetuid=5\n".toList

def uidThenError : CStr := "[vdev-acl]\nuid=5\nusr=1\n".toList

/-- The user to set is not validated, and after an error the unknown user stays. -/
theorem not_namesReal :
    (aclLoadFileLeft digitNames setuidUnknown = (0, { uid := some 1007, setuid := some 5 }) ∧
      aclLoadFile digitNames setuidUnknown = .ok { uid := some 1007, setuid := some 5 } ∧
      ¬NamesReal digitNames setuidUnknown) ∧
    (aclLoadFileLeft digitNames uidThenError = (3, { uid := some 5 }) ∧
      ¬NamesReal digitNames uidThenError) := by
  have hsetuid : aclLoadFileLeft digitNames setuidUnknown =
      (0, { uid := some 1007, setuid := some 5 }) := by decide
  have herror : aclLoadFileLeft digitNames uidThenError = (3, { uid := some 5 }) := by decide
  refine ⟨⟨hsetuid, (aclLoadFile_eq_left digitNames setuidUnknown _).mpr hsetuid, fun h => ?_⟩,
    herror, fun h => ?_⟩
  · have hvalid := h.1
    rw [hsetuid] at hvalid
    exact absurd (hvalid rfl .setuid 5 rfl) (by decide)
  · have hreal : ¬RealIds digitNames uidThenError := by
      intro hreal
      obtain ⟨id, hparse, hvalid⟩ := hreal .uid ⟨"vdev-acl".toList, "uid".toList, "5".toList⟩
        (by decide)
      cases hparse
      exact absurd hvalid (by decide)
    have hzero := (h.2 hreal).2
    rw [herror] at hzero
    cases hzero

end Load

end Vdev.Principals
