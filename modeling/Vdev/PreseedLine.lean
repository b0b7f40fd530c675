import Vdev.Preseed
import Vdev.Decimal
import Mathlib.Data.List.TakeWhile

/-!
The lines of the preseed command (vdevd/vdev.c). A line is read as the list of its words, which
runs of blanks and tabs separate. A line that is written for a device parses to the request for
it, whatever the runs are, and the request of any line that parses can be written as a line that
parses to the same request.
-/
namespace Vdev.PreseedLine

open CString Data Parsing Preseed Decimal

def NoBlank (s : CStr) : Prop := ∀ c ∈ s, c ∉ blanks

instance (s : CStr) : Decidable (NoBlank s) := List.decidableBAll (· ∉ blanks) s

def words (s : CStr) : List CStr := (s.splitOnP (· ∈ blanks)).filter (· ≠ [])

theorem words_nil : words [] = [] := rfl

theorem words_append_blank {c : Char} (hc : c ∈ blanks) (x y : CStr) :
    words (x ++ c :: y) = words x ++ words y := by
  unfold words
  rw [List.splitOnP_append_cons x y (decide_eq_true hc), List.filter_append]

theorem words_blank_append (gap y : CStr) (hgap : ∀ c ∈ gap, c ∈ blanks) :
    words (gap ++ y) = words y := by
  induction gap with
  | nil => rfl
  | cons c gap ih =>
    obtain ⟨hc, hgap⟩ := List.forall_mem_cons.mp hgap
    have hcons := words_append_blank hc [] (gap ++ y)
    rw [List.nil_append, words_nil, List.nil_append] at hcons
    rw [List.cons_append, hcons]
    exact ih hgap

theorem words_of_noBlank {w : CStr} (h : NoBlank w) (hne : w ≠ []) : words w = [w] := by
  unfold words
  rw [List.splitOnP_eq_singleton (fun c hc => decide_eq_false (h c hc))]
  exact List.filter_cons_of_pos (decide_eq_true hne)

/-- `strtok_r` takes the words of the text one by one. -/
theorem strtok_eq (s : CStr) :
    strtok blanks s = none ∧ words s = [] ∨
      ∃ w rest, strtok blanks s = some (w, rest) ∧ words s = w :: words rest ∧ NoBlank w ∧ w ≠ [] ∧
        rest.length < s.length := by
  have hskip : words s = words (s.dropWhile (· ∈ blanks)) := by
    conv_lhs => rw [← List.takeWhile_append_dropWhile (p := (· ∈ blanks)) (l := s)]
    exact words_blank_append _ _ (fun c hc => by simpa using List.mem_takeWhile_imp hc)
  have hle := (List.dropWhile_suffix (l := s) (· ∈ blanks)).length_le
  have hhead := List.head?_dropWhile_not (· ∈ blanks) s
  rw [strtok, hskip]
  generalize s.dropWhile (· ∈ blanks) = t at hle hhead ⊢
  cases t with
  | nil => exact Or.inl ⟨if_pos rfl, words_nil⟩
  | cons c t =>
    right
    have hc : c ∉ blanks := by simpa using hhead
    have hw : NoBlank ((c :: t).takeWhile (· ∉ blanks)) := fun d hd =>
      by simpa using List.mem_takeWhile_imp hd
    have hne : (c :: t).takeWhile (· ∉ blanks) ≠ [] := by simp [hc]
    have hsplit := List.takeWhile_append_dropWhile (p := (· ∉ blanks)) (l := c :: t)
    have hstop := List.head?_dropWhile_not (· ∉ blanks) (c :: t)
    refine ⟨_, _, if_neg nofun, ?_, hw, hne, ?_⟩
    · conv_lhs => rw [← hsplit]
      generalize (c :: t).dropWhile (· ∉ blanks) = rest at hstop ⊢
      cases rest with
      | nil =>
        rw [List.append_nil]
        exact words_of_noBlank hw hne
      | cons d rest =>
        have hd : d ∈ blanks := by simpa using hstop
        rw [words_append_blank hd, words_of_noBlank hw hne]
        rfl
    · have hlen := congrArg List.length hsplit
      have hpos := List.length_pos_iff.mpr hne
      rw [List.length_append] at hlen
      rw [List.length_tail]
      omega

def ParamWord (w : CStr) (x : CStr × CStr) : Prop := w.length ≤ 4096 ∧ keyvalueNext w = some x

/-- `vdev_device_request_add_param` on a list of parameters. -/
def addAll (pairs : List (CStr × CStr)) (params : Params) : Except Errno Params :=
  pairs.foldlM (fun params x => params.add x.1 x.2) params

theorem addAll_eq_ok_iff (pairs : List (CStr × CStr)) (params q : Params) :
    addAll pairs params = .ok q ↔
      (pairs.map Prod.fst).Nodup ∧ (∀ x ∈ pairs, x.1 ∉ params.entries.map Prod.fst) ∧
        ∀ x, x ∈ q.entries ↔ x ∈ pairs ∨ x ∈ params.entries := by
  induction pairs generalizing params with
  | nil =>
    constructor
    · intro h
      cases h
      exact ⟨List.nodup_nil, fun x hx => (nomatch hx), fun x => by simp⟩
    · rintro ⟨-, -, hmem⟩
      rw [params.eq_of_mem_iff q (fun x => by simp [hmem])]
      rfl
  | cons x pairs ih =>
    obtain ⟨key, value⟩ := x
    have hcons : addAll ((key, value) :: pairs) params =
        params.add key value >>= addAll pairs := rfl
    rw [hcons]
    by_cases hkey : key ∈ params.entries.map Prod.fst
    · rw [params.add_of_mem key value hkey]
      exact iff_of_false nofun (fun h => h.2.1 _ List.mem_cons_self hkey)
    obtain ⟨next, hnext, hentries⟩ := params.add_of_new key value hkey
    have hkeys := Params.mem_keys_of_add hentries
    rw [hnext]
    refine (ih next).trans ?_
    rw [List.map_cons, List.nodup_cons, List.forall_mem_cons]
    simp only [hkeys, hentries, List.mem_cons, not_or]
    constructor
    · rintro ⟨hnodup, hnew, hmem⟩
      refine ⟨⟨fun hin => ?_, hnodup⟩, ⟨hkey, fun x hx => (hnew x hx).2⟩, fun x => ?_⟩
      · obtain ⟨x, hx, hfst⟩ := List.mem_map.mp hin
        exact (hnew x hx).1 hfst
      · rw [hmem]
        tauto
    · rintro ⟨⟨hnot, hnodup⟩, ⟨-, hnew⟩, hmem⟩
      refine ⟨hnodup, fun x hx => ⟨?_, hnew x hx⟩, fun x => ?_⟩
      · rintro rfl
        exact hnot (List.mem_map_of_mem hx)
      · rw [hmem]
        tauto

theorem exists_addAll (pairs : List (CStr × CStr)) (params : Params)
    (hnodup : (pairs.map Prod.fst).Nodup)
    (hnew : ∀ x ∈ pairs, x.1 ∉ params.entries.map Prod.fst) : ∃ q, addAll pairs params = .ok q := by
  induction pairs generalizing params with
  | nil => exact ⟨params, rfl⟩
  | cons x pairs ih =>
    obtain ⟨key, value⟩ := x
    obtain ⟨hkey, hnew⟩ := List.forall_mem_cons.mp hnew
    rw [List.map_cons, List.nodup_cons] at hnodup
    obtain ⟨next, hnext, hentries⟩ := params.add_of_new key value hkey
    obtain ⟨q, hq⟩ := ih next hnodup.2 (fun x hx hold => by
      rcases (Params.mem_keys_of_add hentries x.1).mp hold with h | h
      · exact hnodup.1 (List.mem_map.mpr ⟨x, hx, h⟩)
      · exact hnew x hx h)
    refine ⟨q, ?_⟩
    rw [addAll, List.foldlM_cons, hnext]
    exact hq

/-- The loop over the parameters. -/
theorem parseParams_eq_ok_iff (fuel : ℕ) (s : CStr) (params q : Params) (hfuel : s.length < fuel) :
    parseParams fuel s params = .ok q ↔
      ∃ pairs, List.Forall₂ ParamWord (words s) pairs ∧ addAll pairs params = .ok q := by
  induction fuel generalizing s params with
  | zero => omega
  | succ fuel ih =>
    rw [parseParams]
    rcases strtok_eq s with ⟨htok, hwords⟩ | ⟨w, rest, htok, hwords, -, -, hlt⟩
    · rw [htok, hwords]
      simp only [List.forall₂_nil_left_iff, exists_eq_left]
      rfl
    rw [htok, hwords]
    dsimp only
    simp only [List.forall₂_cons_left_iff]
    by_cases hlen : 4096 < w.length
    · rw [if_pos hlen]
      refine iff_of_false nofun ?_
      rintro ⟨-, ⟨x, pairs, hw, -, -⟩, -⟩
      exact absurd hw.1 (not_le.mpr hlen)
    rw [if_neg hlen]
    cases hkv : keyvalueNext w with
    | none =>
      refine iff_of_false nofun ?_
      rintro ⟨-, ⟨x, pairs, hw, -, -⟩, -⟩
      cases hkv.symm.trans hw.2
    | some x =>
      obtain ⟨key, value⟩ := x
      have hparam : ParamWord w (key, value) := ⟨not_lt.mp hlen, hkv⟩
      dsimp only
      have hcons : ∀ pairs, addAll ((key, value) :: pairs) params =
        params.add key value >>= addAll pairs := fun _ => rfl
      cases hadd : params.add key value with
      | error e =>
        refine iff_of_false nofun ?_
        rintro ⟨-, ⟨x, pairs, hw, -, rfl⟩, hall⟩
        cases hkv.symm.trans hw.2
        rw [hcons, hadd] at hall
        cases hall
      | ok next =>
        refine (ih rest next (by omega)).trans ?_
        constructor
        · rintro ⟨pairs, hpairs, hall⟩
          refine ⟨(key, value) :: pairs, ⟨(key, value), pairs, hparam, hpairs, rfl⟩, ?_⟩
          rw [hcons, hadd]
          exact hall
        · rintro ⟨-, ⟨x, pairs, hw, hpairs, rfl⟩, hall⟩
          cases hkv.symm.trans hw.2
          rw [hcons, hadd] at hall
          exact ⟨pairs, hpairs, hall⟩

inductive DeviceType
  | char | block | unknown
  deriving DecidableEq

def DeviceType.letter : DeviceType → Char
  | .char => 'c'
  | .block => 'b'
  | .unknown => 'u'

def DeviceType.mode : DeviceType → ℕ
  | .char => S_IFCHR
  | .block => S_IFBLK
  | .unknown => 0

def requestOf (lstat : CStr → Bool) (mountpoint : CStr) (type : DeviceType) (name : CStr)
    (major minor : ℕ) (params : Params) : Request where
  type := .add
  path := some name
  mode := type.mode
  dev := makedev major minor
  params := params
  existsFlag := lstat (snprintf 4096 (mountpoint ++ '/' :: name))

def Reads (lstat : CStr → Bool) (mountpoint : CStr) (type : DeviceType)
    (name majorTok minorTok : CStr) (rest : List CStr) (req : Request) : Prop :=
  ∃ major minor pairs params, parseDeviceNumber majorTok = .ok major ∧
    parseDeviceNumber minorTok = .ok minor ∧ List.Forall₂ ParamWord rest pairs ∧
    addAll pairs Params.empty = .ok params ∧
    req = requestOf lstat mountpoint type name major minor params

theorem DeviceType.letter_injective : Function.Injective DeviceType.letter := by
  intro a b h
  cases a <;> cases b <;> first | rfl | exact absurd h (by decide)

theorem type_cases {type : CStr} (h : ¬(type ≠ ['c'] ∧ type ≠ ['b'] ∧ type ≠ ['u'])) :
    ∃ t : DeviceType, type = [t.letter] ∧
      (if type = ['c'] then S_IFCHR else if type = ['b'] then S_IFBLK else 0) = t.mode := by
  by_cases hc : type = ['c']
  · exact ⟨.char, hc, if_pos hc⟩
  by_cases hb : type = ['b']
  · exact ⟨.block, hb, by rw [if_neg hc, if_pos hb]; rfl⟩
  by_cases hu : type = ['u']
  · exact ⟨.unknown, hu, by rw [if_neg hc, if_neg hb]; rfl⟩
  · exact absurd ⟨hc, hb, hu⟩ h

section Reads

variable {lstat : CStr → Bool} {mountpoint : CStr} {req : Request}

/-- A line has at most one reading. -/
theorem exists_reads_iff {t : DeviceType} {name majorTok minorTok : CStr} {rest : List CStr} :
    (∃ (type : DeviceType) (name' majorTok' minorTok' : CStr) (rest' : List CStr),
      [t.letter] :: name :: majorTok :: minorTok :: rest =
          [type.letter] :: name' :: majorTok' :: minorTok' :: rest' ∧
        Reads lstat mountpoint type name' majorTok' minorTok' rest' req) ↔
      Reads lstat mountpoint t name majorTok minorTok rest req := by
  constructor
  · rintro ⟨type, name', majorTok', minorTok', rest', heq, hreads⟩
    simp only [List.cons.injEq, and_true] at heq
    obtain ⟨hletter, rfl, rfl, rfl, rfl⟩ := heq
    exact DeviceType.letter_injective hletter ▸ hreads
  · exact fun h => ⟨t, name, majorTok, minorTok, rest, rfl, h⟩

/-- The numbers and the parameters that stand behind the name. -/
theorem numbers_eq_ok_iff {t : DeviceType} {name majorTok minorTok s : CStr} :
    (parseDeviceNumber majorTok >>= fun major =>
      parseDeviceNumber minorTok >>= fun minor =>
      parseParams (s.length + 1) s Params.empty >>= fun params =>
      .ok (requestOf lstat mountpoint t name major minor params)) = .ok req ↔
      Reads lstat mountpoint t name majorTok minorTok (words s) req := by
  cases hmajor : parseDeviceNumber majorTok with
  | error e => exact iff_of_false nofun (fun ⟨_, _, _, _, h, _⟩ => nomatch hmajor.symm.trans h)
  | ok major =>
  cases hminor : parseDeviceNumber minorTok with
  | error e => exact iff_of_false nofun (fun ⟨_, _, _, _, _, h, _⟩ => nomatch hminor.symm.trans h)
  | ok minor =>
  change (parseParams (s.length + 1) s Params.empty >>= fun params =>
    .ok (requestOf lstat mountpoint t name major minor params)) = .ok req ↔ _
  cases hparams : parseParams (s.length + 1) s Params.empty with
  | error e =>
    refine iff_of_false nofun ?_
    rintro ⟨_, _, pairs, params, _, _, hpairs, hall, _⟩
    have hok := (parseParams_eq_ok_iff _ s Params.empty params (Nat.lt_succ_self _)).mpr
      ⟨pairs, hpairs, hall⟩
    cases hparams.symm.trans hok
  | ok params =>
    constructor
    · intro h
      cases h
      obtain ⟨pairs, hpairs, hall⟩ :=
        (parseParams_eq_ok_iff _ s Params.empty params (Nat.lt_succ_self _)).mp hparams
      exact ⟨major, minor, pairs, params, hmajor, hminor, hpairs, hall, rfl⟩
    · rintro ⟨major', minor', pairs, params', hmajor', hminor', hpairs, hall, rfl⟩
      cases hmajor.symm.trans hmajor'
      cases hminor.symm.trans hminor'
      have hok := (parseParams_eq_ok_iff _ s Params.empty params' (Nat.lt_succ_self _)).mpr
        ⟨pairs, hpairs, hall⟩
      cases hparams.symm.trans hok
      rfl

end Reads

/-- `vdev_parse_device_request` on the words of the line. -/
theorem parseDeviceRequest_eq_ok_iff (lstat : CStr → Bool) (mountpoint line : CStr)
    (req : Request) :
    parseDeviceRequest lstat mountpoint line = .ok req ↔
      ∃ (type : DeviceType) (name majorTok minorTok : CStr) (rest : List CStr),
        words line = [type.letter] :: name :: majorTok :: minorTok :: rest ∧
          Reads lstat mountpoint type name majorTok minorTok rest req := by
  unfold parseDeviceRequest
  rcases strtok_eq line with ⟨htok, hwords⟩ | ⟨type, s₁, htok, hwords, -⟩
  · rw [htok, hwords]
    exact iff_of_false nofun (fun ⟨_, _, _, _, _, h, _⟩ => nomatch h)
  rw [htok, hwords]
  dsimp only
  by_cases htype : type ≠ ['c'] ∧ type ≠ ['b'] ∧ type ≠ ['u']
  · rw [if_pos htype]
    refine iff_of_false nofun ?_
    rintro ⟨t, _, _, _, _, h, _⟩
    rw [(List.cons.inj h).1] at htype
    cases t <;> simp [DeviceType.letter] at htype
  rw [if_neg htype]
  obtain ⟨t, rfl, hmode⟩ := type_cases htype
  simp only [hmode]
  rcases strtok_eq s₁ with ⟨htok, hwords⟩ | ⟨name, s₂, htok, hwords, -⟩
  · simp only [htok, hwords]
    exact iff_of_false nofun (fun ⟨_, _, _, _, _, h, _⟩ => nomatch (List.cons.inj h).2)
  simp only [htok, hwords]
  rcases strtok_eq s₂ with ⟨htok, hwords⟩ | ⟨majorTok, s₃, htok, hwords, -⟩
  · simp only [htok, hwords]
    exact iff_of_false nofun (fun ⟨_, _, _, _, _, h, _⟩ => nomatch (List.cons.inj h).2)
  simp only [htok, hwords]
  rcases strtok_eq s₃ with ⟨htok, hwords⟩ | ⟨minorTok, s₄, htok, hwords, -⟩
  · simp only [htok, hwords]
    refine iff_of_false ?_ (fun ⟨_, _, _, _, _, h, _⟩ => nomatch (List.cons.inj h).2)
    cases parseDeviceNumber majorTok <;> exact nofun
  simp only [htok, hwords]
  rw [exists_reads_iff]
  exact numbers_eq_ok_iff

/-- `major` and `minor` of sys/sysmacros.h. -/
def major (dev : ℕ) : ℕ := ((dev &&& 0xfff00) >>> 8) ||| ((dev &&& 0xfffff00000000000) >>> 32)

def minor (dev : ℕ) : ℕ := (dev &&& 0xff) ||| ((dev &&& 0xffffff00000) >>> 12)

/-- The bits that a mask lets through. -/
theorem testBit_and_mask (x n k i : ℕ) :
    (x &&& (2 ^ n - 1) <<< k).testBit i = (x.testBit i && decide (k ≤ i ∧ i < k + n)) := by
  rw [Nat.testBit_and, Nat.testBit_shiftLeft, Nat.testBit_two_pow_sub_one]
  grind

/-- The minor number is in the bits from 0 to 7 and from 20 to 43, the major number in the
others. -/
theorem testBit_makedev (a b i : ℕ) :
    (makedev a b).testBit i =
      (a.testBit (i - 8) && decide (8 ≤ i ∧ i < 20) ||
        a.testBit (i - 32) && decide (44 ≤ i ∧ i < 64) ||
        b.testBit i && decide (i < 8) || b.testBit (i - 12) && decide (20 ≤ i ∧ i < 44)) := by
  have h₁ : 0xfff = (2 ^ 12 - 1) <<< 0 := rfl
  have h₂ : 0xfffff000 = (2 ^ 20 - 1) <<< 12 := rfl
  have h₃ : 0xff = (2 ^ 8 - 1) <<< 0 := rfl
  have h₄ : 0xffffff00 = (2 ^ 24 - 1) <<< 8 := rfl
  rw [makedev, h₁, h₂, h₃, h₄]
  simp only [Nat.testBit_or, Nat.testBit_shiftLeft, testBit_and_mask, Nat.testBit_mod_two_pow]
  grind

theorem major_makedev (a b : ℕ) : major (makedev a b) = a % 2 ^ 32 := by
  have h₁ : 0xfff00 = (2 ^ 12 - 1) <<< 8 := rfl
  have h₂ : 0xfffff00000000000 = (2 ^ 20 - 1) <<< 44 := rfl
  apply Nat.eq_of_testBit_eq
  intro i
  rw [major, h₁, h₂, Nat.testBit_or, Nat.testBit_shiftRight, Nat.testBit_shiftRight,
    testBit_and_mask, testBit_and_mask, testBit_makedev, testBit_makedev, Nat.testBit_mod_two_pow,
    Nat.add_sub_cancel_left, Nat.add_sub_cancel_left]
  grind

theorem minor_makedev (a b : ℕ) : minor (makedev a b) = b % 2 ^ 32 := by
  have h₁ : 0xff = (2 ^ 8 - 1) <<< 0 := rfl
  have h₂ : 0xffffff00000 = (2 ^ 24 - 1) <<< 20 := rfl
  apply Nat.eq_of_testBit_eq
  intro i
  rw [minor, h₁, h₂, Nat.testBit_or, Nat.testBit_shiftRight, testBit_and_mask, testBit_and_mask,
    testBit_makedev, testBit_makedev, Nat.testBit_mod_two_pow, Nat.add_sub_cancel_left]
  grind

/-- A text of digits is scanned to its end. -/
theorem scanInt_digits {ds : CStr} (hds : ∀ c ∈ ds, c.isDigit = true) (hne : ds ≠ []) :
    scanInt 10 ds = some (false, value ds, []) := by
  have hbase : ∀ c ∈ ds, isDigit 10 c = true := by
    intro c hc
    obtain ⟨h₀, h₉⟩ := Char.isDigit_iff_toNat.mp (hds c hc)
    have hlt : c.toNat < '0'.toNat + 10 := Nat.lt_succ_of_le h₉
    exact Bool.and_eq_true_iff.mpr ⟨decide_eq_true h₀, decide_eq_true hlt⟩
  obtain ⟨c, cs, rfl⟩ := List.exists_cons_of_ne_nil hne
  have hc := hds c List.mem_cons_self
  have hspace : ¬isspace c = true := by
    intro h
    simp only [isspace, Bool.or_eq_true, beq_iff_eq] at h
    rcases h with ((((rfl | rfl) | rfl) | rfl) | rfl) | rfl <;> exact absurd hc (by decide)
  unfold scanInt
  rw [List.dropWhile_cons_of_neg hspace]
  dsimp only
  split
  · rename_i t heq
    cases heq
    exact absurd hc (by decide)
  · rename_i t heq
    cases heq
    exact absurd hc (by decide)
  · dsimp only
    rw [List.takeWhile_eq_self_iff.mpr hbase, List.dropWhile_eq_nil_iff.mpr hbase, if_neg hne]
    rfl

/-- A number is read back from its decimal digits. -/
theorem parseDeviceNumber_decimal {n : ℕ} (hn : n < 2 ^ 64) :
    parseDeviceNumber (decimal n) = .ok n := by
  have hscan := scanInt_digits (isDigit_of_mem_decimal n) (decimal_ne_nil n)
  rw [value_decimal] at hscan
  have hread : strtoul 10 (decimal n) = (n, []) := by
    rw [strtoul, hscan]
    dsimp only
    rw [if_neg (not_le.mpr hn), if_neg Bool.false_ne_true]
  unfold parseDeviceNumber
  simp only [hread]
  rw [if_neg]
  rintro (h | h)
  · exact decimal_ne_nil n h.symm
  · exact h rfl

def paramText (x : CStr × CStr) : CStr := x.1 ++ '=' :: x.2

structure Device where
  type : DeviceType
  name : CStr
  major : ℕ
  minor : ℕ
  params : List (CStr × CStr)
  name_ne_nil : name ≠ []
  name_noBlank : NoBlank name
  major_lt : major < 2 ^ 32
  minor_lt : minor < 2 ^ 32
  keys_nodup : (params.map Prod.fst).Nodup
  keys_noBlank : ∀ x ∈ params, NoBlank x.1
  keys_noEquals : ∀ x ∈ params, '=' ∉ x.1
  values_noBlank : ∀ x ∈ params, NoBlank x.2

def Device.fields (d : Device) : List CStr :=
  [d.type.letter] :: d.name :: decimal d.major :: decimal d.minor :: d.params.map paramText

/-- The fields with runs of blanks and tabs between them. -/
inductive Spaced : List CStr → CStr → Prop
  | last (w : CStr) : Spaced [w] w
  | cons (w gap : CStr) (rest : List CStr) (line : CStr) (hne : gap ≠ [])
      (hgap : ∀ c ∈ gap, c ∈ blanks) (hrest : Spaced rest line) :
      Spaced (w :: rest) (w ++ gap ++ line)

theorem words_spaced {fields : List CStr} {line : CStr} (h : Spaced fields line)
    (hfields : ∀ w ∈ fields, NoBlank w ∧ w ≠ []) : words line = fields := by
  induction h with
  | last w =>
    obtain ⟨hw, hne⟩ := hfields w List.mem_cons_self
    exact words_of_noBlank hw hne
  | cons w gap rest line hne hgap _ ih =>
    obtain ⟨⟨hw, hwne⟩, hrest⟩ := List.forall_mem_cons.mp hfields
    obtain ⟨c, gap, rfl⟩ := List.exists_cons_of_ne_nil hne
    obtain ⟨hc, hgap⟩ := List.forall_mem_cons.mp hgap
    rw [List.append_assoc, List.cons_append, words_append_blank hc, words_of_noBlank hw hwne,
      words_blank_append gap line hgap, ih hrest]
    rfl

theorem length_le_of_spaced {fields : List CStr} {line : CStr} (h : Spaced fields line) :
    ∀ w ∈ fields, w.length ≤ line.length := by
  induction h with
  | last w =>
    intro w' hw
    rw [List.mem_singleton.mp hw]
  | cons w gap rest line hne hgap _ ih =>
    rw [List.forall_mem_cons]
    simp only [List.length_append]
    exact ⟨by omega, fun w' hw => (ih w' hw).trans (by omega)⟩

theorem noBlank_decimal (n : ℕ) : NoBlank (decimal n) := by
  intro c hc hblank
  have hdigit := isDigit_of_mem_decimal n c hc
  simp only [blanks, List.mem_cons, List.not_mem_nil, or_false] at hblank
  rcases hblank with rfl | rfl <;> exact absurd hdigit (by decide)

theorem noBlank_paramText {x : CStr × CStr} (hkey : NoBlank x.1) (hvalue : NoBlank x.2) :
    NoBlank (paramText x) := by
  intro c hc
  rcases List.mem_append.mp hc with h | h
  · exact hkey c h
  · rcases List.mem_cons.mp h with rfl | h
    · decide
    · exact hvalue c h

theorem Device.fields_plain (d : Device) : ∀ w ∈ d.fields, NoBlank w ∧ w ≠ [] := by
  have hletter : NoBlank [d.type.letter] := by
    intro c hc
    rw [List.mem_singleton.mp hc]
    cases d.type <;> decide
  have hparams : ∀ w ∈ d.params.map paramText, NoBlank w ∧ w ≠ [] := by
    intro w hw
    obtain ⟨x, hx, rfl⟩ := List.mem_map.mp hw
    exact ⟨noBlank_paramText (d.keys_noBlank x hx) (d.values_noBlank x hx), by simp [paramText]⟩
  unfold Device.fields
  simp only [List.forall_mem_cons]
  exact ⟨⟨hletter, List.cons_ne_nil _ _⟩, ⟨d.name_noBlank, d.name_ne_nil⟩,
    ⟨noBlank_decimal _, decimal_ne_nil _⟩, ⟨noBlank_decimal _, decimal_ne_nil _⟩, hparams⟩

/-- A line for a device parses to the request for it. -/
theorem parseDeviceRequest_spaced (lstat : CStr → Bool) (mountpoint : CStr) (d : Device)
    {line : CStr} (h : Spaced d.fields line)
    (hlen : ∀ x ∈ d.params, (paramText x).length ≤ 4096) :
    ∃ params : Params, (∀ x, x ∈ params.entries ↔ x ∈ d.params) ∧
      parseDeviceRequest lstat mountpoint line =
        .ok (requestOf lstat mountpoint d.type d.name d.major d.minor params) := by
  have hpairs : ∀ pairs : List (CStr × CStr), (∀ x ∈ pairs, x ∈ d.params) →
      List.Forall₂ ParamWord (pairs.map paramText) pairs := by
    intro pairs hsub
    rw [List.forall₂_map_left_iff, List.forall₂_same]
    intro x hx
    exact ⟨hlen x (hsub x hx), keyvalueNext_pair x.1 x.2 (d.keys_noEquals x (hsub x hx))⟩
  obtain ⟨params, hparams⟩ :=
    exists_addAll d.params Params.empty d.keys_nodup (fun x _ h => nomatch h)
  have hentries := ((addAll_eq_ok_iff _ _ _).mp hparams).2.2
  refine ⟨params, fun x => by simp [hentries, Params.empty], ?_⟩
  rw [parseDeviceRequest_eq_ok_iff]
  have hmajor := parseDeviceNumber_decimal (d.major_lt.trans (by decide))
  have hminor := parseDeviceNumber_decimal (d.minor_lt.trans (by decide))
  exact ⟨d.type, d.name, _, _, _, words_spaced h d.fields_plain, d.major, d.minor, d.params, params,
    hmajor, hminor, hpairs d.params (fun _ hx => hx), hparams, rfl⟩

/-- The words of a text are not empty, and have no blanks. -/
theorem plain_of_mem_words (s : CStr) : ∀ w ∈ words s, NoBlank w ∧ w ≠ [] := by
  induction hn : s.length using Nat.strong_induction_on generalizing s with
  | _ n ih =>
    rcases strtok_eq s with ⟨-, hwords⟩ | ⟨w, rest, -, hwords, hw, hne, hlt⟩
    · rw [hwords]
      exact fun w hw => nomatch hw
    · rw [hwords, List.forall_mem_cons]
      exact ⟨⟨hw, hne⟩, ih rest.length (hn ▸ hlt) rest rfl⟩

theorem ParamWord.eq {w : CStr} {x : CStr × CStr} (h : ParamWord w x) :
    w = paramText x ∧ '=' ∉ x.1 := by
  have hkv := h.2
  rw [keyvalueNext] at hkv
  split_ifs at hkv with hmem
  cases hkv
  have hsplit := List.takeWhile_append_dropWhile (p := (· ≠ '=')) (l := w)
  have hstop := List.head?_dropWhile_not (· ≠ '=') w
  have hkey : '=' ∉ w.takeWhile (· ≠ '=') := fun hin => by
    simpa using List.mem_takeWhile_imp hin
  refine ⟨?_, hkey⟩
  cases hrest : w.dropWhile (· ≠ '=') with
  | nil =>
    rw [hrest, List.append_nil] at hsplit
    rw [hsplit] at hkey
    exact absurd hmem hkey
  | cons c rest =>
    rw [hrest] at hstop hsplit
    have hc : c = '=' := by simpa using hstop
    subst hc
    exact hsplit.symm

def letterOf (mode : ℕ) : Char :=
  if mode = S_IFCHR then 'c' else if mode = S_IFBLK then 'b' else 'u'

theorem letterOf_mode (type : DeviceType) : letterOf type.mode = type.letter := by
  cases type <;> rfl

/-- The line that is written for a request, with one blank between the fields. -/
def canonical (req : Request) : CStr :=
  [' '].intercalate ([letterOf req.mode] :: req.path.getD [] :: decimal (major req.dev) ::
    decimal (minor req.dev) :: req.params.entries.map paramText)

theorem spaced_intercalate (w : CStr) (rest : List CStr) :
    Spaced (w :: rest) ([' '].intercalate (w :: rest)) := by
  induction rest generalizing w with
  | nil =>
    rw [List.intercalate_singleton]
    exact .last w
  | cons x rest ih =>
    rw [List.intercalate_cons_cons]
    exact .cons w [' '] (x :: rest) _ nofun (by simp [blanks]) (ih x)

theorem makedev_mod (a b : ℕ) : makedev (a % 2 ^ 32) (b % 2 ^ 32) = makedev a b := by
  simp only [makedev, Nat.mod_mod]

theorem exists_word {rest : List CStr} {pairs : List (CStr × CStr)}
    (h : List.Forall₂ ParamWord rest pairs) : ∀ x ∈ pairs, ∃ w ∈ rest, ParamWord w x := by
  induction h with
  | nil => exact fun x hx => nomatch hx
  | cons hw _ ih =>
    refine List.forall_mem_cons.mpr ⟨⟨_, List.mem_cons_self, hw⟩, fun x hx => ?_⟩
    obtain ⟨w, hmem, hword⟩ := ih x hx
    exact ⟨w, List.mem_cons_of_mem _ hmem, hword⟩

/-- The request that a line parses to is the request for a device. -/
theorem exists_device {lstat : CStr → Bool} {mountpoint line : CStr} {req : Request}
    (h : parseDeviceRequest lstat mountpoint line = .ok req) :
    ∃ d : Device, req = requestOf lstat mountpoint d.type d.name d.major d.minor req.params ∧
      d.params = req.params.entries ∧ canonical req = [' '].intercalate d.fields ∧
      ∀ x ∈ d.params, (paramText x).length ≤ 4096 := by
  obtain ⟨type, name, majorTok, minorTok, rest, hwords, a, b, pairs, params, -, -, hpairs, hparams,
    rfl⟩ := (parseDeviceRequest_eq_ok_iff _ _ _ _).mp h
  have hplain := plain_of_mem_words line
  rw [hwords] at hplain
  simp only [List.forall_mem_cons] at hplain
  obtain ⟨-, hname, -, -, hrest⟩ := hplain
  have hentries : ∀ x, x ∈ params.entries ↔ x ∈ pairs := by
    intro x
    rw [((addAll_eq_ok_iff _ _ _).mp hparams).2.2]
    simp [Params.empty]
  have hword : ∀ x ∈ params.entries, ParamWord (paramText x) x ∧ NoBlank (paramText x) := by
    intro x hx
    obtain ⟨w, hw, hparam⟩ := exists_word hpairs x ((hentries x).mp hx)
    have heq := hparam.eq.1
    exact ⟨heq ▸ hparam, heq ▸ (hrest w hw).1⟩
  let d : Device :=
    { type := type
      name := name
      major := a % 2 ^ 32
      minor := b % 2 ^ 32
      params := params.entries
      name_ne_nil := hname.2
      name_noBlank := hname.1
      major_lt := Nat.mod_lt _ (by decide)
      minor_lt := Nat.mod_lt _ (by decide)
      keys_nodup := params.keys_nodup
      keys_noBlank := fun x hx c hc => (hword x hx).2 c (List.mem_append_left _ hc)
      keys_noEquals := fun x hx => (hword x hx).1.eq.2
      values_noBlank := fun x hx c hc =>
        (hword x hx).2 c (List.mem_append_right _ (List.mem_cons_of_mem _ hc)) }
  refine ⟨d, ?_, rfl, ?_, fun x hx => (hword x hx).1.1⟩
  · change requestOf lstat mountpoint type name a b params =
      requestOf lstat mountpoint type name (a % 2 ^ 32) (b % 2 ^ 32) params
    rw [requestOf, requestOf, makedev_mod]
  · have hmajor : major (makedev a b) = a % 2 ^ 32 := major_makedev a b
    have hminor : minor (makedev a b) = b % 2 ^ 32 := minor_makedev a b
    rw [canonical, Device.fields]
    change [' '].intercalate ([letterOf type.mode] :: name :: decimal (major (makedev a b)) ::
      decimal (minor (makedev a b)) :: params.entries.map paramText) = _
    rw [letterOf_mode, hmajor, hminor]

/-- A line for a device, with any runs of blanks and tabs, parses to its type, name, device number
and parameters; and what any line parses to can be written as a line again. -/
theorem parseDeviceRequest_roundTrip (lstat : CStr → Bool) (mountpoint : CStr) :
    (∀ (d : Device) (line : CStr), Spaced d.fields line → line.length < 4096 →
      ∃ req, parseDeviceRequest lstat mountpoint line = .ok req ∧ req.mode = d.type.mode ∧
        req.path = some d.name ∧ req.dev = makedev d.major d.minor ∧ major req.dev = d.major ∧
        minor req.dev = d.minor ∧
        ∀ key value, req.params.find key = some value ↔ (key, value) ∈ d.params) ∧
    ∀ line req, parseDeviceRequest lstat mountpoint line = .ok req →
      parseDeviceRequest lstat mountpoint (canonical req) = .ok req := by
  constructor
  · intro d line hline hlen
    have hfits : ∀ x ∈ d.params, (paramText x).length ≤ 4096 := by
      intro x hx
      have hmem : paramText x ∈ d.fields := by
        unfold Device.fields
        simp only [List.mem_cons, List.mem_map]
        exact Or.inr (Or.inr (Or.inr (Or.inr ⟨x, hx, rfl⟩)))
      exact (length_le_of_spaced hline _ hmem).trans hlen.le
    obtain ⟨params, hentries, hparse⟩ := parseDeviceRequest_spaced lstat mountpoint d hline hfits
    refine ⟨_, hparse, rfl, rfl, rfl, ?_, ?_, fun key value => ?_⟩
    · exact (major_makedev _ _).trans (Nat.mod_eq_of_lt d.major_lt)
    · exact (minor_makedev _ _).trans (Nat.mod_eq_of_lt d.minor_lt)
    · exact (params.find_eq_some_iff key value).trans (hentries (key, value))
  · intro line req hparse
    obtain ⟨d, hreq, hparams, hcanonical, hfits⟩ := exists_device hparse
    have hline : Spaced d.fields (canonical req) := by
      rw [hcanonical]
      exact spaced_intercalate _ _
    obtain ⟨params, hentries, hagain⟩ := parseDeviceRequest_spaced lstat mountpoint d hline hfits
    rw [hparams] at hentries
    rw [hagain, params.eq_of_mem_iff req.params hentries, ← hreq]

def nullDevice : Device where
  type := .char
  name := "null".toList
  major := 1
  minor := 3
  params := [("A".toList, "x=y".toList), ("B".toList, [])]
  name_ne_nil := by decide
  name_noBlank := by decide
  major_lt := by decide
  minor_lt := by decide
  keys_nodup := by decide
  keys_noBlank := by decide
  keys_noEquals := by decide
  values_noBlank := by decide

/-- A line with two characters in one of its gaps, a value with an equals sign and an empty one. -/
theorem parseDeviceRequest_roundTrip_null :
    ∃ req, parseDeviceRequest (fun _ => false) "/dev".toList "c \tnull 1 3 A=x=y B=".toList =
        .ok req ∧ req.params.find "A".toList = some "x=y".toList ∧
      parseDeviceRequest (fun _ => false) "/dev".toList (canonical req) = .ok req := by
  have hone : ∀ c ∈ [' '], c ∈ blanks := by simp [blanks]
  have htwo : ∀ c ∈ [' ', '\t'], c ∈ blanks := by simp [blanks]
  have hline : Spaced nullDevice.fields "c \tnull 1 3 A=x=y B=".toList :=
    .cons ['c'] [' ', '\t'] _ _ nofun htwo (.cons "null".toList [' '] _ _ nofun hone
      (.cons ['1'] [' '] _ _ nofun hone (.cons ['3'] [' '] _ _ nofun hone
        (.cons "A=x=y".toList [' '] _ _ nofun hone (.last "B=".toList)))))
  obtain ⟨hread, hagain⟩ := parseDeviceRequest_roundTrip (fun _ => false) "/dev".toList
  obtain ⟨req, hparse, -, -, -, -, -, hfind⟩ := hread nullDevice _ hline (by decide)
  exact ⟨req, hparse, (hfind _ _).mpr List.mem_cons_self, hagain _ req hparse⟩

end Vdev.PreseedLine
