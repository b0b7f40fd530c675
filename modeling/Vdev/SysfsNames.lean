import Vdev.Enumeration
import Vdev.Principals

/-!
The name of a device in sysfs and the number at its end (vdevd/helpers/LINUX/common.c). The loop
that looks for the number starts at the terminating NUL, which is no digit: only the last digit is
ever read.
-/
namespace Vdev.SysfsNames

open CString Parsing Paths Enumeration Principals

def bangToSlash (c : Char) : Char := if c = '!' then '/' else c

/-- `vdev_sysfs_get_sysname`. -/
def getSysname (devpath : CStr) : Except Errno CStr :=
  match rindexSlash devpath with
  | none => .error .einval
  | some delim => .ok ((delim.drop 1).map bangToSlash)

def charAt (s : CStr) (i : ℕ) : Char := s.getD i '\x00'

/-- The loop that counts `i` up from 0, while there is a digit at `sysname_len - i`. It is told the
index that it reads next; with `none` it has come below the string. -/
def digitsBack (sysname : CStr) : ℕ → Option ℕ
  | 0 => if isDigit 10 (charAt sysname 0) then none else some 0
  | k + 1 => if isDigit 10 (charAt sysname (k + 1)) then digitsBack sysname k else some (k + 1)

/-- `vdev_sysfs_get_sysnum`: with `none`, it reads in front of the sysname. The index of the loop is
counted up once more, and the number stands from there on. -/
def getSysnum (devpath : CStr) : Option (Except Errno Int) :=
  match getSysname devpath with
  | .error e => some (.error e)
  | .ok sysname =>
    match digitsBack sysname sysname.length with
    | none => none
    | some 0 => none
    | some (k + 1) => some (.ok (Int.bmod (strtol 10 (sysname.drop k)).1 (2 ^ 32)))

/-- A device path ends in a number: a run of digits, and no digit before it. -/
def EndsInNumber (devpath : CStr) (v : ℕ) : Prop :=
  ∃ front digits, devpath = front ++ digits ∧ DecimalText digits v ∧
    ∀ c, front.getLast? = some c → isDigit 10 c = false

/-- The terminating NUL ends the loop at once. -/
theorem digitsBack_length (sysname : CStr) :
    digitsBack sysname sysname.length = some sysname.length := by
  have hnul : charAt sysname sysname.length = '\x00' := by simp [charAt]
  have hdigit : isDigit 10 '\x00' = false := by decide
  cases h : sysname.length with
  | zero => rw [digitsBack, ← h, hnul, hdigit, if_neg Bool.false_ne_true]
  | succ k => rw [digitsBack, ← h, hnul, hdigit, if_neg Bool.false_ne_true]

theorem rindexSlash_eq_none (p : CStr) (h : '/' ∉ p) : rindexSlash p = none := by
  have hscan : ∀ k, slashBelow p k = none := by
    intro k
    induction k with
    | zero => rfl
    | succ k ih =>
      rw [slashBelow, if_neg (fun hk => h (List.mem_of_getElem? hk))]
      exact ih
  rw [rindexSlash, hscan, Option.map_none]

theorem getSysname_append (d c : CStr) (hc : '/' ∉ c) :
    getSysname (d ++ '/' :: c) = .ok (c.map bangToSlash) := by
  rw [getSysname, rindexSlash_append d c hc]
  rfl

theorem getSysname_eq_error (p : CStr) (h : '/' ∉ p) : getSysname p = .error .einval := by
  rw [getSysname, rindexSlash_eq_none p h]

/-- What is read of a sysname is its last character. -/
theorem getSysnum_last (d c : CStr) (x : Char) (hc : '/' ∉ c ++ [x]) :
    getSysnum (d ++ '/' :: (c ++ [x])) =
      some (.ok (Int.bmod (strtol 10 [bangToSlash x]).1 (2 ^ 32))) := by
  rw [getSysnum, getSysname_append d _ hc]
  dsimp only
  rw [digitsBack_length, List.map_append, List.length_append, List.map_singleton,
    List.length_singleton]
  dsimp only
  rw [List.drop_left]

/-- The string is left exactly when the last name of the path is empty. -/
theorem getSysnum_eq_none_iff (p : CStr) : getSysnum p = none ↔ p.getLast? = some '/' := by
  by_cases hslash : '/' ∈ p
  · obtain ⟨d, c, rfl, hc⟩ := exists_last_slash p hslash
    rcases List.eq_nil_or_concat c with rfl | ⟨c, x, rfl⟩
    · refine iff_of_true ?_ (by simp)
      rw [getSysnum, getSysname_append d [] hc]
      dsimp only
      rw [digitsBack_length]
      rfl
    · rw [List.concat_eq_append] at hc ⊢
      rw [getSysnum_last d c x hc]
      refine iff_of_false (Option.some_ne_none _) ?_
      rw [← List.cons_append, ← List.append_assoc, List.getLast?_concat, Option.some.injEq]
      rintro rfl
      exact hc (by simp)
  · refine iff_of_false ?_ (fun hlast => hslash (List.mem_of_getLast? hlast))
    rw [getSysnum, getSysname_eq_error p hslash]
    exact Option.some_ne_none _

theorem digit_ne_slash {c : Char} (h : isDigit 10 c = true) : c ≠ '/' := by
  rintro rfl
  exact absurd h (by decide)

theorem bangToSlash_digit {c : Char} (h : isDigit 10 c = true) : bangToSlash c = c := by
  rw [bangToSlash, if_neg]
  rintro rfl
  exact absurd h (by decide)

theorem digitsValue_append_singleton (ds : CStr) (x : Char) :
    digitsValue 10 (ds ++ [x]) = 10 * digitsValue 10 ds + (x.toNat - '0'.toNat) := by
  rw [digitsValue, List.foldl_append]
  rfl

theorem digit_lt_ten {x : Char} (h : isDigit 10 x = true) : x.toNat - '0'.toNat < 10 := by
  have hboth := (Bool.and_eq_true _ _).mp h
  have hlt := of_decide_eq_true hboth.2
  omega

theorem decimalText_singleton {x : Char} (h : isDigit 10 x = true) :
    DecimalText [x] (x.toNat - '0'.toNat) := by
  refine ⟨List.cons_ne_nil _ _, by simpa using h, ?_⟩
  simp [digitsValue]

theorem strtol_digit {x : Char} (h : isDigit 10 x = true) :
    Int.bmod (strtol 10 [x]).1 (2 ^ 32) = (x.toNat - '0'.toNat : ℕ) := by
  have hlt := digit_lt_ten h
  rw [strtol, scanInt_decimalText (decimalText_singleton h)]
  dsimp only
  rw [min_eq_right (by omega), Int.bmod_eq_of_le (by omega) (by omega)]

/-- Only the last digit of the number is read, and only a path with a slash has a name. -/
theorem getSysnum_digit (front ds : CStr) (x : Char) (hds : ∀ c ∈ ds ++ [x], isDigit 10 c = true) :
    getSysnum (front ++ (ds ++ [x])) =
      some (if '/' ∈ front then .ok ((x.toNat - '0'.toNat : ℕ) : Int) else .error .einval) := by
  have hdigits : '/' ∉ ds ++ [x] := fun hmem => digit_ne_slash (hds _ hmem) rfl
  have hx : isDigit 10 x = true := hds x (by simp)
  by_cases hslash : '/' ∈ front
  · obtain ⟨d, c, rfl, hc⟩ := exists_last_slash front hslash
    have hname : '/' ∉ (c ++ ds) ++ [x] := by
      rw [List.append_assoc, List.mem_append, not_or]
      exact ⟨hc, hdigits⟩
    rw [if_pos hslash, List.append_assoc, List.cons_append, ← List.append_assoc c,
      getSysnum_last d (c ++ ds) x hname, bangToSlash_digit hx, strtol_digit hx]
  · have hpath : '/' ∉ front ++ (ds ++ [x]) := by
      rw [List.mem_append, not_or]
      exact ⟨hslash, hdigits⟩
    rw [if_neg hslash, getSysnum, getSysname_eq_error _ hpath]

theorem decimalText_last {digits : CStr} {v : ℕ} (h : DecimalText digits v) :
    ∃ ds x, digits = ds ++ [x] ∧ (∀ c ∈ ds ++ [x], isDigit 10 c = true) ∧
      v = 10 * digitsValue 10 ds + (x.toNat - '0'.toNat) := by
  obtain ⟨hne, hdigits, hvalue⟩ := h
  obtain ⟨ds, x, rfl⟩ := (List.eq_nil_or_concat digits).resolve_left hne
  rw [List.concat_eq_append] at hdigits hvalue ⊢
  exact ⟨ds, x, rfl, hdigits, by rw [← hvalue, digitsValue_append_singleton]⟩

/-- The number at the end of a path is found exactly when the path has a slash and the number is
less than ten. -/
theorem getSysnum_eq_iff (devpath : CStr) (v : ℕ) (h : EndsInNumber devpath v) (hv : v < 2 ^ 31) :
    getSysnum devpath = some (.ok (v : Int)) ↔ '/' ∈ devpath ∧ v < 10 := by
  obtain ⟨front, digits, rfl, htext, -⟩ := h
  obtain ⟨ds, x, rfl, hds, hvalue⟩ := decimalText_last htext
  have hx : isDigit 10 x = true := hds x (by simp)
  have hlt := digit_lt_ten hx
  have hmem : '/' ∈ front ++ (ds ++ [x]) ↔ '/' ∈ front := by
    rw [List.mem_append, or_iff_left (fun hmem => digit_ne_slash (hds _ hmem) rfl)]
  rw [getSysnum_digit front ds x hds, hmem]
  split_ifs with hslash
  · simp only [Option.some.injEq, Except.ok.injEq, Nat.cast_inj, hslash, true_and]
    omega
  · simp [hslash]

/-- The paths `/block/sda7` and `/net/eth12`. -/
def sdaPath : CStr := "/block/sda7".toList

def ethPath : CStr := "/net/eth12".toList

theorem sdaPath_ends : EndsInNumber sdaPath 7 :=
  ⟨"/block/sda".toList, "7".toList, rfl, ⟨by decide, by decide, by decide⟩, fun c hc => by
    obtain rfl : 'a' = c := Option.some.inj hc
    decide⟩

theorem ethPath_ends : EndsInNumber ethPath 12 :=
  ⟨"/net/eth".toList, "12".toList, rfl, ⟨by decide, by decide, by decide⟩, fun c hc => by
    obtain rfl : 'h' = c := Option.some.inj hc
    decide⟩

theorem getSysnum_eq_iff_sda : getSysnum sdaPath = some (.ok 7) :=
  (getSysnum_eq_iff sdaPath 7 sdaPath_ends (by decide)).mpr (by decide)

/-- Of the number 12 only the digit 2 is read. -/
theorem getSysnum_cuts : ¬∀ (devpath : CStr) (v : ℕ), EndsInNumber devpath v → v < 2 ^ 31 →
    getSysnum devpath = some (.ok (v : Int)) := by
  intro h
  have heth := h ethPath 12 ethPath_ends (by decide)
  rw [show ethPath = "/net/eth".toList ++ ("1".toList ++ ['2']) by decide,
    getSysnum_digit "/net/eth".toList "1".toList '2' (by decide)] at heth
  exact absurd heth (by decide)

end Vdev.SysfsNames
