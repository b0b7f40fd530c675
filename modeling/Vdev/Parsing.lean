import Vdev.CString

/-!
The functions of the C library that the parsers of vdev are built on: numbers
(`strtol`, `strtoul`, `sscanf` with `%u`), tokens (`strtok_r`), and the functions
of libvdev/util.c that are thin layers over them. A pointer into a string is the
rest of the string from there on. The type `long` has 64 bits.
-/
namespace Vdev.Parsing

open CString

/-- `isspace` in the C locale. -/
def isspace (c : Char) : Bool :=
  c == ' ' || c == '\t' || c == '\n' || c == '\x0b' || c == '\x0c' || c == '\r'

def isDigit (base : ℕ) (c : Char) : Bool := '0' ≤ c && c.toNat < '0'.toNat + base

def digitsValue (base : ℕ) (ds : CStr) : ℕ :=
  ds.foldl (fun n c => base * n + (c.toNat - '0'.toNat)) 0

/-- White space, a sign and digits: the sign, the magnitude and the rest of the
string. There is no conversion without a digit. -/
def scanInt (base : ℕ) (s : CStr) : Option (Bool × ℕ × CStr) :=
  let t := s.dropWhile isspace
  let (neg, t) := match t with
    | '-' :: t => (true, t)
    | '+' :: t => (false, t)
    | t => (false, t)
  let ds := t.takeWhile (isDigit base)
  if ds = [] then none else some (neg, digitsValue base ds, t.dropWhile (isDigit base))

/-- `strtol` (and `strtoll`), for a base of at most ten. -/
def strtol (base : ℕ) (s : CStr) : Int × CStr :=
  match scanInt base s with
  | none => (0, s)
  | some (true, m, rest) => (max (-2 ^ 63) (-m), rest)
  | some (false, m, rest) => (min (2 ^ 63 - 1) m, rest)

/-- `strtoul`. A minus sign negates the result, unless the magnitude overflows. -/
def strtoul (base : ℕ) (s : CStr) : ℕ × CStr :=
  match scanInt base s with
  | none => (0, s)
  | some (neg, m, rest) =>
    if 2 ^ 64 ≤ m then (2 ^ 64 - 1, rest)
    else if neg then ((2 ^ 64 - m) % 2 ^ 64, rest)
    else (m, rest)

/-- `vdev_parse_uint64`: the number, if any digit was read. Text after the number
is ignored. -/
def parseUint64 (s : CStr) : Option ℕ :=
  if (strtol 10 s).2 = s then none else some ((strtol 10 s).1 % 2 ^ 64).toNat

/-- `sscanf( s, "%u:%u", ... )`, if both numbers are converted. -/
def sscanfPair (s : CStr) : Option (ℕ × ℕ) :=
  match scanInt 10 s with
  | none => none
  | some _ =>
    match strtoul 10 s with
    | (major, ':' :: t) =>
      match scanInt 10 t with
      | none => none
      | some _ => some (major % 2 ^ 32, (strtoul 10 t).1 % 2 ^ 32)
    | _ => none

/-- `makedev` of sys/sysmacros.h, whose arguments are unsigned ints. -/
def makedev (major minor : ℕ) : ℕ :=
  let major := major % 2 ^ 32
  let minor := minor % 2 ^ 32
  ((major &&& 0xfff) <<< 8) ||| ((major &&& 0xfffff000) <<< 32) ||| (minor &&& 0xff) |||
    ((minor &&& 0xffffff00) <<< 12)

/-- `strtok_r`: the next token and the string after it. -/
def strtok (delims : CStr) (s : CStr) : Option (CStr × CStr) :=
  let t := s.dropWhile (· ∈ delims)
  if t = [] then none
  else some (t.takeWhile (· ∉ delims), (t.dropWhile (· ∉ delims)).tail)

/-- `vdev_keyvalue_next`: the key and the value, cut at the first equals sign. -/
def keyvalueNext (s : CStr) : Option (CStr × CStr) :=
  if '=' ∈ s then some (s.takeWhile (· ≠ '='), (s.dropWhile (· ≠ '=')).tail) else none

theorem takeWhile_append_stop (p : Char → Bool) (a b : CStr) (c : Char)
    (ha : ∀ x ∈ a, p x = true) (hc : p c = false) :
    (a ++ c :: b).takeWhile p = a ∧ (a ++ c :: b).dropWhile p = c :: b := by
  constructor
  · rw [List.takeWhile_append_of_pos ha, List.takeWhile_cons_of_neg (by simp [hc]),
      List.append_nil]
  · rw [List.dropWhile_append_of_pos ha, List.dropWhile_cons_of_neg (by simp [hc])]

theorem keyvalueNext_pair (key value : CStr) (h : '=' ∉ key) :
    keyvalueNext (key ++ '=' :: value) = some (key, value) := by
  have hstop := takeWhile_append_stop (fun c => decide (c ≠ '=')) key value '='
    (fun x hx => by
      rw [decide_eq_true_eq]
      rintro rfl
      exact h hx) (by decide)
  rw [keyvalueNext, if_pos (by simp), hstop.1, hstop.2]
  rfl

end Vdev.Parsing
