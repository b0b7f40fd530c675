import Mathlib.Data.List.Basic
import Mathlib.Tactic

/-!
C strings and error codes. A C string is the list of its characters, without
the terminating NUL; each character stands for one byte. System calls fail with
an `Errno`, and the C functions above them return its negated code.
-/
namespace Vdev.CString

abbrev CStr := List Char

instance (priority := high) decidableMemCStr (s : CStr) (texts : List CStr) :
    Decidable (s ∈ texts) := List.instDecidableMemOfLawfulBEq s texts

inductive Errno
  | eperm | enoent | eintr | eio | enxio | echild | eagain | enomem | ebusy | eexist
  | enotdir | eisdir | einval | epipe | erange | enotempty | enodata
  deriving DecidableEq, Repr

/-- The return code `-errno`, with the numbers of Linux. -/
def Errno.rc : Errno → Int
  | .eperm => -1
  | .enoent => -2
  | .eintr => -4
  | .eio => -5
  | .enxio => -6
  | .echild => -10
  | .eagain => -11
  | .enomem => -12
  | .ebusy => -16
  | .eexist => -17
  | .enotdir => -20
  | .eisdir => -21
  | .einval => -22
  | .epipe => -32
  | .erange => -34
  | .enotempty => -39
  | .enodata => -61

theorem Errno.rc_neg (e : Errno) : e.rc < 0 := by
  cases e <;> decide

theorem Errno.rc_ne_zero (e : Errno) : e.rc ≠ 0 := by
  have h := e.rc_neg
  omega

/-- `snprintf` into a buffer of `size` bytes keeps at most `size - 1` of them. -/
def snprintf (size : ℕ) (text : CStr) : CStr := text.take (size - 1)

theorem snprintf_of_lt (size : ℕ) (text : CStr) (h : text.length < size) :
    snprintf size text = text := by
  unfold snprintf
  exact List.take_of_length_le (by omega)

/-- The C string in a buffer that may hold NUL bytes. -/
def untilNul (buf : CStr) : CStr := buf.takeWhile (· ≠ '\x00')

/-- `strcasecmp( a, b ) == 0`. -/
def strcaseEq (a b : CStr) : Bool := a.map Char.toLower == b.map Char.toLower

end Vdev.CString
