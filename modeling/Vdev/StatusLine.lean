import Vdev.Reading
import Vdev.Decimal
import Vdev.Daemonlet

/-!
The status line of a daemonlet (`vdev_action_daemonlet_read_int64`). The reader adds
a leading minus sign to the value like a digit, so that a negative number comes out
shifted by three times a power of ten; it takes the end of a line without digits
for a number; and it breaks off at a character that is no digit, in the middle of
the line, without returning the error that it has set. The arithmetic is modulo 2^64.
-/
namespace Vdev.StatusLine

open CString Reading Daemonlet

def signOf (bytes : CStr) : Bool × CStr :=
  if bytes.head? = some '-' then (true, bytes.tail) else (false, bytes)

def digitsOf (bytes : CStr) : CStr := (signOf bytes).2.takeWhile Char.isDigit

def afterDigits (bytes : CStr) : CStr := (signOf bytes).2.dropWhile Char.isDigit

/-- The text of a number of 64 bits: an optional sign and at least one digit. -/
def IsDecimal (line : CStr) (n : Int) : Prop :=
  ∃ ds : CStr, ds ≠ [] ∧ (∀ c ∈ ds, c.isDigit = true) ∧
    (line = ds ∧ n = (Decimal.value ds : Int) ∨ line = '-' :: ds ∧ n = -(Decimal.value ds : Int)) ∧
    -2 ^ 63 ≤ n ∧ n < 2 ^ 63

theorem signOf_eq (bytes : CStr) :
    bytes = (if (signOf bytes).1 then ['-'] else []) ++ (digitsOf bytes ++ afterDigits bytes) := by
  rw [digitsOf, afterDigits, List.takeWhile_append_dropWhile, signOf]
  cases bytes with
  | nil => rfl
  | cons c rest =>
    rw [List.head?_cons]
    by_cases hc : c = '-'
    · simp [hc]
    · simp [hc]

theorem isDigit_of_mem_digitsOf (bytes : CStr) : ∀ c ∈ digitsOf bytes, c.isDigit = true :=
  List.all_eq_true.mp List.all_takeWhile

theorem not_isDigit_of_afterDigits {bytes rest : CStr} {c : Char}
    (h : afterDigits bytes = c :: rest) : c.isDigit = false := by
  have hnot := List.head?_dropWhile_not Char.isDigit (signOf bytes).2
  rw [← afterDigits, h] at hnot
  exact hnot

theorem isDigit_cases (c : Char) : c.isDigit = true ∧ '0' ≤ c ∧ c ≤ '9' ∨
    c.isDigit = false ∧ (c < '0' ∨ c > '9') := by
  have h0 : '0'.toNat = 48 := rfl
  have h9 : '9'.toNat = 57 := rfl
  have hle : ∀ a b : Char, a ≤ b ↔ a.toNat ≤ b.toNat := fun _ _ => Iff.rfl
  have hlt : ∀ a b : Char, a < b ↔ a.toNat < b.toNat := fun _ _ => Iff.rfl
  rw [hle, hle, gt_iff_lt, hlt, hlt]
  cases hd : c.isDigit with
  | true =>
    have h := Char.isDigit_iff_toNat.mp hd
    exact Or.inl ⟨rfl, by omega, by omega⟩
  | false =>
    have h : ¬(48 ≤ c.toNat ∧ c.toNat ≤ 57) := fun h => by
      rw [Char.isDigit_iff_toNat.mpr h] at hd
      cases hd
    exact Or.inr ⟨rfl, by omega⟩

def accumulate (value : Int) (ds : CStr) : Int :=
  ds.foldl (fun v c => toInt64 (toInt64 (v * 10) + ((c.toNat : Int) - '0'.toNat))) value

theorem toInt64_accumulate (value : Int) (ds : CStr) (hds : ∀ c ∈ ds, c.isDigit = true) :
    toInt64 (accumulate value ds) = toInt64 (value * 10 ^ ds.length + Decimal.value ds) := by
  induction ds generalizing value with
  | nil => simp [accumulate, Decimal.value]
  | cons c ds ih =>
    obtain ⟨hc, hds⟩ := List.forall_mem_cons.mp hds
    have hdigit : (c.toNat : Int) - ('0'.toNat : Int) = (Decimal.digit c : Int) := by
      have h := Char.isDigit_iff_toNat.mp hc
      have h0 : '0'.toNat = 48 := rfl
      unfold Decimal.digit
      omega
    rw [accumulate, List.foldl_cons, ← accumulate, ih _ hds, Decimal.value_cons, hdigit]
    unfold toInt64
    rw [Int.bmod_add_bmod, ← Int.bmod_add_bmod, Int.bmod_mul_bmod, Int.bmod_add_bmod]
    congr 1
    push_cast
    rw [List.length_cons, pow_succ]
    ring

section Loop

variable (sys : Sys Stream) (fd : Int)

/-- The descriptor delivers its bytes by `vdev_read_uninterrupted`. -/
def reading : Sys Stream := { sys with readByte := fun _ s => readByte s }

theorem readInt64Loop_digits (ds tail : CStr) (hds : ∀ c ∈ ds, c.isDigit = true) (fuel cnt : ℕ)
    (value s : Int) (schedule : List (Option ℕ)) :
    ∃ schedule', readInt64Loop (reading sys) fd (fuel + ds.length) value s cnt
        ⟨schedule, ds ++ tail⟩ =
      readInt64Loop (reading sys) fd fuel (accumulate value ds) s (cnt + ds.length)
        ⟨schedule', tail⟩ := by
  induction ds generalizing value cnt schedule with
  | nil => exact ⟨schedule, rfl⟩
  | cons c ds ih =>
    obtain ⟨hc, hds⟩ := List.forall_mem_cons.mp hds
    obtain ⟨schedule₁, hread⟩ := readByte_eq schedule (c :: ds ++ tail)
    have hread' : (reading sys).readByte fd ⟨schedule, c :: ds ++ tail⟩ =
        (.ok (some c), ⟨schedule₁, ds ++ tail⟩) := hread
    have hnewline : c ≠ '\n' := fun h => by rw [h] at hc; exact absurd hc (by decide)
    have hminus : c ≠ '-' := fun h => by rw [h] at hc; exact absurd hc (by decide)
    have hrange : ¬(c < '0' ∨ c > '9') := by
      rcases isDigit_cases c with ⟨_, h0, h9⟩ | ⟨hnot, _⟩
      · rintro (h | h)
        · exact absurd h (not_lt.mpr h0)
        · exact absurd h (not_lt.mpr h9)
      · rw [hc] at hnot
        cases hnot
    obtain ⟨schedule', h⟩ := ih hds (cnt + 1)
      (toInt64 (toInt64 (value * 10) + ((c.toNat : Int) - '0'.toNat))) schedule₁
    refine ⟨schedule', ?_⟩
    rw [List.length_cons, ← Nat.add_assoc, readInt64Loop, hread']
    dsimp only
    rw [if_neg hnewline, if_neg (fun h => hminus h.2), if_neg hrange, h, Nat.add_assoc,
      Nat.add_comm 1 ds.length]
    rfl

/-- At the end of the digits the loop returns: with the value, unless the stream ends. -/
theorem readInt64Loop_line (ds tail : CStr) (hds : ∀ c ∈ ds, c.isDigit = true)
    (htail : ∀ c rest, tail = c :: rest → c.isDigit = false) (fuel cnt : ℕ)
    (hminus : cnt = 0 → ds = [] → tail.head? ≠ some '-') (hfuel : ds.length < fuel)
    (value s : Int) (schedule : List (Option ℕ)) :
    ∃ schedule', readInt64Loop (reading sys) fd fuel value s cnt ⟨schedule, ds ++ tail⟩ =
      some (match tail with
        | [] => (.error .eagain, ⟨schedule', []⟩)
        | _ :: rest => (.ok (toInt64 (accumulate value ds * s)), ⟨schedule', rest⟩)) := by
  obtain ⟨fuel, rfl⟩ : ∃ f, fuel = f + 1 + ds.length := ⟨fuel - ds.length - 1, by omega⟩
  obtain ⟨schedule₁, hdigits⟩ := readInt64Loop_digits sys fd ds tail hds (fuel + 1) cnt value s
    schedule
  obtain ⟨schedule', hread⟩ := readByte_eq schedule₁ tail
  have hread' : (reading sys).readByte fd ⟨schedule₁, tail⟩ =
      (.ok tail.head?, ⟨schedule', tail.tail⟩) := hread
  refine ⟨schedule', ?_⟩
  rw [hdigits, readInt64Loop, hread']
  cases tail with
  | nil => rfl
  | cons c rest =>
    have hsign : ¬(cnt + ds.length = 0 ∧ c = '-') := by
      rintro ⟨hzero, rfl⟩
      exact hminus (by omega) (List.length_eq_zero_iff.mp (by omega)) rfl
    rcases isDigit_cases c with ⟨hd, _⟩ | ⟨_, hrange⟩
    · rw [htail c rest rfl] at hd
      cases hd
    · dsimp only [List.head?_cons, List.tail_cons]
      rw [if_neg hsign, if_pos hrange]
      split_ifs <;> rfl

def statusOf (bytes : CStr) : Int :=
  if (signOf bytes).1 then
    toInt64 (3 * 10 ^ (digitsOf bytes).length - Decimal.value (digitsOf bytes))
  else toInt64 (Decimal.value (digitsOf bytes))

theorem toInt64_mul_neg_one (x y : Int) (h : toInt64 x = toInt64 y) :
    toInt64 (x * -1) = toInt64 (-y) := by
  unfold toInt64 at h ⊢
  rw [← Int.bmod_mul_bmod, h, Int.bmod_mul_bmod, mul_neg_one]

/-- The reader returns with enough fuel, whatever the schedule is: at the end of the stream with
an error, and otherwise with a value, behind the first character that is no digit. -/
theorem readInt64_eq (schedule : List (Option ℕ)) (bytes : CStr) (fuel : ℕ)
    (hfuel : bytes.length < fuel) :
    ∃ schedule', readInt64 (reading sys) fuel fd ⟨schedule, bytes⟩ =
      some (match afterDigits bytes with
        | [] => (.error .eagain, ⟨schedule', []⟩)
        | _ :: rest => (.ok (statusOf bytes), ⟨schedule', rest⟩)) := by
  have hds := isDigit_of_mem_digitsOf bytes
  have htail : ∀ c rest, afterDigits bytes = c :: rest → c.isDigit = false :=
    fun _ _ h => not_isDigit_of_afterDigits h
  have heq := signOf_eq bytes
  rw [readInt64]
  cases hsign : (signOf bytes).1 with
  | true =>
    rw [hsign, if_pos rfl] at heq
    have hstatus : statusOf bytes = toInt64 (accumulate (-3) (digitsOf bytes) * -1) := by
      rw [toInt64_mul_neg_one _ _ (toInt64_accumulate (-3) _ hds), statusOf, hsign, if_pos rfl]
      congr 1
      ring
    obtain ⟨schedule₁, hread⟩ := readByte_eq schedule bytes
    have hread' : (reading sys).readByte fd ⟨schedule, bytes⟩ =
        (.ok (some '-'), ⟨schedule₁, digitsOf bytes ++ afterDigits bytes⟩) := by
      have hhead : bytes.head? = some '-' := by rw [heq]; rfl
      have hrest : bytes.tail = digitsOf bytes ++ afterDigits bytes := by
        conv_lhs => rw [heq]
        rfl
      rw [← hhead, ← hrest]
      exact hread
    have hlength : bytes.length = (digitsOf bytes).length + (afterDigits bytes).length + 1 := by
      conv_lhs => rw [heq]
      rw [List.singleton_append, List.length_cons, List.length_append]
    obtain ⟨fuel, rfl⟩ : ∃ f, fuel = f + 1 := ⟨fuel - 1, by omega⟩
    obtain ⟨schedule', h⟩ := readInt64Loop_line sys fd (digitsOf bytes) (afterDigits bytes) hds
      htail fuel 1 (by omega) (by omega) (-3) (-1) schedule₁
    refine ⟨schedule', ?_⟩
    rw [readInt64Loop, hread', hstatus, ← h]
    dsimp only
    rw [if_neg (by decide), if_pos ⟨rfl, rfl⟩]
    rfl
  | false =>
    rw [hsign, if_neg Bool.false_ne_true, List.nil_append] at heq
    have hstatus : statusOf bytes = toInt64 (accumulate 0 (digitsOf bytes) * 1) := by
      rw [mul_one, toInt64_accumulate 0 _ hds, statusOf, hsign, if_neg Bool.false_ne_true]
      simp
    have hlength : bytes.length = (digitsOf bytes).length + (afterDigits bytes).length := by
      conv_lhs => rw [heq]
      rw [List.length_append]
    have hminus : 0 = 0 → digitsOf bytes = [] → (afterDigits bytes).head? ≠ some '-' := by
      intro _ hnil hhead
      rw [hnil, List.nil_append] at heq
      rw [← heq] at hhead
      rw [signOf, if_pos hhead] at hsign
      cases hsign
    obtain ⟨schedule', h⟩ := readInt64Loop_line sys fd (digitsOf bytes) (afterDigits bytes) hds
      htail fuel 0 hminus (by omega) 0 1 schedule
    refine ⟨schedule', ?_⟩
    rw [hstatus, ← h, ← heq]

end Loop

/-- With enough fuel the reader returns; it returns `n` exactly if the first line is the decimal
text of `n` (and an error in every other case), and it takes exactly the first line. -/
def AcceptsDecimal (sys : Sys Stream) (fd : Int) (s : Stream) : Prop :=
  ∀ fuel, s.bytes.length < fuel → ∃ r s', readInt64 (reading sys) fuel fd s = some (r, s') ∧
    (∀ n, r = .ok n ↔
      ∃ line rest, s.bytes = line ++ '\n' :: rest ∧ '\n' ∉ line ∧ IsDecimal line n) ∧
    ∀ line rest, s.bytes = line ++ '\n' :: rest → '\n' ∉ line → s'.bytes = rest

def signedValue (bytes : CStr) : Int :=
  if (signOf bytes).1 then -(Decimal.value (digitsOf bytes) : Int)
  else Decimal.value (digitsOf bytes)

/-- The stream ends behind the sign and the digits, or there is a line of digits for a number that
fits. A number with a minus sign needs 64 digits, so that the shift is a multiple of 2^64. -/
def ReadsRight (bytes : CStr) : Prop :=
  afterDigits bytes = [] ∨
    (afterDigits bytes).head? = some '\n' ∧ digitsOf bytes ≠ [] ∧
      if (signOf bytes).1 then
        64 ≤ (digitsOf bytes).length ∧ Decimal.value (digitsOf bytes) ≤ 2 ^ 63
      else Decimal.value (digitsOf bytes) < 2 ^ 63

theorem newline_not_mem_digits {ds : CStr} (hds : ∀ c ∈ ds, c.isDigit = true) : '\n' ∉ ds :=
  fun h => absurd (hds _ h) (by decide)

theorem newline_not_mem_sign (bytes : CStr) :
    '\n' ∉ (if (signOf bytes).1 then ['-'] else []) ++ digitsOf bytes := by
  rw [List.mem_append, not_or]
  refine ⟨?_, newline_not_mem_digits (isDigit_of_mem_digitsOf bytes)⟩
  split_ifs <;> decide

/-- There is only one first line. -/
theorem line_unique {a b x y : CStr} (h : a ++ '\n' :: x = b ++ '\n' :: y) (ha : '\n' ∉ a)
    (hb : '\n' ∉ b) : a = b ∧ x = y := by
  have htake : ∀ (l rest : CStr), '\n' ∉ l →
      (l ++ '\n' :: rest).takeWhile (· ≠ '\n') = l := by
    intro l rest hl
    rw [List.takeWhile_append_of_pos (fun c hc => by
      simp only [decide_eq_true_eq]
      rintro rfl
      exact hl hc)]
    simp
  have hab : a = b := by rw [← htake a x ha, h, htake b y hb]
  subst hab
  exact ⟨rfl, List.cons_injective (List.append_cancel_left h)⟩

/-- A stream that begins with the line of a number, taken apart. -/
theorem isDecimal_line_iff (bytes : CStr) (n : Int) :
    (∃ line rest, bytes = line ++ '\n' :: rest ∧ '\n' ∉ line ∧ IsDecimal line n) ↔
      (afterDigits bytes).head? = some '\n' ∧ digitsOf bytes ≠ [] ∧ n = signedValue bytes ∧
        -2 ^ 63 ≤ n ∧ n < 2 ^ 63 := by
  constructor
  · rintro ⟨line, rest, rfl, hline, ds, hne, hds, hsign, hlow, hhigh⟩
    have htake : (ds ++ '\n' :: rest).takeWhile Char.isDigit = ds := by
      rw [List.takeWhile_append_of_pos hds]
      simp
    have hdrop : (ds ++ '\n' :: rest).dropWhile Char.isDigit = '\n' :: rest := by
      rw [List.dropWhile_append_of_pos hds]
      simp
    rcases hsign with ⟨rfl, hn⟩ | ⟨rfl, hn⟩
    · have hsignOf : signOf (line ++ '\n' :: rest) = (false, line ++ '\n' :: rest) := by
        cases line with
        | nil => exact absurd rfl hne
        | cons c cs =>
          have hc := hds c List.mem_cons_self
          refine if_neg (fun h => ?_)
          rw [List.cons_append, List.head?_cons, Option.some.injEq] at h
          rw [h] at hc
          exact absurd hc (by decide)
      refine ⟨?_, ?_, ?_, hlow, hhigh⟩
      · rw [afterDigits, hsignOf, hdrop, List.head?_cons]
      · rw [digitsOf, hsignOf, htake]
        exact hne
      · rw [signedValue, digitsOf, hsignOf, htake]
        exact hn
    · have hsignOf : signOf ('-' :: ds ++ '\n' :: rest) = (true, ds ++ '\n' :: rest) := rfl
      refine ⟨?_, ?_, ?_, hlow, hhigh⟩
      · rw [afterDigits, hsignOf, hdrop, List.head?_cons]
      · rw [digitsOf, hsignOf, htake]
        exact hne
      · rw [signedValue, digitsOf, hsignOf, htake]
        exact hn
  · rintro ⟨hhead, hne, hn, hlow, hhigh⟩
    obtain ⟨rest, hrest⟩ := List.head?_eq_some_iff.mp hhead
    refine ⟨(if (signOf bytes).1 then ['-'] else []) ++ digitsOf bytes, rest, ?_,
      newline_not_mem_sign bytes, digitsOf bytes, hne, isDigit_of_mem_digitsOf bytes, ?_, hlow,
      hhigh⟩
    · rw [List.append_assoc, ← hrest]
      exact signOf_eq bytes
    · rw [signedValue] at hn
      split_ifs at hn ⊢ with hsign
      · exact Or.inr ⟨rfl, hn⟩
      · exact Or.inl ⟨rfl, hn⟩

/-- The shift of a negative number is a multiple of 2^64 from 64 digits on. -/
theorem dvd_shift_iff (k : ℕ) : (2 : Int) ^ 64 ∣ 3 * 10 ^ k ↔ 64 ≤ k := by
  have hcop : Nat.Coprime (2 ^ 64) (3 * 5 ^ k) := by
    refine Nat.Coprime.pow_left 64 (Nat.Coprime.mul_right (by decide) ?_)
    exact Nat.Coprime.pow_right k (by decide)
  have hten : 3 * 10 ^ k = 3 * 5 ^ k * 2 ^ k := by
    rw [mul_assoc, ← mul_pow]
    rfl
  have hnat : 2 ^ 64 ∣ 3 * 10 ^ k ↔ 64 ≤ k := by
    rw [hten, hcop.dvd_mul_left]
    exact Nat.pow_dvd_pow_iff_le_right (by decide)
  rw [← hnat]
  exact_mod_cast Int.natCast_dvd_natCast (m := 2 ^ 64) (n := 3 * 10 ^ k)

theorem toInt64_eq_iff (x y : Int) :
    toInt64 x = y ↔ -2 ^ 63 ≤ y ∧ y < 2 ^ 63 ∧ (2 : Int) ^ 64 ∣ y - x := by
  unfold toInt64
  rw [Int.bmod_eq_iff (by decide)]
  norm_num

/-- The value that is returned is the right one exactly under the condition on the digits. -/
theorem statusOf_eq_iff (bytes : CStr) :
    (statusOf bytes = signedValue bytes ∧ -2 ^ 63 ≤ statusOf bytes ∧ statusOf bytes < 2 ^ 63) ↔
      if (signOf bytes).1 then
        64 ≤ (digitsOf bytes).length ∧ Decimal.value (digitsOf bytes) ≤ 2 ^ 63
      else Decimal.value (digitsOf bytes) < 2 ^ 63 := by
  unfold statusOf signedValue
  generalize Decimal.value (digitsOf bytes) = V
  split_ifs with hsign
  · have hdiff : -(V : Int) - (3 * 10 ^ (digitsOf bytes).length - V) =
        -(3 * 10 ^ (digitsOf bytes).length) := by ring
    constructor
    · rintro ⟨heq, _, _⟩
      obtain ⟨hlow, _, hdvd⟩ := (toInt64_eq_iff _ _).mp heq
      rw [hdiff, dvd_neg, dvd_shift_iff] at hdvd
      exact ⟨hdvd, by omega⟩
    · rintro ⟨hlen, hle⟩
      have heq : toInt64 (3 * 10 ^ (digitsOf bytes).length - V) = -(V : Int) := by
        refine (toInt64_eq_iff _ _).mpr ⟨by omega, by omega, ?_⟩
        rw [hdiff, dvd_neg, dvd_shift_iff]
        exact hlen
      rw [heq]
      exact ⟨rfl, by omega, by omega⟩
  · constructor
    · rintro ⟨heq, _, hhigh⟩
      omega
    · intro hlt
      have heq : toInt64 V = (V : Int) :=
        (toInt64_eq_iff _ _).mpr ⟨by omega, by omega, by simp⟩
      rw [heq]
      exact ⟨rfl, by omega, by omega⟩

/-- The digits end in the first line, or with its newline. -/
theorem afterDigits_of_line {bytes line rest : CStr} (hline : bytes = line ++ '\n' :: rest)
    (hnewline : '\n' ∉ line) :
    ∃ c rest', afterDigits bytes = c :: rest' ∧ (c = '\n' → rest' = rest) := by
  cases hafter : afterDigits bytes with
  | nil =>
    have hsign := newline_not_mem_sign bytes
    have heq := signOf_eq bytes
    rw [hafter, List.append_nil] at heq
    rw [← heq, hline] at hsign
    exact absurd (by simp) hsign
  | cons c rest' =>
    refine ⟨c, rest', rfl, ?_⟩
    rintro rfl
    have heq := signOf_eq bytes
    rw [hafter, ← List.append_assoc] at heq
    exact (line_unique (hline.symm.trans heq) hnewline (newline_not_mem_sign bytes)).2.symm

/-- The exact condition: the reader accepts decimal lines only, and keeps in step with them, on the
streams that are read right. -/
theorem acceptsDecimal_iff (sys : Sys Stream) (fd : Int) (schedule : List (Option ℕ))
    (bytes : CStr) : AcceptsDecimal sys fd ⟨schedule, bytes⟩ ↔ ReadsRight bytes := by
  constructor
  · intro h
    obtain ⟨r, s', hread, hvalue, _⟩ := h (bytes.length + 1) (by simp)
    obtain ⟨schedule', heq⟩ := readInt64_eq sys fd schedule bytes (bytes.length + 1) (by simp)
    cases hafter : afterDigits bytes with
    | nil => exact Or.inl hafter
    | cons c rest =>
      rw [hafter, hread] at heq
      obtain ⟨rfl, _⟩ := Prod.mk.inj (Option.some.inj heq)
      obtain ⟨hhead, hne, hsigned, hlow, hhigh⟩ :=
        (isDecimal_line_iff bytes (statusOf bytes)).mp ((hvalue (statusOf bytes)).mp rfl)
      exact Or.inr ⟨hhead, hne, (statusOf_eq_iff bytes).mp ⟨hsigned, hlow, hhigh⟩⟩
  · intro h fuel hfuel
    obtain ⟨schedule', heq⟩ := readInt64_eq sys fd schedule bytes fuel hfuel
    cases hafter : afterDigits bytes with
    | nil =>
      rw [hafter] at heq
      refine ⟨_, _, heq, fun n => ?_, fun line rest hline hnewline => ?_⟩
      · rw [isDecimal_line_iff bytes n, hafter]
        simp
      · obtain ⟨c, rest', hafter', _⟩ := afterDigits_of_line hline hnewline
        rw [hafter] at hafter'
        cases hafter'
    | cons c rest =>
      obtain ⟨hhead, hne, hdigits⟩ := h.resolve_left (by rw [hafter]; exact List.cons_ne_nil c rest)
      obtain ⟨hstatus, hlow, hhigh⟩ := (statusOf_eq_iff bytes).mpr hdigits
      rw [hafter] at heq
      refine ⟨_, _, heq, fun n => ?_, fun line rest' hline hnewline => ?_⟩
      · rw [isDecimal_line_iff bytes n, Except.ok.injEq]
        constructor
        · rintro rfl
          exact ⟨hhead, hne, hstatus, hlow, hhigh⟩
        · rintro ⟨_, _, hn, _, _⟩
          rw [hn, hstatus]
      · obtain ⟨c', rest'', hafter', hsame⟩ := afterDigits_of_line hline hnewline
        rw [hafter] at hafter' hhead
        obtain ⟨rfl, rfl⟩ := List.cons.inj hafter'
        exact hsame (Option.some.inj hhead)

def failing : Sys Stream where
  runnerExecutable _ w := (none, w)
  pipe w := (.error .eio, w)
  fork w := (.error .eio, w)
  readByte _ w := (.error .eio, w)
  write _ _ w := (Errno.eio.rc, w)
  waitpid _ _ w := (.error .echild, w)
  close _ w := (.error .eio, w)
  kill _ w := (.error .eio, w)

/-- The line `-5` is read as 25, an empty line as 0, and `1x2` as 1, with the rest of the line left
for the next call. -/
theorem not_acceptsDecimal_negative :
    (readInt64 (reading failing) 4 3 ⟨[], "-5\n".toList⟩ = some (.ok 25, ⟨[], []⟩) ∧
      readInt64 (reading failing) 4 3 ⟨[none, some 0], "\n".toList⟩ =
        some (.ok 0, ⟨[], []⟩) ∧
      readInt64 (reading failing) 5 3 ⟨[], "1x2\n".toList⟩ = some (.ok 1, ⟨[], "2\n".toList⟩)) ∧
    ¬AcceptsDecimal failing 3 ⟨[], "-5\n".toList⟩ := by
  have hfive : readInt64 (reading failing) 4 3 ⟨[], "-5\n".toList⟩ = some (.ok 25, ⟨[], []⟩) := rfl
  refine ⟨⟨hfive, rfl, rfl⟩, fun h => ?_⟩
  obtain ⟨r, s', hread, hvalue, _⟩ := h 4 (by decide)
  rw [hfive] at hread
  obtain ⟨rfl, _⟩ := Prod.mk.inj (Option.some.inj hread)
  have hdecimal := (isDecimal_line_iff _ _).mp ((hvalue 25).mp rfl)
  exact absurd hdecimal.2.2.1 (by decide)

end Vdev.StatusLine
