import Vdev.EventPut
import Vdev.Principals

/-!
Where event-put finds the number of an event (vdevd/helpers/LINUX/event-put.c). It looks for the
first `SEQNUM=` anywhere in the text, which may be the end of another key or part of a value, and
takes the number behind it. Only the number 0 is looked at again: any other one is taken, with white
space or a sign before it and other text after it, and one that is too large as the largest.
-/
namespace Vdev.SeqnumField

open CString Parsing SysfsDevice Uevent EventFormat Principals

def signedNumber (neg : Bool) (m : ℕ) : ℕ :=
  if 2 ^ 64 ≤ m then 2 ^ 64 - 1 else if neg then (2 ^ 64 - m) % 2 ^ 64 else m

/-- A text begins with white space, a sign and the digits of a number, and goes on with `rest`. -/
def NumberAt (text : CStr) (n : ℕ) (rest : CStr) : Prop :=
  ∃ blanks sign digits, text = blanks ++ sign ++ digits ++ rest ∧
    (∀ c ∈ blanks, isspace c = true) ∧ sign ∈ [[], ['-'], ['+']] ∧
    digits ≠ [] ∧ (∀ c ∈ digits, isDigit 10 c = true) ∧
    (∀ c, rest.head? = some c → isDigit 10 c = false) ∧
    n = signedNumber (sign == ['-']) (digitsValue 10 digits)

/-- What follows the first `SEQNUM=` of a text. -/
def BehindFirst (buf found : CStr) : Prop :=
  strstr "SEQNUM=".toList buf = some ("SEQNUM=".toList ++ found)

instance (buf found : CStr) : Decidable (BehindFirst buf found) :=
  inferInstanceAs (Decidable (_ = _))

def OwnSeqnum (lines : List Line) (n : ℕ) : Prop :=
  ∃ l ∈ lines, l.key = "SEQNUM".toList ∧ DecimalText l.value n ∧ n < 2 ^ 64

def eventText (header : Option CStr) (final : Bool) (lines : List Line) : CStr :=
  (header.map (· ++ ['\n'])).getD [] ++ fileText final lines

/-- event-put goes on with the event's own number, or it exits with an error and has created
nothing. -/
def NamedByOwn (lines : List Line) (text behind : CStr) : Prop :=
  ∀ calls, eventPut none text behind calls = (1, none) ∨
    ∃ n, OwnSeqnum lines n ∧ eventPut none text behind calls = sendOff calls n (text.take 8192)

/-- When the required fields are in the buffer, a number behind the first `SEQNUM=` is the event's
own, except for a zero that no newline follows. -/
def FirstIsOwn (lines : List Line) (buf : CStr) : Prop :=
  requiredFields.all (hasField buf) = true → ∀ found n rest, BehindFirst buf found →
    NumberAt found n rest → (n = 0 → rest.head? = some '\n') → OwnSeqnum lines n

section Number

theorem signOf_append (sign digits rest : CStr) (hsign : sign ∈ [[], ['-'], ['+']])
    (hne : digits ≠ []) (hdigits : ∀ c ∈ digits, isDigit 10 c = true) :
    signOf (sign ++ (digits ++ rest)) = (sign == ['-'], digits ++ rest) := by
  obtain ⟨d, ds, rfl⟩ := List.exists_cons_of_ne_nil hne
  have hd := hdigits d List.mem_cons_self
  simp only [List.mem_cons, List.not_mem_nil, or_false] at hsign
  rcases hsign with rfl | rfl | rfl
  · exact signOf_digit (ds ++ rest) hd
  · rfl
  · rfl

theorem scanInt_of_numberAt {blanks sign digits rest : CStr}
    (hblanks : ∀ c ∈ blanks, isspace c = true) (hsign : sign ∈ [[], ['-'], ['+']])
    (hne : digits ≠ []) (hdigits : ∀ c ∈ digits, isDigit 10 c = true)
    (hrest : ∀ c, rest.head? = some c → isDigit 10 c = false) :
    scanInt 10 (blanks ++ sign ++ digits ++ rest) =
      some (sign == ['-'], digitsValue 10 digits, rest) := by
  have hspace : (blanks ++ sign ++ digits ++ rest).dropWhile isspace =
      sign ++ (digits ++ rest) := by
    obtain ⟨c, t, hct, hc⟩ : ∃ c t, sign ++ (digits ++ rest) = c :: t ∧ isspace c = false := by
      obtain ⟨d, ds, rfl⟩ := List.exists_cons_of_ne_nil hne
      have hd := not_isspace_of_isDigit (hdigits d List.mem_cons_self)
      simp only [List.mem_cons, List.not_mem_nil, or_false] at hsign
      rcases hsign with rfl | rfl | rfl
      · exact ⟨d, ds ++ rest, rfl, hd⟩
      · exact ⟨'-', d :: ds ++ rest, rfl, by decide⟩
      · exact ⟨'+', d :: ds ++ rest, rfl, by decide⟩
    rw [List.append_assoc, List.append_assoc, hct]
    exact dropWhile_isspace blanks t c hblanks hc
  have hcut : (digits ++ rest).takeWhile (isDigit 10) = digits ∧
      (digits ++ rest).dropWhile (isDigit 10) = rest := by
    cases rest with
    | nil =>
      rw [List.append_nil]
      exact ⟨List.takeWhile_eq_self_iff.mpr hdigits, List.dropWhile_eq_nil_iff.mpr hdigits⟩
    | cons c t => exact takeWhile_append_stop (isDigit 10) digits t c hdigits (hrest c rfl)
  rw [scanInt_eq, hspace, signOf_append sign digits rest hsign hne hdigits]
  dsimp only
  rw [scanDigits, hcut.1, hcut.2, if_neg hne]

/-- The sign that was read. -/
theorem exists_sign (t : CStr) : ∃ sign ∈ [[], ['-'], ['+']], t = sign ++ (signOf t).2 ∧
    (signOf t).1 = (sign == ['-']) := by
  unfold signOf
  split
  · exact ⟨['-'], by decide, rfl, rfl⟩
  · exact ⟨['+'], by decide, rfl, rfl⟩
  · exact ⟨[], by decide, rfl, rfl⟩

theorem exists_of_scanInt {t rest : CStr} {neg : Bool} {m : ℕ}
    (h : scanInt 10 t = some (neg, m, rest)) : NumberAt t (signedNumber neg m) rest := by
  obtain ⟨sign, hsign, ht, hneg⟩ := exists_sign (t.dropWhile isspace)
  rw [scanInt_eq, scanDigits] at h
  split_ifs at h with hne
  cases h
  refine ⟨t.takeWhile isspace, sign, _, ?_, fun c hc => List.mem_takeWhile_imp hc, hsign, hne,
    fun c hc => List.mem_takeWhile_imp hc, ?_, by rw [hneg]⟩
  · rw [List.append_assoc, List.takeWhile_append_dropWhile, List.append_assoc, ← ht,
      List.takeWhile_append_dropWhile]
  · intro c hc
    have hhead := List.head?_dropWhile_not (isDigit 10) (signOf (t.dropWhile isspace)).2
    rw [hc] at hhead
    simpa using hhead

/-- `strtoull` converts something exactly when the text begins with a number. -/
theorem strtoul_of_numberAt {t rest : CStr} {n : ℕ} (h : NumberAt t n rest) :
    strtoul 10 t = (n, rest) ∧ rest ≠ t := by
  obtain ⟨blanks, sign, digits, rfl, hblanks, hsign, hne, hdigits, hrest, rfl⟩ := h
  have hscan := scanInt_of_numberAt hblanks hsign hne hdigits hrest
  refine ⟨?_, scanInt_rest_ne hscan⟩
  rw [strtoul, hscan]
  dsimp only [signedNumber]
  split_ifs <;> rfl

theorem strtoul_none {t : CStr} (h : ∀ n rest, ¬NumberAt t n rest) : strtoul 10 t = (0, t) := by
  rw [strtoul]
  cases hscan : scanInt 10 t with
  | none => rfl
  | some read =>
    obtain ⟨neg, m, rest⟩ := read
    exact absurd (exists_of_scanInt hscan) (h _ _)

theorem numberAt_unique {t rest rest' : CStr} {n n' : ℕ} (h : NumberAt t n rest)
    (h' : NumberAt t n' rest') : n = n' ∧ rest = rest' :=
  Prod.mk.inj ((strtoul_of_numberAt h).1.symm.trans (strtoul_of_numberAt h').1)

/-- A decimal text that no digit follows. -/
theorem numberAt_of_decimalText {value rest : CStr} {n : ℕ} (h : DecimalText value n)
    (hn : n < 2 ^ 64) (hrest : ∀ c, rest.head? = some c → isDigit 10 c = false) :
    NumberAt (value ++ rest) n rest := by
  refine ⟨[], [], value, by simp, by simp, by simp, h.1, h.2.1, hrest, ?_⟩
  rw [h.2.2, signedNumber, if_neg (by omega)]
  rfl

end Number

section Field

theorem prefix_of_strstr (needle s found : CStr) (h : strstr needle s = some found) :
    needle <+: found := by
  induction s with
  | nil =>
    rw [strstr] at h
    split_ifs at h with hnil
    cases h
    exact ⟨[], by rw [hnil, List.append_nil]⟩
  | cons c s ih =>
    rw [strstr] at h
    split_ifs at h with hpre
    · cases h
      exact hpre
    · exact ih h

/-- The number that event-put takes. -/
theorem textSeqnum_eq_some_iff (buf : CStr) (n : ℕ) :
    textSeqnum buf = some n ↔ ∃ found rest, BehindFirst buf found ∧ NumberAt found n rest ∧
      (n = 0 → rest.head? = some '\n') := by
  unfold textSeqnum BehindFirst
  cases hfirst : strstr "SEQNUM=".toList buf with
  | none => simp
  | some s =>
    obtain ⟨found, rfl⟩ := prefix_of_strstr _ _ _ hfirst
    have hdrop : ("SEQNUM=".toList ++ found).drop 7 = found := rfl
    simp only [hdrop, Option.some.injEq, List.append_cancel_left_eq]
    by_cases hnumber : ∃ m rest, NumberAt found m rest
    · obtain ⟨m, rest, hm⟩ := hnumber
      obtain ⟨hread, hmoved⟩ := strtoul_of_numberAt hm
      rw [hread]
      dsimp only
      constructor
      · intro h
        split_ifs at h with hrefused
        cases h
        refine ⟨found, rest, rfl, hm, fun hzero => ?_⟩
        by_contra hline
        exact hrefused ⟨hzero, Or.inr hline⟩
      · rintro ⟨found', rest', rfl, hn, hzero⟩
        obtain ⟨rfl, rfl⟩ := numberAt_unique hm hn
        rw [if_neg]
        rintro ⟨h0, hsame | hline⟩
        · exact hmoved hsame
        · exact hline (hzero h0)
    · have hnone : ∀ m rest, ¬NumberAt found m rest := fun m rest hm => hnumber ⟨m, rest, hm⟩
      rw [strtoul_none hnone]
      dsimp only
      rw [if_pos ⟨rfl, Or.inl rfl⟩]
      refine iff_of_false (Option.some_ne_none n).symm ?_
      rintro ⟨found', rest, rfl, hn, -⟩
      exact hnone n rest hn

/-- Without the `-n` option. -/
theorem eventPut_none (text behind : CStr) (calls : Calls) : eventPut none text behind calls =
    if !calls.read || text.isEmpty ||
      !requiredFields.all (hasField (eventString (text.take 8192) behind)) then (1, none)
    else
      match textSeqnum (eventString (text.take 8192) behind) with
      | none => (1, none)
      | some n => sendOff calls n (text.take 8192) := by
  rw [eventPut, if_neg (by simp)]
  cases hread : (!calls.read || text.isEmpty) with
  | true => rfl
  | false =>
    rw [Bool.false_or, if_neg Bool.false_ne_true]
    rfl

theorem not_required_nil (behind : CStr) :
    requiredFields.all (hasField (eventString [] behind)) = false := by
  rw [eventString_of_lt [] behind (by decide)]
  decide

/-- An event is known by its own number exactly when no other number stands behind the first
`SEQNUM=` of its text. -/
theorem namedByOwn_iff (lines : List Line) (header : Option CStr) (final : Bool) (behind : CStr) :
    NamedByOwn lines (eventText header final lines) behind ↔
      FirstIsOwn lines (eventString ((eventText header final lines).take 8192) behind) := by
  generalize eventText header final lines = text
  unfold NamedByOwn FirstIsOwn
  constructor
  · intro hnamed hfields found n rest hfirst hnumber hzero
    have hne : text.isEmpty = false := by
      cases text with
      | nil =>
        rw [List.take_nil, not_required_nil] at hfields
        cases hfields
      | cons c t => rfl
    have hseqnum : textSeqnum (eventString (text.take 8192) behind) = some n :=
      (textSeqnum_eq_some_iff _ n).mpr ⟨found, rest, hfirst, hnumber, hzero⟩
    -- where all calls succeed the number can be seen
    have hsent := hnamed ⟨true, true, true, true⟩
    rw [eventPut_none, hne, hfields, hseqnum] at hsent
    rcases hsent with hsent | ⟨m, hown, hsent⟩
    · cases hsent
    · simp only [sendOff, Bool.not_true, Bool.or_false, Bool.false_eq_true, if_false, if_true,
        Prod.mk.injEq, Option.some.injEq, true_and, and_true] at hsent
      rw [hsent]
      exact hown
  · intro hfirst calls
    rw [eventPut_none]
    split_ifs with hstop
    · exact Or.inl rfl
    · have hfields :
          requiredFields.all (hasField (eventString (text.take 8192) behind)) = true := by
        simp only [Bool.or_eq_true, not_or, Bool.not_eq_true, Bool.not_eq_false'] at hstop
        exact hstop.2
      cases hseqnum : textSeqnum (eventString (text.take 8192) behind) with
      | none => exact Or.inl rfl
      | some n =>
        obtain ⟨found, rest, hbehind, hnumber, hzero⟩ := (textSeqnum_eq_some_iff _ n).mp hseqnum
        exact Or.inr ⟨n, hfirst hfields found n rest hbehind hnumber hzero, rfl⟩

/-- It is enough that the first `SEQNUM=` is the event's own and has a number. -/
theorem firstIsOwn_of_first {lines : List Line} {buf : CStr} {l : Line} {n : ℕ} (rest : CStr)
    (hl : l ∈ lines) (hkey : l.key = "SEQNUM".toList) (hvalue : DecimalText l.value n)
    (hn : n < 2 ^ 64) (hrest : ∀ c, rest.head? = some c → isDigit 10 c = false)
    (hfirst : BehindFirst buf (l.value ++ rest)) : FirstIsOwn lines buf := by
  intro _ found m rest' hfound hnumber _
  have hsame : found = l.value ++ rest :=
    List.append_cancel_left (Option.some.inj (hfound.symm.trans hfirst))
  subst hsame
  obtain ⟨rfl, -⟩ := numberAt_unique (numberAt_of_decimalText hvalue hn hrest) hnumber
  exact ⟨l, hl, hkey, hvalue, hn⟩

end Field

/-- The lines of an event, with the number 7; the event of a partition has another key that ends in
`SEQNUM`. -/
def seqnumLine : Line := ⟨"SEQNUM".toList, "7".toList, by decide, by decide⟩

theorem devpath_key_ok : '=' ∉ "DEVPATH".toList ∧ '\x00' ∉ "DEVPATH".toList := by decide

def diskLines : List Line :=
  [⟨"SUBSYSTEM".toList, "block".toList, by decide, by decide⟩,
    ⟨"DEVPATH".toList, "/devices/sda".toList, devpath_key_ok, by decide⟩, seqnumLine]

def partitionLines : List Line :=
  ⟨"PARTSEQNUM".toList, "5".toList, by decide, by decide⟩ :: diskLines

theorem namedByOwn_iff_disk :
    NamedByOwn diskLines (eventText (some "add@/devices/sda".toList) true diskLines) [] := by
  refine (namedByOwn_iff diskLines (some "add@/devices/sda".toList) true []).mpr ?_
  refine firstIsOwn_of_first (l := seqnumLine) (n := 7) ['\n'] (by simp [diskLines]) rfl
    ⟨by decide, by decide, by decide⟩ (by decide) (fun c hc => ?_) ?_
  · obtain rfl : '\n' = c := Option.some.inj hc
    decide
  have hshort : (eventText (some "add@/devices/sda".toList) true diskLines).length < 8192 := by
    decide +kernel
  rw [List.take_of_length_le hshort.le, eventString_of_lt _ _ hshort]
  decide +kernel

/-- The number of the partition's event is taken from the wrong key. -/
theorem namedByOwn_fails : ¬∀ (header : Option CStr) (final : Bool) (lines : List Line)
    (behind : CStr), (lines.map Line.key).Nodup → (∀ l ∈ lines, '\n' ∉ l.text) →
    NamedByOwn lines (eventText header final lines) behind := by
  intro h
  have hsent : eventPut none (eventText none true partitionLines) [] ⟨true, true, true, true⟩ =
      (0, some (5, eventText none true partitionLines)) := by decide +kernel
  have hown := h none true partitionLines [] (by decide) (by decide) ⟨true, true, true, true⟩
  rw [hsent] at hown
  rcases hown with hnone | ⟨n, ⟨l, hl, hkey, hvalue, -⟩, hsame⟩
  · cases hnone
  · have hn : 5 = n := congrArg (fun r => (r.2.map Prod.fst).getD 0) hsame
    subst hn
    simp only [partitionLines, diskLines, List.mem_cons, List.not_mem_nil, or_false] at hl
    rcases hl with rfl | rfl | rfl | rfl
    · exact absurd hkey (by decide)
    · exact absurd hkey (by decide)
    · exact absurd hkey (by decide)
    · exact absurd hvalue.2.2 (by decide)

end Vdev.SeqnumField
