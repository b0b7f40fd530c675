import Mathlib.Data.List.Lex
import Mathlib.Data.Char
import Mathlib.Tactic

/-!
The order of decimal numerals as texts. A numeral that is not longer than another
one comes before it exactly when its number, filled up with zeros to the same
length, is not greater. Numerals of one length are in the order of their numbers.
-/
namespace Vdev.Decimal

/-- What `%u` and `echo` print for a number. -/
def decimal (n : ℕ) : List Char := Nat.toDigits 10 n

def value (ds : List Char) : ℕ := Nat.ofDigitChars 10 ds 0

theorem value_decimal (n : ℕ) : value (decimal n) = n := Nat.ofDigitChars_ten_toDigits

theorem decimal_injective : Function.Injective decimal := by
  intro a b h
  rw [← value_decimal a, ← value_decimal b, h]

theorem decimal_ne_nil (n : ℕ) : decimal n ≠ [] := Nat.toDigits_ne_nil

def digit (c : Char) : ℕ := c.toNat - '0'.toNat

theorem digit_le (c : Char) (hc : c.isDigit = true) : digit c ≤ 9 := by
  have h := Char.isDigit_iff_toNat.mp hc
  have h0 : '0'.toNat = 48 := rfl
  have h9 : '9'.toNat = 57 := rfl
  unfold digit
  omega

/-- Digits are in the order of their values. -/
theorem lt_iff_digit (c d : Char) (hc : c.isDigit = true) (hd : d.isDigit = true) :
    c < d ↔ digit c < digit d := by
  have hcd := Char.isDigit_iff_toNat.mp hc
  have hdd := Char.isDigit_iff_toNat.mp hd
  have hlt : c < d ↔ c.toNat < d.toNat := Iff.rfl
  rw [hlt]
  unfold digit
  omega

theorem isDigit_of_mem_decimal (n : ℕ) : ∀ c ∈ decimal n, c.isDigit = true :=
  fun _ hc => Nat.isDigit_of_mem_toDigits (by decide) (by decide) hc

theorem value_cons (c : Char) (cs : List Char) :
    value (c :: cs) = digit c * 10 ^ cs.length + value cs := by
  unfold value
  rw [Nat.ofDigitChars_cons, Nat.ofDigitChars_eq_ofDigitChars_zero, Nat.mul_zero, Nat.zero_add,
    Nat.mul_comm]
  rfl

theorem value_lt (ds : List Char) (h : ∀ c ∈ ds, c.isDigit = true) :
    value ds < 10 ^ ds.length := by
  induction ds with
  | nil => decide
  | cons c cs ih =>
    have hcs := ih (fun d hd => h d (List.mem_cons_of_mem c hd))
    have hc := digit_le c (h c List.mem_cons_self)
    have hmul : digit c * 10 ^ cs.length ≤ 9 * 10 ^ cs.length := Nat.mul_le_mul_right _ hc
    rw [value_cons, List.length_cons, pow_succ]
    omega

/-- A text of digits that is not longer than another one comes before it when its
value, filled up with zeros, is not greater. -/
theorem lt_iff_value (xs ys : List Char) (hx : ∀ c ∈ xs, c.isDigit = true)
    (hy : ∀ c ∈ ys, c.isDigit = true) (hlen : xs.length ≤ ys.length) :
    xs < ys ↔ xs ≠ ys ∧ value xs * 10 ^ (ys.length - xs.length) ≤ value ys := by
  induction xs generalizing ys with
  | nil =>
    have hzero : value [] = 0 := rfl
    cases ys with
    | nil => simp
    | cons d ds => simp [hzero]
  | cons c cs ih =>
    cases ys with
    | nil => simp at hlen
    | cons d ds =>
      have hc := hx c List.mem_cons_self
      have hd := hy d List.mem_cons_self
      have hcs : ∀ e ∈ cs, e.isDigit = true := fun e he => hx e (List.mem_cons_of_mem c he)
      have hds : ∀ e ∈ ds, e.isDigit = true := fun e he => hy e (List.mem_cons_of_mem d he)
      rw [List.length_cons, List.length_cons] at hlen
      obtain ⟨k, hk⟩ := Nat.exists_eq_add_of_le (Nat.le_of_succ_le_succ hlen)
      have hpow : 10 ^ cs.length * 10 ^ k = 10 ^ ds.length := by rw [hk, pow_add]
      have hsub : (d :: ds).length - (c :: cs).length = k := by
        rw [List.length_cons, List.length_cons]
        omega
      have hleft : value (c :: cs) * 10 ^ k = digit c * 10 ^ ds.length + value cs * 10 ^ k := by
        rw [value_cons, Nat.add_mul, Nat.mul_assoc, hpow]
      have hsmall : value cs * 10 ^ k < 10 ^ ds.length := by
        rw [← hpow]
        exact Nat.mul_lt_mul_of_pos_right (value_lt cs hcs) (by positivity)
      have hright := value_lt ds hds
      have ih := ih ds hcs hds (Nat.le_of_succ_le_succ hlen)
      have hsub' : ds.length - cs.length = k := by omega
      rw [hsub'] at ih
      rw [hsub, hleft, value_cons d ds, List.cons_lt_cons_iff, lt_iff_digit c d hc hd]
      rcases Nat.lt_trichotomy (digit c) (digit d) with hlt | heq | hgt
      · have hstep : (digit c + 1) * 10 ^ ds.length ≤ digit d * 10 ^ ds.length :=
          Nat.mul_le_mul_right _ hlt
        rw [Nat.add_mul, Nat.one_mul] at hstep
        refine iff_of_true (Or.inl hlt) ⟨?_, by omega⟩
        intro h
        rw [(List.cons.inj h).1] at hlt
        exact lt_irrefl _ hlt
      · have hchar : c = d := by
          have hcn := Char.isDigit_iff_toNat.mp hc
          have hdn := Char.isDigit_iff_toNat.mp hd
          unfold digit at heq
          exact Char.toNat_inj.mp (by omega)
        subst hchar
        simp [ih]
      · have hstep : (digit d + 1) * 10 ^ ds.length ≤ digit c * 10 ^ ds.length :=
          Nat.mul_le_mul_right _ hgt
        rw [Nat.add_mul, Nat.one_mul] at hstep
        refine iff_of_false ?_ (fun h => ?_)
        · rintro (h | ⟨h, -⟩)
          · omega
          · rw [h] at hgt
            exact lt_irrefl _ hgt
        · have hle := h.2
          omega

/-- The order of two numerals, the first of which is not longer. -/
theorem decimal_lt_iff (a b : ℕ) (hne : a ≠ b) (hlen : (decimal a).length ≤ (decimal b).length) :
    decimal a < decimal b ↔ a * 10 ^ ((decimal b).length - (decimal a).length) ≤ b := by
  rw [lt_iff_value _ _ (isDigit_of_mem_decimal a) (isDigit_of_mem_decimal b) hlen, value_decimal,
    value_decimal]
  exact and_iff_right (fun h => hne (decimal_injective h))

/-- A greater number has no shorter numeral. -/
theorem length_decimal_mono {a b : ℕ} (h : a ≤ b) : (decimal a).length ≤ (decimal b).length := by
  have hpos : 0 < (decimal b).length := List.length_pos_iff.mpr (decimal_ne_nil b)
  have hb : b < 10 ^ (decimal b).length :=
    (Nat.length_toDigits_le_iff (by decide) hpos).mp le_rfl
  exact (Nat.length_toDigits_le_iff (by decide) hpos).mpr (h.trans_lt hb)

end Vdev.Decimal
