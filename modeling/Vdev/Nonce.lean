import Vdev.CString
import Vdev.Congruential

/-!
The nonce of an instance of vdevd (libvdev/config.c): 32 bytes of `mrand48`, in hexadecimal.
`mrand48` is a linear congruential generator of 48 bits, and a byte is taken from bits 16 to
23 of its state. So a nonce tells the lowest 24 bits of the state that it was made in, and
the nonces repeat after `2 ^ 19` of them.
-/
namespace Vdev.Nonce

open CString Congruential

/-- The step of the generator, with the parameters of POSIX. -/
def nextState (x : ℕ) : ℕ := lcg 0x5DEECE66D 0xB (2 ^ 48) x

/-- `mrand48`: the highest 32 bits of the next state, with a sign. -/
def mrand48 (x : ℕ) : Int × ℕ := (Int.bmod (nextState x / 2 ^ 16) (2 ^ 32), nextState x)

/-- The conversion to `char` and then to `unsigned char`. -/
def toByte (value : Int) : ℕ := (value % 256).toNat

/-- A digit of `vdev_bin_to_hex`. The letters start at `'A' + 10`. -/
def hexDigit (n : ℕ) : Char :=
  if n < 10 then Char.ofNat (n + '0'.toNat) else Char.ofNat (n + 'A'.toNat)

/-- `vdev_bin_to_hex`. -/
def binToHex (num : ℕ) : CStr := [hexDigit (num >>> 4), hexDigit (num &&& 0xf)]

/-- The first loop of `vdev_config_make_instance_nonce`. -/
def instanceBytes : ℕ → ℕ → List ℕ × ℕ
  | 0, x => ([], x)
  | n + 1, x =>
    let (value, x) := mrand48 x
    let (rest, x) := instanceBytes n x
    (toByte value :: rest, x)

/-- `vdev_config_make_instance_nonce`: the string, and the state of the generator after it. -/
def makeInstanceNonce (x : ℕ) : CStr × ℕ :=
  let (bytes, x) := instanceBytes 32 x
  (bytes.flatMap binToHex, x)

theorem mrand48_snd (x : ℕ) : (mrand48 x).2 = nextState x := rfl

theorem toByte_mrand48 (x : ℕ) : toByte (mrand48 x).1 = nextState x / 2 ^ 16 % 256 := by
  have h : Int.bmod (nextState x / 2 ^ 16) (2 ^ 32) % 256 = (nextState x / 2 ^ 16 : ℤ) % 256 := by
    rw [Int.bmod_def]
    split <;> omega
  unfold toByte mrand48
  dsimp only
  rw [h]
  omega

theorem instanceBytes_state (n x : ℕ) : (instanceBytes n x).2 = nextState^[n] x := by
  induction n generalizing x with
  | zero => rfl
  | succ n ih => exact ih (nextState x)

theorem instanceBytes_fst_succ (n x : ℕ) :
    (instanceBytes (n + 1) x).1 =
      (nextState x / 2 ^ 16 % 256) :: (instanceBytes n (nextState x)).1 := by
  simp only [instanceBytes, toByte_mrand48, mrand48_snd]

theorem instanceBytes_lt (n x : ℕ) : ∀ b ∈ (instanceBytes n x).1, b < 256 := by
  induction n generalizing x with
  | zero =>
    intro b hb
    cases hb
  | succ n ih =>
    rw [instanceBytes_fst_succ]
    intro b hb
    rcases List.mem_cons.mp hb with rfl | hb
    · exact Nat.mod_lt _ (by omega)
    · exact ih _ b hb

theorem makeInstanceNonce_state (x : ℕ) : (makeInstanceNonce x).2 = nextState^[32] x :=
  instanceBytes_state 32 x

theorem binToHex_injective {a b : ℕ} (ha : a < 256) (hb : b < 256)
    (h : binToHex a = binToHex b) : a = b := by
  have hdigit : ∀ m < 16, ∀ n < 16, hexDigit m = hexDigit n → m = n := by decide
  obtain ⟨hhigh, hlow⟩ : hexDigit (a >>> 4) = hexDigit (b >>> 4) ∧
      hexDigit (a &&& 0xf) = hexDigit (b &&& 0xf) := by
    simpa [binToHex] using h
  rw [Nat.shiftRight_eq_div_pow, Nat.shiftRight_eq_div_pow] at hhigh
  have hand : ∀ n : ℕ, n &&& 0xf = n % 16 := fun n => Nat.and_two_pow_sub_one_eq_mod n 4
  rw [hand, hand] at hlow
  have hdiv := hdigit (a / 2 ^ 4) (by omega) (b / 2 ^ 4) (by omega) hhigh
  have hmod := hdigit (a % 16) (by omega) (b % 16) (by omega) hlow
  omega

theorem flatMap_binToHex_injective {as bs : List ℕ} (ha : ∀ a ∈ as, a < 256)
    (hb : ∀ b ∈ bs, b < 256) (h : as.flatMap binToHex = bs.flatMap binToHex) : as = bs := by
  induction as generalizing bs with
  | nil =>
    cases bs with
    | nil => rfl
    | cons b bs => cases h
  | cons a as ih =>
    cases bs with
    | nil => cases h
    | cons b bs =>
      rw [List.flatMap_cons, List.flatMap_cons] at h
      obtain ⟨hhead, htail⟩ := List.append_inj h rfl
      rw [binToHex_injective (ha a List.mem_cons_self) (hb b List.mem_cons_self) hhead,
        ih (fun x hx => ha x (List.mem_cons_of_mem _ hx))
          (fun x hx => hb x (List.mem_cons_of_mem _ hx)) htail]

def low (x : ℕ) : ℤ := (x % 2 ^ 24 : ℕ)

/-- Two states with the same byte are close to each other. -/
theorem low_sub_of_byte_eq {x y : ℕ} (h : x / 2 ^ 16 % 256 = y / 2 ^ 16 % 256) :
    -65536 < low y - low x ∧ low y - low x < 65536 := by
  unfold low
  omega

/-- The difference of two states is multiplied in each step. -/
theorem low_sub_nextState (x y : ℕ) :
    ∃ k, low (nextState y) - low (nextState x) = 15525485 * (low y - low x) + 16777216 * k := by
  have h : (16777216 : ℤ) ∣
      low (nextState y) - low (nextState x) - 15525485 * (low y - low x) := by
    unfold low nextState lcg
    omega
  obtain ⟨k, hk⟩ := h
  exact ⟨k, by omega⟩

/-- A sequence of differences: each is the one before it times the multiplier. -/
structure Differences (d : ℕ → ℤ) : Prop where
  step : ∀ i, ∃ k, d (i + 1) = 15525485 * d i + 16777216 * k
  small : ∀ i < 4, |d i| < 65536

/-- A combination with small coefficients is zero, if it is a multiple of `2 ^ 24`
whatever the first difference is. -/
theorem Differences.combination {d : ℕ → ℤ} (h : Differences d) (c₀ c₁ c₂ c₃ q : ℤ)
    (hq : c₀ + c₁ * 15525485 + c₂ * 15525485 ^ 2 + c₃ * 15525485 ^ 3 = 16777216 * q)
    (hc : |c₀| + |c₁| + |c₂| + |c₃| ≤ 256) :
    c₀ * d 0 + c₁ * d 1 + c₂ * d 2 + c₃ * d 3 = 0 := by
  obtain ⟨k₀, h₀⟩ := h.step 0
  obtain ⟨k₁, h₁⟩ := h.step 1
  obtain ⟨k₂, h₂⟩ := h.step 2
  have hbound : ∀ c, ∀ i < 4, |c * d i| ≤ |c| * 65535 := by
    intro c i hi
    rw [abs_mul]
    have hsmall := h.small i hi
    exact mul_le_mul_of_nonneg_left (by omega) (abs_nonneg c)
  have hmul : (16777216 : ℤ) ∣ c₀ * d 0 + c₁ * d 1 + c₂ * d 2 + c₃ * d 3 := by
    refine ⟨q * d 0 + (c₁ + c₂ * 15525485 + c₃ * 15525485 ^ 2) * k₀ +
      (c₂ + c₃ * 15525485) * k₁ + c₃ * k₂, ?_⟩
    linear_combination d 0 * hq + (c₁ + c₂ * 15525485 + c₃ * 15525485 ^ 2) * h₀ +
      (c₂ + c₃ * 15525485) * h₁ + c₃ * h₂
  apply Int.eq_zero_of_abs_lt_dvd hmul
  calc |c₀ * d 0 + c₁ * d 1 + c₂ * d 2 + c₃ * d 3|
      ≤ |c₀ * d 0| + |c₁ * d 1| + |c₂ * d 2| + |c₃ * d 3| := by
        exact (abs_add_le _ _).trans (by gcongr; exact abs_add_three _ _ _)
    _ ≤ (|c₀| + |c₁| + |c₂| + |c₃|) * 65535 := by
        have h₀ := hbound c₀ 0 (by omega)
        have h₁ := hbound c₁ 1 (by omega)
        have h₂ := hbound c₂ 2 (by omega)
        have h₃ := hbound c₃ 3 (by omega)
        omega
    _ < 16777216 := by omega

/-- A small difference that stays small for three more steps is zero. -/
theorem Differences.eq_zero {d : ℕ → ℤ} (h : Differences d) : d 0 = 0 := by
  have e₀ := h.combination (-10) (-28) (-46) 4 892226877068785 (by norm_num) (by norm_num)
  have e₁ := h.combination (-32) 3 10 35 7806991100799153 (by norm_num) (by norm_num)
  have e₂ := h.combination 45 (-39) 1 17 3791967050686280 (by norm_num) (by norm_num)
  have e₃ := h.combination 38 71 (-65) 40 8922274445710203 (by norm_num) (by norm_num)
  have hdet : -16777216 * d 0 = 0 := by
    linear_combination 117345 * e₀ + 149486 * e₁ + (-187310) * e₂ + (-62928) * e₃
  exact (mul_eq_zero.mp hdet).resolve_left (by norm_num)

theorem nextState_modEq_iff (x y : ℕ) :
    nextState x ≡ nextState y [MOD 2 ^ 24] ↔ x ≡ y [MOD 2 ^ 24] := by
  have hnext : ∀ z, nextState z ≡ 0x5DEECE66D * z + 0xB [MOD 2 ^ 24] := by
    intro z
    exact (Nat.mod_modEq _ _).of_dvd (pow_dvd_pow 2 (by omega))
  have hcop : Nat.gcd (2 ^ 24) 0x5DEECE66D = 1 := by norm_num
  constructor
  · intro h
    have hsum := (hnext x).symm.trans (h.trans (hnext y))
    exact (hsum.add_right_cancel' 0xB).cancel_left_of_coprime hcop
  · intro h
    exact (hnext x).trans (((h.mul_left _).add_right _).trans (hnext y).symm)

theorem low_eq_iff (x y : ℕ) : low x = low y ↔ x ≡ y [MOD 2 ^ 24] := by
  unfold low Nat.ModEq
  omega

theorem nextState_iterate_modEq {x y : ℕ} (h : x ≡ y [MOD 2 ^ 24]) (n : ℕ) :
    nextState^[n] x ≡ nextState^[n] y [MOD 2 ^ 24] := by
  induction n with
  | zero => exact h
  | succ n ih =>
    rw [Function.iterate_succ_apply', Function.iterate_succ_apply']
    exact (nextState_modEq_iff _ _).mpr ih

/-- The bytes are those of the states after the first, second, ... step. -/
theorem instanceBytes_eq_iff (n x y : ℕ) :
    (instanceBytes n x).1 = (instanceBytes n y).1 ↔
      ∀ i < n, nextState^[i + 1] x / 2 ^ 16 % 256 = nextState^[i + 1] y / 2 ^ 16 % 256 := by
  induction n generalizing x y with
  | zero => simp [instanceBytes]
  | succ n ih =>
    rw [instanceBytes_fst_succ, instanceBytes_fst_succ, List.cons.injEq, ih]
    constructor
    · intro ⟨hhead, htail⟩ i hi
      cases i with
      | zero => exact hhead
      | succ i => exact htail i (by omega)
    · intro h
      exact ⟨h 0 (by omega), fun i hi => h (i + 1) (by omega)⟩

/-- The nonce tells the lowest 24 bits of the state that it was made in, and no more. -/
theorem makeInstanceNonce_eq_iff (x y : ℕ) :
    (makeInstanceNonce x).1 = (makeInstanceNonce y).1 ↔ x ≡ y [MOD 2 ^ 24] := by
  have hbytes : (makeInstanceNonce x).1 = (makeInstanceNonce y).1 ↔
      (instanceBytes 32 x).1 = (instanceBytes 32 y).1 := by
    constructor
    · exact flatMap_binToHex_injective (instanceBytes_lt 32 x) (instanceBytes_lt 32 y)
    · intro h
      exact congrArg (List.flatMap binToHex) h
  rw [hbytes, instanceBytes_eq_iff]
  constructor
  · intro h
    let d : ℕ → ℤ := fun i => low (nextState^[i + 1] y) - low (nextState^[i + 1] x)
    have hd : Differences d := by
      constructor
      · intro i
        obtain ⟨k, hk⟩ := low_sub_nextState (nextState^[i + 1] x) (nextState^[i + 1] y)
        rw [← Function.iterate_succ_apply' nextState, ← Function.iterate_succ_apply' nextState] at hk
        exact ⟨k, hk⟩
      · intro i hi
        exact abs_lt.mpr (low_sub_of_byte_eq (h i (by omega)))
    have hzero : low (nextState y) - low (nextState x) = 0 := hd.eq_zero
    have heq : low (nextState x) = low (nextState y) := by omega
    exact (nextState_modEq_iff x y).mp ((low_eq_iff _ _).mp heq)
  · intro h i _
    have hmod := nextState_iterate_modEq h (i + 1)
    unfold Nat.ModEq at hmod
    omega

/-- When a nonce comes back: after a multiple of `2 ^ 19` nonces. -/
theorem makeInstanceNonce_repeats_iff (x n : ℕ) :
    (makeInstanceNonce (nextState^[32 * n] x)).1 = (makeInstanceNonce x).1 ↔ 2 ^ 19 ∣ n := by
  rw [makeInstanceNonce_eq_iff]
  have h := iterate_lcg_modEq_self_iff (a := 0x5DEECE66D) (c := 0xB) (m := 2 ^ 48) (by norm_num)
    (by norm_num) (by norm_num) x 24 (32 * n) (pow_dvd_pow 2 (by omega))
  refine Iff.trans h ?_
  rw [show 2 ^ 24 = 32 * 2 ^ 19 by norm_num]
  exact Nat.mul_dvd_mul_iff_left (by omega)

end Vdev.Nonce
