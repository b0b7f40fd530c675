import Vdev.Parsing

/-!
`vdev_util_rstrip` (vdevd/helpers/LINUX/common.c). The index is a `size_t`, so the test that it is
not negative never ends the loop, and the index in front of the string is the largest one. Only a
character that is no white space ends the loop.
-/
namespace Vdev.TrailingBlanks

open CString Parsing

/-- A string in memory. An object has fewer than 2^63 bytes. -/
structure Str where
  text : CStr
  nul : '\x00' ∉ text
  length_lt : text.length < 2 ^ 63

/-- The bytes of the memory, by the index at which the function finds them. -/
abbrev Memory := ℕ → Char

/-- The string, its NUL, and the other bytes of the memory. -/
def load (other : Memory) (s : Str) : Memory :=
  fun i => if i = s.text.length then '\x00' else (s.text[i]?).getD (other i)

/-- The memory when the loop has ended, and the indices at which it was accessed. -/
structure Ended where
  memory : Memory
  accesses : List ℕ

/-- `str[i] = 0`, after `str[i]` was looked at. -/
def Ended.zero (e : Ended) (i : ℕ) : Ended :=
  ⟨Function.update e.memory i '\x00', e.accesses ++ [i, i]⟩

/-- `i--` of a `size_t`. -/
def pred (i : ℕ) : ℕ := (i + (2 ^ 64 - 1)) % 2 ^ 64

/-- The loop of `vdev_util_rstrip`, as far as it gets. -/
def rstripLoop : ℕ → ℕ → Ended → Option Ended
  | 0, _, _ => none
  | fuel + 1, i, e =>
    if isspace (e.memory i) then rstripLoop fuel (pred i) (e.zero i)
    else some ⟨e.memory, e.accesses ++ [i]⟩

def start (other : Memory) (s : Str) : Ended := ⟨load other s, []⟩

/-- `vdev_util_rstrip`. The accesses of `strlen` are left out. -/
def rstrip (other : Memory) (fuel : ℕ) (s : Str) : Option Ended :=
  if s.text.length = 0 then some (start other s)
  else rstripLoop fuel (s.text.length - 1) (start other s)

/-- The string that stands where `s` stood. -/
def Ended.text (e : Ended) (s : Str) : CStr :=
  untilNul ((List.range (s.text.length + 1)).map e.memory)

structure Longest (s p : CStr) : Prop where
  isPrefix : p <+: s
  last : ∀ c, p.getLast? = some c → isspace c = false
  longest : ∀ q, q <+: s → (∀ c, q.getLast? = some c → isspace c = false) → q.length ≤ p.length

/-- The function returns, has stayed inside of the string and has taken the white space off. -/
def Strips (other : Memory) (s : Str) : Prop :=
  ∃ fuel e, rstrip other fuel s = some e ∧ (∀ i ∈ e.accesses, i ≤ s.text.length) ∧
    Longest s.text (e.text s)

@[simp]
theorem Ended.zero_self (e : Ended) (i : ℕ) : (e.zero i).memory i = '\x00' :=
  Function.update_self ..

theorem Ended.zero_of_ne (e : Ended) {i j : ℕ} (h : j ≠ i) : (e.zero i).memory j = e.memory j :=
  Function.update_of_ne h ..

theorem Ended.mem_zero (e : Ended) (i j : ℕ) :
    j ∈ (e.zero i).accesses ↔ j ∈ e.accesses ∨ j = i := by
  simp [Ended.zero]

theorem pred_succ (i : ℕ) (h : i < 2 ^ 63) : pred (i + 1) = i := by
  unfold pred
  omega

theorem pred_zero : pred 0 = 2 ^ 64 - 1 := rfl

/-- What is left of a string that ends in white space behind another character. -/
theorem longest_append (p blanks : CStr) (c : Char) (hc : isspace c = false)
    (hblanks : ∀ x ∈ blanks, isspace x = true) : Longest (p ++ [c] ++ blanks) (p ++ [c]) where
  isPrefix := List.prefix_append _ _
  last := by
    intro x hx
    rw [List.getLast?_concat, Option.some.injEq] at hx
    rw [← hx, hc]
  longest := by
    intro q hq hlast
    by_contra hlong
    obtain ⟨b, rfl⟩ := List.prefix_of_prefix_length_le (List.prefix_append _ blanks) hq (by omega)
    have hne : b ≠ [] := by
      rintro rfl
      simp at hlong
    have hmem : b.getLast hne ∈ blanks :=
      ((List.prefix_append_right_inj _).mp hq).subset (List.getLast_mem hne)
    have hspace := hlast (b.getLast hne)
      (by rw [List.getLast?_append_of_ne_nil _ hne, List.getLast?_eq_some_getLast hne])
    rw [hblanks _ hmem] at hspace
    cases hspace

theorem exists_last_nonspace {s : CStr} (h : ∃ c ∈ s, isspace c = false) :
    ∃ p c blanks, s = p ++ [c] ++ blanks ∧ isspace c = false ∧ ∀ x ∈ blanks, isspace x = true := by
  induction s using List.reverseRecOn with
  | nil => simp at h
  | append_singleton s x ih =>
    cases hx : isspace x with
    | false => exact ⟨s, x, [], (List.append_nil _).symm, hx, by simp⟩
    | true =>
      obtain ⟨c, hmem, hc⟩ := h
      rcases List.mem_append.mp hmem with hmem | hmem
      · obtain ⟨p, d, blanks, rfl, hd, hblanks⟩ := ih ⟨c, hmem, hc⟩
        refine ⟨p, d, blanks ++ [x], by simp, hd, fun y hy => ?_⟩
        rcases List.mem_append.mp hy with hy | hy
        · exact hblanks y hy
        · rw [List.mem_singleton.mp hy, hx]
      · rw [← List.mem_singleton.mp hmem, hc] at hx
        cases hx

/-- The loop goes back over `k` blanks to a character that is none. -/
theorem rstripLoop_blanks (a k : ℕ) (e : Ended) (hlt : a + k < 2 ^ 63)
    (hchar : isspace (e.memory a) = false)
    (hblanks : ∀ i, a < i → i ≤ a + k → isspace (e.memory i) = true) :
    ∃ e', rstripLoop (k + 1) (a + k) e = some e' ∧
      (∀ i, e'.memory i = if a < i ∧ i ≤ a + k then '\x00' else e.memory i) ∧
      ∀ i ∈ e'.accesses, i ∈ e.accesses ∨ i ≤ a + k := by
  induction k generalizing e with
  | zero =>
    refine ⟨⟨e.memory, e.accesses ++ [a]⟩, ?_, fun i => ?_, fun i hi => ?_⟩
    · have hneg : ¬isspace (e.memory a) = true := by rw [hchar]; exact Bool.false_ne_true
      exact if_neg hneg
    · rw [if_neg (by omega)]
    · rcases List.mem_append.mp hi with hi | hi
      · exact Or.inl hi
      · exact Or.inr (List.mem_singleton.mp hi).le
  | succ k ih =>
    have hspace := hblanks (a + (k + 1)) (by omega) le_rfl
    obtain ⟨e', hrun, hmemory, haccesses⟩ := ih (e.zero (a + (k + 1))) (by omega)
      (by rw [e.zero_of_ne (by omega), hchar])
      (fun i hi hle => by rw [e.zero_of_ne (by omega), hblanks i hi (by omega)])
    refine ⟨e', ?_, fun i => ?_, fun i hi => ?_⟩
    · rw [rstripLoop, if_pos hspace, show a + (k + 1) = a + k + 1 by omega, pred_succ _ (by omega)]
      exact hrun
    · rw [hmemory]
      by_cases hi : i = a + (k + 1)
      · rw [hi, if_neg (by omega), e.zero_self, if_pos (by omega)]
      · rw [e.zero_of_ne hi]
        by_cases hle : a < i ∧ i ≤ a + k
        · rw [if_pos hle, if_pos (by omega)]
        · rw [if_neg hle, if_neg (by omega)]
    · rcases haccesses i hi with hi | hi
      · rcases (e.mem_zero _ i).mp hi with hi | hi
        · exact Or.inl hi
        · exact Or.inr hi.le
      · exact Or.inr (by omega)

/-- What the loop has accessed stays on the list. -/
theorem rstripLoop_accesses {fuel i : ℕ} {e e' : Ended} (h : rstripLoop fuel i e = some e') :
    i ∈ e'.accesses ∧ ∀ j ∈ e.accesses, j ∈ e'.accesses := by
  induction fuel generalizing i e with
  | zero => cases h
  | succ fuel ih =>
    rw [rstripLoop] at h
    split_ifs at h
    · obtain ⟨-, hkept⟩ := ih h
      exact ⟨hkept i ((e.mem_zero i i).mpr (Or.inr rfl)),
        fun j hj => hkept j ((e.mem_zero i j).mpr (Or.inl hj))⟩
    · cases Option.some.inj h
      exact ⟨by simp, fun j hj => by simp [hj]⟩

/-- With white space down to the first index, the loop goes on in front of the string. -/
theorem rstripLoop_runs_out (k fuel : ℕ) (e e' : Ended) (hlt : k < 2 ^ 63)
    (hblanks : ∀ i ≤ k, isspace (e.memory i) = true) (h : rstripLoop fuel k e = some e') :
    2 ^ 64 - 1 ∈ e'.accesses := by
  induction k generalizing fuel e with
  | zero =>
    cases fuel with
    | zero => cases h
    | succ fuel =>
      rw [rstripLoop, if_pos (hblanks 0 le_rfl), pred_zero] at h
      exact (rstripLoop_accesses h).1
  | succ k ih =>
    cases fuel with
    | zero => cases h
    | succ fuel =>
      rw [rstripLoop, if_pos (hblanks (k + 1) le_rfl), pred_succ k (by omega)] at h
      refine ih fuel _ (by omega) (fun i hi => ?_) h
      rw [e.zero_of_ne (by omega), hblanks i (by omega)]

theorem start_char (other : Memory) (s : Str) (i : ℕ) (hi : i < s.text.length) :
    (start other s).memory i = s.text[i] := by
  change load other s i = _
  rw [load, if_neg hi.ne, List.getElem?_eq_getElem hi, Option.getD_some]

theorem start_nul (other : Memory) (s : Str) :
    (start other s).memory s.text.length = '\x00' := if_pos rfl

/-- The string ends where the first NUL stands. -/
theorem text_eq (s : Str) (p : CStr) (e : Ended) (hp : p <+: s.text)
    (hchar : ∀ i, (hi : i < p.length) → e.memory i = p[i])
    (hnul : e.memory p.length = '\x00') : e.text s = p := by
  have hrange : s.text.length + 1 = p.length + (s.text.length - p.length + 1) := by
    have hle := hp.length_le
    omega
  have hfront : (List.range p.length).map e.memory = p := by
    refine List.ext_getElem (by simp) fun i hi hi' => ?_
    rw [List.getElem_map, List.getElem_range, hchar i hi']
  have hnot : ∀ x ∈ p, decide (x ≠ '\x00') = true := by
    intro x hx
    rw [decide_eq_true_eq]
    rintro rfl
    exact s.nul (hp.subset hx)
  rw [Ended.text, hrange, List.range_add, List.map_append, hfront, List.range_succ_eq_map,
    List.map_cons, List.map_cons, Nat.add_zero, hnul]
  exact (takeWhile_append_stop _ p _ '\x00' hnot (by decide)).1

/-- White space behind another character is taken off. -/
theorem strips_of_char (other : Memory) (s : Str) (p blanks : CStr) (c : Char)
    (htext : s.text = p ++ [c] ++ blanks) (hc : isspace c = false)
    (hblanks : ∀ x ∈ blanks, isspace x = true) : Strips other s := by
  have hlen : s.text.length = p.length + blanks.length + 1 := by
    rw [htext]
    simp
    omega
  have hlt := s.length_lt
  have hchars : ∀ i, (hi : i < (p ++ [c] ++ blanks).length) →
      (start other s).memory i = (p ++ [c] ++ blanks)[i] := by
    intro i hi
    rw [start_char other s i (htext ▸ hi)]
    simp only [htext]
  obtain ⟨e, hrun, hmemory, haccesses⟩ := rstripLoop_blanks p.length blanks.length
    (start other s) (by omega) (by rw [hchars _ (by simp)]; simpa using hc)
    (fun i hi hle => by
      rw [hchars i (by simp; omega), List.getElem_append_right (by simp; omega)]
      exact hblanks _ (List.getElem_mem _))
  refine ⟨blanks.length + 1, e, ?_, fun i hi => ?_, ?_⟩
  · rw [rstrip, if_neg (by omega), hlen, Nat.add_sub_cancel]
    exact hrun
  · rcases haccesses i hi with hi | hi
    · cases hi
    · omega
  · have hleft : e.text s = p ++ [c] := by
      refine text_eq s (p ++ [c]) e ⟨blanks, htext.symm⟩ (fun i hi => ?_) ?_
      · rw [List.length_append, List.length_singleton] at hi
        rw [hmemory, if_neg (by omega), hchars i (by simp; omega), List.getElem_append_left]
      · rw [hmemory, List.length_append, List.length_singleton]
        by_cases hnone : blanks.length = 0
        · rw [if_neg (by omega)]
          have hnul := start_nul other s
          rwa [hlen, hnone, Nat.add_zero] at hnul
        · rw [if_pos (by omega)]
    rw [hleft, htext]
    exact longest_append p blanks c hc hblanks

/-- The function does its work, inside of the string, unless there is nothing but white space. -/
theorem strips_iff (other : Memory) (s : Str) :
    Strips other s ↔ s.text = [] ∨ ∃ c ∈ s.text, isspace c = false := by
  constructor
  · rintro ⟨fuel, e, hrun, haccesses, -⟩
    by_contra hnot
    rw [not_or] at hnot
    have hpos := List.length_pos_of_ne_nil hnot.1
    have hlt := s.length_lt
    rw [rstrip, if_neg hpos.ne'] at hrun
    have hout := rstripLoop_runs_out _ fuel _ e (by omega) (fun i hi => ?_) hrun
    · have hle := haccesses _ hout
      omega
    · by_contra hchar
      refine hnot.2 ⟨s.text[i], List.getElem_mem (by omega), ?_⟩
      rw [start_char other s i (by omega)] at hchar
      simpa using hchar
  · rintro (hnil | hchar)
    · have hlen : s.text.length = 0 := by rw [hnil]; rfl
      refine ⟨0, start other s, if_pos hlen, fun i hi => (by cases hi), ?_⟩
      have hleft : (start other s).text s = [] := by
        refine text_eq s [] (start other s) List.nil_prefix (fun i hi => (by cases hi)) ?_
        rw [← start_nul other s, hlen]
        rfl
      rw [hleft, hnil]
      exact ⟨List.prefix_rfl, by simp, fun q hq _ => hq.length_le⟩
    · obtain ⟨p, c, blanks, htext, hc, hblanks⟩ := exists_last_nonspace hchar
      exact strips_of_char other s p blanks c htext hc hblanks

def blank : Str := ⟨[' '], by decide, by decide⟩

theorem strips_fails : ¬∀ (other : Memory) (s : Str), Strips other s := by
  intro h
  obtain ⟨fuel, e, hrun, haccesses, -⟩ := h (fun _ => '\x00') blank
  have hout : 2 ^ 64 - 1 ∈ e.accesses := by
    refine rstripLoop_runs_out 0 fuel _ e (by decide) (fun i hi => ?_) hrun
    rw [Nat.le_zero.mp hi]
    rfl
  exact absurd (haccesses _ hout) (by decide)

end Vdev.TrailingBlanks
