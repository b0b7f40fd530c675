import Mathlib.Data.Nat.ModEq
import Mathlib.Logic.Function.Basic
import Mathlib.Tactic

/-!
Linear probing on a circle of `m` places. The place at offset `d` from a home is
`place m home d`. Each occupied place carries the offset of its occupant from the
occupant's home. In a probe table an occupant at a positive offset stands behind
an occupied place, and is at most one further from its home than the occupant
there. From this local condition, all places between an occupant and its home
are occupied, by occupants that are at least as far from home as the probe is
when it comes by: that is why a search may stop early.
-/
namespace Vdev.CircularProbing

variable {m : ℕ}

def next (m i : ℕ) : ℕ := (i + 1) % m

def place (m home d : ℕ) : ℕ := (home + d) % m

def offset (m i home : ℕ) : ℕ := if home ≤ i then i - home else m + i - home

theorem place_lt (hm : 0 < m) (home d : ℕ) : place m home d < m := Nat.mod_lt _ hm

theorem next_lt (hm : 0 < m) (i : ℕ) : next m i < m := Nat.mod_lt _ hm

theorem place_zero {home : ℕ} (hhome : home < m) : place m home 0 = home :=
  Nat.mod_eq_of_lt hhome

theorem next_place (home d : ℕ) : next m (place m home d) = place m home (d + 1) := by
  rw [next, place, place, Nat.mod_add_mod, Nat.add_assoc]

theorem place_next (i d : ℕ) : place m (next m i) d = place m i (d + 1) := by
  rw [place, place, next, Nat.mod_add_mod, Nat.add_assoc, Nat.add_comm 1 d]

theorem offset_lt {i home : ℕ} (hi : i < m) (hhome : home < m) : offset m i home < m := by
  rw [offset]
  split_ifs <;> omega

theorem place_offset {i home : ℕ} (hi : i < m) (hhome : home < m) :
    place m home (offset m i home) = i := by
  rw [place, offset]
  split_ifs with hle
  · rw [Nat.add_sub_cancel' hle, Nat.mod_eq_of_lt hi]
  · have hsum : home + (m + i - home) = i + m := by omega
    rw [hsum, Nat.add_mod_right, Nat.mod_eq_of_lt hi]

theorem offset_place {home d : ℕ} (hhome : home < m) (hd : d < m) :
    offset m (place m home d) home = d := by
  rw [place, offset]
  by_cases hwrap : home + d < m
  · rw [Nat.mod_eq_of_lt hwrap, if_pos (by omega)]
    omega
  · have hmod : (home + d) % m = home + d - m := by
      rw [Nat.mod_eq_sub_mod (by omega), Nat.mod_eq_of_lt (by omega)]
    rw [hmod, if_neg (by omega)]
    omega

theorem place_injective {home c d : ℕ} (hhome : home < m) (hc : c < m) (hd : d < m)
    (h : place m home c = place m home d) : c = d := by
  rw [← offset_place hhome hc, h, offset_place hhome hd]

theorem exists_place {i home : ℕ} (hi : i < m) (hhome : home < m) :
    ∃ d < m, place m home d = i := ⟨_, offset_lt hi hhome, place_offset hi hhome⟩

theorem next_injective {i j : ℕ} (hi : i < m) (hj : j < m) (h : next m i = next m j) : i = j := by
  have hmod : i + 1 ≡ j + 1 [MOD m] := h
  exact Nat.ModEq.eq_of_lt_of_lt (Nat.ModEq.add_right_cancel' 1 hmod) hi hj

def Probed (m : ℕ) (occ : ℕ → Prop) (dib : ℕ → ℕ) : Prop :=
  ∀ i < m, occ (next m i) → dib (next m i) = 0 ∨ occ i ∧ dib (next m i) ≤ dib i + 1

/-- What a probe from a home has passed at offsets below `d`. -/
def Passed (m : ℕ) (occ : ℕ → Prop) (dib : ℕ → ℕ) (home d : ℕ) : Prop :=
  ∀ j < d, occ (place m home j) ∧ j ≤ dib (place m home j)

variable {occ occ' : ℕ → Prop} {dib dib' : ℕ → ℕ}

theorem Probed.congr (h : Probed m occ dib) (hm : 0 < m) (hocc : ∀ i < m, occ' i ↔ occ i)
    (hdib : ∀ i < m, occ i → dib' i = dib i) : Probed m occ' dib' := by
  intro i hi hocci
  have hnext := next_lt hm i
  have hocci' := (hocc _ hnext).mp hocci
  rw [hdib _ hnext hocci']
  rcases h i hi hocci' with hzero | ⟨hoccp, hle⟩
  · exact Or.inl hzero
  · rw [hocc i hi, hdib i hi hoccp]
    exact Or.inr ⟨hoccp, hle⟩

theorem Passed.congr {home d : ℕ} (h : Passed m occ dib home d) (hm : 0 < m)
    (hocc : ∀ i < m, occ i → occ' i) (hdib : ∀ i < m, dib' i = dib i) :
    Passed m occ' dib' home d := by
  intro j hj
  have hlt := place_lt hm home j
  rw [hdib _ hlt]
  exact ⟨hocc _ hlt (h j hj).1, (h j hj).2⟩

theorem Passed.succ {home d : ℕ} (h : Passed m occ dib home d)
    (hocc : occ (place m home d)) (hdib : d ≤ dib (place m home d)) :
    Passed m occ dib home (d + 1) := by
  intro j hj
  rcases Nat.lt_succ_iff_lt_or_eq.mp hj with hj | rfl
  · exact h j hj
  · exact ⟨hocc, hdib⟩

/-- Behind an occupant the probe from its home passes. -/
theorem Probed.passed (h : Probed m occ dib) (hm : 0 < m) {home d : ℕ}
    (hocc : occ (place m home d)) (hdib : d ≤ dib (place m home d)) :
    Passed m occ dib home d := by
  induction d with
  | zero => exact fun j hj => absurd hj (Nat.not_lt_zero j)
  | succ d ih =>
    rw [← next_place] at hocc hdib
    rcases h _ (place_lt hm home d) hocc with hzero | ⟨hocc', hle⟩
    · omega
    · exact (ih hocc' (by omega)).succ hocc' (by omega)

/-- With a free place left, a probe passes fewer places than there are. -/
theorem Passed.lt {home d f : ℕ} (h : Passed m occ dib home d) (hhome : home < m) (hf : f < m)
    (hfree : ¬occ f) : d < m := by
  by_contra hge
  obtain ⟨j, hj, rfl⟩ := exists_place hf hhome
  exact hfree (h j (by omega)).1

/-- An occupant may take a place that is free or whose occupant is nearer to its home. -/
theorem Probed.put (h : Probed m occ dib) (hm : 0 < m) {home d : ℕ} (hhome : home < m)
    (hd : d < m) (hpassed : Passed m occ dib home d)
    (hricher : occ (place m home d) → dib (place m home d) < d) :
    Probed m (fun i => occ i ∨ i = place m home d) (Function.update dib (place m home d) d) := by
  intro i hi hocc
  by_cases hnext : next m i = place m home d
  · rw [hnext, Function.update_self]
    cases d with
    | zero => exact Or.inl rfl
    | succ d =>
      have hid : i = place m home d :=
        next_injective hi (place_lt hm home d) (by rw [hnext, next_place])
      obtain ⟨hocc', hle⟩ := hpassed d (Nat.lt_succ_self d)
      have hne : i ≠ place m home (d + 1) := by
        rw [hid]
        intro heq
        have := place_injective hhome (Nat.lt_of_succ_lt hd) hd heq
        omega
      rw [Function.update_of_ne hne, hid]
      exact Or.inr ⟨Or.inl hocc', by omega⟩
  · rw [Function.update_of_ne hnext]
    have hocc' := hocc.resolve_right hnext
    rcases h i hi hocc' with hzero | ⟨hocci, hle⟩
    · exact Or.inl hzero
    · refine Or.inr ⟨Or.inl hocci, ?_⟩
      by_cases hid : i = place m home d
      · have := hricher (hid ▸ hocci)
        rw [hid, Function.update_self]
        rw [hid] at hle
        omega
      · rw [Function.update_of_ne hid]
        exact hle

/-- The probe of an occupant that was driven from its place goes on behind it. -/
theorem Passed.put {home d d' p : ℕ} (h : Passed m occ dib home d) (hricher : dib p ≤ d') :
    Passed m (fun i => occ i ∨ i = p) (Function.update dib p d') home d := by
  intro j hj
  obtain ⟨hocc, hle⟩ := h j hj
  refine ⟨Or.inl hocc, ?_⟩
  by_cases hjp : place m home j = p
  · rw [hjp, Function.update_self]
    rw [hjp] at hle
    omega
  · rw [Function.update_of_ne hjp]
    exact hle

/-- An occupant may move one place back, towards its home. -/
theorem Probed.shift (h : Probed m occ dib) {p d : ℕ} (hp : p < m) (hocc : occ (next m p))
    (hd : dib (next m p) = d + 1) : Probed m occ (Function.update dib p d) := by
  have hle : d ≤ dib p := by
    rcases h p hp hocc with hzero | ⟨-, hle⟩ <;> omega
  intro i hi hocci
  by_cases hnext : next m i = p
  · rw [hnext, Function.update_self]
    rw [hnext] at hocci
    by_cases hid : i = p
    · rw [hid, Function.update_self]
      exact Or.inr ⟨hocci, Nat.le_succ d⟩
    · rw [Function.update_of_ne hid]
      have hpair := h i hi (hnext ▸ hocci)
      rw [hnext] at hpair
      rcases hpair with hzero | ⟨hocc', hle'⟩
      · exact Or.inl (by omega)
      · exact Or.inr ⟨hocc', by omega⟩
  · rw [Function.update_of_ne hnext]
    by_cases hid : i = p
    · rw [hid, Function.update_self]
      rcases h p hp hocc with hzero | ⟨hocc', -⟩
      · omega
      · exact Or.inr ⟨hocc', hd.le⟩
    · rw [Function.update_of_ne hid]
      exact h i hi hocci

/-- The last place of a row of shifted occupants may become free. -/
theorem Probed.free (h : Probed m occ dib) {p : ℕ}
    (hlast : occ (next m p) → dib (next m p) = 0) : Probed m (fun i => occ i ∧ i ≠ p) dib := by
  intro i hi hocc
  rcases h i hi hocc.1 with hzero | ⟨hocci, hle⟩
  · exact Or.inl hzero
  · by_cases hid : i = p
    · subst hid
      exact Or.inl (hlast hocc.1)
    · exact Or.inr ⟨⟨hocci, hid⟩, hle⟩

end Vdev.CircularProbing
