import Mathlib.Data.Finset.Card
import Mathlib.Data.List.Basic
import Mathlib.Tactic

/-!
Runs of a labelled transition system. The step function is partial: a label
that is not enabled in a state has no successor. A run is a list of labels, that
is, one interleaving of the parties. `Guarded` restricts attention to the runs
in which every step is taken in a state that meets a condition. `Counted` says how
many parties are in a given local state, where the type of parties may be infinite.
-/
namespace Vdev.Runs

variable {S L : Type*} (step : L → S → Option S)

def run : List L → S → Option S
  | [], s => some s
  | l :: ls, s => (step l s).bind (run ls)

/-- Every step of the run from `s` meets the condition `ok`. -/
def Guarded (ok : L → S → Prop) : List L → S → Prop
  | [], _ => True
  | l :: ls, s => ok l s ∧ ∀ s', step l s = some s' → Guarded ok ls s'

theorem run_cons_eq_some {l : L} {ls : List L} {s t : S} (h : run step (l :: ls) s = some t) :
    ∃ s', step l s = some s' ∧ run step ls s' = some t :=
  Option.bind_eq_some_iff.mp h

theorem guarded_append {ok : L → S → Prop} {ls ls' : List L} {s : S}
    (h : Guarded step ok (ls ++ ls') s) :
    Guarded step ok ls s ∧ ∀ t, run step ls s = some t → Guarded step ok ls' t := by
  induction ls generalizing s with
  | nil =>
    refine ⟨trivial, fun t ht => ?_⟩
    cases Option.some.inj ht
    exact h
  | cons l ls ih =>
    refine ⟨⟨h.1, fun s' hs' => (ih (h.2 s' hs')).1⟩, fun t ht => ?_⟩
    obtain ⟨s', hs', hrun⟩ := run_cons_eq_some step ht
    exact (ih (h.2 s' hs')).2 t hrun

/-- What every guarded step preserves holds after every guarded run. -/
theorem guarded_invariant {ok : L → S → Prop} (Inv : S → Prop)
    (hstep : ∀ l s s', ok l s → Inv s → step l s = some s' → Inv s')
    {ls : List L} {s t : S} (hok : Guarded step ok ls s) (hs : Inv s)
    (h : run step ls s = some t) : Inv t := by
  induction ls generalizing s with
  | nil =>
    cases Option.some.inj h
    exact hs
  | cons l ls ih =>
    obtain ⟨s', hs', hrun⟩ := run_cons_eq_some step h
    exact ih (hok.2 s' hs') (hstep l s s' hok.1 hs hs') hrun

theorem guarded_of_forall {ok : L → S → Prop} (ls : List L) (s : S)
    (hok : ∀ l ∈ ls, ∀ s, ok l s) : Guarded step ok ls s := by
  induction ls generalizing s with
  | nil => trivial
  | cons l ls ih =>
    refine ⟨hok l (List.mem_cons_self ..) s, fun s' _ => ih s' ?_⟩
    exact fun l' hl' => hok l' (List.mem_cons_of_mem _ hl')

/-- A condition on the labels of a run joins one on its steps. -/
theorem Guarded.and {ok : L → S → Prop} {q : L → Prop} {ls : List L} {s : S}
    (h : Guarded step ok ls s) (hq : ∀ l ∈ ls, q l) :
    Guarded step (fun l s => ok l s ∧ q l) ls s := by
  induction ls generalizing s with
  | nil => trivial
  | cons l ls ih =>
    refine ⟨⟨h.1, hq l List.mem_cons_self⟩, fun s' hs' => ih (h.2 s' hs') fun l' hl' => ?_⟩
    exact hq l' (List.mem_cons_of_mem _ hl')

def check (ok : L → S → Bool) : List L → S → Bool
  | [], _ => true
  | l :: ls, s => ok l s && ((step l s).map (check ok ls)).getD true

theorem guarded_of_check {ok : L → S → Prop} (b : L → S → Bool)
    (hb : ∀ l s, b l s = true → ok l s) (ls : List L) (s : S) (h : check step b ls s = true) :
    Guarded step ok ls s := by
  induction ls generalizing s with
  | nil => trivial
  | cons l ls ih =>
    rw [check, Bool.and_eq_true] at h
    refine ⟨hb l s h.1, fun s' hs' => ih s' ?_⟩
    have hrest := h.2
    rw [hs'] at hrest
    exact hrest

/-- What every step preserves holds after every run. -/
theorem run_invariant (Inv : S → Prop)
    (hstep : ∀ l s s', Inv s → step l s = some s' → Inv s')
    {ls : List L} {s t : S} (hs : Inv s) (h : run step ls s = some t) : Inv t :=
  guarded_invariant step Inv (fun l s s' _ => hstep l s s')
    (guarded_of_forall step ls s (fun _ _ _ => trivial)) hs h

/-- A run whose guarded steps make a measure smaller is no longer than the measure. -/
theorem length_add_measure_le {ok : L → S → Prop} (Inv : S → Prop) (m : S → ℕ)
    (hstep : ∀ l s s', ok l s → Inv s → step l s = some s' → Inv s' ∧ m s' < m s)
    {ls : List L} {s t : S} (hok : Guarded step ok ls s) (hs : Inv s)
    (h : run step ls s = some t) : ls.length + m t ≤ m s := by
  induction ls generalizing s with
  | nil =>
    cases Option.some.inj h
    exact (Nat.zero_add _).le
  | cons l ls ih =>
    obtain ⟨s', hs', hrun⟩ := run_cons_eq_some step h
    obtain ⟨hinv, hlt⟩ := hstep l s s' hok.1 hs hs'
    have hrest := ih (hok.2 s' hs') hinv hrun
    rw [List.length_cons]
    omega

/-- Some run leads from `s` to `t`. -/
def Reaches (s t : S) : Prop := ∃ ls, run step ls s = some t

variable {step} in
theorem Reaches.refl (s : S) : Reaches step s s := ⟨[], rfl⟩

variable {step} in
theorem Reaches.head {s s' t : S} (l : L) (hstep : step l s = some s') (h : Reaches step s' t) :
    Reaches step s t := by
  obtain ⟨ls, hrun⟩ := h
  refine ⟨l :: ls, ?_⟩
  rw [run, hstep]
  exact hrun

variable {step} in
theorem Reaches.trans {s s' t : S} (h : Reaches step s s') (h' : Reaches step s' t) :
    Reaches step s t := by
  obtain ⟨ls, hrun⟩ := h
  induction ls generalizing s with
  | nil =>
    cases Option.some.inj hrun
    exact h'
  | cons l ls ih =>
    obtain ⟨s₁, hs₁, hrun⟩ := run_cons_eq_some step hrun
    exact (ih hrun).head l hs₁

/-- Exactly `n` parties have the property `f`. -/
def Counted {P : Type*} (f : P → Prop) (n : ℕ) : Prop :=
  ∃ F : Finset P, (∀ p, p ∈ F ↔ f p) ∧ F.card = n

section Counted

variable {P : Type*} {f g : P → Prop} {n : ℕ}

theorem counted_zero (h : ∀ p, ¬f p) : Counted f 0 :=
  ⟨∅, fun p => ⟨fun hp => absurd hp (Finset.notMem_empty p), fun hp => absurd hp (h p)⟩, rfl⟩

theorem Counted.eq_zero (hc : Counted f n) (h : ∀ p, ¬f p) : n = 0 := by
  obtain ⟨F, hF, rfl⟩ := hc
  rw [Finset.card_eq_zero]
  exact Finset.eq_empty_of_forall_notMem (fun p hp => h p ((hF p).mp hp))

theorem Counted.pos (hc : Counted f n) (p : P) (h : f p) : 0 < n := by
  obtain ⟨F, hF, rfl⟩ := hc
  exact Finset.card_pos.mpr ⟨p, (hF p).mpr h⟩

variable [DecidableEq P]

/-- One more party comes to have the property. -/
theorem Counted.enter (hc : Counted f n) (p : P) (hp : ¬f p) (hg : g p)
    (hother : ∀ q, q ≠ p → (g q ↔ f q)) : Counted g (n + 1) := by
  obtain ⟨F, hF, rfl⟩ := hc
  refine ⟨insert p F, fun q => ?_, Finset.card_insert_of_notMem (fun h => hp ((hF p).mp h))⟩
  rw [Finset.mem_insert, hF]
  by_cases hq : q = p
  · subst hq
    exact ⟨fun _ => hg, fun _ => Or.inl rfl⟩
  · rw [hother q hq]
    exact ⟨fun h => h.resolve_left hq, Or.inr⟩

/-- One party ceases to have the property. -/
theorem Counted.leave (hc : Counted f (n + 1)) (p : P) (hp : f p) (hg : ¬g p)
    (hother : ∀ q, q ≠ p → (g q ↔ f q)) : Counted g n := by
  obtain ⟨F, hF, hcard⟩ := hc
  refine ⟨F.erase p, fun q => ?_, ?_⟩
  · rw [Finset.mem_erase, hF]
    by_cases hq : q = p
    · subst hq
      exact ⟨fun h => absurd rfl h.1, fun h => absurd h hg⟩
    · rw [hother q hq]
      exact ⟨And.right, fun h => ⟨hq, h⟩⟩
  · rw [Finset.card_erase_of_mem ((hF p).mpr hp), hcard]
    rfl

end Counted

end Vdev.Runs
