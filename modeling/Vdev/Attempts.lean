import Vdev.Dispatch

/-!
Which actions `vdev_action_run_commands` attempts. The walk over the array searches for the
next action that matches; a search does not begin at an action without a command, and
looks at all others. A match that cannot be evaluated ends the walk, and so does a runner that
returns a negative number.
-/
namespace Vdev.Attempts

open CString Data Vdev.Action Dispatch

variable {σ : Type}

def results (c : Commands σ) (vreq : Request) : List (Action × ℕ) → σ → List Int
  | [], _ => []
  | (act, i) :: rest, w =>
    let r := c.run (runnerOf act) vreq i act w
    r.1 :: results c vreq rest r.2

section Walk

variable (c : Commands σ) (vreq : Request) (devExists : Bool)

theorem reached_prefix (regexec : CStr → Option CStr → Int) (searching : Bool)
    (l : List (Action × ℕ)) : reached regexec vreq searching l <+: l := by
  induction l generalizing searching with
  | nil => exact List.prefix_rfl
  | cons x rest ih =>
    rcases reached_eq_nil_or_cons vreq regexec searching x rest with ⟨_, hnil⟩ | ⟨next, hcons⟩
    · rw [hnil]
      exact List.nil_prefix
    · rw [hcons]
      exact List.prefix_cons_inj x |>.mpr (ih next)

/-- All actions of a list are attempted if none but the last one fails. -/
theorem runUntilNegative_all_iff (l : List (Action × ℕ)) (w : σ) :
    (runUntilNegative c vreq l w).calls.map Call.index = l.map Prod.snd ↔
      ∀ rc ∈ (results c vreq l w).dropLast, 0 ≤ rc := by
  induction l generalizing w with
  | nil => simp [runUntilNegative, results]
  | cons x rest ih =>
    obtain ⟨act, i⟩ := x
    have hlen : ∀ (l : List (Action × ℕ)) w, results c vreq l w = [] ↔ l = [] := by
      intro l w
      cases l <;> simp [results]
    rw [runUntilNegative, results]
    dsimp only
    by_cases hneg : (c.run (runnerOf act) vreq i act w).1 < 0
    · rw [if_pos hneg]
      cases rest with
      | nil => simp [results]
      | cons y rest =>
        refine iff_of_false (by simp) (fun hall => ?_)
        rw [List.dropLast_cons_of_ne_nil ((hlen _ _).not.mpr (List.cons_ne_nil y rest))] at hall
        have hnn := hall _ List.mem_cons_self
        omega
    · rw [if_neg hneg, List.map_cons, List.map_cons, List.cons_inj_right, ih]
      cases rest with
      | nil => simp [results]
      | cons y rest =>
        rw [List.dropLast_cons_of_ne_nil ((hlen _ _).not.mpr (List.cons_ne_nil y rest)),
          List.forall_mem_cons]
        exact ⟨fun h => ⟨by omega, h⟩, And.right⟩

theorem runUntilNegative_calls_isPrefix (l : List (Action × ℕ)) (w : σ) :
    (runUntilNegative c vreq l w).calls.map Call.index <+: l.map Prod.snd := by
  have h := ((runUntilNegative_spec c vreq l w).1).map Prod.fst
  simpa [List.map_map, Function.comp_def] using h

/-- What a walk attempts that no runner ends. -/
def upToFailure (regexec : CStr → Option CStr → Int) (acts : List Action) : List (Action × ℕ) :=
  untilAbort vreq devExists
    ((reached regexec vreq false acts.zipIdx).filter (Selected regexec vreq devExists))

/-- The actions that are left to do are behind a match that fails. -/
theorem untilAbort_dispatchList (regexec : CStr → Option CStr → Int) (acts : List Action) :
    ∃ behind, untilAbort vreq devExists (dispatchList regexec vreq devExists acts) =
        upToFailure vreq devExists regexec acts ++ behind ∧
      (∀ x ∈ upToFailure vreq devExists regexec acts, x ∈ reached regexec vreq false acts.zipIdx) ∧
      ∀ x ∈ behind, x ∉ reached regexec vreq false acts.zipIdx := by
  obtain ⟨rest, hsplit⟩ := reached_prefix vreq regexec false acts.zipIdx
  have hnodup : (reached regexec vreq false acts.zipIdx ++ rest).Nodup := by
    rw [hsplit]
    refine List.Nodup.of_map Prod.snd ?_
    rw [List.zipIdx_map_snd]
    exact List.nodup_range'
  have hfront : ∀ x ∈ upToFailure vreq devExists regexec acts,
      x ∈ reached regexec vreq false acts.zipIdx :=
    fun x hx => (List.mem_filter.mp ((List.takeWhile_sublist _).subset hx)).1
  have happend : dispatchList regexec vreq devExists acts =
      (reached regexec vreq false acts.zipIdx).filter (Selected regexec vreq devExists) ++
        rest.filter (Selected regexec vreq devExists) := by
    rw [dispatchList, ← List.filter_append, hsplit]
  rw [happend, untilAbort, List.takeWhile_append]
  split_ifs with hlen
  · refine ⟨(rest.filter (Selected regexec vreq devExists)).takeWhile
      (fun x => ¬Aborts vreq devExists x.1), ?_, hfront, fun x hx hmem => ?_⟩
    · rw [upToFailure, untilAbort, (List.takeWhile_prefix _).eq_of_length hlen]
    · have hrest := (List.mem_filter.mp ((List.takeWhile_sublist _).subset hx)).1
      exact List.disjoint_of_nodup_append hnodup hmem hrest
  · exact ⟨[], (List.append_nil _).symm, hfront, fun x hx => absurd hx List.not_mem_nil⟩

def attempted (d : Dispatched σ) : List ℕ := d.calls.map Call.index

theorem attempted_all_iff (acts : List Action) (w : σ) :
    let todo := untilAbort vreq devExists (dispatchList c.regexec vreq devExists acts)
    attempted (actionRunCommands c vreq acts devExists w) = todo.map Prod.snd ↔
      (∀ x ∈ todo, x ∈ reached c.regexec vreq false acts.zipIdx) ∧
        ∀ rc ∈ (results c vreq todo w).dropLast, 0 ≤ rc := by
  intro todo
  have hcalls : attempted (actionRunCommands c vreq acts devExists w) =
      (runUntilNegative c vreq (upToFailure vreq devExists c.regexec acts) w).calls.map
        Call.index := by
    obtain ⟨rc, hwalk, -⟩ := walk_eq c vreq devExists false acts.zipIdx w
    rw [attempted, actionRunCommands,
      runCommandsLoop_eq_walk c vreq devExists acts acts.length 0 w [] (by omega), List.drop_zero,
      hwalk]
    rfl
  obtain ⟨behind, htodo, hfront, hbehind⟩ :=
    untilAbort_dispatchList vreq devExists c.regexec acts
  change todo = _ at htodo
  rw [hcalls]
  constructor
  · intro hall
    have hle := (runUntilNegative_calls_isPrefix c vreq
      (upToFailure vreq devExists c.regexec acts) w).length_le
    rw [hall, htodo, List.map_append, List.length_append, List.length_map] at hle
    have hnil : behind = [] := by
      rw [← List.length_eq_zero_iff, ← List.length_map (f := Prod.snd)]
      omega
    rw [hnil, List.append_nil] at htodo
    rw [htodo] at hall ⊢
    exact ⟨hfront, (runUntilNegative_all_iff c vreq _ w).mp hall⟩
  · rintro ⟨hreached, hall⟩
    have hnil : behind = [] := by
      rw [List.eq_nil_iff_forall_not_mem]
      intro x hx
      exact hbehind x hx (hreached x (htodo ▸ List.mem_append_right _ hx))
    rw [hnil, List.append_nil] at htodo
    rw [htodo] at hall ⊢
    exact (runUntilNegative_all_iff c vreq _ w).mpr hall

end Walk

/-- Exactly when the results of the runners do not matter: under both of two assignments the
same actions are attempted, all of them up to the first that forbids the device to exist, if
and only if no match that fails is in front of one of them and under neither assignment
one of them but the last returns a negative number. -/
theorem optimistic_iff (c : Commands σ) (run₁ run₂ : Runner → Request → ℕ → Action → σ → Int × σ)
    (vreq : Request) (acts : List Action) (devExists : Bool) (w₁ w₂ : σ) :
    let d₁ := actionRunCommands { c with run := run₁ } vreq acts devExists w₁
    let d₂ := actionRunCommands { c with run := run₂ } vreq acts devExists w₂
    let todo := untilAbort vreq devExists (dispatchList c.regexec vreq devExists acts)
    (attempted d₁ = attempted d₂ ∧ attempted d₁ = todo.map Prod.snd) ↔
      (∀ x ∈ todo, x ∈ reached c.regexec vreq false acts.zipIdx) ∧
        (∀ rc ∈ (results { c with run := run₁ } vreq todo w₁).dropLast, 0 ≤ rc) ∧
        ∀ rc ∈ (results { c with run := run₂ } vreq todo w₂).dropLast, 0 ≤ rc := by
  intro d₁ d₂ todo
  have h₁ := attempted_all_iff { c with run := run₁ } vreq devExists acts w₁
  have h₂ := attempted_all_iff { c with run := run₂ } vreq devExists acts w₂
  constructor
  · rintro ⟨hsame, hall⟩
    obtain ⟨hreached, hrun₁⟩ := h₁.mp hall
    exact ⟨hreached, hrun₁, (h₂.mp (hsame.symm.trans hall)).2⟩
  · rintro ⟨hreached, hrun₁, hrun₂⟩
    have hall₁ := h₁.mpr ⟨hreached, hrun₁⟩
    have hall₂ := h₂.mpr ⟨hreached, hrun₂⟩
    exact ⟨hall₁.trans hall₂.symm, hall₁⟩

/-- A daemonlet that cannot be restarted keeps the next action from being attempted. -/
theorem not_same_attempts :
    let daemonlet : Action := { trigger := .any, command := some "daemonlet".toList,
                                isDaemonlet := true }
    let helper : Action := { trigger := .any, command := some "helper".toList }
    let vreq : Request := { type := .add, path := some "sda".toList }
    let c : Commands Unit := ⟨fun _ _ => 0, fun _ _ _ _ w => (0, w), fun _ _ _ w => ((0, []), w)⟩
    attempted (actionRunCommands c vreq [daemonlet, helper] false ()) = [0, 1] ∧
      attempted (actionRunCommands
        { c with
          run := fun runner _ _ _ w => (if runner = .daemonlet then Errno.eperm.rc else 0, w) }
        vreq [daemonlet, helper] false ()) = [0] := by
  decide

end Vdev.Attempts
