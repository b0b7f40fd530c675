import Vdev.Action

/-!
`vdev_action_match` is the conjunction of the action's criteria. Each criterion of
an action file (trigger, path, type, one for each OS parameter) is a value of its
own with a declarative meaning; the checks of the source, with their early
returns, succeed exactly when every criterion holds. Hence an action with more
criteria matches fewer requests, and a request with more parameters matches more
actions.
-/
namespace Vdev.Matching

open CString Data Vdev.Action

inductive Criterion
  | trigger (t : RequestType)
  | path (regex : CStr)
  | kind (name : CStr)
  | param (key value : CStr)
  deriving DecidableEq

def kindOf (mode : ℕ) : Option CStr :=
  if isBlk mode then some "block".toList
  else if isChr mode then some "char".toList
  else none

variable (regexec : CStr → Option CStr → Int)

def Criterion.Holds (vreq : Request) : Criterion → Prop
  | .trigger t => t = vreq.type
  | .path regex => regexec regex vreq.path = 0
  | .kind name => ∃ k, kindOf vreq.mode = some k ∧ strcaseEq name k = true
  | .param key value => ∃ v, vreq.params.find key = some v ∧ (value = [] ∨ v = value)

/-- The criteria of an action. The trigger `ANY` asks nothing. -/
def criteria (act : Action) : List Criterion :=
  (if act.trigger = .any then [] else [.trigger act.trigger]) ++
    act.path.toList.map .path ++
    (if act.hasType then [.kind act.type] else []) ++
    act.devParams.entries.map (fun kv => .param kv.1 kv.2)

def AllHold (vreq : Request) (act : Action) : Prop :=
  ∀ k ∈ criteria act, k.Holds regexec vreq

theorem allHold_iff (vreq : Request) (act : Action) :
    AllHold regexec vreq act ↔
      (act.trigger = vreq.type ∨ act.trigger = .any) ∧
      (∀ regex, act.path = some regex → regexec regex vreq.path = 0) ∧
      (act.hasType = true → ∃ k, kindOf vreq.mode = some k ∧ strcaseEq act.type k = true) ∧
      ∀ kv ∈ act.devParams.entries,
        ∃ v, vreq.params.find kv.1 = some v ∧ (kv.2 = [] ∨ v = kv.2) := by
  have htrigger : (∀ k ∈ (if act.trigger = .any then [] else [Criterion.trigger act.trigger]),
      k.Holds regexec vreq) ↔ (act.trigger = vreq.type ∨ act.trigger = .any) := by
    by_cases hany : act.trigger = .any
    · simp [hany]
    · simp [hany, Criterion.Holds]
  have hpath : (∀ k ∈ act.path.toList.map Criterion.path, k.Holds regexec vreq) ↔
      ∀ regex, act.path = some regex → regexec regex vreq.path = 0 := by
    simp [Criterion.Holds]
  have htype : (∀ k ∈ (if act.hasType then [Criterion.kind act.type] else []),
      k.Holds regexec vreq) ↔
      (act.hasType = true → ∃ k, kindOf vreq.mode = some k ∧ strcaseEq act.type k = true) := by
    cases act.hasType <;> simp [Criterion.Holds]
  have hparam : (∀ k ∈ act.devParams.entries.map (fun kv => Criterion.param kv.1 kv.2),
      k.Holds regexec vreq) ↔ ∀ kv ∈ act.devParams.entries,
        ∃ v, vreq.params.find kv.1 = some v ∧ (kv.2 = [] ∨ v = kv.2) := by
    rw [List.forall_mem_map]
    rfl
  rw [AllHold, criteria, List.forall_mem_append, List.forall_mem_append,
    List.forall_mem_append, htrigger, hpath, htype, hparam, and_assoc, and_assoc]

theorem matchRegex_eq_one_iff (path : Option CStr) (regex : CStr) :
    matchRegex regexec path regex = 1 ↔ regexec regex path = 0 := by
  unfold matchRegex
  dsimp only
  split_ifs with hrc hno
  · simp [hrc]
  · refine iff_of_false (fun h => ?_) hrc
    have habs := abs_nonneg (regexec regex path)
    omega
  · simpa using hrc

theorem matchRegex_le_one (path : Option CStr) (regex : CStr) :
    matchRegex regexec path regex ≤ 1 := by
  unfold matchRegex
  have habs := abs_nonneg (regexec regex path)
  dsimp only
  split_ifs <;> omega

theorem matchType_iff (mode : ℕ) (act : Action) :
    matchType mode act = true ↔
      (act.hasType = true → ∃ k, kindOf mode = some k ∧ strcaseEq act.type k = true) := by
  unfold matchType kindOf
  have hexcl : isBlk mode = true → isChr mode = false := by
    intro h
    simp only [isBlk, isChr, beq_iff_eq, S_IFBLK, S_IFCHR, beq_eq_false_iff_ne] at h ⊢
    omega
  cases act.hasType with
  | false => simp
  | true =>
    cases hblk : isBlk mode with
    | true => simp [hexcl hblk]
    | false => cases isChr mode <;> simp

/-- The loop over the OS parameters returns 1 if each of them is met, and 0 otherwise. -/
theorem matchParams_eq (params : Params) (entries : List (CStr × CStr)) :
    ((∀ kv ∈ entries, ∃ v, params.find kv.1 = some v ∧ (kv.2 = [] ∨ v = kv.2)) ∧
      matchParams params entries = 1) ∨
    ((¬∀ kv ∈ entries, ∃ v, params.find kv.1 = some v ∧ (kv.2 = [] ∨ v = kv.2)) ∧
      matchParams params entries = 0) := by
  induction entries with
  | nil => exact Or.inl ⟨by simp, rfl⟩
  | cons kv rest ih =>
    obtain ⟨key, value⟩ := kv
    rw [List.forall_mem_cons]
    unfold matchParams
    cases hfind : params.find key with
    | none => exact Or.inr ⟨fun h => by simpa [hfind] using h.1, rfl⟩
    | some v =>
      dsimp only
      by_cases hempty : value.length = 0
      · have hnil := List.length_eq_zero_iff.mp hempty
        rw [if_pos hempty]
        simpa [hfind, hnil] using ih
      · have hnil : value ≠ [] := fun h => hempty (by simp [h])
        rw [if_neg hempty]
        by_cases hv : v = value
        · rw [if_neg (not_not.mpr hv)]
          simpa [hfind, hnil, hv] using ih
        · rw [if_pos hv]
          refine Or.inr ⟨fun h => ?_, rfl⟩
          simpa [hfind, hnil, hv] using h.1

/-- The criteria behind the trigger. `rc` is what the path gave, and `pathHolds` what it means. -/
theorem criteria_eq_one_iff (vreq : Request) (act : Action) {rc : Int} {pathHolds : Prop}
    (hle : rc ≤ 1) (hrc : rc = 1 ↔ pathHolds) :
    (if rc = 0 then 0
      else if rc < 0 then rc
      else if !matchType vreq.mode act then 0
      else matchParams vreq.params act.devParams.entries) = 1 ↔
    pathHolds ∧ matchType vreq.mode act = true ∧ ∀ kv ∈ act.devParams.entries,
      ∃ v, vreq.params.find kv.1 = some v ∧ (kv.2 = [] ∨ v = kv.2) := by
  rw [← hrc]
  split_ifs with hzero hneg htype
  · simp [hzero]
  · exact iff_of_false (by omega) (fun h => by omega)
  · have htype' : matchType vreq.mode act = false := by simpa using htype
    simp [htype']
  · have hone : rc = 1 := by omega
    have htype' : matchType vreq.mode act = true := by simpa using htype
    rcases matchParams_eq vreq.params act.devParams.entries with ⟨hall, hp⟩ | ⟨hall, hp⟩
    · exact iff_of_true hp ⟨hone, htype', hall⟩
    · exact iff_of_false (by rw [hp]; decide) (fun h => hall h.2.2)

/-- The checks of the source succeed exactly when every criterion holds. -/
theorem actionMatch_iff (vreq : Request) (act : Action) :
    actionMatch regexec vreq act = 1 ↔ AllHold regexec vreq act := by
  rw [allHold_iff, ← matchType_iff]
  unfold actionMatch
  by_cases htrigger : act.trigger ≠ vreq.type ∧ act.trigger ≠ .any
  · rw [if_pos htrigger]
    refine iff_of_false (by decide) (fun h => ?_)
    exact h.1.elim htrigger.1 htrigger.2
  rw [if_neg htrigger]
  have hor : act.trigger = vreq.type ∨ act.trigger = .any := by tauto
  simp only [hor, true_and]
  cases hpath : act.path with
  | none =>
    exact criteria_eq_one_iff vreq act le_rfl (by simp)
  | some regex =>
    refine criteria_eq_one_iff vreq act (matchRegex_le_one regexec vreq.path regex) ?_
    rw [matchRegex_eq_one_iff]
    simp

/-- Without a regex error, an action that does not match makes the function return 0. -/
theorem actionMatch_cases (vreq : Request) (act : Action)
    (hok : ∀ regex, act.path = some regex → 0 ≤ matchRegex regexec vreq.path regex) :
    actionMatch regexec vreq act = 0 ∨ actionMatch regexec vreq act = 1 := by
  have hrest : ∀ rc : Int, 0 ≤ rc → ∀ x,
      (if rc = 0 then 0
        else if rc < 0 then rc
        else if !matchType vreq.mode act then 0
        else matchParams vreq.params act.devParams.entries) = x → x = 0 ∨ x = 1 := by
    intro rc hrc x hx
    subst hx
    have hparams := matchParams_eq vreq.params act.devParams.entries
    split_ifs with hzero hneg
    · exact Or.inl rfl
    · omega
    · exact Or.inl rfl
    · exact hparams.elim (fun h => Or.inr h.2) (fun h => Or.inl h.2)
  unfold actionMatch
  by_cases htrigger : act.trigger ≠ vreq.type ∧ act.trigger ≠ .any
  · exact Or.inl (if_pos htrigger)
  rw [if_neg htrigger]
  cases hpath : act.path with
  | none => exact hrest 1 (by decide) _ rfl
  | some regex => exact hrest _ (hok regex hpath) _ rfl

/-- A criterion is added to an action that left it open. -/
inductive AddsCriterion (act : Action) : Action → Prop
  | trigger (t : RequestType) (hany : act.trigger = .any) :
      AddsCriterion act { act with trigger := t }
  | path (regex : CStr) (hpath : act.path = none) :
      AddsCriterion act { act with path := some regex }
  | kind (name : CStr) (htype : act.hasType = false) :
      AddsCriterion act { act with hasType := true, type := name }
  | param (key value : CStr) (params : Params) (hadd : act.devParams.add key value = .ok params) :
      AddsCriterion act { act with devParams := params }

theorem subset_of_add_eq_ok {p q : Params} {key value : CStr} (h : p.add key value = .ok q) :
    p.entries ⊆ q.entries := by
  intro x hx
  by_cases hmem : key ∈ p.entries.map Prod.fst
  · rw [Params.add_of_mem p key value hmem] at h
    cases h
  · obtain ⟨r, hr, hentries⟩ := Params.add_of_new p key value hmem
    rw [hr] at h
    cases h
    exact (hentries x).mpr (Or.inr hx)

theorem criteria_subset {act act' : Action} (h : AddsCriterion act act') :
    criteria act ⊆ criteria act' := by
  have hmono : ∀ {a b c d a' b' c' d' : List Criterion}, a ⊆ a' → b ⊆ b' → c ⊆ c' → d ⊆ d' →
      a ++ b ++ c ++ d ⊆ a' ++ b' ++ c' ++ d' := by
    intro a b c d a' b' c' d' ha hb hc hd k hk
    simp only [List.mem_append] at hk ⊢
    exact hk.imp (Or.imp (Or.imp (@ha k) (@hb k)) (@hc k)) (@hd k)
  cases h with
  | trigger t hany =>
    refine hmono ?_ (List.Subset.refl _) (List.Subset.refl _) (List.Subset.refl _)
    rw [if_pos hany]
    exact List.nil_subset _
  | path regex hpath =>
    refine hmono (List.Subset.refl _) ?_ (List.Subset.refl _) (List.Subset.refl _)
    rw [hpath]
    exact List.nil_subset _
  | kind name htype =>
    refine hmono (List.Subset.refl _) (List.Subset.refl _) ?_ (List.Subset.refl _)
    rw [htype]
    exact List.nil_subset _
  | param key value params hadd =>
    exact hmono (List.Subset.refl _) (List.Subset.refl _) (List.Subset.refl _)
      (List.map_subset _ (subset_of_add_eq_ok hadd))

/-- More parameters never take a criterion away. -/
theorem Criterion.Holds.of_add {vreq : Request} {key value : CStr} {params : Params}
    (hadd : vreq.params.add key value = .ok params) {k : Criterion}
    (h : k.Holds regexec vreq) : k.Holds regexec { vreq with params := params } := by
  cases k with
  | trigger t => exact h
  | path regex => exact h
  | kind name => exact h
  | param key' value' =>
    obtain ⟨v, hfind, hv⟩ := h
    rw [Params.find_eq_some_iff] at hfind
    exact ⟨v, (Params.find_eq_some_iff _ _ _).mpr (subset_of_add_eq_ok hadd hfind), hv⟩

/-- `vdev_action_match` returns 1 exactly when the trigger, the path, the type and every OS
parameter agree. Adding a criterion to the action never makes it match another request, and
adding a parameter to the request never costs it a match. -/
theorem actionMatch_conjunction (vreq : Request) (act : Action) :
    (actionMatch regexec vreq act = 1 ↔
      (act.trigger = vreq.type ∨ act.trigger = .any) ∧
      (∀ regex, act.path = some regex → regexec regex vreq.path = 0) ∧
      (act.hasType = true → ∃ k, kindOf vreq.mode = some k ∧ strcaseEq act.type k = true) ∧
      ∀ kv ∈ act.devParams.entries,
        ∃ v, vreq.params.find kv.1 = some v ∧ (kv.2 = [] ∨ v = kv.2)) ∧
    (∀ act', AddsCriterion act act' →
      actionMatch regexec vreq act' = 1 → actionMatch regexec vreq act = 1) ∧
    (∀ key value params, vreq.params.add key value = .ok params →
      actionMatch regexec vreq act = 1 →
        actionMatch regexec { vreq with params := params } act = 1) := by
  refine ⟨?_, ?_, ?_⟩
  · rw [actionMatch_iff, allHold_iff]
  · intro act' hadd hmatch
    rw [actionMatch_iff] at hmatch ⊢
    exact fun k hk => hmatch k (criteria_subset hadd hk)
  · intro key value params hadd hmatch
    rw [actionMatch_iff] at hmatch ⊢
    exact fun k hk => (hmatch k hk).of_add regexec hadd

end Vdev.Matching
