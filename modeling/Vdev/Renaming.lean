import Vdev.Matching

/-!
What `vdev_action_create_path` computes. The rename commands that run are those of
the matching actions, in order, and the last output wins. The exit status of the
last command should not matter, and does not if another action follows: the loop
clears its result code when it looks at that action. A rename command of the very
last action leaves its exit status in the result instead.
-/
namespace Vdev.Renaming

open CString Data Vdev.Action

variable {σ : Type}

/-- The command of an action is run with the request alone; `vdev_action_run_sync` does not know
the index. -/
def commands (regexec : CStr → Option CStr → Int)
    (run : Runner → Request → ℕ → Action → σ → Int × σ)
    (rename : Request → Action → σ → (Int × CStr) × σ) : Commands σ where
  regexec := regexec
  run := run
  rename vreq _ act w := rename vreq act w

def Renames (regexec : CStr → Option CStr → Int) (vreq : Request) (act : Action) : Bool :=
  actionMatch regexec vreq act = 1 ∧ act.renameCommand ≠ none

def runRenames (rename : Request → Action → σ → (Int × CStr) × σ) (vreq : Request) :
    List Action → σ → Option (Int × CStr) × σ
  | [], w => (none, w)
  | act :: rest, w =>
    let r := rename vreq act w
    let last := runRenames rename vreq rest r.2
    (last.1.or (some r.1), last.2)

/-- Exit status and output of the last matching rename command, and the world after it. -/
def lastRename (regexec : CStr → Option CStr → Int)
    (rename : Request → Action → σ → (Int × CStr) × σ) (vreq : Request) (acts : List Action)
    (w : σ) : Option (Int × CStr) × σ :=
  runRenames rename vreq (acts.filter (Renames regexec vreq)) w

/-- The result code after the loop: the last exit status, if nothing follows its action. -/
def endStatus (regexec : CStr → Option CStr → Int) (vreq : Request) (acts : List Action)
    (rc : Int) (last : Option (Int × CStr)) : Int :=
  match acts.getLast? with
  | none => rc
  | some act => if Renames regexec vreq act then (last.map Prod.fst).getD 0 else 0

/-- The path that the caller gets for the last output. An empty name is refused, except that a
device without a name keeps to be `UNKNOWN`. -/
def settled (vreq : Request) (out : Option CStr) : Option CStr :=
  if out = some [] then
    if vreq.path = some unknownPath then some unknownPath else none
  else out

section Loop

variable (regexec : CStr → Option CStr → Int)
  (run : Runner → Request → ℕ → Action → σ → Int × σ)
  (rename : Request → Action → σ → (Int × CStr) × σ) (vreq : Request)

@[simp] theorem commands_regexec : (commands regexec run rename).regexec = regexec := rfl

@[simp] theorem commands_rename (i : ℕ) (act : Action) (w : σ) :
    (commands regexec run rename).rename vreq i act w = rename vreq act w := rfl

theorem findNextLoop_cases (l : List Action) (i : ℕ)
    (hok : ∀ a ∈ l, actionMatch regexec vreq a = 0 ∨ actionMatch regexec vreq a = 1) :
    (findNextLoop regexec vreq l i = ((i + l.length : ℕ) : Int) ∧
      ∀ a ∈ l, actionMatch regexec vreq a = 0) ∨
    ∃ pre act post, l = pre ++ act :: post ∧ (∀ a ∈ pre, actionMatch regexec vreq a = 0) ∧
      actionMatch regexec vreq act = 1 ∧
      findNextLoop regexec vreq l i = ((i + pre.length : ℕ) : Int) := by
  induction l generalizing i with
  | nil => exact Or.inl ⟨rfl, by simp⟩
  | cons act rest ih =>
    obtain ⟨hact, hrest⟩ := List.forall_mem_cons.mp hok
    rw [findNextLoop]
    rcases hact with hzero | hone
    · simp only [hzero, lt_irrefl, if_false]
      rcases ih (i + 1) hrest with ⟨hfind, hnone⟩ | ⟨pre, act', post, heq, hpre, hmatch, hfind⟩
      · refine Or.inl ⟨?_, List.forall_mem_cons.mpr ⟨hzero, hnone⟩⟩
        rw [hfind, List.length_cons]
        congr 1
        omega
      · refine Or.inr ⟨act :: pre, act', post, by rw [heq, List.cons_append],
          List.forall_mem_cons.mpr ⟨hzero, hpre⟩, hmatch, ?_⟩
        rw [hfind, List.length_cons]
        congr 1
        omega
    · refine Or.inr ⟨[], act, rest, rfl, by simp, hone, ?_⟩
      simp [hone]

theorem not_renames_of_match {act : Action} (h : actionMatch regexec vreq act = 0) :
    Renames regexec vreq act = false := by
  simp [Renames, h]

theorem not_renames_of_command {act : Action} (h : act.renameCommand = none) :
    Renames regexec vreq act = false := by
  simp [Renames, h]

theorem filter_eq_nil_of_match {l : List Action}
    (h : ∀ a ∈ l, actionMatch regexec vreq a = 0) : l.filter (Renames regexec vreq) = [] := by
  rw [List.filter_eq_nil_iff]
  intro a ha
  rw [not_renames_of_match regexec vreq (h a ha)]
  exact Bool.false_ne_true

theorem runRenames_isSome (l : List Action) (w : σ) (h : l ≠ []) :
    ((runRenames rename vreq l w).1).isSome = true := by
  cases l with
  | nil => exact absurd rfl h
  | cons act rest => simp [runRenames]

theorem endStatus_cons_of_not {act : Action} {rest : List Action} {rc : Int}
    {last : Option (Int × CStr)} (h : Renames regexec vreq act = false) :
    endStatus regexec vreq (act :: rest) rc last = endStatus regexec vreq rest 0 last := by
  cases rest with
  | nil => simp [endStatus, h]
  | cons next rest => simp [endStatus, List.getLast?_cons]

theorem endStatus_append {pre rest : List Action} {rc : Int} {last : Option (Int × CStr)}
    (hrest : rest ≠ []) :
    endStatus regexec vreq (pre ++ rest) rc last = endStatus regexec vreq rest rc last := by
  rw [endStatus, endStatus, List.getLast?_append_of_ne_nil _ hrest]

theorem endStatus_cons_of_renames {act : Action} (rest : List Action) (rc : Int) (w : σ)
    (h : Renames regexec vreq act = true) (r : Int × CStr) :
    endStatus regexec vreq (act :: rest) rc
        ((lastRename regexec rename vreq rest w).1.or (some r)) =
      endStatus regexec vreq rest r.1 (lastRename regexec rename vreq rest w).1 := by
  cases hrest : rest.getLast? with
  | none =>
    rw [List.getLast?_eq_none_iff] at hrest
    subst hrest
    simp [endStatus, h, lastRename, runRenames]
  | some next =>
    have hne : rest ≠ [] := by
      intro hnil
      rw [hnil] at hrest
      cases hrest
    rw [← List.singleton_append, endStatus_append regexec vreq hne, endStatus, endStatus, hrest]
    dsimp only
    split_ifs with hnext
    · have hmem : next ∈ rest.filter (Renames regexec vreq) :=
        List.mem_filter.mpr ⟨List.mem_of_getLast? hrest, hnext⟩
      have hsome := runRenames_isSome rename vreq (rest.filter (Renames regexec vreq)) w
        (List.ne_nil_of_mem hmem)
      obtain ⟨x, hx⟩ := Option.isSome_iff_exists.mp hsome
      rw [lastRename, hx]
      rfl
    · rfl

theorem endStatus_of_match {acts : List Action} {rc : Int} (hne : acts ≠ [])
    (hall : ∀ a ∈ acts, actionMatch regexec vreq a = 0) :
    endStatus regexec vreq acts rc none = 0 := by
  rw [endStatus, List.getLast?_eq_getLast_of_ne_nil hne]
  dsimp only
  rw [not_renames_of_match regexec vreq (hall _ (List.getLast_mem hne))]
  rfl

theorem lastRename_of_match {acts : List Action} (w : σ)
    (hall : ∀ a ∈ acts, actionMatch regexec vreq a = 0) :
    lastRename regexec rename vreq acts w = (none, w) := by
  rw [lastRename, filter_eq_nil_of_match regexec vreq hall, runRenames]

theorem lastRename_append {pre : List Action} (rest : List Action) (w : σ)
    (hpre : ∀ a ∈ pre, actionMatch regexec vreq a = 0) :
    lastRename regexec rename vreq (pre ++ rest) w = lastRename regexec rename vreq rest w := by
  rw [lastRename, List.filter_append, filter_eq_nil_of_match regexec vreq hpre, List.nil_append,
    lastRename]

theorem lastRename_cons_of_not {act : Action} (rest : List Action) (w : σ)
    (h : Renames regexec vreq act = false) :
    lastRename regexec rename vreq (act :: rest) w = lastRename regexec rename vreq rest w := by
  rw [lastRename, List.filter_cons_of_neg (by simp [h]), lastRename]

theorem lastRename_cons_of_renames {act : Action} (rest : List Action) (w : σ)
    (h : Renames regexec vreq act = true) :
    lastRename regexec rename vreq (act :: rest) w =
      let r := rename vreq act w
      let last := lastRename regexec rename vreq rest r.2
      (last.1.or (some r.1), last.2) := by
  rw [lastRename, List.filter_cons_of_pos h, runRenames]
  rfl

/-- The search behind an entry with a rename command finds no action. -/
theorem createPathLoop_unmatched {acts : List Action} {fuel off : ℕ} {rc : Int}
    {path : Option CStr} {w : σ} {first : Action} (hfirst : acts[off]? = some first)
    (hsome : first.renameCommand ≠ none)
    (hfind : findNextLoop regexec vreq (acts.drop off) 0 = ((acts.drop off).length : Int)) :
    createPathLoop (commands regexec run rename) vreq acts (fuel + 1) off rc path w =
      (0, path, w) := by
  rw [createPathLoop, hfirst]
  dsimp only
  rw [if_neg hsome, actionFindNext, commands_regexec, hfind, List.length_drop, if_pos rfl]

/-- The search finds the action `act`, and its rename command is run, if it has one. -/
theorem createPathLoop_matched {acts pre post : List Action} {act : Action} {fuel off : ℕ}
    {rc : Int} {path : Option CStr} {w : σ} {first : Action} (hfirst : acts[off]? = some first)
    (hsome : first.renameCommand ≠ none) (heq : acts.drop off = pre ++ act :: post)
    (hfind : findNextLoop regexec vreq (acts.drop off) 0 = (pre.length : Int))
    (hexit : ∀ act w, 0 ≤ (rename vreq act w).1.1) :
    createPathLoop (commands regexec run rename) vreq acts (fuel + 1) off rc path w =
      if act.renameCommand = none then
        createPathLoop (commands regexec run rename) vreq acts fuel (off + pre.length + 1) 0 path w
      else
        let r := rename vreq act w
        createPathLoop (commands regexec run rename) vreq acts fuel (off + pre.length + 1) r.1.1
          (some r.1.2) r.2 := by
  have hact : acts[off + pre.length]? = some act := by
    rw [← List.getElem?_drop, heq, List.getElem?_append_right le_rfl, Nat.sub_self]
    rfl
  have hlt : pre.length < acts.length - off := by
    have h := (List.getElem?_eq_some_iff.mp hact).1
    omega
  rw [createPathLoop, hfirst]
  dsimp only
  rw [if_neg hsome, actionFindNext, commands_regexec, hfind, if_neg (by omega),
    if_neg (by omega), Int.toNat_natCast, hact]
  dsimp only
  have hnonneg : ¬((commands regexec run rename).rename vreq (off + pre.length) act w).1.1 < 0 :=
    not_lt.mpr (hexit act w)
  by_cases hcommand : act.renameCommand = none
  · rw [if_pos hcommand, if_pos hcommand]
  · rw [if_neg hcommand, if_neg hcommand, if_neg hnonneg]
    rfl

/-- The loop from offset `off` runs the renaming actions that are left. -/
theorem createPathLoop_eq (acts : List Action)
    (hok : ∀ a ∈ acts, actionMatch regexec vreq a = 0 ∨ actionMatch regexec vreq a = 1)
    (hexit : ∀ act w, 0 ≤ (rename vreq act w).1.1) (fuel off : ℕ) (rc : Int)
    (path : Option CStr) (w : σ) (hfuel : acts.length ≤ fuel + off) :
    createPathLoop (commands regexec run rename) vreq acts fuel off rc path w =
      let last := lastRename regexec rename vreq (acts.drop off) w
      (endStatus regexec vreq (acts.drop off) rc last.1, (last.1.map Prod.snd).or path, last.2) := by
  induction fuel generalizing off rc path w with
  | zero =>
    rw [List.drop_of_length_le (by omega)]
    rfl
  | succ fuel ih =>
    cases hfirst : acts[off]? with
    | none =>
      rw [createPathLoop, hfirst, List.drop_of_length_le (List.getElem?_eq_none_iff.mp hfirst)]
      rfl
    | some first =>
      obtain ⟨hlt, hget⟩ := List.getElem?_eq_some_iff.mp hfirst
      have hdrop : acts.drop off = first :: acts.drop (off + 1) := by
        rw [List.drop_eq_getElem_cons hlt, hget]
      by_cases hnone : first.renameCommand = none
      · have hnot := not_renames_of_command regexec vreq hnone
        rw [createPathLoop, hfirst]
        dsimp only
        rw [if_pos hnone, ih _ _ _ _ (by omega), hdrop, endStatus_cons_of_not regexec vreq hnot,
          lastRename_cons_of_not regexec rename vreq _ _ hnot]
      rcases findNextLoop_cases regexec vreq (acts.drop off) 0
          (fun a ha => hok a (List.mem_of_mem_drop ha)) with
        ⟨hfind, hall⟩ | ⟨pre, act, post, heq, hpre, hmatch, hfind⟩
      · rw [Nat.zero_add] at hfind
        have hne : acts.drop off ≠ [] := hdrop ▸ List.cons_ne_nil _ _
        rw [createPathLoop_unmatched regexec run rename vreq hfirst hnone hfind,
          lastRename_of_match regexec rename vreq w hall]
        dsimp only
        rw [endStatus_of_match regexec vreq hne hall]
        rfl
      · rw [Nat.zero_add] at hfind
        have hpost : acts.drop (off + pre.length + 1) = post := by
          rw [Nat.add_assoc, ← List.drop_drop, heq, List.drop_append]
          simp
        rw [createPathLoop_matched regexec run rename vreq hfirst hnone heq hfind hexit, heq,
          lastRename_append regexec rename vreq _ _ hpre]
        dsimp only
        rw [endStatus_append regexec vreq (List.cons_ne_nil _ _)]
        by_cases hcommand : act.renameCommand = none
        · have hnot := not_renames_of_command regexec vreq hcommand
          rw [if_pos hcommand, ih _ _ _ _ (by omega), hpost,
            endStatus_cons_of_not regexec vreq hnot,
            lastRename_cons_of_not regexec rename vreq _ _ hnot]
        · have hrenames : Renames regexec vreq act = true := by
            simp [Renames, hmatch, hcommand]
          rw [if_neg hcommand, lastRename_cons_of_renames regexec rename vreq _ _ hrenames]
          dsimp only
          rw [ih _ _ _ _ (by omega), hpost, endStatus_cons_of_renames regexec rename vreq _ _ _
            hrenames]
          dsimp only
          cases (lastRename regexec rename vreq post (rename vreq act w).2).1 <;> rfl

theorem match_of_regexec
    (hregex : ∀ regex, regexec regex vreq.path = 0 ∨ regexec regex vreq.path = REG_NOMATCH)
    (act : Action) : actionMatch regexec vreq act = 0 ∨ actionMatch regexec vreq act = 1 := by
  refine Matching.actionMatch_cases regexec vreq act (fun regex _ => ?_)
  rcases hregex regex with h | h <;> simp [matchRegex, h, REG_NOMATCH]

/-- The whole function: the path is the settled output of the last renaming action. -/
theorem actionCreatePath_eq (acts : List Action) (w : σ)
    (hregex : ∀ regex, regexec regex vreq.path = 0 ∨ regexec regex vreq.path = REG_NOMATCH)
    (hexit : ∀ act w, 0 ≤ (rename vreq act w).1.1) :
    actionCreatePath (commands regexec run rename) vreq acts w =
      let last := lastRename regexec rename vreq acts w
      let out := last.1.map Prod.snd
      (if out = some [] ∧ vreq.path ≠ some unknownPath then Errno.enodata.rc
        else endStatus regexec vreq acts 0 last.1, settled vreq out, last.2) := by
  have hloop := createPathLoop_eq regexec run rename vreq acts
    (fun a _ => match_of_regexec regexec vreq hregex a) hexit acts.length 0 0 none w (by omega)
  rw [actionCreatePath, hloop, List.drop_zero]
  dsimp only
  rw [Option.or_none, settled]
  split_ifs <;> simp_all

end Loop

/-- `acts'` is `acts` with actions inserted that rename nothing: they do not match, or have no
rename command. -/
inductive Inserted (regexec : CStr → Option CStr → Int) (vreq : Request) :
    List Action → List Action → Prop
  | nil : Inserted regexec vreq [] []
  | keep (act : Action) {acts acts' : List Action} (h : Inserted regexec vreq acts acts') :
      Inserted regexec vreq (act :: acts) (act :: acts')
  | insert (act : Action) {acts acts' : List Action}
      (hact : actionMatch regexec vreq act ≠ 1 ∨ act.renameCommand = none)
      (h : Inserted regexec vreq acts acts') : Inserted regexec vreq acts (act :: acts')

section Insertion

variable (regexec : CStr → Option CStr → Int)
  (run : Runner → Request → ℕ → Action → σ → Int × σ)
  (rename : Request → Action → σ → (Int × CStr) × σ) (vreq : Request)

theorem not_renames_of_insert {act : Action}
    (hact : actionMatch regexec vreq act ≠ 1 ∨ act.renameCommand = none) :
    Renames regexec vreq act = false := by
  rcases hact with h | h <;> simp [Renames, h]

variable {regexec vreq}

theorem Inserted.filter_eq {acts acts' : List Action} (h : Inserted regexec vreq acts acts') :
    acts'.filter (Renames regexec vreq) = acts.filter (Renames regexec vreq) := by
  induction h with
  | nil => rfl
  | keep act _ ih => rw [List.filter_cons, List.filter_cons, ih]
  | insert act hact _ ih =>
    have hnot := not_renames_of_insert regexec vreq hact
    rw [List.filter_cons_of_neg (by simp [hnot]), ih]

/-- A renaming action at the end was there before the insertion. -/
theorem Inserted.getLast?_eq {acts acts' : List Action} (h : Inserted regexec vreq acts acts')
    {act : Action} (hlast : acts'.getLast? = some act) (hact : Renames regexec vreq act = true) :
    acts.getLast? = some act := by
  induction h with
  | nil => exact hlast
  | @keep first acts acts' h ih =>
    cases acts' with
    | nil =>
      cases h
      exact hlast
    | cons second rest =>
      rw [List.getLast?_cons_cons] at hlast
      have hrest := ih hlast
      cases acts with
      | nil => cases hrest
      | cons => rw [List.getLast?_cons_cons, hrest]
  | @insert first acts acts' hfirst h ih =>
    cases acts' with
    | nil =>
      have hnot := not_renames_of_insert regexec vreq hfirst
      rw [List.getLast?_singleton, Option.some.injEq] at hlast
      rw [hlast, hact] at hnot
      cases hnot
    | cons second rest =>
      rw [List.getLast?_cons_cons] at hlast
      exact ih hlast

variable (regexec vreq)

theorem inserted_refl (acts : List Action) : Inserted regexec vreq acts acts := by
  induction acts with
  | nil => exact .nil
  | cons act rest ih => exact .keep act ih

theorem inserted_append (acts : List Action) {act : Action}
    (hact : actionMatch regexec vreq act ≠ 1 ∨ act.renameCommand = none) :
    Inserted regexec vreq acts (acts ++ [act]) := by
  induction acts with
  | nil => exact .insert act hact .nil
  | cons first rest ih => exact .keep first ih

end Insertion

/-- Renaming depends only on the matching rename actions: the path is the last output, a name or
the absence of one is a success, and other actions change nothing. -/
structure Lawful (c : Commands σ) (rename : Request → Action → σ → (Int × CStr) × σ)
    (vreq : Request) (acts : List Action) (w : σ) : Prop where
  path : (actionCreatePath c vreq acts w).2.1 =
    settled vreq ((lastRename c.regexec rename vreq acts w).1.map Prod.snd)
  rc : (lastRename c.regexec rename vreq acts w).1.map Prod.snd ≠ some [] →
    (actionCreatePath c vreq acts w).1 = 0
  inserted : ∀ acts', Inserted c.regexec vreq acts acts' →
    (actionCreatePath c vreq acts' w).1 = (actionCreatePath c vreq acts w).1 ∧
      (actionCreatePath c vreq acts' w).2.1 = (actionCreatePath c vreq acts w).2.1

/-- The last rename command does not belong to the last entry of the array, or it exits with 0, or
its output is refused anyway. -/
def StatusHidden (regexec : CStr → Option CStr → Int)
    (rename : Request → Action → σ → (Int × CStr) × σ) (vreq : Request) (acts : List Action)
    (w : σ) : Prop :=
  ∀ act r, acts.getLast? = some act → Renames regexec vreq act = true →
    (lastRename regexec rename vreq acts w).1 = some r →
    r.1 = 0 ∨ (r.2 = [] ∧ vreq.path ≠ some unknownPath)

section Lawful

variable (regexec : CStr → Option CStr → Int)
  (run : Runner → Request → ℕ → Action → σ → Int × σ)
  (rename : Request → Action → σ → (Int × CStr) × σ) (vreq : Request)

theorem endStatus_cases (acts : List Action) (last : Option (Int × CStr)) :
    endStatus regexec vreq acts 0 last = 0 ∨
      ∃ act r, acts.getLast? = some act ∧ Renames regexec vreq act = true ∧ last = some r ∧
        endStatus regexec vreq acts 0 last = r.1 := by
  unfold endStatus
  cases hlast : acts.getLast? with
  | none => exact Or.inl rfl
  | some act =>
    dsimp only
    split_ifs with hact
    · cases last with
      | none => exact Or.inl rfl
      | some r => exact Or.inr ⟨act, r, rfl, hact, rfl, rfl⟩
    · exact Or.inl rfl

theorem endStatus_of_last {acts : List Action} {act : Action} {r : Int × CStr}
    (hlast : acts.getLast? = some act) (hact : Renames regexec vreq act = true) :
    endStatus regexec vreq acts 0 (some r) = r.1 := by
  rw [endStatus, hlast]
  simp [hact]

section Iff

variable {regexec run rename vreq}
variable {acts : List Action} {w : σ}
  (hregex : ∀ regex, regexec regex vreq.path = 0 ∨ regexec regex vreq.path = REG_NOMATCH)
  (hexit : ∀ act w, 0 ≤ (rename vreq act w).1.1)

include hregex hexit

theorem Lawful.statusHidden (h : Lawful (commands regexec run rename) rename vreq acts w) :
    StatusHidden regexec rename vreq acts w := by
  have heq := fun l => actionCreatePath_eq regexec run rename vreq l w hregex hexit
  intro act r hlast hact hr
  by_contra hnot
  rw [not_or, not_and_or, not_not] at hnot
  have hstatus : (actionCreatePath (commands regexec run rename) vreq acts w).1 = r.1 := by
    rw [heq acts]
    dsimp only
    rw [hr, Option.map_some, if_neg (by simp only [Option.some.injEq]; tauto),
      endStatus_of_last regexec vreq hlast hact]
  rcases hnot.2 with hout | hunknown
  · have hzero := h.rc (by
      rw [commands_regexec, hr, Option.map_some, Ne, Option.some.injEq]
      exact hout)
    exact hnot.1 (hstatus ▸ hzero)
  · -- a device without a name: an entry that renames nothing clears the status
    have hinert : Action.renameCommand { trigger := .any } = none := rfl
    have hins := inserted_append regexec vreq acts (Or.inr hinert)
    have hzero : (actionCreatePath (commands regexec run rename) vreq
        (acts ++ [{ trigger := .any }]) w).1 = 0 := by
      rw [heq _]
      dsimp only
      rw [if_neg (fun hand => hand.2 hunknown), endStatus, List.getLast?_concat]
      dsimp only
      rw [not_renames_of_command regexec vreq hinert]
      rfl
    rw [(h.inserted _ hins).1, hstatus] at hzero
    exact hnot.1 hzero

omit hregex hexit in
/-- The status stays hidden when actions are inserted that rename nothing. -/
theorem StatusHidden.refused_or_endStatus_eq (h : StatusHidden regexec rename vreq acts w)
    {acts' : List Action} (hins : Inserted regexec vreq acts acts') :
    (lastRename regexec rename vreq acts w).1.map Prod.snd = some [] ∧
        vreq.path ≠ some unknownPath ∨
      endStatus regexec vreq acts' 0 (lastRename regexec rename vreq acts w).1 = 0 := by
  rcases endStatus_cases regexec vreq acts' (lastRename regexec rename vreq acts w).1 with
    hzero | ⟨act, r, hlast, hact, hr, hstatus⟩
  · exact Or.inr hzero
  · rcases h act r (hins.getLast?_eq hlast hact) hact hr with hzero | ⟨hout, hunknown⟩
    · exact Or.inr (hstatus.trans hzero)
    · exact Or.inl ⟨by rw [hr, Option.map_some, hout], hunknown⟩

theorem StatusHidden.lawful (h : StatusHidden regexec rename vreq acts w) :
    Lawful (commands regexec run rename) rename vreq acts w := by
  have heq := fun l => actionCreatePath_eq regexec run rename vreq l w hregex hexit
  have hrefl := h.refused_or_endStatus_eq (inserted_refl regexec vreq acts)
  refine ⟨?_, ?_, ?_⟩
  · rw [heq acts]
    rfl
  · intro hout
    rw [commands_regexec] at hout
    rw [heq acts]
    dsimp only
    rw [if_neg (fun hand => hout hand.1)]
    exact hrefl.resolve_left (fun hand => hout hand.1)
  · intro acts' hins
    rw [commands_regexec] at hins
    have hsame : lastRename regexec rename vreq acts' w = lastRename regexec rename vreq acts w := by
      rw [lastRename, lastRename, hins.filter_eq]
    rw [heq acts, heq acts', hsame]
    refine ⟨?_, rfl⟩
    dsimp only
    split_ifs with hrefused
    · rfl
    · rw [hrefl.resolve_left hrefused,
        (h.refused_or_endStatus_eq hins).resolve_left hrefused]

end Iff

/-- The exact condition: the exit status of the last rename command must not show. -/
theorem actionCreatePath_lawful_iff (acts : List Action) (w : σ)
    (hregex : ∀ regex, regexec regex vreq.path = 0 ∨ regexec regex vreq.path = REG_NOMATCH)
    (hexit : ∀ act w, 0 ≤ (rename vreq act w).1.1) :
    Lawful (commands regexec run rename) rename vreq acts w ↔
      StatusHidden regexec rename vreq acts w :=
  ⟨Lawful.statusHidden hregex hexit, StatusHidden.lawful hregex hexit⟩

/-- The rename command of the only action prints a name and exits with 1. -/
theorem actionCreatePath_status_kept :
    let act : Action := { trigger := .add, renameCommand := some "name".toList }
    let rename : Request → Action → Unit → (Int × CStr) × Unit := fun _ _ w =>
      ((1, "sda1".toList), w)
    let c := commands (fun _ _ => 0) (fun _ _ _ _ w => (0, w)) rename
    let vreq : Request := { type := .add, path := some "sda".toList }
    ¬Lawful c rename vreq [act] () ∧
      (actionCreatePath c vreq [act] ()).1 = 1 ∧
      (actionCreatePath c vreq [act, { trigger := .remove }] ()).1 = 0 := by
  intro act rename c vreq
  refine ⟨fun h => ?_, by decide, by decide⟩
  have hrc := h.rc (by decide)
  revert hrc
  decide

/-- An entry for other devices behind it hides the status. -/
theorem actionCreatePath_lawful_iff_followed :
    let act : Action := { trigger := .add, renameCommand := some "name".toList }
    let rename : Request → Action → Unit → (Int × CStr) × Unit := fun _ _ w =>
      ((1, "sda1".toList), w)
    let vreq : Request := { type := .add, path := some "sda".toList }
    Lawful (commands (fun _ _ => 0) (fun _ _ _ _ w => (0, w)) rename) rename vreq
      [act, { trigger := .remove }] () := by
  intro act rename vreq
  refine (actionCreatePath_lawful_iff (fun _ _ => 0) _ rename vreq _ ()
    (fun _ => Or.inl rfl) (fun _ _ => Int.one_nonneg)).mpr ?_
  intro last r hlast hact _
  rw [show [act, { trigger := .remove }].getLast? = some { trigger := .remove } from rfl,
    Option.some.injEq] at hlast
  rw [← hlast] at hact
  exact absurd hact (by decide)

end Lawful

end Vdev.Renaming
