import Vdev.Action

/-!
Action dispatch against its declarative meaning. `dispatchList` says which
actions a request concerns, `untilAbort` cuts the list at the first action that
forbids the device to exist, and `runUntilNegative` runs what is left until a
runner fails. The array walk of `vdev_action_run_commands` is `walk`, and computes
exactly this, provided that no regex evaluation fails.
-/
namespace Vdev.Dispatch

open CString Data Vdev.Action

variable {σ : Type}

def Masked (vreq : Request) (devExists : Bool) (act : Action) : Prop :=
  vreq.type = .add ∧ devExists = true ∧ act.ifExists ≠ .run ∧ act.ifExists ≠ .error

/-- An action that ends the processing because the device exists already. -/
def Aborts (vreq : Request) (devExists : Bool) (act : Action) : Prop :=
  vreq.type = .add ∧ devExists = true ∧ act.ifExists = .error

instance (vreq : Request) (devExists : Bool) (act : Action) :
    Decidable (Masked vreq devExists act) :=
  inferInstanceAs (Decidable (_ ∧ _))

instance (vreq : Request) (devExists : Bool) (act : Action) :
    Decidable (Aborts vreq devExists act) :=
  inferInstanceAs (Decidable (_ ∧ _))

/-- The actions, with their indices, that have a command to run for this request. -/
def Selected (regexec : CStr → Option CStr → Int) (vreq : Request) (devExists : Bool)
    (x : Action × ℕ) : Bool :=
  actionMatch regexec vreq x.1 = 1 ∧ x.1.command ≠ none ∧ ¬ Masked vreq devExists x.1

def dispatchList (regexec : CStr → Option CStr → Int) (vreq : Request) (devExists : Bool)
    (acts : List Action) : List (Action × ℕ) :=
  acts.zipIdx.filter (Selected regexec vreq devExists)

def untilAbort (vreq : Request) (devExists : Bool) (l : List (Action × ℕ)) :
    List (Action × ℕ) :=
  l.takeWhile (fun x => ¬ Aborts vreq devExists x.1)

def runUntilNegative (c : Commands σ) (vreq : Request) :
    List (Action × ℕ) → σ → Dispatched σ
  | [], w => ⟨0, w, []⟩
  | (act, i) :: rest, w =>
    let r := c.run (runnerOf act) vreq i act w
    if r.1 < 0 then ⟨r.1, r.2, [⟨i, runnerOf act, r.1⟩]⟩
    else
      let d := runUntilNegative c vreq rest r.2
      ⟨d.rc, d.world, ⟨i, runnerOf act, r.1⟩ :: d.calls⟩

/-- The actions in front of the first match that fails, among those that a search looks at. -/
def reached (regexec : CStr → Option CStr → Int) (vreq : Request) :
    Bool → List (Action × ℕ) → List (Action × ℕ)
  | _, [] => []
  | searching, x :: rest =>
    if !searching && x.1.command.isNone then x :: reached regexec vreq false rest
    else if actionMatch regexec vreq x.1 < 0 then []
    else x :: reached regexec vreq (actionMatch regexec vreq x.1 == 0) rest

/-- The walk, one action after the other. It is in the middle of a search, or at its start. -/
def walk (c : Commands σ) (vreq : Request) (devExists : Bool) :
    Bool → List (Action × ℕ) → σ → Dispatched σ
  | _, [], w => ⟨0, w, []⟩
  | searching, (act, i) :: rest, w =>
    if !searching && act.command.isNone then walk c vreq devExists false rest w
    else
      let rc := actionMatch c.regexec vreq act
      if rc < 0 then ⟨rc, w, []⟩
      else if rc = 0 then walk c vreq devExists true rest w
      else if act.command = none then walk c vreq devExists false rest w
      else if vreq.type = .add ∧ devExists ∧ act.ifExists ≠ .run then
        if act.ifExists = .error then ⟨0, w, []⟩ else walk c vreq devExists false rest w
      else
        let r := c.run (runnerOf act) vreq i act w
        if r.1 < 0 then ⟨r.1, r.2, [⟨i, runnerOf act, r.1⟩]⟩
        else
          let d := walk c vreq devExists false rest r.2
          ⟨d.rc, d.world, ⟨i, runnerOf act, r.1⟩ :: d.calls⟩

theorem matchParams_le_one (params : Params) (l : List (CStr × CStr)) :
    matchParams params l ≤ 1 ∧ 0 ≤ matchParams params l := by
  induction l with
  | nil => simp [matchParams]
  | cons kv rest ih =>
    obtain ⟨key, value⟩ := kv
    unfold matchParams
    split
    · split_ifs
      · exact ih
      · simp
      · exact ih
    · simp

theorem actionMatch_le_one (regexec : CStr → Option CStr → Int) (vreq : Request)
    (act : Action) : actionMatch regexec vreq act ≤ 1 := by
  have hp := matchParams_le_one vreq.params act.devParams.entries
  dsimp only [actionMatch]
  split_ifs <;> omega

section Walk

variable (c : Commands σ) (vreq : Request) (devExists : Bool)

/-- A search finds nothing, fails, or jumps to the action it finds. -/
theorem walk_search (l : List Action) (off i : ℕ) (w : σ) :
    (findNextLoop c.regexec vreq l i = ((i + l.length : ℕ) : Int) ∧
      walk c vreq devExists true (l.zipIdx off) w = ⟨0, w, []⟩) ∨
    (findNextLoop c.regexec vreq l i < 0 ∧
      walk c vreq devExists true (l.zipIdx off) w = ⟨findNextLoop c.regexec vreq l i, w, []⟩) ∨
    ∃ k act, l[k]? = some act ∧ findNextLoop c.regexec vreq l i = ((i + k : ℕ) : Int) ∧
      0 < actionMatch c.regexec vreq act ∧ walk c vreq devExists true (l.zipIdx off) w =
        walk c vreq devExists true ((l.drop k).zipIdx (off + k)) w := by
  induction l generalizing off i with
  | nil => exact Or.inl ⟨rfl, rfl⟩
  | cons act rest ih =>
    rw [findNextLoop]
    simp only [gt_iff_lt]
    by_cases hpos : 0 < actionMatch c.regexec vreq act
    · exact Or.inr (Or.inr ⟨0, act, rfl, if_pos hpos, hpos, rfl⟩)
    · rw [if_neg hpos, List.zipIdx_cons, walk]
      simp only [Bool.not_true, Bool.false_and, Bool.false_eq_true, if_false]
      by_cases hneg : actionMatch c.regexec vreq act < 0
      · rw [if_pos hneg, if_pos hneg]
        exact Or.inr (Or.inl ⟨hneg, rfl⟩)
      · have hzero : actionMatch c.regexec vreq act = 0 := by omega
        rw [if_neg hneg, if_neg hneg, if_pos hzero]
        rcases ih (off + 1) (i + 1) with
          ⟨hfind, hwalk⟩ | hfail | ⟨k, act', hk, hfind, hmatch, hwalk⟩
        · refine Or.inl ⟨?_, hwalk⟩
          rw [hfind, List.length_cons]
          congr 1
          omega
        · exact Or.inr (Or.inl hfail)
        · refine Or.inr (Or.inr ⟨k + 1, act', hk, ?_, hmatch, ?_⟩)
          · rw [hfind]
            congr 1
            omega
          · rw [hwalk, List.drop_succ_cons]
            congr 2
            omega

/-- The array walk from offset `off` is the walk over what is left. -/
theorem runCommandsLoop_eq_walk (acts : List Action) (fuel off : ℕ) (w : σ) (calls : List Call)
    (hfuel : acts.length ≤ fuel + off) :
    runCommandsLoop c vreq acts devExists fuel off w calls =
      let d := walk c vreq devExists false ((acts.drop off).zipIdx off) w
      ⟨d.rc, d.world, calls ++ d.calls⟩ := by
  induction fuel generalizing off w calls with
  | zero =>
    rw [List.drop_of_length_le (by omega)]
    simp [runCommandsLoop, walk]
  | succ fuel ih =>
    rw [runCommandsLoop]
    cases hfirst : acts[off]? with
    | none =>
      rw [List.drop_of_length_le (List.getElem?_eq_none_iff.mp hfirst)]
      simp [walk]
    | some first =>
      dsimp only
      have hdrop : ∀ {j : ℕ} {act : Action}, acts[j]? = some act →
          acts.drop j = act :: acts.drop (j + 1) := by
        intro j act hact
        obtain ⟨hlt, hget⟩ := List.getElem?_eq_some_iff.mp hact
        rw [List.drop_eq_getElem_cons hlt, hget]
      by_cases hcmd : first.command = none
      · rw [if_pos hcmd, ih _ _ _ (by omega), hdrop hfirst, List.zipIdx_cons, walk,
          if_pos (by simp [hcmd])]
      · have hsome : first.command.isNone = false := by
          rw [← Bool.not_eq_true, Option.isNone_iff_eq_none]
          exact hcmd
        have hstart : walk c vreq devExists false ((acts.drop off).zipIdx off) w =
            walk c vreq devExists true ((acts.drop off).zipIdx off) w := by
          rw [hdrop hfirst, List.zipIdx_cons, walk, walk, hsome]
          rfl
        rw [if_neg hcmd, hstart, actionFindNext]
        rcases walk_search c vreq devExists (acts.drop off) off 0 w with
          ⟨hfind, hwalk⟩ | ⟨hfail, hwalk⟩ | ⟨k, act, hk, hfind, hmatch, hwalk⟩
        · rw [hfind, hwalk, List.length_drop, Nat.zero_add, if_pos rfl]
          simp
        · rw [hwalk, if_neg (by omega), if_pos hfail]
          simp
        · have hact : acts[off + k]? = some act := by
            rw [← hk, List.getElem?_drop]
          have hklt : k < acts.length - off := by
            have hlt := (List.getElem?_eq_some_iff.mp hact).1
            omega
          rw [hfind, hwalk, List.drop_drop, hdrop hact, List.zipIdx_cons, walk, Nat.zero_add,
            if_neg (by omega), if_neg (by omega), Int.toNat_natCast, hact]
          simp only [Bool.not_true, Bool.false_and, Bool.false_eq_true, if_false,
            if_neg (show ¬actionMatch c.regexec vreq act < 0 by omega),
            if_neg (show ¬actionMatch c.regexec vreq act = 0 by omega)]
          by_cases hcmd' : act.command = none
          · rw [if_pos hcmd', if_pos hcmd', ih _ _ _ (by omega)]
          · rw [if_neg hcmd', if_neg hcmd']
            by_cases hex : vreq.type = .add ∧ devExists ∧ act.ifExists ≠ .run
            · rw [if_pos hex, if_pos hex]
              by_cases herr : act.ifExists = .error
              · rw [if_pos herr, if_pos herr, List.append_nil]
              · rw [if_neg herr, if_neg herr, ih _ _ _ (by omega)]
            · rw [if_neg hex, if_neg hex]
              by_cases hneg : (c.run (runnerOf act) vreq (off + k) act w).1 < 0
              · rw [if_pos hneg, if_pos hneg]
              · rw [if_neg hneg, if_neg hneg, ih _ _ _ (by omega)]
                simp

theorem reached_eq_nil_or_cons (regexec : CStr → Option CStr → Int) (searching : Bool)
    (x : Action × ℕ) (rest : List (Action × ℕ)) :
    (actionMatch regexec vreq x.1 < 0 ∧ reached regexec vreq searching (x :: rest) = []) ∨
      ∃ next, reached regexec vreq searching (x :: rest) = x :: reached regexec vreq next rest := by
  rw [reached]
  split_ifs with hskip hneg
  · exact Or.inr ⟨false, rfl⟩
  · exact Or.inl ⟨hneg, rfl⟩
  · exact Or.inr ⟨_, rfl⟩

/-- Without match errors the walk reaches every action. -/
theorem reached_eq_self (regexec : CStr → Option CStr → Int) (searching : Bool)
    (l : List (Action × ℕ)) (hok : ∀ x ∈ l, 0 ≤ actionMatch regexec vreq x.1) :
    reached regexec vreq searching l = l := by
  induction l generalizing searching with
  | nil => rfl
  | cons x rest ih =>
    obtain ⟨hx, hrest⟩ := List.forall_mem_cons.mp hok
    rcases reached_eq_nil_or_cons vreq regexec searching x rest with ⟨hneg, _⟩ | ⟨next, hcons⟩
    · omega
    · rw [hcons, ih next hrest]

/-- The walk runs the selected actions that it reaches, up to the first that fails. If no match
fails, it returns what they return. -/
theorem walk_eq (searching : Bool) (l : List (Action × ℕ)) (w : σ) :
    ∃ rc, walk c vreq devExists searching l w =
        { runUntilNegative c vreq (untilAbort vreq devExists
            ((reached c.regexec vreq searching l).filter
              (Selected c.regexec vreq devExists))) w with rc := rc } ∧
      ((∀ x ∈ l, 0 ≤ actionMatch c.regexec vreq x.1) →
        rc = (runUntilNegative c vreq (untilAbort vreq devExists
          ((reached c.regexec vreq searching l).filter
            (Selected c.regexec vreq devExists))) w).rc) := by
  induction l generalizing searching w with
  | nil => exact ⟨0, rfl, fun _ => rfl⟩
  | cons x rest ih =>
    obtain ⟨act, i⟩ := x
    have hle := actionMatch_le_one c.regexec vreq act
    rw [walk, reached, List.forall_mem_cons]
    by_cases hskip : (!searching && act.command.isNone) = true
    · have hnone : act.command = none := by
        rw [Bool.and_eq_true, Option.isNone_iff_eq_none] at hskip
        exact hskip.2
      obtain ⟨rc, hwalk, hrc⟩ := ih false w
      rw [if_pos hskip, if_pos hskip, List.filter_cons_of_neg (by simp [Selected, hnone])]
      exact ⟨rc, hwalk, fun hok => hrc hok.2⟩
    rw [if_neg hskip, if_neg hskip]
    dsimp only
    by_cases hneg : actionMatch c.regexec vreq act < 0
    · rw [if_pos hneg, if_pos hneg]
      exact ⟨_, rfl, fun hok => absurd hok.1 (by omega)⟩
    rw [if_neg hneg, if_neg hneg]
    by_cases hzero : actionMatch c.regexec vreq act = 0
    · obtain ⟨rc, hwalk, hrc⟩ := ih true w
      rw [if_pos hzero, List.filter_cons_of_neg (by simp [Selected, hzero]), hzero]
      exact ⟨rc, hwalk, fun hok => hrc hok.2⟩
    have hone : actionMatch c.regexec vreq act = 1 := by omega
    obtain ⟨rc, hwalk, hrc⟩ := ih false w
    rw [if_neg hzero, hone, show ((1 : Int) == 0) = false from rfl]
    by_cases hcmd : act.command = none
    · rw [if_pos hcmd, List.filter_cons_of_neg (by simp [Selected, hcmd])]
      exact ⟨rc, hwalk, fun hok => hrc hok.2⟩
    rw [if_neg hcmd]
    by_cases hex : vreq.type = .add ∧ devExists ∧ act.ifExists ≠ .run
    · rw [if_pos hex]
      by_cases herr : act.ifExists = .error
      · have habort : Aborts vreq devExists act := ⟨hex.1, hex.2.1, herr⟩
        rw [if_pos herr, List.filter_cons_of_pos (by simp [Selected, Masked, hone, hcmd, herr]),
          untilAbort, List.takeWhile_cons_of_neg (by simpa using habort)]
        exact ⟨0, rfl, fun _ => rfl⟩
      · rw [if_neg herr, List.filter_cons_of_neg (by simp [Selected, Masked, hex, herr])]
        exact ⟨rc, hwalk, fun hok => hrc hok.2⟩
    · have hsel : Selected c.regexec vreq devExists (act, i) = true := by
        simp only [Selected, hone, decide_eq_true_eq]
        exact ⟨trivial, hcmd, fun hm => hex ⟨hm.1, hm.2.1, hm.2.2.1⟩⟩
      have hgo : ¬Aborts vreq devExists act := fun ha => hex ⟨ha.1, ha.2.1, by simp [ha.2.2]⟩
      rw [if_neg hex, List.filter_cons_of_pos hsel, untilAbort,
        List.takeWhile_cons_of_pos (by simpa using hgo), runUntilNegative]
      split_ifs with hrun
      · exact ⟨_, rfl, fun _ => rfl⟩
      · obtain ⟨rc, hwalk, hrc⟩ := ih false (c.run (runnerOf act) vreq i act w).2
        rw [hwalk]
        exact ⟨rc, rfl, fun hok => hrc hok.2⟩

end Walk

/-- The list that dispatch still has to run from offset `off` on. -/
def pending (regexec : CStr → Option CStr → Int) (vreq : Request) (devExists : Bool)
    (acts : List Action) (off : ℕ) : List (Action × ℕ) :=
  untilAbort vreq devExists
    (((acts.drop off).zipIdx off).filter (Selected regexec vreq devExists))

/-- The array walk from offset `off` runs exactly the pending list. -/
theorem runCommandsLoop_eq (c : Commands σ) (vreq : Request) (acts : List Action)
    (devExists : Bool) (hok : ∀ a ∈ acts, 0 ≤ actionMatch c.regexec vreq a)
    (fuel off : ℕ) (w : σ) (calls : List Call) (hfuel : acts.length ≤ fuel + off) :
    runCommandsLoop c vreq acts devExists fuel off w calls =
      let d := runUntilNegative c vreq (pending c.regexec vreq devExists acts off) w
      ⟨d.rc, d.world, calls ++ d.calls⟩ := by
  have hrest : ∀ x ∈ (acts.drop off).zipIdx off, 0 ≤ actionMatch c.regexec vreq x.1 :=
    fun x hx => hok x.1 (List.mem_of_mem_drop (List.fst_mem_of_mem_zipIdx hx))
  obtain ⟨rc, hwalk, hrc⟩ := walk_eq c vreq devExists false ((acts.drop off).zipIdx off) w
  rw [reached_eq_self vreq c.regexec false _ hrest] at hwalk hrc
  rw [runCommandsLoop_eq_walk c vreq devExists acts fuel off w calls hfuel, hwalk, hrc hrest]
  rfl

theorem dropLast_cons_subset {α : Type*} (a : α) (l : List α) :
    (a :: l).dropLast ⊆ a :: l.dropLast := by
  cases l with
  | nil => simp
  | cons b rest => simp

/-- The invoked runners are a prefix of the list, and the run ends early only
at the first failing runner, whose result is then returned. -/
theorem runUntilNegative_spec (c : Commands σ) (vreq : Request) (l : List (Action × ℕ)) (w : σ) :
    let d := runUntilNegative c vreq l w
    d.calls.map (fun x => (x.index, x.runner)) <+: l.map (fun x => (x.2, runnerOf x.1)) ∧
    (∀ x ∈ d.calls.dropLast, 0 ≤ x.rc) ∧
    ((∃ x, d.calls.getLast? = some x ∧ x.rc < 0 ∧ d.rc = x.rc) ∨
      ((∀ x ∈ d.calls, 0 ≤ x.rc) ∧ d.rc = 0 ∧
        d.calls.map (fun x => (x.index, x.runner)) = l.map (fun x => (x.2, runnerOf x.1)))) := by
  induction l generalizing w with
  | nil => simp [runUntilNegative]
  | cons y rest ih =>
    obtain ⟨act, i⟩ := y
    obtain ⟨hpre, hdrop, hend⟩ := ih (c.run (runnerOf act) vreq i act w).2
    dsimp only [runUntilNegative]
    split_ifs with hneg
    · simp [hneg]
    · have hnn : 0 ≤ (c.run (runnerOf act) vreq i act w).1 := by omega
      refine ⟨?_, ?_, ?_⟩
      · simpa using hpre
      · intro x hx
        rcases List.mem_cons.mp (dropLast_cons_subset _ _ hx) with rfl | hx
        · exact hnn
        · exact hdrop x hx
      · rcases hend with ⟨x, hx, hxneg, hrc⟩ | ⟨hall, hrc, heq⟩
        · left
          refine ⟨x, ?_, hxneg, hrc⟩
          rw [List.getLast?_cons, hx]
          rfl
        · right
          refine ⟨?_, hrc, by simp [heq]⟩
          intro x hx
          rcases List.mem_cons.mp hx with rfl | hx
          · exact hnn
          · exact hall x hx

theorem dispatch_indices_increase (regexec : CStr → Option CStr → Int) (vreq : Request)
    (devExists : Bool) (acts : List Action) :
    ((untilAbort vreq devExists (dispatchList regexec vreq devExists acts)).map
      Prod.snd).Pairwise (· < ·) := by
  have hsub : ((untilAbort vreq devExists (dispatchList regexec vreq devExists acts)).map
      Prod.snd).Sublist (acts.zipIdx.map Prod.snd) :=
    ((List.takeWhile_sublist _).trans List.filter_sublist).map _
  refine List.Pairwise.sublist hsub ?_
  rw [List.zipIdx_map_snd]
  exact List.pairwise_lt_range'

/-- Dispatch computes its declarative meaning: the runners are invoked on the
selected actions, in order and each at most once, up to the first action that
aborts and up to and including the first one that fails. -/
theorem actionRunCommands_meaning (c : Commands σ) (vreq : Request) (acts : List Action)
    (devExists : Bool) (w : σ) (hok : ∀ a ∈ acts, 0 ≤ actionMatch c.regexec vreq a) :
    let todo := untilAbort vreq devExists (dispatchList c.regexec vreq devExists acts)
    let d := actionRunCommands c vreq acts devExists w
    d = runUntilNegative c vreq todo w ∧
    d.calls.map (fun x => (x.index, x.runner)) <+: todo.map (fun x => (x.2, runnerOf x.1)) ∧
    (d.calls.map Call.index).Pairwise (· < ·) ∧
    (∀ x ∈ d.calls.dropLast, 0 ≤ x.rc) ∧
    ((∃ x, d.calls.getLast? = some x ∧ x.rc < 0 ∧ d.rc = x.rc) ∨
      ((∀ x ∈ d.calls, 0 ≤ x.rc) ∧ d.rc = 0 ∧
        d.calls.map (fun x => (x.index, x.runner)) =
          todo.map (fun x => (x.2, runnerOf x.1)))) := by
  intro todo d
  have hd : d = runUntilNegative c vreq todo w :=
    runCommandsLoop_eq c vreq acts devExists hok acts.length 0 w [] (by omega)
  have hspec := runUntilNegative_spec c vreq todo w
  rw [← hd] at hspec
  refine ⟨hd, hspec.1, ?_, hspec.2⟩
  have hpre : d.calls.map Call.index <+: todo.map Prod.snd := by
    have h := hspec.1.map Prod.fst
    simpa [List.map_map, Function.comp_def] using h
  exact (dispatch_indices_increase c.regexec vreq devExists acts).sublist hpre.sublist

/-- A masked action is skipped, a failing exit status is not an error, and the
action that forbids the device to exist stops the rest. -/
theorem actionRunCommands_meaning_existing :
    let run : Action := { trigger := .any, command := some "run".toList, ifExists := .run }
    let mask : Action := { trigger := .add, command := some "mask".toList, ifExists := .mask }
    let error : Action := { trigger := .add, command := some "error".toList, ifExists := .error }
    let c : Commands Unit := ⟨fun _ _ => 0, fun _ _ _ _ w => (3, w), fun _ _ _ w => ((0, []), w)⟩
    let vreq : Request := { type := .add, path := some "sda".toList }
    let acts := [mask, run, error, run]
    (∀ a ∈ acts, 0 ≤ actionMatch c.regexec vreq a) ∧
      ((actionRunCommands c vreq acts true ()).calls.map Call.index).Pairwise (· < ·) ∧
      (actionRunCommands c vreq acts true ()).calls = [⟨1, .sync, 3⟩] := by
  intro run mask error c vreq acts
  have hok : ∀ a ∈ acts, 0 ≤ actionMatch c.regexec vreq a := by decide
  exact ⟨hok, (actionRunCommands_meaning c vreq acts true () hok).2.2.1, by decide⟩

end Vdev.Dispatch
