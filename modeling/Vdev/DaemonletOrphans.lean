import Vdev.DaemonletProcesses
import Vdev.Device
import Vdev.Runs

/-!
The daemonlets of a running vdevd (vdevd/vdev.c, vdevd/action.c). A step handles one
device request, reloads the configuration and the actions, or stops vdevd. A request
sends its commands to the daemonlets of the actions, which are started when they are
needed. `vdev_reload` replaces the array of actions and frees the old one, and does not
stop the daemonlets that it records.
-/
namespace Vdev.DaemonletOrphans

open CString Data SystemCalls Vdev.Action Device Daemonlet DaemonletReset DaemonletProcesses

variable {σ : Type}

section Preserves

/-- The commands keep a property of what the file tree is not part of. -/
structure Preserves (p : σ → Prop) (c : Commands (FS × σ)) : Prop where
  run : ∀ runner req i act w, p w.2 → p (c.run runner req i act w).2.2
  rename : ∀ req i act w, p w.2 → p (c.rename req i act w).2.2

variable {p : σ → Prop} {c : Commands (FS × σ)} (hc : Preserves p c)

include hc

theorem Preserves.createPathLoop (req : Request) (acts : List Action) (fuel off : ℕ) (rc : Int)
    (path : Option CStr) (w : FS × σ) (hw : p w.2) :
    p (createPathLoop c req acts fuel off rc path w).2.2.2 := by
  induction fuel generalizing off rc path w with
  | zero => exact hw
  | succ fuel ih =>
    rw [Vdev.Action.createPathLoop]
    split
    · exact hw
    · split_ifs
      · exact ih _ _ _ _ hw
      · dsimp only
        split_ifs
        · exact hw
        · exact hw
        · split
          · exact hw
          · split_ifs
            · exact ih _ _ _ _ hw
            · exact hc.rename _ _ _ _ hw
            · exact ih _ _ _ _ (hc.rename _ _ _ _ hw)

theorem Preserves.actionCreatePath (req : Request) (acts : List Action) (w : FS × σ)
    (hw : p w.2) : p (actionCreatePath c req acts w).2.2.2 := by
  have h := hc.createPathLoop req acts acts.length 0 0 none w hw
  rw [Vdev.Action.actionCreatePath]
  dsimp only
  split_ifs
  · exact h
  · exact h
  · exact h

theorem Preserves.runCommandsLoop (req : Request) (acts : List Action) (devExists : Bool)
    (fuel off : ℕ) (w : FS × σ) (calls : List Call) (hw : p w.2) :
    p (runCommandsLoop c req acts devExists fuel off w calls).world.2 := by
  induction fuel generalizing off w calls with
  | zero => exact hw
  | succ fuel ih =>
    rw [Vdev.Action.runCommandsLoop]
    split
    · exact hw
    · split_ifs
      · exact ih _ _ _ hw
      · dsimp only
        split_ifs
        · exact hw
        · exact hw
        · split
          · exact hw
          · split_ifs
            · exact ih _ _ _ hw
            · exact hw
            · exact ih _ _ _ hw
            · exact hc.run _ _ _ _ _ hw
            · exact ih _ _ _ (hc.run _ _ _ _ _ hw)

theorem Preserves.runAll (st : VdevState) (req : Request) (devExists : Bool) (w : FS × σ)
    (hw : p w.2) : p (runAll c st req devExists w).world.2 :=
  hc.runCommandsLoop req st.acts devExists _ _ w [] hw

theorem Preserves.addFinish (st : VdevState) (req : Request) (renamed : CStr) (s : σ)
    (entered : Int × Bool × FS) (hs : p s) : p (addFinish c st req renamed s entered).world.2 := by
  unfold Device.addFinish
  dsimp only
  split_ifs
  · exact hs
  · exact hs
  · exact hc.runAll st req _ _ hs

theorem Preserves.deviceAdd (st : VdevState) (req : Request) (w : FS × σ) (hw : p w.2) :
    p (deviceAdd c st req w).world.2 := by
  have hnamed := hc.actionCreatePath req st.acts w hw
  unfold Device.deviceAdd
  dsimp only
  split_ifs
  · exact hnamed
  · split
    · exact hnamed
    · unfold addRenamed
      dsimp only
      split_ifs
      · exact hnamed
      · exact hc.addFinish st _ _ _ _ hnamed
      · exact hc.addFinish st _ _ _ _ hnamed
      · exact hc.runAll st _ _ _ hnamed

theorem Preserves.deviceRemove (st : VdevState) (req : Request) (w : FS × σ) (hw : p w.2) :
    p (deviceRemove c st req w).world.2 := by
  have hnamed := hc.actionCreatePath req st.acts w hw
  unfold Device.deviceRemove
  dsimp only
  split_ifs
  · exact hnamed
  · split
    · exact hnamed
    · unfold removeRenamed
      dsimp only
      split_ifs
      · exact hc.runAll st _ _ _ hnamed
      · exact hc.runAll st _ _ _ hnamed

theorem Preserves.deviceChange (st : VdevState) (req : Request) (w : FS × σ) (hw : p w.2) :
    p (deviceChange c st req w).world.2 := by
  have hnamed := hc.actionCreatePath req st.acts w hw
  unfold Device.deviceChange
  dsimp only
  split_ifs
  · exact hnamed
  · split
    · exact hnamed
    · unfold changeRenamed
      dsimp only
      split_ifs
      · exact hc.runAll st _ _ _ hnamed
      · exact hnamed

end Preserves

/-- `vdev_device_request_enqueue` gives each request to the handler for its type. -/
def handle (c : Commands (FS × σ)) (st : VdevState) (req : Request) (w : FS × σ) : FS × σ :=
  match req.type with
  | .add => (deviceAdd c st req w).world
  | .remove => (deviceRemove c st req w).world
  | .change => (deviceChange c st req w).world
  | _ => w

theorem Preserves.handle {p : σ → Prop} {c : Commands (FS × σ)} (hc : Preserves p c)
    (st : VdevState) (req : Request) (w : FS × σ) (hw : p w.2) : p (handle c st req w).2 := by
  unfold DaemonletOrphans.handle
  split
  · exact hc.deviceAdd st req w hw
  · exact hc.deviceRemove st req w hw
  · exact hc.deviceChange st req w hw
  · exact hw

/-- The arguments of a call of `vdev_action_run_daemonlet`. -/
structure DaemonletCall (σ : Type) where
  req : Request
  act : Action
  world : FS × σ

/-- What a request has beside the file tree: the actions, unless a call does not return, and
the calls of daemonlets so far. These are not part of vdevd. -/
structure Serving (σ : Type) where
  acts : Option (List Action)
  calls : List (DaemonletCall σ)
  world : σ

/-- The commands of the actions. Those of daemonlets are sent to the daemonlet of the
action at the index, and the others are run by `outer`. A call that does not return
leaves no actions behind. -/
def daemonCommands (sys : Sys (FS × σ)) (fuel : ℕ) (st : VdevState) (outer : Commands (FS × σ)) :
    Commands (FS × Serving σ) where
  regexec := outer.regexec
  run runner req i act w :=
    match runner, w with
    | .daemonlet, (T, ⟨some acts, calls, s⟩) =>
      match acts[i]? with
      | none => (0, (T, ⟨some acts, calls, s⟩))
      | some act =>
        let calls := calls ++ [⟨req, act, (T, s)⟩]
        match runDaemonlet sys fuel st req act (T, s) with
        | none => (0, (T, ⟨none, calls, s⟩))
        | some out => (out.rc, (out.world.1, ⟨some (acts.set i out.act), calls, out.world.2⟩))
    | _, (T, ⟨acts, calls, s⟩) =>
      let (rc, T, s) := outer.run runner req i act (T, s)
      (rc, (T, ⟨acts, calls, s⟩))
  rename req i act w :=
    let (r, T, s) := outer.rename req i act (w.1, w.2.world)
    (r, (T, { w.2 with world := s }))

/-- `vdev_action_daemonlet_stop_all`. -/
def daemonletStopAll {τ : Type} (sys : Sys τ) (fuel : ℕ) :
    List Action → τ → Option (List Action × τ)
  | [], w => some ([], w)
  | act :: acts, w =>
    if !act.isDaemonlet then
      (daemonletStopAll sys fuel acts w).map (fun r => (act :: r.1, r.2))
    else
      match daemonletStop sys fuel act w with
      | none => none
      | some (_, act, w) => (daemonletStopAll sys fuel acts w).map (fun r => (act :: r.1, r.2))

/-- The daemonlet fields as `vdev_action_init` sets them. -/
def initDaemonlet (act : Action) : Action :=
  { act with daemonletPid := -1, daemonletStdin := -1, daemonletStdout := -1 }

structure Daemon (σ : Type) where
  st : VdevState
  world : FS × σ
  running : Bool

/-- A reload has loaded a configuration and actions, or has failed. Stopping the work
queue may fail as well. -/
inductive Label
  | request (req : Request)
  | reload (loaded : Option (Config × List Action))
  | stop (wqStopped : Bool)

/-- A request that vdevd handles, with what is left when it is done. -/
def serve (sys : Sys (FS × σ)) (fuel : ℕ) (outer : Commands (FS × σ)) (req : Request)
    (s : Daemon σ) : FS × Serving σ :=
  handle (daemonCommands sys fuel s.st outer) s.st req
    (s.world.1, ⟨some s.st.acts, [], s.world.2⟩)

def step (sys : Sys (FS × σ)) (fuel : ℕ) (outer : Commands (FS × σ)) (l : Label) (s : Daemon σ) :
    Option (Daemon σ) :=
  if !s.running then none
  else
    match l with
    | .request req =>
      match serve sys fuel outer req s with
      | (_, ⟨none, _, _⟩) => none
      | (T, ⟨some acts, _, w⟩) => some { s with st := { s.st with acts := acts }, world := (T, w) }
    | .reload none => some s
    | .reload (some (config, acts)) =>
      -- `vdev_action_free_all` does not touch the daemonlets of the old actions
      some { s with st := { s.st with config := config, acts := acts.map initDaemonlet } }
    | .stop false => some { s with running := false }
    | .stop true =>
      match daemonletStopAll sys fuel s.st.acts s.world with
      | none => none
      | some (acts, w) =>
        some { st := { s.st with acts := acts }, world := w, running := false }

/-- The children are exactly those that the actions record. -/
structure AllTracked {τ : Type} {sys : Sys τ} (P : Processes sys) (acts : List Action) (w : τ) :
    Prop where
  consistent : ∀ act ∈ acts, Consistent act
  children : (P.children w).Perm (acts.filterMap recordOf)
  distinct : ((P.children w).map Child.pid).Nodup

section Tracking

variable {τ : Type} {sys : Sys τ} {P : Processes sys} {acts : List Action} {w w' : τ}

theorem AllTracked.of_children (h : AllTracked P acts w) (hw : P.children w' = P.children w) :
    AllTracked P acts w' :=
  ⟨h.consistent, by rw [hw]; exact h.children, by rw [hw]; exact h.distinct⟩

theorem perm_filterMap_middle (pre post : List Action) (act : Action) :
    ((pre ++ act :: post).filterMap recordOf).Perm
      ((recordOf act).toList ++ (pre ++ post).filterMap recordOf) := by
  rw [List.filterMap_append, List.filterMap_append, List.filterMap_cons]
  cases recordOf act with
  | none => exact List.Perm.refl _
  | some child => exact List.perm_middle

/-- What happens to one of the actions leaves the others alone. -/
theorem AllTracked.at {i : ℕ} {act : Action} (h : AllTracked P acts w) (hi : acts[i]? = some act) :
    ∃ others, Tracks P others act w ∧
      ∀ act' w', Tracks P others act' w' → AllTracked P (acts.set i act') w' := by
  obtain ⟨hlt, hget⟩ := List.getElem?_eq_some_iff.mp hi
  have hsplit : ∀ act', acts.set i act' = acts.take i ++ act' :: acts.drop (i + 1) :=
    fun act' => List.set_eq_take_append_cons_drop.trans (if_pos hlt)
  have hsame : acts.set i act = acts := by
    rw [← hget]
    exact List.set_getElem_self hlt
  rw [← hsame, hsplit act] at h
  refine ⟨(acts.take i ++ acts.drop (i + 1)).filterMap recordOf, ⟨?_, ?_, h.distinct⟩, ?_⟩
  · exact h.consistent act (by simp)
  · exact h.children.trans (perm_filterMap_middle _ _ act)
  · intro act' w' h'
    rw [hsplit act']
    refine ⟨fun a ha => ?_, h'.children.trans (perm_filterMap_middle _ _ act').symm, h'.distinct⟩
    rcases List.mem_append.mp ha with ha | ha
    · exact h.consistent a (List.mem_append_left _ ha)
    · rcases List.mem_cons.mp ha with rfl | ha
      · exact h'.consistent
      · exact h.consistent a (List.mem_append_right _ (List.mem_cons_of_mem _ ha))

theorem AllTracked.runDaemonlet {fuel : ℕ} {st : VdevState} {req : Request} {i : ℕ} {act : Action}
    {out : Outcome τ} (h : AllTracked P acts w) (hi : acts[i]? = some act)
    (hcoop : Cooperates sys fuel st req act w)
    (hout : runDaemonlet sys fuel st req act w = some out) :
    AllTracked P (acts.set i out.act) out.world := by
  obtain ⟨others, htracks, hset⟩ := h.at hi
  exact hset out.act out.world (htracks.run hcoop hout)

/-- Each daemonlet that is alive when `vdev_action_daemonlet_stop_all` comes to it has an
input that can be closed. -/
def AllInputsClose (sys : Sys τ) (fuel : ℕ) : List Action → τ → Prop
  | [], _ => True
  | act :: acts, w =>
    if !act.isDaemonlet then AllInputsClose sys fuel acts w
    else InputCloses sys act w ∧ ∀ rc act' w', daemonletStop sys fuel act w = some (rc, act', w') →
      AllInputsClose sys fuel acts w'

/-- After all daemonlets are stopped, no child is left. -/
theorem AllTracked.stopAll {fuel : ℕ} {acts' : List Action} (h : AllTracked P acts w)
    (hcloses : AllInputsClose sys fuel acts w)
    (hstop : daemonletStopAll sys fuel acts w = some (acts', w')) :
    P.children w' = [] ∧ ∀ act ∈ acts', Reset act := by
  induction acts generalizing acts' w with
  | nil =>
    cases hstop
    exact ⟨h.children.eq_nil, fun act hact => by cases hact⟩
  | cons act acts ih =>
    have htracks : Tracks P (acts.filterMap recordOf) act w := by
      refine ⟨h.consistent act List.mem_cons_self, ?_, h.distinct⟩
      exact h.children.trans (perm_filterMap_middle [] acts act)
    have hrest : ∀ act' w', Tracks P (acts.filterMap recordOf) act' w' → Reset act' →
        AllTracked P acts w' := by
      intro act' w' h' hreset
      refine ⟨fun a ha => h.consistent a (List.mem_cons_of_mem _ ha), ?_, h'.distinct⟩
      have hchildren := h'.children
      rw [recordOf_reset hreset] at hchildren
      exact hchildren
    rw [daemonletStopAll] at hstop
    rw [AllInputsClose] at hcloses
    split at hstop
    · rename_i hnot
      rw [if_pos hnot] at hcloses
      have hreset : Reset act := htracks.consistent.resolve_right (fun hrec => by
        rw [hrec.isDaemonlet] at hnot
        cases hnot)
      obtain ⟨r, hr, heq⟩ := Option.map_eq_some_iff.mp hstop
      cases heq
      obtain ⟨hnil, hall⟩ := ih (hrest act w htracks hreset) hcloses hr
      exact ⟨hnil, List.forall_mem_cons.mpr ⟨hreset, hall⟩⟩
    · rename_i hdaemonlet
      rw [if_neg hdaemonlet] at hcloses
      split at hstop
      · cases hstop
      · rename_i rc act' w₁ hstopped
        have hreset := (daemonletStop_reset htracks.consistent hstopped).2
        obtain ⟨r, hr, heq⟩ := Option.map_eq_some_iff.mp hstop
        cases heq
        have htracks' := htracks.stop hcloses.1 hstopped
        obtain ⟨hnil, hall⟩ := ih (hrest act' w₁ htracks' hreset) (hcloses.2 _ _ _ hstopped) hr
        exact ⟨hnil, List.forall_mem_cons.mpr ⟨hreset, hall⟩⟩

/-- An action records a child with both pipe ends. -/
def Records (act : Action) (c : Child) : Prop :=
  act.daemonletPid = c.pid ∧ act.daemonletStdin = c.stdin ∧ act.daemonletStdout = c.stdout

theorem records_of_recordOf {act : Action} {c : Child} (h : recordOf act = some c) :
    Records act c := by
  unfold recordOf at h
  split at h
  · cases h
    exact ⟨rfl, rfl, rfl⟩
  · cases h

/-- Two actions do not record the same process. -/
theorem AllTracked.index_unique (h : AllTracked P acts w) {i j : ℕ} {a b : Action} {c d : Child}
    (hi : acts[i]? = some a) (hj : acts[j]? = some b) (hc : recordOf a = some c)
    (hd : recordOf b = some d) (hpid : c.pid = d.pid) : i = j := by
  have hdistinct : (acts.filterMap recordOf).Pairwise (fun c d => c.pid ≠ d.pid) :=
    List.pairwise_map.mp ((h.children.map Child.pid).nodup_iff.mp h.distinct)
  obtain ⟨hlti, rfl⟩ := List.getElem?_eq_some_iff.mp hi
  obtain ⟨hltj, rfl⟩ := List.getElem?_eq_some_iff.mp hj
  have hpair := List.pairwise_iff_getElem.mp (List.pairwise_filterMap.mp hdistinct)
  rcases Nat.lt_trichotomy i j with hlt | heq | hlt
  · exact absurd hpid (hpair i j hlti hltj hlt c hc d hd)
  · exact heq
  · exact absurd hpid.symm (hpair j i hltj hlti hlt d hd c hc)

/-- Each child is recorded in exactly one action. -/
theorem AllTracked.existsUnique (h : AllTracked P acts w) (c : Child) (hc : c ∈ P.children w) :
    ∃! i : ℕ, ∃ act, acts[i]? = some act ∧ Records act c := by
  obtain ⟨act, hact, hrecord⟩ := List.mem_filterMap.mp (h.children.mem_iff.mp hc)
  obtain ⟨i, hi⟩ := List.mem_iff_getElem?.mp hact
  refine ⟨i, ⟨act, hi, records_of_recordOf hrecord⟩, ?_⟩
  rintro j ⟨act', hj, hpid, hrest⟩
  have hpos : 0 < c.pid := by
    rcases h.consistent act hact with hreset | hrec
    · rw [recordOf_reset hreset] at hrecord
      cases hrecord
    · rw [← (records_of_recordOf hrecord).1]
      exact hrec.pid
  have hrecord' : recordOf act' =
      some ⟨act'.daemonletPid, act'.daemonletStdin, act'.daemonletStdout⟩ :=
    if_pos (by omega)
  exact h.index_unique hj hi hrecord' hrecord hpid

end Tracking

section Runs

variable {sys : Sys (FS × σ)} {P : Processes sys} {fuel : ℕ} {outer : Commands (FS × σ)}

/-- What is not done by daemonlets does not touch the processes of daemonlets. -/
structure Bystander (P : Processes sys) (outer : Commands (FS × σ)) : Prop where
  tree : ∀ T U s, P.children (T, s) = P.children (U, s)
  run : ∀ runner req i act w, P.children (outer.run runner req i act w).2 = P.children w
  rename : ∀ req i act w, P.children (outer.rename req i act w).2 = P.children w

/-- The children are those that the actions record, whatever the file tree is. -/
def AllTrackedIn (P : Processes sys) (acts : Option (List Action)) (w : σ) : Prop :=
  ∀ acts', acts = some acts' → ∀ T, AllTracked P acts' (T, w)

/-- As long as the daemonlets that are called cooperate, the actions record the children. -/
def TrackedWhile (P : Processes sys) (fuel : ℕ) (st : VdevState) (s : Serving σ) : Prop :=
  (∀ call ∈ s.calls, Cooperates sys fuel st call.req call.act call.world) →
    AllTrackedIn P s.acts s.world

theorem daemonCommands_preserves (hout : Bystander P outer) (st : VdevState) :
    Preserves (TrackedWhile P fuel st) (daemonCommands sys fuel st outer) := by
  constructor
  · rintro runner req i act ⟨T, oacts, calls, s⟩ h
    have houter : TrackedWhile P fuel st ⟨oacts, calls, (outer.run runner req i act (T, s)).2.2⟩ := by
      intro hcalls acts' hacts' U
      apply (h hcalls acts' hacts' T).of_children
      exact (hout.tree U _ _).trans (hout.run runner req i act (T, s))
    cases runner with
    | sync => exact houter
    | async => exact houter
    | daemonlet =>
      cases oacts with
      | none => exact houter
      | some acts =>
        unfold daemonCommands
        dsimp only
        split
        · exact h
        · rename_i a hi
          split
          · intro _ acts' hacts'
            cases hacts'
          · rename_i out hrun
            intro hcalls acts' hacts' U
            cases hacts'
            have hbefore : ∀ call ∈ calls, Cooperates sys fuel st call.req call.act call.world :=
              fun call hcall => hcalls call (List.mem_append_left _ hcall)
            have hcoop := hcalls ⟨req, a, (T, s)⟩ (List.mem_append_right _ List.mem_cons_self)
            exact ((h hbefore acts rfl T).runDaemonlet hi hcoop hrun).of_children (hout.tree _ _ _)
  · rintro req i act ⟨T, oacts, calls, s⟩ h hcalls acts' hacts' U
    apply (h hcalls acts' hacts' T).of_children
    exact (hout.tree U _ _).trans (hout.rename req i act (T, s))

/-- Each daemonlet that was started and not joined is recorded in exactly one action, and
none is left after vdevd has stopped. -/
structure NoOrphans (P : Processes sys) (s : Daemon σ) : Prop where
  recorded : ∀ c ∈ P.children s.world,
    ∃! i : ℕ, ∃ act, s.st.acts[i]? = some act ∧ Records act c
  stopped : s.running = false → P.children s.world = []

/-- The condition on a step: the daemonlets that it calls cooperate, actions are replaced
when none of them records a daemonlet, the work queue can be stopped, and so can the
daemonlets. -/
def Orderly (sys : Sys (FS × σ)) (fuel : ℕ) (outer : Commands (FS × σ)) (l : Label)
    (s : Daemon σ) : Prop :=
  match l with
  | .request req => ∀ call ∈ (serve sys fuel outer req s).2.calls,
      Cooperates sys fuel s.st call.req call.act call.world
  | .reload none => True
  | .reload (some _) => ∀ act ∈ s.st.acts, act.daemonletPid ≤ 0
  | .stop wqStopped => wqStopped = true ∧ AllInputsClose sys fuel s.st.acts s.world

structure Inv (P : Processes sys) (s : Daemon σ) : Prop where
  tracked : AllTracked P s.st.acts s.world
  stopped : s.running = false → P.children s.world = []

theorem Inv.noOrphans {s : Daemon σ} (h : Inv P s) : NoOrphans P s :=
  ⟨h.tracked.existsUnique, h.stopped⟩

theorem allTracked_initDaemonlet (acts : List Action) (w : FS × σ) (h : P.children w = []) :
    AllTracked P (acts.map initDaemonlet) w := by
  have hreset : ∀ act ∈ acts.map initDaemonlet, Reset act := by
    intro act hact
    obtain ⟨a, _, rfl⟩ := List.mem_map.mp hact
    exact ⟨rfl, rfl, rfl⟩
  refine ⟨fun act hact => Or.inl (hreset act hact), ?_, ?_⟩
  · rw [h, List.filterMap_eq_nil_iff.mpr (fun act hact => recordOf_reset (hreset act hact))]
  · rw [h]
    exact List.nodup_nil

theorem step_inv (hout : Bystander P outer) {l : Label} {s s' : Daemon σ}
    (hok : Orderly sys fuel outer l s) (h : Inv P s)
    (hstep : step sys fuel outer l s = some s') : Inv P s' := by
  unfold step at hstep
  split at hstep
  · cases hstep
  · rename_i hrunning
    split at hstep
    · rename_i req
      have hpres : Preserves (TrackedWhile P fuel s.st) (daemonCommands sys fuel s.st outer) :=
        daemonCommands_preserves hout s.st
      have hserved : TrackedWhile P fuel s.st (serve sys fuel outer req s).2 := by
        apply hpres.handle s.st req
        intro _ acts hacts T
        cases hacts
        exact h.tracked.of_children (hout.tree _ _ _)
      have hhandled := hserved hok
      split at hstep
      · cases hstep
      · rename_i T acts calls w heq
        rw [heq] at hhandled
        cases hstep
        exact ⟨hhandled acts rfl T, fun hstopped => absurd hstopped (by simpa using hrunning)⟩
    · cases hstep
      exact h
    · rename_i config acts
      cases hstep
      have hnone : P.children s.world = [] := by
        apply List.Perm.eq_nil
        rw [← List.filterMap_eq_nil_iff.mpr (fun act hact => if_neg (not_lt.mpr (hok act hact)))]
        exact h.tracked.children
      exact ⟨allTracked_initDaemonlet acts s.world hnone, fun _ => hnone⟩
    · cases hok.1
    · split at hstep
      · cases hstep
      · rename_i acts w hstop
        cases hstep
        obtain ⟨hnone, hreset⟩ := h.tracked.stopAll hok.2 hstop
        refine ⟨⟨fun act hact => Or.inl (hreset act hact), ?_, ?_⟩, fun _ => hnone⟩
        · rw [hnone, List.filterMap_eq_nil_iff.mpr (fun act hact => recordOf_reset (hreset act hact))]
        · rw [hnone]
          exact List.nodup_nil

def startDaemon (st : VdevState) (w : FS × σ) : Daemon σ :=
  ⟨{ st with acts := st.acts.map initDaemonlet }, w, true⟩

/-- No daemonlet is orphaned in a run that reloads only when no daemonlet runs, in which the
daemonlets that are started and stopped cooperate and the work queue can be stopped. -/
theorem noOrphans_of_orderly (hout : Bystander P outer) (st : VdevState) (w : FS × σ)
    (hw : P.children w = []) (ls : List Label) (s : Daemon σ)
    (hok : Runs.Guarded (step sys fuel outer) (Orderly sys fuel outer) ls (startDaemon st w))
    (h : Runs.run (step sys fuel outer) ls (startDaemon st w) = some s) : NoOrphans P s := by
  have hstart : Inv P (startDaemon st w) :=
    ⟨allTracked_initDaemonlet st.acts w hw, fun h => by cases h⟩
  have hinv : Inv P s := by
    apply Runs.guarded_invariant (step sys fuel outer) (Inv P) _ hok hstart h
    intro l s s' hl hs hstep
    exact step_inv hout hl hs hstep
  exact hinv.noOrphans

end Runs

/-- A process table, with the next file descriptor to be handed out. -/
structure Table where
  children : List Child
  pipes : List (ℕ × ℕ)
  nextFd : ℕ

/-- A process number that no child has. -/
def Table.nextPid (t : Table) : ℕ := (t.children.map (fun c => c.pid.toNat)).sum + 1

/-- Daemonlets that are ready at once, answer each request with an empty line, and live
until they are joined. -/
def tableSys : Sys (FS × Table) where
  runnerExecutable _ w := (some true, w)
  pipe w := (.ok (w.2.nextFd, w.2.nextFd + 1),
    (w.1, { w.2 with
      pipes := (w.2.nextFd, w.2.nextFd + 1) :: w.2.pipes, nextFd := w.2.nextFd + 2 }))
  fork w :=
    match w.2.pipes with
    | stdout :: stdin :: _ => (.ok ⟨w.2.nextPid, by unfold Table.nextPid; omega⟩,
        (w.1, { w.2 with children := ⟨w.2.nextPid, stdin.2, stdout.1⟩ :: w.2.children }))
    | _ => (.error .eagain, w)
  readByte _ w := (.ok (some '\n'), w)
  write _ text w := (text.length, w)
  waitpid pid nohang w :=
    if ∀ c ∈ w.2.children, c.pid ≠ pid then (.error .echild, w)
    else if nohang then (.ok (0, 0), w)
    else (.ok (pid.toNat, 0), (w.1, { w.2 with children := w.2.children.filter (·.pid ≠ pid) }))
  close _ w := (.ok (), w)
  kill _ w := (.ok (), w)

theorem Table.nextPid_fresh (t : Table) (c : Child) (hc : c ∈ t.children) : c.pid ≠ t.nextPid := by
  have hle : c.pid.toNat ≤ (t.children.map (fun c => c.pid.toNat)).sum :=
    List.le_sum_of_mem (List.mem_map_of_mem hc)
  unfold Table.nextPid
  omega

def tableProcesses : Processes tableSys where
  children w := w.2.children
  pipes w := w.2.pipes
  runner _ _ := rfl
  pipe _ := rfl
  pipe_ok := by
    intro w ends w' h
    cases h
    rfl
  fork_ok := by
    intro w pid w' stdin stdout rest hpipes h
    unfold tableSys at h
    simp only [hpipes] at h
    cases h
    exact ⟨w.2.nextPid_fresh, rfl⟩
  fork_error := by
    intro w e w' h
    unfold tableSys at h
    dsimp only at h
    split at h
    · cases h
    · cases h
      rfl
  readByte _ _ := rfl
  write _ _ _ := rfl
  close _ _ := rfl
  kill _ _ := rfl
  waitpid_ok := by
    intro pid nohang w child status w' hpid h
    unfold tableSys at h
    dsimp only at h
    split_ifs at h
    · cases h
    · cases h
      exact Or.inl ⟨rfl, rfl⟩
    · cases h
      exact Or.inr ⟨by omega, rfl⟩
  waitpid_error := by
    intro pid nohang w e w' hpid h
    unfold tableSys at h
    dsimp only at h
    split_ifs at h with hnone
    · cases h
      exact ⟨rfl, fun _ => hnone⟩
    · cases h
    · cases h

theorem tableSys_signalsReady (st : VdevState) (act : Action) (w : FS × Table) :
    SignalsReady tableSys st act w :=
  fun _ _ _ _ _ _ _ _ _ _ _ _ _ _ _ => ⟨'\n', _, rfl⟩

theorem tableSys_inputCloses (act : Action) (w : FS × Table) : InputCloses tableSys act w :=
  fun _ _ => ⟨_, rfl⟩

theorem tableSys_attemptsCooperate (fuel : ℕ) (st : VdevState) (req : Request) (n : ℕ)
    (act : Action) (rc : Int) (w : FS × Table) :
    AttemptsCooperate tableSys fuel st req n act rc w := by
  induction n generalizing act rc w with
  | zero => trivial
  | succ n ih =>
    intro status w₁ _
    refine ⟨tableSys_inputCloses act w₁, fun rc₂ act₂ w₂ _ _ => ?_⟩
    exact ⟨tableSys_signalsReady st act₂ w₂, fun _ => ih _ _ _⟩

theorem tableSys_cooperates (fuel : ℕ) (st : VdevState) (req : Request) (act : Action)
    (w : FS × Table) : Cooperates tableSys fuel st req act w :=
  fun _ => ⟨tableSys_signalsReady st act w, fun _ => tableSys_attemptsCooperate _ _ _ _ _ _ _⟩

theorem tableSys_allInputsClose (fuel : ℕ) (acts : List Action) (w : FS × Table) :
    AllInputsClose tableSys fuel acts w := by
  induction acts generalizing w with
  | nil => trivial
  | cons act acts ih =>
    rw [AllInputsClose]
    split_ifs
    · exact ih w
    · exact ⟨tableSys_inputCloses act w, fun _ _ w' _ => ih w'⟩

/-- Commands other than daemonlets do nothing, and every path matches. -/
def idleCommands : Commands (FS × Table) where
  regexec _ _ := 0
  run _ _ _ _ w := (0, w)
  rename _ _ _ w := ((0, []), w)

theorem idleCommands_bystander : Bystander tableProcesses idleCommands :=
  ⟨fun _ _ _ => rfl, fun _ _ _ _ _ => rfl, fun _ _ _ _ => rfl⟩

def oneDaemonlet : VdevState := { bareState with acts := [DaemonletResult.daemonletAction] }

def emptyTable : FS × Table := (bareTree, ⟨[], [], 3⟩)

def addUnknown : Request := { type := .add, path := some unknownPath }

/-- The actions are loaded again before any daemonlet runs, a device is added, another reload
fails, and vdevd stops. -/
theorem noOrphans_stop :
    ∃ s, Runs.run (step tableSys 5 idleCommands)
        [.reload (some (bareState.config, oneDaemonlet.acts)), .request addUnknown, .reload none,
          .stop true]
        (startDaemon oneDaemonlet emptyTable) = some s ∧ NoOrphans tableProcesses s := by
  let ls := [Label.reload (some (bareState.config, oneDaemonlet.acts)), .request addUnknown,
    .reload none, .stop true]
  have hrun : (Runs.run (step tableSys 5 idleCommands) ls
      (startDaemon oneDaemonlet emptyTable)).isSome := by
    decide +kernel
  obtain ⟨s, hs⟩ := Option.isSome_iff_exists.mp hrun
  have hidle : ∀ act ∈ (startDaemon oneDaemonlet emptyTable).st.acts, act.daemonletPid ≤ 0 := by
    decide
  refine ⟨s, hs, noOrphans_of_orderly idleCommands_bystander oneDaemonlet emptyTable rfl ls s
    ⟨hidle, fun _ _ => ⟨?_, fun _ _ => ⟨trivial, fun _ _ => ⟨⟨rfl, ?_⟩, fun _ _ => trivial⟩⟩⟩⟩ hs⟩
  · exact fun call _ => tableSys_cooperates 5 _ call.req call.act call.world
  · exact tableSys_allInputsClose 5 _ _

/-- A device is added, the actions are reloaded, and vdevd stops: the daemonlet of the old
action still runs. -/
theorem not_noOrphans_reload :
    ¬∀ ls s, Runs.run (step tableSys 5 idleCommands) ls (startDaemon oneDaemonlet emptyTable) =
      some s → NoOrphans tableProcesses s := by
  intro h
  let ls := [Label.request addUnknown, .reload (some (bareState.config, oneDaemonlet.acts)),
    .stop true]
  have hrun : (Runs.run (step tableSys 5 idleCommands) ls
      (startDaemon oneDaemonlet emptyTable)).map (fun s => (s.running, s.world.2.children)) =
        some (false, [⟨1, 4, 5⟩]) := by
    decide +kernel
  obtain ⟨s, hs, heq⟩ := Option.map_eq_some_iff.mp hrun
  obtain ⟨hstopped, hchildren⟩ := Prod.mk.inj heq
  have hnone : s.world.2.children = [] := (h ls s hs).stopped hstopped
  rw [hchildren] at hnone
  cases hnone

end Vdev.DaemonletOrphans
