import Vdev.DeviceUndo
import Vdev.QueueWalk
import Vdev.SweptDevices

/-!
The walk of `vdev_remove_unplugged_devices` over the mountpoint (vdevd/vdev.c). It comes
to every directory that it queues, and looks at everything in it before it goes on. What
it removes is only the device that it is at, so the rest of the tree is what it was at the
start. It queues no directory with the name of the metadata directory, at any depth.
-/
namespace Vdev.SweepWalk

open CString FileTree SystemCalls CallEffects Paths Directories Data Vdev.Action Metadata Device
  DeviceUndo Sweep Enumeration QueueWalk TreeWalk SweptDevices

variable {σ : Type}

section Spec

variable (c : Commands (FS × σ)) (st : VdevState) (mp : Location)

def IsNode (T : FS) (m : Location) : Prop :=
  ∃ mode dev, T.get m = some (.leaf (.device mode dev)) ∧ (isBlk mode || isChr mode) = true

/-- The record of a device exists, with the nonce of another instance. -/
def Stale (T : FS) (r : Location) : Prop :=
  ∃ mode content, T.get (instanceFile mp r) = some (.leaf (.file mode content)) ∧
    untilNul st.config.instanceStr ≠ untilNul (content.take 64)

/-- A device of another instance, outside of the metadata directory. -/
structure StaleNode (T : FS) (r : Location) : Prop where
  node : IsNode T (r ++ mp)
  outside : ¬nameMetadata :: mp <:+ r ++ mp
  stale : Stale st mp T r

/-- The sweep, left alone, ends, and has called `vdev_device_remove` once for each device
of another instance and for nothing else. -/
def SweptOnce (w : FS × σ) : Prop :=
  ∃ k s, Runs.run (step c st) (List.replicate k .sweep) (start st [] w) = some s ∧
    s.sweep = .finished ∧ s.removed.Nodup ∧
    ∀ path, path ∈ s.removed ↔
      ∃ r, StaleNode st mp w.1 r ∧ path = pathFrom st.mountpoint mp (r ++ mp)

/-- Removing a device changes nothing but its node and its record. -/
def OnlyItself : Prop :=
  ∀ (r : Location) (mode dev : ℕ) (w : FS × σ) (k : Location), r ≠ [] → IsNode w.1 (r ++ mp) →
    k ≠ r ++ mp → ¬metadataDir mp r <:+ k →
    (deviceRemove c st
      (toDelete st (pathFrom st.mountpoint mp (r ++ mp)) mode dev) w).world.1.get k = w.1.get k

end Spec

section Steps

variable (c : Commands (FS × σ)) (st : VdevState)

/-- The main thread gets from one state to another by itself. -/
def Sweeps (s s' : Coldplug σ) : Prop :=
  ∃ k, Runs.run (step c st) (List.replicate k .sweep) s = some s'

variable {c st}

theorem Sweeps.refl (s : Coldplug σ) : Sweeps c st s s := ⟨0, rfl⟩

theorem Sweeps.head {s s₁ s' : Coldplug σ} (h : sweepStep c st s = some s₁)
    (hrest : Sweeps c st s₁ s') : Sweeps c st s s' := by
  obtain ⟨k, hk⟩ := hrest
  refine ⟨k + 1, ?_⟩
  rw [List.replicate_succ, Runs.run]
  exact Option.bind_eq_some_iff.mpr ⟨s₁, h, hk⟩

theorem Sweeps.trans {s s₁ s' : Coldplug σ} (h : Sweeps c st s s₁) (h' : Sweeps c st s₁ s') :
    Sweeps c st s s' := by
  obtain ⟨k, hk⟩ := h
  induction k generalizing s with
  | zero =>
    cases Option.some.inj hk
    exact h'
  | succ k ih =>
    rw [List.replicate_succ] at hk
    obtain ⟨s₂, hs₂, hk⟩ := Runs.run_cons_eq_some (step c st) hk
    exact (ih hk).head hs₂

/-- There is only one end. -/
theorem Sweeps.finished_unique {s a b : Coldplug σ} (ha : Sweeps c st s a) (hb : Sweeps c st s b)
    (hfa : a.sweep = .finished) (hfb : b.sweep = .finished) : a = b := by
  have hstuck : ∀ {x y : Coldplug σ}, x.sweep = .finished → Sweeps c st x y → y = x := by
    rintro x y hx ⟨k, hk⟩
    cases k with
    | zero => exact (Option.some.inj hk).symm
    | succ k =>
      rw [List.replicate_succ] at hk
      obtain ⟨x', hx', -⟩ := Runs.run_cons_eq_some (step c st) hk
      change sweepStep c st x = some x' at hx'
      rw [sweepStep, hx] at hx'
      cases hx'
  obtain ⟨k, hk⟩ := ha
  induction k generalizing s with
  | zero =>
    cases Option.some.inj hk
    exact (hstuck hfa hb).symm
  | succ k ih =>
    obtain ⟨j, hj⟩ := hb
    cases j with
    | zero =>
      cases Option.some.inj hj
      exact hstuck hfb ⟨k + 1, hk⟩
    | succ j =>
      rw [List.replicate_succ] at hk hj
      obtain ⟨s₁, hs₁, hk⟩ := Runs.run_cons_eq_some (step c st) hk
      obtain ⟨s₂, hs₂, hj⟩ := Runs.run_cons_eq_some (step c st) hj
      cases hs₁.symm.trans hs₂
      exact ih ⟨j, hj⟩ hk

end Steps

section Paths

variable {st : VdevState} {mp : Location} (hm : MountedAt st.mountpoint mp)

/-- The names in a directory, in the order in which they are looked at. -/
def childNames (T : FS) (m : Location) : List Name := (entryNames T m).filterMap nameOf

def goodDirs (T : FS) (m : Location) : List Name :=
  (childNames T m).filter (fun n => T.IsDir (n :: m) ∧ n ≠ nameMetadata)

theorem mem_childNames (T : FS) (m : Location) (n : Name) :
    n ∈ childNames T m ↔ T.get (n :: m) ≠ none := by
  rw [← val_mem_entryNames, childNames, List.mem_filterMap]
  constructor
  · rintro ⟨c, hc, hn⟩
    rw [← nameOf_eq_some hn]
    exact hc
  · intro hn
    exact ⟨n.val, hn, nameOf_val n⟩

theorem nodup_childNames (T : FS) (m : Location) : (childNames T m).Nodup := by
  refine (nodup_entryNames T m).filterMap (fun c c' n hn hn' => ?_)
  exact (nameOf_eq_some hn).trans (nameOf_eq_some hn').symm

theorem mem_goodDirs (T : FS) (m : Location) (n : Name) :
    n ∈ goodDirs T m ↔ T.IsDir (n :: m) ∧ n ≠ nameMetadata := by
  rw [goodDirs, List.mem_filter, mem_childNames, decide_eq_true_eq]
  exact and_iff_right_of_imp (fun h => h.1.get_ne_none)

theorem nodup_goodDirs (T : FS) (m : Location) : (goodDirs T m).Nodup :=
  (nodup_childNames T m).filter _

/-- What is in a directory depends on nothing else. -/
theorem entryNames_congr (T U : FS) (m : Location) (h : ∀ n, T.get (n :: m) = U.get (n :: m)) :
    entryNames T m = entryNames U m := by
  have hchildren : T.children m = U.children m := by
    refine (Multiset.Nodup.ext (T.nodup_children m) (U.nodup_children m)).mpr (fun n => ?_)
    rw [T.mem_children, U.mem_children, h]
  rw [entryNames, entryNames, hchildren]

include hm

theorem denotes_pathFrom_cons (n : Name) (q : Location) :
    Denotes (pathFrom st.mountpoint mp (n :: (q ++ mp))) (n :: (q ++ mp)) := by
  rw [pathFrom_cons _ _ _ n (List.suffix_append q mp)]
  exact denotes_fullpath _ _ n
    (denotesDir_pathFrom _ _ _ hm.toDenotesDir (List.suffix_append q mp))

theorem pathFrom_injective (q q' : Location)
    (h : pathFrom st.mountpoint mp (q ++ mp) = pathFrom st.mountpoint mp (q' ++ mp)) : q = q' := by
  have hq := (denotesDir_pathFrom _ _ _ hm.toDenotesDir (List.suffix_append q mp)).names_eq
  have hq' := (denotesDir_pathFrom _ _ _ hm.toDenotesDir (List.suffix_append q' mp)).names_eq
  rw [h] at hq
  have hsteps := hq.symm.trans hq'
  rw [steps, steps, List.reverse_inj] at hsteps
  exact List.append_cancel_right (Subtype.val_injective.list_map hsteps)

theorem denotes_devPath (n : Name) (q : Location) :
    Denotes (devPath st (pathFrom st.mountpoint mp (n :: (q ++ mp)))) (n :: q) := by
  have hpath := pathFrom_relPath st.mountpoint mp (n :: q) hm.ne_nil (List.cons_ne_nil _ _)
  have hnode := denotes_pathFrom_cons hm n q
  rw [List.cons_append] at hpath
  rw [hpath] at hnode ⊢
  obtain ⟨rest, hrest, hnames, -⟩ := fullpath_split st.mountpoint (relPath (n :: q)) hm.ne_nil
  have hsteps : names rest = steps (n :: q) := by
    have hall := hnode.names_eq
    rw [names_fullpath _ _ hm.ne_nil, hm.names_eq, ← List.cons_append, steps_append] at hall
    exact hnames.trans (List.append_cancel_left hall)
  have hne : rest ≠ [] := by
    rintro rfl
    rw [steps_cons] at hsteps
    exact List.append_ne_nil_of_right_ne_nil _ (List.cons_ne_nil _ _) hsteps.symm
  have hslash := hnode.not_slashed
  rw [hrest, slashed_append _ _ hne] at hslash
  rw [devPath, hrest, List.drop_left]
  exact ⟨hne, hsteps, hslash⟩

/-- The sweep reads the record of the device that it is at. -/
theorem readVdevdInstance_eq_ok_iff (T : FS) (n : Name) (q : Location) (x : CStr) :
    readVdevdInstance st (pathFrom st.mountpoint mp (n :: (q ++ mp))) T = .ok x ↔
      ∃ mode content, T.get (instanceFile mp (n :: q)) = some (.leaf (.file mode content)) ∧
        x = content.take 64 := by
  have hdev := denotes_devPath hm n q
  have hconst : names (metadataPrefix ++ "/dev".toList) = [nameMetadata.val, nameDev.val] := by
    decide
  have hden : DenotesDir (fullpath st.mountpoint (fullpath (metadataPrefix ++ "/dev".toList)
      (devPath st (pathFrom st.mountpoint mp (n :: (q ++ mp)))))) (metadataDir mp (n :: q)) := by
    refine ⟨fullpath_ne_nil _ _ hm.ne_nil, ?_⟩
    rw [names_fullpath _ _ hm.ne_nil, names_fullpath _ _ (by decide), hconst, hm.names_eq,
      hdev.names_eq, metadataDir, steps_append, metadataRoot]
    simp only [steps_cons, List.append_assoc, List.cons_append, List.nil_append]
  have hstat := (denotes_fullpath _ _ nameInstance hden).stat T
  rw [readVdevdInstance, readFile, show paramInstance = nameInstance.val from rfl, hstat, instanceFile]
  have hnot : ∀ (e : Errno) (found : Option (Entry ℕ Leaf)),
      (∀ mode content, found ≠ some (.leaf (.file mode content))) →
      ((.error e : Except Errno CStr) = .ok x ↔
        ∃ mode content, found = some (.leaf (.file mode content)) ∧ x = content.take 64) := by
    intro e found hfound
    refine iff_of_false (by simp) ?_
    rintro ⟨mode, content, h, -⟩
    exact hfound mode content h
  rcases T.get (nameInstance :: metadataDir mp (n :: q)) with _ | _ | ⟨mode, content⟩ | _
  · exact hnot _ _ (by simp)
  · exact hnot _ _ (by simp)
  · dsimp only
    constructor
    · intro h
      cases h
      exact ⟨mode, content, rfl, rfl⟩
    · rintro ⟨mode', content', h, rfl⟩
      cases h
      rfl
  · exact hnot _ _ (by simp)

end Paths

section Listing

variable (c : Commands (FS × σ)) (st : VdevState) (mp : Location) (T₀ : FS)

/-- A device whose record, as the sweep reads it, has another nonce. -/
def isStale (m : Location) : Bool :=
  match T₀.get m with
  | some (.leaf (.device mode _)) =>
    (isBlk mode || isChr mode) &&
      match readVdevdInstance st (pathFrom st.mountpoint mp m) T₀ with
      | .ok instanceStr => decide (untilNul st.config.instanceStr ≠ untilNul instanceStr)
      | .error _ => false
  | _ => false

/-- What the sweep may remove: a device that it gets to. -/
structure Gets (k : Location) : Prop where
  node : IsNode T₀ k
  below : ∃ n q, k = n :: (q ++ mp) ∧ nameMetadata ∉ q

/-- The sweep has removed the devices in a list, and the rest of the tree is unchanged. -/
structure At (s : Coldplug σ) (removed : List Location) : Prop where
  idle : s.worker = .idle
  removed_eq : s.removed = removed.map (pathFrom st.mountpoint mp)
  gets : ∀ k ∈ removed, Gets mp T₀ k
  agrees : ∀ k, k ∉ removed → (∀ r, r ++ mp ∈ removed → ¬metadataDir mp r <:+ k) →
    s.world.1.get k = T₀.get k

variable {c st mp T₀}

/-- Below the metadata directory there is no way around its name. -/
theorem not_metadataDir_suffix (r : Location) (n : Name) (q : Location) (hq : nameMetadata ∉ q) :
    ¬metadataDir mp r <:+ n :: (q ++ mp) := by
  rintro ⟨t, ht⟩
  have hcancel : t ++ (r ++ [nameDev, nameMetadata]) = n :: q := by
    refine (List.append_left_inj mp).mp ?_
    rw [List.cons_append, ← ht, metadataDir, metadataRoot]
    simp
  have hlast : (n :: q).getLast? = some nameMetadata := by
    rw [← hcancel, ← List.append_assoc, List.getLast?_append_of_ne_nil _ (List.cons_ne_nil _ _)]
    rfl
  have hlen := congrArg List.length hcancel
  simp only [List.length_append, List.length_cons, List.length_nil] at hlen
  cases q with
  | nil =>
    rw [List.length_nil] at hlen
    omega
  | cons n' q =>
    rw [List.getLast?_cons_cons] at hlast
    exact hq (List.mem_of_getLast? hlast)

/-- Removing a device leaves the records of the others alone. -/
theorem not_metadataDir_suffix_instance (r : Location) (n : Name) (q : Location)
    (hr : IsNode T₀ (r ++ mp)) (hq : IsNode T₀ (n :: (q ++ mp))) (hne : r ≠ n :: q) :
    ¬metadataDir mp r <:+ instanceFile mp (n :: q) := by
  have hleaf : ∀ {k}, IsNode T₀ k → ¬T₀.IsDir k := by
    rintro k ⟨mode, dev, hget, -⟩
    exact T₀.not_isDir_of_leaf k _ hget
  have hsome : ∀ {k}, IsNode T₀ k → T₀.get k ≠ none := by
    rintro k ⟨mode, dev, hget, -⟩
    rw [hget]
    exact Option.some_ne_none _
  rintro ⟨t, ht⟩
  have hcancel : t ++ r = nameInstance :: n :: q := by
    refine (List.append_left_inj (metadataRoot mp)).mp ?_
    rw [List.append_assoc]
    exact ht
  rcases List.suffix_cons_iff.mp ⟨t, hcancel⟩ with rfl | hsub
  · -- nothing stands below a device
    exact hleaf hq (T₀.isDir_parent nameInstance _ (hsome hr))
  · have hsub' : r ++ mp <:+ n :: (q ++ mp) := by
      obtain ⟨t', ht'⟩ := hsub
      exact ⟨t', by rw [← List.append_assoc, ht']; rfl⟩
    refine hleaf hr (T₀.isDir_of_suffix hsub' (fun heq => hne ?_) (hsome hq))
    exact List.append_cancel_right heq

/-- An entry that the sweep has not looked at is unchanged. -/
theorem At.get_eq {s : Coldplug σ} {removed : List Location} (h : At st mp T₀ s removed) (n : Name)
    (q : Location) (hq : nameMetadata ∉ q) (hfresh : n :: (q ++ mp) ∉ removed) :
    s.world.1.get (n :: (q ++ mp)) = T₀.get (n :: (q ++ mp)) :=
  h.agrees _ hfresh (fun r _ => not_metadataDir_suffix r n q hq)

/-- The directories that the sweep gets to stay. -/
theorem At.isDir {s : Coldplug σ} {removed : List Location} (h : At st mp T₀ s removed)
    (q : Location) (hq : nameMetadata ∉ q) (hdir : T₀.IsDir (q ++ mp)) :
    s.world.1.IsDir (q ++ mp) := by
  obtain ⟨a, ha⟩ := hdir
  refine ⟨a, (h.agrees _ (fun hmem => ?_) (fun r _ hsub => ?_)).trans ha⟩
  · obtain ⟨mode, dev, hget, -⟩ := (h.gets _ hmem).node
    rw [ha] at hget
    cases hget
  · cases q with
    | nil =>
      have hlen := hsub.length_le
      simp only [metadataDir, metadataRoot, List.length_append, List.length_cons, List.length_nil]
        at hlen
      omega
    | cons n q =>
      exact not_metadataDir_suffix r n q (fun hmem => hq (List.mem_cons_of_mem n hmem)) hsub

/-- So is the record of a device. -/
theorem At.get_instanceFile {s : Coldplug σ} {removed : List Location}
    (h : At st mp T₀ s removed) (n : Name) (q : Location) (hnode : IsNode T₀ (n :: (q ++ mp)))
    (hfresh : n :: (q ++ mp) ∉ removed) :
    s.world.1.get (instanceFile mp (n :: q)) = T₀.get (instanceFile mp (n :: q)) := by
  refine h.agrees _ (fun hmem => ?_) (fun r hr => ?_)
  · obtain ⟨n', q', heq, hno⟩ := (h.gets _ hmem).below
    have hq' : n :: q ++ [nameDev, nameMetadata] = q' := by
      refine (List.append_left_inj mp).mp ?_
      rw [List.append_assoc]
      exact (List.cons.inj heq).2
    exact hno (by rw [← hq']; simp)
  · refine not_metadataDir_suffix_instance r n q (h.gets _ hr).node hnode (fun heq => ?_)
    rw [heq] at hr
    exact hfresh hr

theorem At.congr {s s' : Coldplug σ} {removed : List Location} (h : At st mp T₀ s removed)
    (hworker : s'.worker = s.worker) (hremoved : s'.removed = s.removed)
    (hworld : s'.world = s.world) : At st mp T₀ s' removed where
  idle := hworker.trans h.idle
  removed_eq := hremoved.trans h.removed_eq
  gets := h.gets
  agrees := fun k hk hmeta => by rw [hworld]; exact h.agrees k hk hmeta

/-- A device that the sweep is at is removed. -/
theorem At.remove (honly : OnlyItself c st mp) {s s' : Coldplug σ} {removed : List Location}
    (h : At st mp T₀ s removed) (n : Name) (q : Location) (hq : nameMetadata ∉ q)
    (hnode : IsNode T₀ (n :: (q ++ mp))) (hfresh : n :: (q ++ mp) ∉ removed) (mode dev : ℕ)
    (hworker : s'.worker = s.worker)
    (hremoved : s'.removed = s.removed ++ [pathFrom st.mountpoint mp (n :: (q ++ mp))])
    (hworld : s'.world = (deviceRemove c st
      (toDelete st (pathFrom st.mountpoint mp (n :: (q ++ mp))) mode dev) s.world).world) :
    At st mp T₀ s' (removed ++ [n :: (q ++ mp)]) where
  idle := hworker.trans h.idle
  removed_eq := by
    rw [hremoved, h.removed_eq, List.map_append]
    rfl
  gets := by
    intro k hk
    rcases List.mem_append.mp hk with hk | hk
    · exact h.gets k hk
    · rw [List.mem_singleton.mp hk]
      exact ⟨hnode, n, q, rfl, hq⟩
  agrees := by
    intro k hk hmeta
    have hnow : IsNode s.world.1 (n :: q ++ mp) := by
      obtain ⟨mode', dev', hget, hkind⟩ := hnode
      exact ⟨mode', dev', (h.get_eq n q hq hfresh).trans hget, hkind⟩
    have hself : k ≠ n :: q ++ mp := fun heq =>
      hk (List.mem_append_right _ (List.mem_singleton.mpr heq))
    have hrecord : ¬metadataDir mp (n :: q) <:+ k :=
      hmeta (n :: q) (List.mem_append_right _ (List.mem_singleton_self _))
    rw [hworld]
    exact (honly (n :: q) mode dev s.world k (List.cons_ne_nil n q) hnow hself hrecord).trans
      (h.agrees k (fun hmem => hk (List.mem_append_left _ hmem))
        (fun r hr => hmeta r (List.mem_append_left _ hr)))

theorem visit_dots (d c : CStr) (hd : d ≠ []) (hc : c = ['.'] ∨ c = ['.', '.']) (s : Coldplug σ) :
    Sweep.visit (fullpath d c) s = s := by
  have hbase : basename (fullpath d c) = c := basename_fullpath d c hd (Or.inr hc)
  unfold Sweep.visit
  dsimp only
  rw [hbase, if_pos (Or.inr hc)]

/-- What the sweep does at a name, by what stands there. -/
theorem visit_name (d : CStr) (n : Name) (m : Location) (hd : DenotesDir d m) (s : Coldplug σ)
    (e : Entry ℕ Leaf) (he : s.world.1.get (n :: m) = some e) :
    Sweep.visit (fullpath d n.val) s =
      match e with
      | .dir _ => if n = nameMetadata then s else { s with dirs := s.dirs ++ [fullpath d n.val] }
      | .leaf (.device mode dev) =>
        if isBlk mode || isChr mode then { s with sweep := .reading (fullpath d n.val) mode dev }
        else s
      | .leaf (.file _ _) => s := by
  have hbase : basename (fullpath d n.val) = n.val :=
    basename_fullpath d n.val hd.ne_nil (Or.inl n.property)
  have hstat := (denotes_fullpath d m n hd).stat s.world.1
  rw [he] at hstat
  have hname : n.val = "metadata".toList ↔ n = nameMetadata :=
    ⟨fun h => Subtype.ext h, fun h => by rw [h]; rfl⟩
  have hskip : ¬(fullpath d n.val = [] ∨ n.val = ['.'] ∨ n.val = ['.', '.']) := by
    rintro (h | h | h)
    · exact fullpath_ne_nil d n.val hd.ne_nil h
    · exact n.property.2.2.1 h
    · exact n.property.2.2.2 h
  unfold Sweep.visit
  dsimp only
  rw [hbase, if_neg hskip, hstat]
  rcases e with a | ⟨mode, content⟩ | ⟨mode, dev⟩
  · exact if_congr hname rfl rfl
  · rfl
  · rfl

/-- The devices among some names in a directory that are removed. -/
def gone (st : VdevState) (mp : Location) (T₀ : FS) (m : Location) (names : List Name) :
    List Location :=
  (names.filter (fun n => isStale st mp T₀ (n :: m))).map (· :: m)

/-- The directories among them that are queued. -/
def queued (T₀ : FS) (m : Location) (names : List Name) : List Location :=
  (names.filter (fun n => T₀.IsDir (n :: m) ∧ n ≠ nameMetadata)).map (· :: m)

/-- The sweep looks at entries of a directory and leaves the others for later. -/
structure Looked (c : Commands (FS × σ)) (st : VdevState) (mp : Location) (T₀ : FS)
    (m : Location) (names : List Name) (rest : List CStr) (removed : List Location)
    (s s' : Coldplug σ) : Prop where
  sweeps : Sweeps c st s s'
  at_end : At st mp T₀ s' (removed ++ gone st mp T₀ m names)
  listing : s'.sweep = .listing
  entries : s'.entries = rest
  dirs : s'.dirs = s.dirs ++ (queued T₀ m names).map (pathFrom st.mountpoint mp)

/-- One entry, at which the sweep only looks. -/
theorem Looked.of_step {m : Location} {n : Name} {s s' : Coldplug σ} {removed : List Location}
    (h : At st mp T₀ s removed) (hstep : Sweeps c st s s')
    (hstale : isStale st mp T₀ (n :: m) = false) (hworker : s'.worker = s.worker)
    (hremoved : s'.removed = s.removed) (hworld : s'.world = s.world)
    (hlisting : s'.sweep = .listing) (hdirs : s'.dirs = s.dirs ++
      (queued T₀ m [n]).map (pathFrom st.mountpoint mp)) :
    Looked c st mp T₀ m [n] s'.entries removed s s' where
  sweeps := hstep
  at_end := by
    have hgone : gone st mp T₀ m [n] = [] := by
      rw [gone, List.filter_cons, if_neg (fun htrue => Bool.false_ne_true (hstale.symm.trans htrue))]
      rfl
    rw [hgone, List.append_nil]
    exact h.congr hworker hremoved hworld
  listing := hlisting
  entries := rfl
  dirs := hdirs

theorem queued_of_dir {m : Location} {n : Name} (hdir : T₀.IsDir (n :: m)) (hn : n ≠ nameMetadata) :
    queued T₀ m [n] = [n :: m] := by
  rw [queued, List.filter_cons, if_pos (decide_eq_true ⟨hdir, hn⟩)]
  rfl

theorem queued_of_not {m : Location} {n : Name} (h : ¬(T₀.IsDir (n :: m) ∧ n ≠ nameMetadata)) :
    queued T₀ m [n] = [] := by
  rw [queued, List.filter_cons, if_neg (fun hand => h (of_decide_eq_true hand))]
  rfl

section Step

variable {s : Coldplug σ} {path : CStr} {mode dev : ℕ}

/-- A device without a record, or with one of this instance, is left alone. -/
theorem sweepStep_own (hs : s.sweep = .reading path mode dev)
    (h : ∀ x, readVdevdInstance st path s.world.1 = .ok x →
      untilNul st.config.instanceStr = untilNul x) :
    sweepStep c st s = some { s with sweep := .listing } := by
  unfold sweepStep
  rw [hs]
  dsimp only
  cases hread : readVdevdInstance st path s.world.1 with
  | error e => rfl
  | ok x =>
    dsimp only
    rw [if_neg (not_not.mpr (h x hread))]

theorem sweepStep_stale (hs : s.sweep = .reading path mode dev) {x : CStr}
    (hx : readVdevdInstance st path s.world.1 = .ok x)
    (h : untilNul st.config.instanceStr ≠ untilNul x) :
    sweepStep c st s = some { s with
      sweep := .removing path mode dev
      removed := s.removed ++ [path]
      deletes := s.deletes ++ [toDelete st path mode dev] } := by
  unfold sweepStep
  rw [hs]
  dsimp only
  rw [hx]
  dsimp only
  rw [if_pos h]

theorem sweepStep_removing (hs : s.sweep = .removing path mode dev) (hidle : s.worker = .idle) :
    sweepStep c st s = some { s with
      world := (deviceRemove c st (toDelete st path mode dev) s.world).world
      sweep := .listing } := by
  unfold sweepStep
  rw [hs]
  dsimp only
  rw [hidle]

end Step

theorem isStale_device (st : VdevState) (mp : Location) (T₀ : FS) {m : Location} {mode dev : ℕ}
    (hget : T₀.get m = some (.leaf (.device mode dev)))
    (hkind : (isBlk mode || isChr mode) = true) :
    isStale st mp T₀ m =
      match readVdevdInstance st (pathFrom st.mountpoint mp m) T₀ with
      | .ok instanceStr => decide (untilNul st.config.instanceStr ≠ untilNul instanceStr)
      | .error _ => false := by
  rw [isStale, hget]
  dsimp only
  rw [hkind, Bool.true_and]

section Entry

variable (hm : MountedAt st.mountpoint mp) (q : Location) (hq : nameMetadata ∉ q) (n : Name)
  (s : Coldplug σ) (removed : List Location) (h : At st mp T₀ s removed)
  (hfresh : n :: (q ++ mp) ∉ removed)

include hm hq h hfresh

omit hq in
/-- The sweep reads the same record as at the start. -/
theorem read_eq_ok_iff (hnode : IsNode T₀ (n :: (q ++ mp))) (x : CStr) :
    readVdevdInstance st (pathFrom st.mountpoint mp (n :: (q ++ mp))) s.world.1 = .ok x ↔
      readVdevdInstance st (pathFrom st.mountpoint mp (n :: (q ++ mp))) T₀ = .ok x := by
  rw [readVdevdInstance_eq_ok_iff hm, readVdevdInstance_eq_ok_iff hm,
    h.get_instanceFile n q hnode hfresh]

/-- The sweep is at a device: it removes it, or it leaves it alone. -/
theorem looked_device (honly : OnlyItself c st mp) (mode dev : ℕ) (rest : List CStr)
    (hget : T₀.get (n :: (q ++ mp)) = some (.leaf (.device mode dev)))
    (hkind : (isBlk mode || isChr mode) = true)
    (hfirst : sweepStep c st s = some { s with
      entries := rest
      sweep := .reading (pathFrom st.mountpoint mp (n :: (q ++ mp))) mode dev }) :
    ∃ s', Looked c st mp T₀ (q ++ mp) [n] rest removed s s' := by
  have hnode : IsNode T₀ (n :: (q ++ mp)) := ⟨mode, dev, hget, hkind⟩
  have hqueued : queued T₀ (q ++ mp) [n] = [] :=
    queued_of_not (fun hand => T₀.not_isDir_of_leaf _ _ hget hand.1)
  have hread := read_eq_ok_iff hm q n s removed h hfresh hnode
  have hstale := isStale_device st mp T₀ hget hkind
  set path := pathFrom st.mountpoint mp (n :: (q ++ mp)) with hpath
  have hdirs : s.dirs = s.dirs ++ (queued T₀ (q ++ mp) [n]).map (pathFrom st.mountpoint mp) := by
    rw [hqueued, List.map_nil, List.append_nil]
  cases hT : readVdevdInstance st path T₀ with
  | error e =>
    rw [hT] at hstale
    have hstep : sweepStep c st { s with entries := rest, sweep := .reading path mode dev } =
        some { s with entries := rest, sweep := .listing } := by
      refine sweepStep_own rfl (fun x hx => ?_)
      rw [(hread x).mp hx] at hT
      cases hT
    exact ⟨_, .of_step h (.head hfirst (.head hstep (.refl _))) hstale rfl rfl rfl rfl hdirs⟩
  | ok x =>
    rw [hT] at hstale
    have hx := (hread x).mpr hT
    by_cases hdiffers : untilNul st.config.instanceStr ≠ untilNul x
    · have hsecond : sweepStep c st { s with entries := rest, sweep := .reading path mode dev } =
          some { s with
            entries := rest
            sweep := .removing path mode dev
            removed := s.removed ++ [path]
            deletes := s.deletes ++ [toDelete st path mode dev] } := sweepStep_stale rfl hx hdiffers
      refine ⟨_, .head hfirst (.head hsecond (.head (sweepStep_removing rfl h.idle) (.refl _))), ?_,
        rfl, rfl, hdirs⟩
      have hgone : gone st mp T₀ (q ++ mp) [n] = [n :: (q ++ mp)] := by
        rw [gone, List.filter_cons, if_pos (hstale.trans (decide_eq_true hdiffers))]
        rfl
      rw [hgone]
      exact h.remove honly n q hq hnode hfresh mode dev rfl rfl rfl
    · have hstep : sweepStep c st { s with entries := rest, sweep := .reading path mode dev } =
          some { s with entries := rest, sweep := .listing } := by
        refine sweepStep_own rfl (fun x' hx' => ?_)
        cases hx.symm.trans hx'
        exact not_not.mp hdiffers
      exact ⟨_, .of_step h (.head hfirst (.head hstep (.refl _)))
        (hstale.trans (decide_eq_false hdiffers)) rfl rfl rfl rfl hdirs⟩

/-- The sweep looks at one entry of a directory. -/
theorem looked_entry (honly : OnlyItself c st mp) (hn : T₀.get (n :: (q ++ mp)) ≠ none)
    (rest : List CStr) (hlisting : s.sweep = .listing)
    (hentries : s.entries = pathFrom st.mountpoint mp (n :: (q ++ mp)) :: rest) :
    ∃ s', Looked c st mp T₀ (q ++ mp) [n] rest removed s s' := by
  have hget := h.get_eq n q hq hfresh
  have hpath : pathFrom st.mountpoint mp (n :: (q ++ mp)) =
      fullpath (pathFrom st.mountpoint mp (q ++ mp)) n.val :=
    pathFrom_cons _ _ _ n (List.suffix_append q mp)
  have hden := denotesDir_pathFrom _ _ _ hm.toDenotesDir (List.suffix_append q mp)
  have hfirst : sweepStep c st s =
      some (Sweep.visit (pathFrom st.mountpoint mp (n :: (q ++ mp))) { s with entries := rest }) := by
    rw [sweepStep, hlisting]
    dsimp only
    rw [hentries]
  obtain ⟨e, he⟩ := Option.ne_none_iff_exists'.mp hn
  have hvisit := visit_name _ n (q ++ mp) hden { s with entries := rest } e (hget.trans he)
  rw [← hpath] at hvisit
  rw [hvisit] at hfirst
  have hstay : queued T₀ (q ++ mp) [n] = [] →
      s.dirs = s.dirs ++ (queued T₀ (q ++ mp) [n]).map (pathFrom st.mountpoint mp) := by
    intro hqueued
    rw [hqueued, List.map_nil, List.append_nil]
  rcases e with a | ⟨mode, content⟩ | ⟨mode, dev⟩
  · -- a directory is queued, unless it has the name of the metadata directory
    have hstale : isStale st mp T₀ (n :: (q ++ mp)) = false := by rw [isStale, he]
    dsimp only at hfirst
    by_cases hname : n = nameMetadata
    · rw [if_pos hname] at hfirst
      exact ⟨_, .of_step h (.head hfirst (.refl _)) hstale rfl rfl rfl hlisting
        (hstay (queued_of_not (fun hand => hand.2 hname)))⟩
    · rw [if_neg hname] at hfirst
      refine ⟨_, .of_step h (.head hfirst (.refl _)) hstale rfl rfl rfl hlisting ?_⟩
      rw [queued_of_dir ⟨a, he⟩ hname]
      rfl
  · have hstale : isStale st mp T₀ (n :: (q ++ mp)) = false := by rw [isStale, he]
    exact ⟨_, .of_step h (.head hfirst (.refl _)) hstale rfl rfl rfl hlisting
      (hstay (queued_of_not (fun hand => T₀.not_isDir_of_leaf _ _ he hand.1)))⟩
  · dsimp only at hfirst
    by_cases hkind : (isBlk mode || isChr mode) = true
    · rw [if_pos hkind] at hfirst
      exact looked_device hm q hq n s removed h hfresh honly mode dev rest he hkind hfirst
    · have hstale : isStale st mp T₀ (n :: (q ++ mp)) = false := by
        rw [isStale, he]
        dsimp only
        rw [Bool.eq_false_iff.mpr hkind, Bool.false_and]
      rw [if_neg hkind] at hfirst
      exact ⟨_, .of_step h (.head hfirst (.refl _)) hstale rfl rfl rfl hlisting
        (hstay (queued_of_not (fun hand => T₀.not_isDir_of_leaf _ _ he hand.1)))⟩

end Entry

theorem gone_append (m : Location) (names names' : List Name) :
    gone st mp T₀ m (names ++ names') = gone st mp T₀ m names ++ gone st mp T₀ m names' := by
  rw [gone, List.filter_append, List.map_append]
  rfl

theorem mem_gone {m k : Location} {names : List Name} :
    k ∈ gone st mp T₀ m names ↔ ∃ n ∈ names, isStale st mp T₀ (n :: m) = true ∧ k = n :: m := by
  rw [gone, List.mem_map]
  constructor
  · rintro ⟨n, hn, rfl⟩
    exact ⟨n, (List.mem_filter.mp hn).1, (List.mem_filter.mp hn).2, rfl⟩
  · rintro ⟨n, hn, hstale, rfl⟩
    exact ⟨n, List.mem_filter.mpr ⟨hn, hstale⟩, rfl⟩

theorem Looked.trans {m : Location} {names names' : List Name} {rest rest' : List CStr}
    {removed : List Location} {s s₁ s' : Coldplug σ}
    (h : Looked c st mp T₀ m names rest removed s s₁)
    (h' : Looked c st mp T₀ m names' rest' (removed ++ gone st mp T₀ m names) s₁ s') :
    Looked c st mp T₀ m (names ++ names') rest' removed s s' where
  sweeps := h.sweeps.trans h'.sweeps
  at_end := by
    rw [gone_append, ← List.append_assoc]
    exact h'.at_end
  listing := h'.listing
  entries := h'.entries
  dirs := by
    have hqueued : queued T₀ m (names ++ names') = queued T₀ m names ++ queued T₀ m names' := by
      rw [queued, List.filter_append, List.map_append]
      rfl
    rw [h'.dirs, h.dirs, hqueued, List.map_append, List.append_assoc]

/-- The sweep looks at all entries of a directory. -/
theorem looked_entries (hm : MountedAt st.mountpoint mp) (honly : OnlyItself c st mp)
    (q : Location) (hq : nameMetadata ∉ q) (cs : List CStr)
    (hcs : ∀ x ∈ cs, x ∈ entryNames T₀ (q ++ mp)) (hnodup : cs.Nodup) (s : Coldplug σ)
    (removed : List Location) (h : At st mp T₀ s removed)
    (hfresh : ∀ n : Name, n.val ∈ cs → n :: (q ++ mp) ∉ removed) (hlisting : s.sweep = .listing)
    (hentries : s.entries = cs.map (fullpath (pathFrom st.mountpoint mp (q ++ mp)))) :
    ∃ s', Looked c st mp T₀ (q ++ mp) (cs.filterMap nameOf) [] removed s s' := by
  have hden := denotesDir_pathFrom _ _ _ hm.toDenotesDir (List.suffix_append q mp)
  induction cs generalizing s removed with
  | nil =>
    refine ⟨s, .refl s, ?_, hlisting, hentries, (List.append_nil _).symm⟩
    exact (List.append_nil removed).symm ▸ h
  | cons x cs ih =>
    have hrest : ∀ x' ∈ cs, x' ∈ entryNames T₀ (q ++ mp) :=
      fun x' hx' => hcs x' (List.mem_cons_of_mem x hx')
    rw [List.map_cons] at hentries
    rw [List.nodup_cons] at hnodup
    rcases or_assoc.mpr ((mem_entryNames T₀ (q ++ mp) x).mp (hcs x List.mem_cons_self)) with
      hdots | ⟨n, rfl, hn⟩
    · have hstep : sweepStep c st s = some { s with
          entries := cs.map (fullpath (pathFrom st.mountpoint mp (q ++ mp))) } := by
        rw [sweepStep, hlisting]
        dsimp only
        rw [hentries]
        dsimp only
        rw [visit_dots _ x hden.ne_nil hdots]
      have hname : nameOf x = none := by
        rcases hdots with rfl | rfl <;> exact dif_neg (by decide)
      obtain ⟨s', hlooked⟩ := ih hrest hnodup.2 { s with
          entries := cs.map (fullpath (pathFrom st.mountpoint mp (q ++ mp))) } removed
        (h.congr rfl rfl rfl) (fun n hn => hfresh n (List.mem_cons_of_mem x hn)) hlisting rfl
      refine ⟨s', ?_⟩
      rw [List.filterMap_cons, hname]
      exact ⟨hlooked.sweeps.head hstep, hlooked.at_end, hlooked.listing, hlooked.entries,
        hlooked.dirs⟩
    · have hpath : fullpath (pathFrom st.mountpoint mp (q ++ mp)) n.val =
          pathFrom st.mountpoint mp (n :: (q ++ mp)) :=
        (pathFrom_cons _ _ _ n (List.suffix_append q mp)).symm
      rw [hpath] at hentries
      obtain ⟨s₁, hlooked⟩ := looked_entry hm q hq n s removed h (hfresh n List.mem_cons_self) honly
        hn _ hlisting hentries
      have hfresh' : ∀ n' : Name, n'.val ∈ cs →
          n' :: (q ++ mp) ∉ removed ++ gone st mp T₀ (q ++ mp) [n] := by
        intro n' hn' hmem
        rcases List.mem_append.mp hmem with hmem | hmem
        · exact hfresh n' (List.mem_cons_of_mem _ hn') hmem
        · obtain ⟨n'', hn'', -, heq⟩ := mem_gone.mp hmem
          rw [(List.cons.inj heq).1, List.mem_singleton.mp hn''] at hn'
          exact hnodup.1 hn'
      obtain ⟨s', hlooked'⟩ := ih hrest hnodup.2 s₁ _ hlooked.at_end hfresh' hlooked.listing
        hlooked.entries
      refine ⟨s', ?_⟩
      rw [List.filterMap_cons, nameOf_val]
      exact hlooked.trans hlooked'

/-- The devices that are removed in a directory. -/
def goneIn (st : VdevState) (mp : Location) (T₀ : FS) (m : Location) : List Location :=
  gone st mp T₀ m (childNames T₀ m)

/-- The sweep goes through the directories that it has queued. -/
theorem sweeps_walk (hm : MountedAt st.mountpoint mp) (honly : OnlyItself c st mp)
    {queue order : List Location} (hwalk : Walk (subdirs (goodDirs T₀)) queue order)
    (hgood : ∀ m ∈ order, ∃ q, m = q ++ mp ∧ T₀.IsDir m ∧ nameMetadata ∉ q)
    (hnodup : order.Nodup) (s : Coldplug σ) (removed : List Location)
    (h : At st mp T₀ s removed) (hfresh : ∀ k ∈ removed, k.tail ∉ order)
    (hscanning : s.sweep = .scanning)
    (hdirs : s.dirs = queue.map (pathFrom st.mountpoint mp)) :
    ∃ s', Sweeps c st s s' ∧ At st mp T₀ s' (removed ++ order.flatMap (goneIn st mp T₀)) ∧
      s'.sweep = .finished := by
  induction hwalk generalizing s removed with
  | done =>
    have hstep : sweepStep c st s = some { s with sweep := .finished } := by
      rw [sweepStep, hscanning]
      dsimp only
      rw [hdirs]
      rfl
    refine ⟨_, .head hstep (.refl _), ?_, rfl⟩
    rw [List.flatMap_nil, List.append_nil]
    exact h.congr rfl rfl rfl
  | step m rest order hrest ih =>
    obtain ⟨q, rfl, hdir, hq⟩ := hgood m List.mem_cons_self
    rw [List.nodup_cons] at hnodup
    have hnew : ∀ n : Name, n :: (q ++ mp) ∉ removed := fun n hmem =>
      hfresh _ hmem List.mem_cons_self
    have hentries : entryNames s.world.1 (q ++ mp) = entryNames T₀ (q ++ mp) :=
      entryNames_congr _ _ _ (fun n => h.get_eq n q hq (hnew n))
    have hnow : s.world.1.IsDir (q ++ mp) := h.isDir q hq hdir
    have hscan := (denotesDir_pathFrom _ _ _ hm.toDenotesDir (List.suffix_append q mp)).scandir_dir
      s.world.1 hnow
    change scandir s.world.1 _ = .ok (entryNames s.world.1 (q ++ mp)) at hscan
    rw [hentries] at hscan
    have hfirst : sweepStep c st s = some { s with
        dirs := rest.map (pathFrom st.mountpoint mp)
        entries := (entryNames T₀ (q ++ mp)).map (fullpath (pathFrom st.mountpoint mp (q ++ mp)))
        sweep := .listing } := by
      rw [sweepStep, hscanning]
      dsimp only
      rw [hdirs, List.map_cons]
      dsimp only
      rw [hscan]
    obtain ⟨s₁, hlooked⟩ := looked_entries hm honly q hq (entryNames T₀ (q ++ mp)) (fun _ hx => hx)
      (nodup_entryNames T₀ (q ++ mp)) { s with
        dirs := rest.map (pathFrom st.mountpoint mp)
        entries := (entryNames T₀ (q ++ mp)).map (fullpath (pathFrom st.mountpoint mp (q ++ mp)))
        sweep := .listing } removed (h.congr rfl rfl rfl) (fun n _ => hnew n) rfl rfl
    have hlast : sweepStep c st s₁ = some { s₁ with sweep := .scanning } := by
      rw [sweepStep, hlooked.listing]
      dsimp only
      rw [hlooked.entries]
    have hqueue : s₁.dirs = (rest ++ subdirs (goodDirs T₀) (q ++ mp)).map
        (pathFrom st.mountpoint mp) := by
      rw [hlooked.dirs, List.map_append]
      rfl
    have hfresh' : ∀ k ∈ removed ++ goneIn st mp T₀ (q ++ mp), k.tail ∉ order := by
      intro k hk
      rcases List.mem_append.mp hk with hk | hk
      · exact fun hmem => hfresh k hk (List.mem_cons_of_mem _ hmem)
      · obtain ⟨n, -, -, rfl⟩ := mem_gone.mp hk
        exact hnodup.1
    obtain ⟨s', hsweeps, hat, hfinished⟩ := ih (fun m hm => hgood m (List.mem_cons_of_mem _ hm))
      hnodup.2 { s₁ with sweep := .scanning } (removed ++ goneIn st mp T₀ (q ++ mp))
      (hlooked.at_end.congr rfl rfl rfl) hfresh' rfl hqueue
    refine ⟨s', .head hfirst (hlooked.sweeps.trans (.head hlast hsweeps)), ?_, hfinished⟩
    rw [List.flatMap_cons, ← List.append_assoc]
    exact hat

theorem isStale_iff (hm : MountedAt st.mountpoint mp) (n : Name) (q : Location) :
    isStale st mp T₀ (n :: (q ++ mp)) = true ↔
      IsNode T₀ (n :: (q ++ mp)) ∧ Stale st mp T₀ (n :: q) := by
  have hnot : (∀ mode dev, T₀.get (n :: (q ++ mp)) ≠ some (.leaf (.device mode dev))) →
      ¬(IsNode T₀ (n :: (q ++ mp)) ∧ Stale st mp T₀ (n :: q)) := by
    rintro hno ⟨⟨mode, dev, hget, -⟩, -⟩
    exact hno mode dev hget
  rw [isStale]
  rcases hget : T₀.get (n :: (q ++ mp)) with _ | _ | ⟨mode, content⟩ | ⟨mode, dev⟩
  · exact iff_of_false Bool.false_ne_true (hnot (by rw [hget]; exact nofun))
  · exact iff_of_false Bool.false_ne_true (hnot (by rw [hget]; exact nofun))
  · exact iff_of_false Bool.false_ne_true (hnot (by rw [hget]; exact nofun))
  · have hnode : IsNode T₀ (n :: (q ++ mp)) ↔ (isBlk mode || isChr mode) = true := by
      constructor
      · rintro ⟨mode', dev', hget', hkind⟩
        rw [hget] at hget'
        cases hget'
        exact hkind
      · exact fun hkind => ⟨mode, dev, hget, hkind⟩
    have hread := readVdevdInstance_eq_ok_iff hm T₀ n q
    dsimp only
    rw [Bool.and_eq_true, hnode]
    refine and_congr_right (fun _ => ?_)
    cases hT : readVdevdInstance st (pathFrom st.mountpoint mp (n :: (q ++ mp))) T₀ with
    | error e =>
      refine iff_of_false Bool.false_ne_true ?_
      rintro ⟨mode, content, hfile, -⟩
      have hok := (hread _).mpr ⟨mode, content, hfile, rfl⟩
      rw [hT] at hok
      cases hok
    | ok x =>
      obtain ⟨mode, content, hfile, rfl⟩ := (hread x).mp hT
      dsimp only
      rw [decide_eq_true_eq]
      constructor
      · exact fun hne => ⟨mode, content, hfile, hne⟩
      · rintro ⟨mode', content', hfile', hne⟩
        rw [hfile] at hfile'
        cases hfile'
        exact hne

/-- A device with a record is not where the metadata directory should be. -/
theorem outside_of_stale (n : Name) (q : Location) (hnode : IsNode T₀ (n :: (q ++ mp)))
    (hstale : Stale st mp T₀ (n :: q)) (hq : nameMetadata ∉ q) :
    ¬nameMetadata :: mp <:+ n :: q ++ mp := by
  rintro ⟨t, ht⟩
  have hcancel : t ++ [nameMetadata] = n :: q := by
    refine (List.append_left_inj mp).mp ?_
    rw [List.append_assoc]
    exact ht
  cases q with
  | nil =>
    have hn : n = nameMetadata := by
      have hlast := congrArg List.getLast? hcancel
      rw [List.getLast?_concat] at hlast
      exact (Option.some.inj hlast).symm
    subst hn
    obtain ⟨mode, dev, hget, -⟩ := hnode
    obtain ⟨mode', content, hfile, -⟩ := hstale
    -- the record stands below the metadata directory
    have hsub : nameMetadata :: mp <:+ instanceFile mp [nameMetadata] :=
      ⟨[nameInstance, nameMetadata, nameDev], rfl⟩
    have hdir := T₀.isDir_of_suffix hsub (fun heq => ?_) (by rw [hfile]; exact Option.some_ne_none _)
    · exact T₀.not_isDir_of_leaf _ _ hget hdir
    · have hlen := congrArg List.length heq
      simp [instanceFile, metadataDir, metadataRoot] at hlen
  | cons n' q =>
    have hlast := congrArg List.getLast? hcancel
    rw [List.getLast?_concat, List.getLast?_cons_cons] at hlast
    exact hq (List.mem_of_getLast? hlast.symm)

/-- The sweep removes the devices that it gets to. -/
theorem sweeps_start (hm : MountedAt st.mountpoint mp) (honly : OnlyItself c st mp) (w : FS × σ)
    (hmp : w.1.IsDir mp) : ∃ s, Sweeps c st (start st [] w) s ∧ s.sweep = .finished ∧
      s.removed.Nodup ∧ ∀ path, path ∈ s.removed ↔
        ∃ r, StaleNode st mp w.1 r ∧ nameMetadata ∉ r.tail ∧
          path = pathFrom st.mountpoint mp (r ++ mp) := by
  have hdirs := mem_goodDirs w.1
  obtain ⟨order, hwalk⟩ := exists_walk_subdirs (nodup_goodDirs w.1) hdirs hmp
  have hforest := forest_subdirs (nodup_goodDirs w.1) mp
  have hmem : ∀ m, m ∈ order ↔ ∃ q, m = q ++ mp ∧ w.1.IsDir m ∧ nameMetadata ∉ q := by
    intro m
    rw [mem_walk hforest hwalk, reach_subdirs_iff hdirs hmp]
    refine exists_congr (fun q => and_congr_right (fun _ => and_congr_right (fun _ => ?_)))
    exact ⟨fun h hmem => h _ hmem rfl, fun h n hn heq => h (heq ▸ hn)⟩
  have hnodup := walk_nodup hforest hwalk
  have hstart : At st mp w.1 (start st [] w) [] := ⟨rfl, rfl, nofun, fun _ _ _ => rfl⟩
  obtain ⟨s, hsweeps, hat, hfinished⟩ := sweeps_walk hm honly hwalk (fun m h => (hmem m).mp h)
    hnodup (start st [] w) [] hstart nofun rfl
    (by rw [List.map_singleton, pathFrom_self]; rfl)
  rw [List.nil_append] at hat
  have hgone : ∀ k, k ∈ order.flatMap (goneIn st mp w.1) ↔
      ∃ r, StaleNode st mp w.1 r ∧ nameMetadata ∉ r.tail ∧ k = r ++ mp := by
    intro k
    rw [List.mem_flatMap]
    constructor
    · rintro ⟨m, hmorder, hk⟩
      obtain ⟨q, rfl, -, hq⟩ := (hmem m).mp hmorder
      obtain ⟨n, -, hstale, rfl⟩ := mem_gone.mp hk
      obtain ⟨hnode, hrecord⟩ := (isStale_iff hm n q).mp hstale
      exact ⟨n :: q, ⟨hnode, outside_of_stale n q hnode hrecord hq, hrecord⟩, hq, rfl⟩
    · rintro ⟨r, hr, hq, rfl⟩
      obtain ⟨mode, dev, hget, hkind⟩ := hr.node
      cases r with
      | nil => exact absurd hmp (w.1.not_isDir_of_leaf mp _ hget)
      | cons n q =>
        have hn : w.1.get (n :: (q ++ mp)) ≠ none := by
          rw [List.cons_append] at hget
          rw [hget]
          exact Option.some_ne_none _
        refine ⟨q ++ mp, (hmem _).mpr ⟨q, rfl, w.1.isDir_parent n _ hn, hq⟩, mem_gone.mpr ?_⟩
        exact ⟨n, (mem_childNames w.1 _ n).mpr hn, (isStale_iff hm n q).mpr ⟨hr.node, hr.stale⟩, rfl⟩
  have hinj : ∀ k ∈ order.flatMap (goneIn st mp w.1), ∀ k' ∈ order.flatMap (goneIn st mp w.1),
      pathFrom st.mountpoint mp k = pathFrom st.mountpoint mp k' → k = k' := by
    intro k hk k' hk' heq
    obtain ⟨r, -, -, rfl⟩ := (hgone k).mp hk
    obtain ⟨r', -, -, rfl⟩ := (hgone k').mp hk'
    rw [pathFrom_injective hm r r' heq]
  refine ⟨s, hsweeps, hfinished, ?_, fun path => ?_⟩
  · rw [hat.removed_eq]
    refine (List.nodup_flatMap.mpr ⟨fun m _ => ?_, ?_⟩).map_on hinj
    · exact ((nodup_childNames w.1 m).filter _).map (fun a b hab => (List.cons.inj hab).1)
    · refine hnodup.imp (fun {m m'} hne k hk hk' => ?_)
      obtain ⟨n, -, -, rfl⟩ := mem_gone.mp hk
      obtain ⟨n', -, -, heq⟩ := mem_gone.mp hk'
      exact hne (List.cons.inj heq).2
  · rw [hat.removed_eq, List.mem_map]
    constructor
    · rintro ⟨k, hk, rfl⟩
      obtain ⟨r, hr, hq, rfl⟩ := (hgone k).mp hk
      exact ⟨r, hr, hq, rfl⟩
    · rintro ⟨r, hr, hq, rfl⟩
      exact ⟨r ++ mp, (hgone _).mpr ⟨r, hr, hq, rfl⟩, rfl⟩

/-- A sweep that leaves no device of another instance out has found none of them in a
directory with the name of the metadata directory. -/
theorem SweptOnce.not_mem_tail (hm : MountedAt st.mountpoint mp) (honly : OnlyItself c st mp)
    {w : FS × σ} (hmp : w.1.IsDir mp) (h : SweptOnce c st mp w) (r : Location)
    (hr : StaleNode st mp w.1 r) : nameMetadata ∉ r.tail := by
  obtain ⟨s, hsweeps, hfinished, -, hremoved⟩ := sweeps_start hm honly w hmp
  obtain ⟨k, s', hrun, hfinished', -, hremoved'⟩ := h
  cases Sweeps.finished_unique hsweeps ⟨k, hrun⟩ hfinished hfinished'
  obtain ⟨r', -, hq, heq⟩ := (hremoved _).mp ((hremoved' _).mpr ⟨r, hr, rfl⟩)
  rw [pathFrom_injective hm r r' heq]
  exact hq

/-- The sweep removes each device of another instance once exactly if none of them is in
a directory with the name of the metadata directory. -/
theorem sweptOnce_iff (hm : MountedAt st.mountpoint mp) (honly : OnlyItself c st mp) (w : FS × σ)
    (hmp : w.1.IsDir mp) :
    SweptOnce c st mp w ↔ ∀ r, StaleNode st mp w.1 r → nameMetadata ∉ r.tail := by
  constructor
  · exact fun h r hr => h.not_mem_tail hm honly hmp r hr
  · intro hall
    obtain ⟨s, ⟨k, hrun⟩, hfinished, hnodup, hremoved⟩ := sweeps_start hm honly w hmp
    refine ⟨k, s, hrun, hfinished, hnodup, fun path => (hremoved path).trans ?_⟩
    refine exists_congr (fun r => and_congr_right (fun hr => ?_))
    exact and_iff_right (hall r hr)

end Listing

section Only

/-- Removing the node of a device keeps every other entry. -/
theorem removeNode_get (st : VdevState) (req : Request) (p : CStr) (mp q : Location) (n : Name)
    (T : FS) (hm : DenotesDir st.mountpoint mp) (hp : Denotes p (n :: q))
    (hnode : IsNode T (n :: (q ++ mp))) (k : Location) (hk : k ≠ n :: (q ++ mp)) :
    (removeNode st req p T).get k = T.get k := by
  have hden := denotes_node st.mountpoint p mp q n hm hp
  obtain ⟨mode, dev, hget, -⟩ := hnode
  have hnd : ¬T.IsDir (n :: (q ++ mp)) := T.not_isDir_of_leaf _ _ hget
  have hremove := T.get_remove n (q ++ mp) (T.childless_of_not_isDir _ hnd)
  have hgone : (T.remove n (q ++ mp)).get (n :: (q ++ mp)) = none := by rw [hremove, if_pos rfl]
  rw [removeNode]
  split_ifs
  · dsimp only
    rw [hden.unlink_leaf T _ hget]
    dsimp only
    rw [rmdirs_of_not_empty _ n _ _ hden.toDir
      (fun hand => Tree.not_isDir_of_none _ _ hgone hand.1), hremove, if_neg hk]
  · rfl

/-- So it is with commands that leave the tree alone, and names that are kept. -/
theorem onlyItself_of_keepsTree (c : Commands (FS × σ)) (hc : KeepsTree c) (st : VdevState)
    (mp : Location) (hm : MountedAt st.mountpoint mp)
    (hname : ∀ req w, renameOutcome c st req w = (0, req.path)) : OnlyItself c st mp := by
  intro r mode dev w k hr hnode hk hrecord
  obtain ⟨n, q, rfl⟩ := List.exists_cons_of_ne_nil hr
  have hden := denotes_devPath hm n q
  rw [List.cons_append] at hnode hk ⊢
  generalize hreq : toDelete st (pathFrom st.mountpoint mp (n :: (q ++ mp))) mode dev = req
  have hpath : req.path = some (devPath st (pathFrom st.mountpoint mp (n :: (q ++ mp)))) := by
    rw [← hreq]
    rfl
  have hw := actionCreatePath_tree c req st.acts hc.rename w
  rw [deviceRemove_named c st req w _ ((hname req w).trans (by rw [hpath]))]
  by_cases hknown : devPath st (pathFrom st.mountpoint mp (n :: (q ++ mp))) = unknownPath
  · rw [hknown, removeRenamed_unknown_tree c hc, hw]
  · rw [removeRenamed_tree c hc st req _ _ hpath hknown, hw,
      ← removeNode_get st req _ mp q n w.1 hm.toDenotesDir hden hnode k hk]
    generalize removeNode st req _ w.1 = U
    by_cases hd : U.IsDir (metadataDir mp (n :: q))
    · obtain ⟨V, hV, hprune⟩ := removeMetadata_pruned st _ mp (n :: q) U hm.toDenotesDir hden hd
      rw [hV]
      dsimp only
      rw [hprune, if_neg hrecord]
    · rw [removeMetadata_absent st _ mp (n :: q) U hm.toDenotesDir hden hd]

end Only

section Runs

theorem quietCommands_renameOutcome (req : Request) (w : FS × Unit) :
    renameOutcome quietCommands bareState req w = (0, req.path) := rfl

theorem bareState_onlyItself : OnlyItself quietCommands bareState [nameDev] :=
  onlyItself_of_keepsTree quietCommands quietCommands_keepsTree bareState [nameDev]
    bareState_mountedAt quietCommands_renameOutcome

def staleRecord : Entry ℕ Leaf := .leaf (.file 0o644 (List.replicate 64 '1'))

def sdaNode : Entry ℕ Leaf := .leaf (.device (S_IFBLK ||| 0o600) 2048)

/-- A disk of another instance in `/dev`. -/
def staleTree : FS :=
  ((bareTree.put sdaName [nameDev] sdaNode).put sdaName (metadataRoot [nameDev]) (.dir 0o755)).put
    nameInstance (metadataDir [nameDev] [sdaName]) staleRecord

theorem staleTree_only (r : Location) (h : StaleNode bareState [nameDev] staleTree r) :
    r = [sdaName] := by
  have honly : ∀ k ∈ staleTree.entries.keys, isStale bareState [nameDev] staleTree k = true →
      k = [sdaName, nameDev] := by
    decide +kernel
  have hdir : staleTree.IsDir [nameDev] := by decide +kernel
  obtain ⟨mode, dev, hget, hkind⟩ := h.node
  cases r with
  | nil => exact absurd hdir (staleTree.not_isDir_of_leaf _ _ hget)
  | cons n q =>
    have hmem : n :: (q ++ [nameDev]) ∈ staleTree.entries.keys := by
      rw [Finmap.mem_keys, Tree.mem_entries]
      exact fun hnone => by rw [List.cons_append, hnone] at hget; cases hget
    have hstale := (isStale_iff bareState_mountedAt n q).mpr ⟨⟨mode, dev, hget, hkind⟩, h.stale⟩
    exact (List.append_left_inj [nameDev]).mp (honly _ hmem hstale)

theorem sweptOnce_staleTree : SweptOnce quietCommands bareState [nameDev] (staleTree, ()) := by
  refine (sweptOnce_iff bareState_mountedAt bareState_onlyItself (staleTree, ())
    (by decide +kernel)).mpr (fun r hr => ?_)
  rw [staleTree_only r hr]
  decide

def diskName : Name := ⟨"disk".toList, by decide⟩

/-- The same disk, in the directory `/dev/disk/metadata`. -/
def hiddenTree : FS :=
  let T := (bareTree.put diskName [nameDev] (.dir 0o755)).put nameMetadata [diskName, nameDev]
    (.dir 0o755)
  let T := T.put sdaName [nameMetadata, diskName, nameDev] sdaNode
  let T := T.put diskName (metadataRoot [nameDev]) (.dir 0o755)
  let T := T.put nameMetadata (diskName :: metadataRoot [nameDev]) (.dir 0o755)
  let T := T.put sdaName (nameMetadata :: diskName :: metadataRoot [nameDev]) (.dir 0o755)
  T.put nameInstance (metadataDir [nameDev] [sdaName, nameMetadata, diskName]) staleRecord

theorem hiddenTree_stale :
    StaleNode bareState [nameDev] hiddenTree [sdaName, nameMetadata, diskName] where
  node := ⟨S_IFBLK ||| 0o600, 2048, by decide +kernel, by decide⟩
  outside := by decide
  stale := ⟨0o644, List.replicate 64 '1', by decide +kernel, by decide⟩

/-- The disk in `/dev/disk/metadata` is not removed. -/
theorem hiddenTree_not_sweptOnce :
    ¬SweptOnce quietCommands bareState [nameDev] (hiddenTree, ()) := by
  intro h
  have hout := h.not_mem_tail bareState_mountedAt bareState_onlyItself (by decide +kernel) _
    hiddenTree_stale
  exact hout (by decide)

end Runs

end Vdev.SweepWalk
