import Vdev.WorkQueue

/-!
First in, first out, exactly once. In every state the heap holds two disjoint
linked lists, the worker's batch and the queue itself. What has been executed,
followed by these two lists, is what has been linked. A non-empty queue always
has a token behind it while the worker is running.
-/
namespace Vdev.QueueOrder

open LinkedList WorkQueue

variable {Addr ρ P T : Type*}

/-- `batch` and `work` are the contents of the worker's batch and of the queue. -/
structure Fifo (s : Wq Addr ρ P T) (batch work : List (Addr × ρ)) : Prop where
  batch_chain : Chain s.heap (workItr s) batch
  work_chain : Chain s.heap s.work work
  nodup : ((batch ++ work).map Prod.fst).Nodup
  order : s.executed ++ batch.map Prod.snd ++ work.map Prod.snd = s.linked
  tail_last : s.work ≠ none → s.tail = work.getLast?.map Prod.fst

/-- While the worker runs, a non-empty queue is announced: by a token, by a
producer about to post, or by a token the worker holds. -/
def Announced (s : Wq Addr ρ P T) : Prop :=
  s.running = true → s.work ≠ none →
    0 < s.workSem ∨ (∃ p n, s.producers p = .linked n) ∨ HasToken s

/-- Steps that leave the lists alone. -/
theorem Fifo.congr {s s' : Wq Addr ρ P T} {batch work : List (Addr × ρ)}
    (h : Fifo s batch work) (hheap : s'.heap = s.heap) (hitr : workItr s' = workItr s)
    (hwork : s'.work = s.work) (htail : s'.tail = s.tail)
    (hexec : s'.executed = s.executed) (hlinked : s'.linked = s.linked) :
    Fifo s' batch work where
  batch_chain := by rw [hheap, hitr]; exact h.batch_chain
  work_chain := by rw [hheap, hwork]; exact h.work_chain
  nodup := h.nodup
  order := by rw [hexec, hlinked]; exact h.order
  tail_last := by rw [hwork, htail]; exact h.tail_last

theorem Fifo.batch_eq_nil {s : Wq Addr ρ P T} {batch work : List (Addr × ρ)}
    (h : Fifo s batch work) (hitr : workItr s = none) : batch = [] := by
  have hc := h.batch_chain
  rw [hitr] at hc
  exact hc.eq_nil

theorem Fifo.fresh {s : Wq Addr ρ P T} {batch work : List (Addr × ρ)}
    (h : Fifo s batch work) {a : Addr} (ha : s.heap a = none) :
    a ∉ (batch ++ work).map Prod.fst := by
  intro hmem
  obtain ⟨x, hx, rfl⟩ := List.mem_map.mp hmem
  rcases List.mem_append.mp hx with hx | hx
  · obtain ⟨next, hget⟩ := h.batch_chain.allocated x hx
    simp [ha] at hget
  · obtain ⟨next, hget⟩ := h.work_chain.allocated x hx
    simp [ha] at hget

theorem init_fifo : Fifo (init : Wq Addr ρ P T) [] [] where
  batch_chain := rfl
  work_chain := rfl
  nodup := List.nodup_nil
  order := rfl
  tail_last := fun h => absurd rfl h

/-- The worker's locked section turns the queue into the batch. -/
theorem grab_fifo {s : Wq Addr ρ P T} {batch work : List (Addr × ρ)}
    (h : Fifo s batch work) (hpc : s.worker = .grab) :
    Fifo { s with work := none, tail := none, worker := .grabbed s.work } work [] := by
  have hnil : batch = [] := h.batch_eq_nil (by simp [workItr, hpc])
  subst hnil
  exact {
    batch_chain := h.work_chain
    work_chain := rfl
    nodup := by simpa using h.nodup
    order := by simpa using h.order
    tail_last := fun hne => absurd rfl hne }

variable [DecidableEq Addr]

/-- Executing and freeing the first node of the batch. -/
theorem execute_fifo {s : Wq Addr ρ P T} {batch work : List (Addr × ρ)}
    (h : Fifo s batch work) {a : Addr} {node : Node Addr ρ}
    (hpc : s.worker = .execute (some a)) (hnode : s.heap a = some node) :
    ∃ rest, Fifo { s with
      executed := s.executed ++ [node.data]
      heap := Function.update s.heap a none
      worker := .execute node.next } rest work := by
  have hc := h.batch_chain
  rw [show workItr s = some a by simp [workItr, hpc]] at hc
  obtain ⟨x, next, rest, rfl, hget, hrest⟩ := hc.eq_cons
  rw [hnode] at hget
  cases Option.some.inj hget
  have hnodup := h.nodup
  simp only [List.cons_append, List.map_cons, List.nodup_cons, List.map_append,
    List.mem_append, not_or] at hnodup
  refine ⟨rest, ?_⟩
  exact {
    batch_chain := hrest.update_of_notMem a none hnodup.1.1
    work_chain := h.work_chain.update_of_notMem a none hnodup.1.2
    nodup := by simpa using hnodup.2
    order := by simpa using h.order
    tail_last := h.tail_last }

/-- The first request of an empty queue becomes its head and its tail. -/
theorem link_empty_fifo {s : Wq Addr ρ P T} {batch work : List (Addr × ρ)}
    (h : Fifo s batch work) {a : Addr} {r : ρ} (ha : s.heap a = none) (hwork : s.work = none)
    (producers : P → Producer) :
    Fifo { link s a r with producers := producers, linked := s.linked ++ [r] }
      batch [(a, r)] := by
  have hfresh := h.fresh ha
  have hnil : work = [] := by
    have hc := h.work_chain
    rw [hwork] at hc
    exact hc.eq_nil
  subst hnil
  simp only [List.append_nil] at hfresh
  have hnodup := h.nodup
  simp only [List.append_nil] at hnodup
  have horder := h.order
  simp only [List.map_nil, List.append_nil] at horder
  simp only [link, hwork]
  exact {
    batch_chain := h.batch_chain.update_of_notMem a _ hfresh
    work_chain := ⟨rfl, none, by simp, rfl⟩
    nodup := by
      rw [List.map_append]
      refine List.Nodup.append hnodup (List.nodup_singleton a) ?_
      simpa using hfresh
    order := by simp [← horder]
    tail_last := by simp }

/-- Later requests are hung behind the tail. -/
theorem link_append_fifo {s : Wq Addr ρ P T} {batch work : List (Addr × ρ)}
    (h : Fifo s batch work) {a : Addr} {r : ρ} (ha : s.heap a = none) (hwork : s.work ≠ none)
    (producers : P → Producer) :
    Fifo { link s a r with producers := producers, linked := s.linked ++ [r] }
      batch (work ++ [(a, r)]) := by
  have hfresh := h.fresh ha
  rw [List.map_append, List.mem_append, not_or] at hfresh
  obtain ⟨hd, hhead⟩ := Option.ne_none_iff_exists'.mp hwork
  have hne : work ≠ [] := by
    have hc := h.work_chain
    rw [hhead] at hc
    exact hc.ne_nil
  obtain ⟨front, ⟨t, x⟩, hconcat⟩ := (List.eq_nil_or_concat work).resolve_left hne
  rw [List.concat_eq_append] at hconcat
  subst hconcat
  have htail : s.tail = some t := by
    have ht := h.tail_last hwork
    simpa using ht
  obtain ⟨next, hget⟩ := h.work_chain.allocated (t, x) (by simp)
  have hta : t ≠ a := by
    rintro rfl
    simp [ha] at hget
  have hnodup := h.nodup
  rw [List.map_append, List.nodup_append] at hnodup
  have hbatch_t : t ∉ batch.map Prod.fst := fun hmem =>
    hnodup.2.2 t hmem t (by simp) rfl
  have hwork' := h.work_chain.update_of_notMem a (some ⟨r, none⟩) hfresh.2
  have hchain := hwork'.append_node (b := a) (y := r) hnodup.2.1 (by simp) hfresh.2
  simp only [link, hhead, htail, Function.update_of_ne hta, hget]
  exact {
    batch_chain := (h.batch_chain.update_of_notMem a _ hfresh.1).update_of_notMem t _ hbatch_t
    work_chain := by
      rw [hhead] at hchain
      simpa using hchain
    nodup := by
      have hall : ((batch ++ (front ++ [(t, x)])) ++ [(a, r)]).map Prod.fst |>.Nodup := by
        rw [List.map_append]
        refine List.Nodup.append h.nodup (List.nodup_singleton a) ?_
        simpa using h.fresh ha
      simpa using hall
    order := by
      have horder := h.order
      simp only [List.map_append] at horder ⊢
      rw [← horder]
      simp
    tail_last := by simp }

theorem workerMove_fifo {s s' : Wq Addr ρ P T} {batch work : List (Addr × ρ)}
    (h : Fifo s batch work) (hmove : WorkerMove s s') :
    ∃ batch' work', Fifo s' batch' work' := by
  cases hmove with
  | start hpc => exact ⟨_, _, h.congr rfl (by simp [workItr, hpc]) rfl rfl rfl rfl⟩
  | stop hpc =>
    rcases hpc with hpc | hpc <;>
      exact ⟨_, _, h.congr rfl (by simp [workItr, hpc]) rfl rfl rfl rfl⟩
  | block hpc => exact ⟨_, _, h.congr rfl (by simp [workItr, hpc]) rfl rfl rfl rfl⟩
  | take hpc =>
    rcases hpc with hpc | hpc <;>
      exact ⟨_, _, h.congr rfl (by simp [workItr, hpc]) rfl rfl rfl rfl⟩
  | wake hpc => exact ⟨_, _, h.congr rfl (by simp [workItr, hpc]) rfl rfl rfl rfl⟩
  | grab hpc => exact ⟨work, [], grab_fifo h hpc⟩
  | foundEmpty hpc => exact ⟨_, _, h.congr rfl (by simp [workItr, hpc]) rfl rfl rfl rfl⟩
  | foundWork hpc => exact ⟨_, _, h.congr rfl (by simp [workItr, hpc]) rfl rfl rfl rfl⟩
  | readWaiters hpc => exact ⟨_, _, h.congr rfl (by simp [workItr, hpc]) rfl rfl rfl rfl⟩
  | posted hpc => exact ⟨_, _, h.congr rfl (by simp [workItr, hpc]) rfl rfl rfl rfl⟩
  | post hpc => exact ⟨_, _, h.congr rfl (by simp [workItr, hpc]) rfl rfl rfl rfl⟩
  | coldplug hpc => exact ⟨_, _, h.congr rfl (by simp [workItr, hpc]) rfl rfl rfl rfl⟩
  | batchDone hpc => exact ⟨_, _, h.congr rfl (by simp [workItr, hpc]) rfl rfl rfl rfl⟩
  | execute hpc hnode =>
    obtain ⟨rest, hrest⟩ := execute_fifo h hpc hnode
    exact ⟨rest, work, hrest⟩

variable [DecidableEq P] [DecidableEq T]

theorem move_fifo {l : Label Addr ρ P T} {s s' : Wq Addr ρ P T} {batch work : List (Addr × ρ)}
    (h : Fifo s batch work) (hmove : Move s l s') : ∃ batch' work', Fifo s' batch' work' := by
  cases hmove with
  | addLink hidle hfree =>
    by_cases hwork : s.work = none
    · exact ⟨_, _, link_empty_fifo h hfree hwork _⟩
    · exact ⟨_, _, link_append_fifo h hfree hwork _⟩
  | worker hworker => exact workerMove_fifo h hworker
  | workerFatal hpc => exact ⟨_, _, h.congr rfl (by simp [workItr, hpc]) rfl rfl rfl rfl⟩
  | addPost hlinked => exact ⟨_, _, h.congr rfl rfl rfl rfl rfl rfl⟩
  | waitEnter hidle => exact ⟨_, _, h.congr rfl rfl rfl rfl rfl rfl⟩
  | waitRelease hwait hsem => exact ⟨_, _, h.congr rfl rfl rfl rfl rfl rfl⟩
  | stopRunning => exact ⟨_, _, h.congr rfl rfl rfl rfl rfl rfl⟩
  | stopPost hrun => exact ⟨_, _, h.congr rfl rfl rfl rfl rfl rfl⟩
  | osColdplugFinished => exact ⟨_, _, h.congr rfl rfl rfl rfl rfl rfl⟩

omit [DecidableEq P] [DecidableEq T] in
/-- A token is taken before the list is grabbed, so it announces the queue until then. -/
theorem workerMove_announced {s s' : Wq Addr ρ P T} (h : Announced s)
    (hmove : WorkerMove s s') : Announced s' := by
  intro hrun hwork
  cases hmove with
  | take hpc hsem => exact Or.inr (Or.inr trivial)
  | wake hpc hrunning => exact Or.inr (Or.inr trivial)
  | grab hpc => exact absurd rfl hwork
  | stop hpc hstopped =>
    change s.running = true at hrun
    simp [hstopped] at hrun
  | start hpc => simpa [HasToken, hpc] using h hrun hwork
  | block hpc => simpa [HasToken, hpc] using h hrun hwork
  | foundEmpty hpc => simpa [HasToken, hpc] using h hrun hwork
  | foundWork hpc => simpa [HasToken, hpc] using h hrun hwork
  | readWaiters hpc => simpa [HasToken, hpc] using h hrun hwork
  | posted hpc => simpa [HasToken, hpc] using h hrun hwork
  | post hpc => simpa [HasToken, hpc] using h hrun hwork
  | coldplug hpc => simpa [HasToken, hpc] using h hrun hwork
  | batchDone hpc => simpa [HasToken, hpc] using h hrun hwork
  | execute hpc => simpa [HasToken, hpc] using h hrun hwork

theorem move_announced {l : Label Addr ρ P T} {s s' : Wq Addr ρ P T} (h : Announced s)
    (hmove : Move s l s') : Announced s' := by
  intro hrun hwork
  cases hmove with
  | addLink hidle hfree => exact Or.inr (Or.inl ⟨_, _, Function.update_self ..⟩)
  | addPost hlinked => exact Or.inl (Nat.succ_pos _)
  | worker hworker => exact workerMove_announced h hworker hrun hwork
  | workerFatal hpc => simpa [HasToken, hpc] using h hrun hwork
  | waitEnter hidle => exact h hrun hwork
  | waitRelease hwait hsem => exact h hrun hwork
  | stopRunning => cases hrun
  | stopPost hstopped =>
    change s.running = true at hrun
    simp [hstopped] at hrun
  | osColdplugFinished => exact h hrun hwork

theorem run_fifo {labels : List (Label Addr ρ P T)} {s : Wq Addr ρ P T}
    (h : Runs.run step labels init = some s) : ∃ batch work, Fifo s batch work := by
  refine Runs.run_invariant step (fun s => ∃ batch work, Fifo s batch work) ?_
    ⟨[], [], init_fifo⟩ h
  rintro l s s' ⟨batch, work, hf⟩ hstep
  exact move_fifo hf (step_move hstep)

/-- The worker never follows a dangling pointer. -/
theorem run_execute_allocated {labels : List (Label Addr ρ P T)} {s : Wq Addr ρ P T}
    (h : Runs.run step labels init = some s) {a : Addr} (hpc : s.worker = .execute (some a)) :
    s.heap a ≠ none := by
  obtain ⟨batch, work, hf⟩ := run_fifo h
  have hc := hf.batch_chain
  rw [show workItr s = some a by simp [workItr, hpc]] at hc
  obtain ⟨x, next, rest, -, hget, -⟩ := hc.eq_cons
  simp [hget]

/-- Every interleaving executes the added requests once, in the order of their
link steps, keeps the tail pointer on the last node and loses no wake-up. -/
theorem queue_exactly_once_fifo (labels : List (Label Addr ρ P T)) (s : Wq Addr ρ P T)
    (h : Runs.run step labels init = some s) :
    (∃ batch work, Chain s.heap (workItr s) batch ∧ Chain s.heap s.work work ∧
      s.executed ++ batch.map Prod.snd ++ work.map Prod.snd = s.linked ∧
      (s.work ≠ none → ∃ last, work.getLast? = some last ∧ s.tail = some last.1)) ∧
    (s.linked.Nodup → s.executed.Nodup) ∧
    (s.running = true → s.work ≠ none →
      0 < s.workSem ∨ (∃ p n, s.producers p = .linked n) ∨ HasToken s) := by
  obtain ⟨batch, work, hf⟩ := run_fifo h
  refine ⟨⟨batch, work, hf.batch_chain, hf.work_chain, hf.order, ?_⟩, ?_, ?_⟩
  · intro hwork
    obtain ⟨hd, hhead⟩ := Option.ne_none_iff_exists'.mp hwork
    have hc := hf.work_chain
    rw [hhead] at hc
    refine ⟨work.getLast hc.ne_nil, List.getLast?_eq_some_getLast _, ?_⟩
    rw [hf.tail_last hwork, List.getLast?_eq_some_getLast hc.ne_nil]
    rfl
  · intro hnodup
    rw [← hf.order, List.append_assoc] at hnodup
    exact (List.nodup_append.mp hnodup).1
  · exact Runs.run_invariant step Announced
      (fun l s s' ha hstep => move_announced ha (step_move hstep))
      (fun _ hwork => absurd rfl hwork) h

/-- Two producers; the worker has carried out the first request when the second arrives. -/
theorem queue_exactly_once_fifo_second_pending :
    let labels : List (Label ℕ Char Bool Unit) :=
      [.addLink true 0 'a', .addPost true, .worker, .worker, .worker, .worker, .worker, .worker,
        .addLink false 0 'b']
    ∃ s, Runs.run step labels init = some s ∧
      s.executed = ['a'] ∧ s.linked = ['a', 'b'] ∧ s.work = some 0 ∧
      (0 < s.workSem ∨ (∃ p n, s.producers p = .linked n) ∨ HasToken s) := by
  intro labels
  have hview : (Runs.run step labels init).map
      (fun s => (s.executed, s.linked, s.work, s.running)) =
        some (['a'], ['a', 'b'], some 0, true) := rfl
  obtain ⟨s, hs, heq⟩ := Option.map_eq_some_iff.mp hview
  simp only [Prod.mk.injEq] at heq
  obtain ⟨hexec, hlinked, hwork, hrun⟩ := heq
  refine ⟨s, hs, hexec, hlinked, hwork, ?_⟩
  exact (queue_exactly_once_fifo labels s hs).2.2 hrun (by simp [hwork])

end Vdev.QueueOrder
