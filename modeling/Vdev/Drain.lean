import Vdev.QueueOrder

/-!
Waiting for the queue to drain. The worker takes an empty list as a sign that
the queue is drained and announces this to the threads registered at the moment
it reads `num_waiters`, which is later. An announcement is a plain token, so any
waiting thread can take it. A waiter is served correctly if, when it registers,
either nothing that was added is left to do, or no announcement is under way and
no token is lying around.
-/
namespace Vdev.Drain

open LinkedList WorkQueue QueueOrder

variable {Addr ρ P T : Type*}

/-- Every request that had been added when a released waiter entered has been executed. -/
def Drained (s : Wq Addr ρ P T) : Prop :=
  ∀ t added, s.waiters t = .released added → ∀ n ∈ added, n < s.executed.length

/-- The worker has seen an empty queue and is not done with announcing it. -/
def Announcing (s : Wq Addr ρ P T) : Prop :=
  match s.worker with
  | .grabbed none | .signalEmpty | .posting _ => True
  | _ => False

/-- A thread may register only when nothing is left to do, or when neither an
announcement nor a token of an earlier one can reach it. -/
def EntersQuietly (l : Label Addr ρ P T) (s : Wq Addr ρ P T) : Prop :=
  match l with
  | .waitEnter _ =>
    (∀ n ∈ s.returned, n < s.executed.length) ∨ (¬ Announcing s ∧ s.endSem = 0)
  | _ => True

structure Numbered (s : Wq Addr ρ P T) : Prop where
  producers : ∀ p n, s.producers p = .linked n → n < s.linked.length
  returned : ∀ n ∈ s.returned, n < s.linked.length
  waiting : ∀ t added, s.waiters t = .waiting added → ∀ n ∈ added, n < s.linked.length

/-- A waiter with work left to wait for cannot be reached by an announcement. -/
def Shielded (s : Wq Addr ρ P T) : Prop :=
  ∀ t added, s.waiters t = .waiting added →
    (∀ n ∈ added, n < s.executed.length) ∨ (¬ Announcing s ∧ s.endSem = 0)

theorem executed_all {s : Wq Addr ρ P T} {batch work : List (Addr × ρ)}
    (h : Fifo s batch work) (hitr : workItr s = none) (hwork : s.work = none) :
    s.executed.length = s.linked.length := by
  have hb := h.batch_eq_nil hitr
  have hc := h.work_chain
  rw [hwork] at hc
  have horder := h.order
  rw [hb, hc.eq_nil] at horder
  simp [← horder]

theorem Numbered.mono {s s' : Wq Addr ρ P T} (h : Numbered s)
    (hp : s'.producers = s.producers) (hr : s'.returned = s.returned)
    (hw : s'.waiters = s.waiters) (hl : s'.linked = s.linked) : Numbered s' where
  producers := by rw [hp, hl]; exact h.producers
  returned := by rw [hr, hl]; exact h.returned
  waiting := by rw [hw, hl]; exact h.waiting

/-- Steps that change neither the waiters nor what is announced. -/
theorem Shielded.mono {s s' : Wq Addr ρ P T} (h : Shielded s) (hw : s'.waiters = s.waiters)
    (hexec : s.executed.length ≤ s'.executed.length)
    (hquiet : ¬ Announcing s → s.endSem = 0 → ¬ Announcing s' ∧ s'.endSem = 0) : Shielded s' := by
  intro t added hwait
  rw [hw] at hwait
  rcases h t added hwait with hdone | ⟨ha, hsem⟩
  · left
    intro n hn
    exact lt_of_lt_of_le (hdone n hn) hexec
  · right
    exact hquiet ha hsem

theorem Drained.mono {s s' : Wq Addr ρ P T} (h : Drained s) (hw : s'.waiters = s.waiters)
    (hexec : s.executed.length ≤ s'.executed.length) : Drained s' := by
  intro t added ht n hn
  rw [hw] at ht
  exact lt_of_lt_of_le (h t added ht n hn) hexec

variable [DecidableEq Addr]

theorem workerMove_numbered {s s' : Wq Addr ρ P T} (h : Numbered s) (hmove : WorkerMove s s') :
    Numbered s' := by
  cases hmove <;> exact h.mono rfl rfl rfl rfl

/-- An empty list is grabbed only when everything linked has been executed; from
then on the announcement cannot hurt a waiter that is already registered. -/
theorem workerMove_shielded {s s' : Wq Addr ρ P T} {batch work : List (Addr × ρ)}
    (hf : Fifo s batch work) (hn : Numbered s) (h : Shielded s) (hmove : WorkerMove s s') :
    Shielded s' := by
  cases hmove with
  | grab hpc =>
    by_cases hwork : s.work = none
    · have hitr : workItr s = none := by simp [workItr, hpc]
      have hall := executed_all hf hitr hwork
      intro t added hwait
      left
      intro n hmem
      have hlt := hn.waiting t added hwait n hmem
      change n < s.executed.length
      omega
    · obtain ⟨a, ha⟩ := Option.ne_none_iff_exists'.mp hwork
      refine h.mono rfl (le_refl _) (fun _ hsem => ⟨?_, hsem⟩)
      simp [Announcing, ha]
  | foundEmpty hpc =>
    have ha : Announcing s := by simp [Announcing, hpc]
    exact h.mono rfl (le_refl _) (fun hna => absurd ha hna)
  | readWaiters hpc =>
    have ha : Announcing s := by simp [Announcing, hpc]
    exact h.mono rfl (le_refl _) (fun hna => absurd ha hna)
  | post hpc =>
    have ha : Announcing s := by simp [Announcing, hpc]
    exact h.mono rfl (le_refl _) (fun hna => absurd ha hna)
  | execute hpc hnode =>
    exact h.mono rfl (by simp) (fun _ hsem => ⟨by simp [Announcing], hsem⟩)
  | _ => exact h.mono rfl (le_refl _) (fun _ hsem => ⟨by simp [Announcing], hsem⟩)

variable [DecidableEq P] [DecidableEq T]

theorem move_numbered {l : Label Addr ρ P T} {s s' : Wq Addr ρ P T} (h : Numbered s)
    (hmove : Move s l s') : Numbered s' := by
  cases hmove with
  | @addLink p a r hidle hfree =>
    obtain ⟨-, -, hw, -, hr⟩ := link_frame s a r
    refine ⟨fun q n hq => ?_, fun n hn => ?_, fun t added ht n hn => ?_⟩
    · simp only [List.length_append, List.length_singleton]
      by_cases hqp : q = p
      · subst hqp
        simp only [Function.update_self, Producer.linked.injEq] at hq
        omega
      · simp only [Function.update_of_ne hqp] at hq
        have hlt := h.producers q n hq
        omega
    · simp only [List.length_append, List.length_singleton]
      rw [hr] at hn
      have hlt := h.returned n hn
      omega
    · simp only [List.length_append, List.length_singleton]
      rw [hw] at ht
      have hlt := h.waiting t added ht n hn
      omega
  | @addPost p m hlinked =>
    refine ⟨fun q n hq => ?_, fun n hn => ?_, h.waiting⟩
    · by_cases hqp : q = p
      · subst hqp
        simp at hq
      · simp only [Function.update_of_ne hqp] at hq
        exact h.producers q n hq
    · rcases List.mem_append.mp hn with hn | hn
      · exact h.returned n hn
      · rw [List.mem_singleton.mp hn]
        exact h.producers p m hlinked
  | worker hworker => exact workerMove_numbered h hworker
  | @waitEnter t hidle =>
    refine ⟨h.producers, h.returned, fun u added hu n hn => ?_⟩
    by_cases hut : u = t
    · subst hut
      simp only [Function.update_self, Waiter.waiting.injEq] at hu
      exact h.returned n (hu ▸ hn)
    · simp only [Function.update_of_ne hut] at hu
      exact h.waiting u added hu n hn
  | @waitRelease t old hwait hsem =>
    refine ⟨h.producers, h.returned, fun u added hu n hn => ?_⟩
    by_cases hut : u = t
    · subst hut
      simp at hu
    · simp only [Function.update_of_ne hut] at hu
      exact h.waiting u added hu n hn
  | _ => exact h.mono rfl rfl rfl rfl

theorem move_shielded {l : Label Addr ρ P T} {s s' : Wq Addr ρ P T} {batch work : List (Addr × ρ)}
    (hf : Fifo s batch work) (hn : Numbered s) (hok : EntersQuietly l s) (h : Shielded s)
    (hmove : Move s l s') : Shielded s' := by
  cases hmove with
  | @addLink p a r hidle hfree =>
    obtain ⟨hsem, hpc, hw, hexec, -⟩ := link_frame s a r
    refine h.mono hw (by simp [hexec]) (fun ha h0 => ⟨?_, by simp [hsem, h0]⟩)
    simpa [Announcing, hpc] using ha
  | worker hworker => exact workerMove_shielded hf hn h hworker
  | workerFatal hpc =>
    exact h.mono rfl (le_refl _) (fun _ hsem => ⟨by simp [Announcing], hsem⟩)
  | @waitEnter t hidle =>
    intro u added hu
    by_cases hut : u = t
    · subst hut
      simp only [Function.update_self, Waiter.waiting.injEq] at hu
      subst hu
      exact hok
    · simp only [Function.update_of_ne hut] at hu
      exact h u added hu
  | @waitRelease t old hwait hsem =>
    intro u added hu
    by_cases hut : u = t
    · subst hut
      simp at hu
    · simp only [Function.update_of_ne hut] at hu
      rcases h u added hu with hdone | ⟨-, h0⟩
      · exact Or.inl hdone
      · exact absurd h0 hsem
  | addPost hlinked => exact h.mono rfl (le_refl _) (fun ha hsem => ⟨ha, hsem⟩)
  | stopRunning => exact h.mono rfl (le_refl _) (fun ha hsem => ⟨ha, hsem⟩)
  | stopPost hrun => exact h.mono rfl (le_refl _) (fun ha hsem => ⟨ha, hsem⟩)
  | osColdplugFinished => exact h.mono rfl (le_refl _) (fun ha hsem => ⟨ha, hsem⟩)

/-- A waiter is released by a token, and a token reaches only waiters without work left. -/
theorem move_drained {l : Label Addr ρ P T} {s s' : Wq Addr ρ P T} (hs : Shielded s)
    (h : Drained s) (hmove : Move s l s') : Drained s' := by
  cases hmove with
  | @addLink p a r hidle hfree =>
    obtain ⟨-, -, hw, hexec, -⟩ := link_frame s a r
    exact h.mono hw (by simp [hexec])
  | worker hworker =>
    cases hworker with
    | execute hpc hnode => exact h.mono rfl (by simp)
    | _ => exact h.mono rfl (le_refl _)
  | @waitEnter t hidle =>
    intro u added hu
    by_cases hut : u = t
    · subst hut
      simp at hu
    · simp only [Function.update_of_ne hut] at hu
      exact h u added hu
  | @waitRelease t old hwait hsem =>
    intro u added hu
    by_cases hut : u = t
    · subst hut
      simp only [Function.update_self, Waiter.released.injEq] at hu
      subst hu
      rcases hs u old hwait with hdone | ⟨-, h0⟩
      · exact hdone
      · exact absurd h0 hsem
    · simp only [Function.update_of_ne hut] at hu
      exact h u added hu
  | _ => exact h.mono rfl (le_refl _)

/-- In every run in which threads register quietly, a released thread finds
every request that was added before it registered executed. -/
theorem drained_of_quiet_entry (labels : List (Label Addr ρ P T)) (s : Wq Addr ρ P T)
    (hok : Runs.Guarded step EntersQuietly labels init)
    (h : Runs.run step labels init = some s) : Drained s := by
  have hall := Runs.guarded_invariant step
    (fun s => (∃ batch work, Fifo s batch work) ∧ Numbered s ∧ Shielded s ∧ Drained s)
    ?_ hok ⟨⟨[], [], init_fifo⟩, ?_, ?_, ?_⟩ h
  · exact hall.2.2.2
  · rintro l s s' hl ⟨⟨batch, work, hf⟩, hn, hs, hd⟩ hstep
    have hmove := step_move hstep
    exact ⟨move_fifo hf hmove, move_numbered hn hmove, move_shielded hf hn hl hs hmove,
      move_drained hs hd hmove⟩
  · exact ⟨by simp [init], by simp [init], by simp [init]⟩
  · simp [Shielded, init]
  · simp [Drained, init]

/-- A thread registers while the worker runs a request; it is released when that
request and a later one are done. -/
def lateAnnouncement : List (Label ℕ Char Unit Unit) :=
  .addLink () 0 'a' :: .addPost () :: .waitEnter () :: .worker :: .worker ::
    .addLink () 1 'b' :: .addPost () :: (List.replicate 15 .worker ++ [.waitRelease ()])

theorem lateAnnouncement_guarded : Runs.Guarded step EntersQuietly lateAnnouncement init := by
  refine ⟨trivial, fun s₁ h₁ => ⟨trivial, fun s₂ h₂ => ⟨Or.inr ?_, fun s₃ h₃ => ?_⟩⟩⟩
  · cases Option.some.inj h₁
    cases Option.some.inj h₂
    exact ⟨id, rfl⟩
  · refine Runs.guarded_of_forall step _ _ (fun l hl s => ?_)
    cases l with
    | waitEnter t => simp at hl
    | _ => trivial

theorem drained_of_quiet_entry_lateAnnouncement :
    Runs.Guarded step EntersQuietly lateAnnouncement init ∧
    ∃ s, Runs.run step lateAnnouncement init = some s ∧
      s.waiters () = .released [0] ∧ Drained s := by
  have hview : (Runs.run step lateAnnouncement init).map (fun s => s.waiters ()) =
      some (.released [0]) := by
    decide +kernel
  obtain ⟨s, hs, hrel⟩ := Option.map_eq_some_iff.mp hview
  exact ⟨lateAnnouncement_guarded, s, hs, hrel,
    drained_of_quiet_entry lateAnnouncement s lateAnnouncement_guarded hs⟩

/-- The worker finds the queue empty; then a request is added and a thread
registers; then the worker announces the empty queue and the thread is released. -/
def staleAnnouncement : List (Label ℕ Char Unit Unit) :=
  .addLink () 0 'a' :: .addPost () :: .worker :: .worker ::
    .addLink () 1 'b' :: .addPost () :: (List.replicate 10 .worker ++
      [.addLink () 0 'c', .addPost (), .waitEnter (), .worker, .worker, .worker, .waitRelease ()])

theorem released_before_drained :
    ∃ s, Runs.run step staleAnnouncement init = some s ∧ s.waiters () = .released [0, 1, 2] ∧
      s.executed = ['a', 'b'] ∧ ¬ Drained s := by
  have hview : (Runs.run step staleAnnouncement init).map (fun s => (s.waiters (), s.executed)) =
      some (.released [0, 1, 2], ['a', 'b']) := by
    decide +kernel
  obtain ⟨s, hs, heq⟩ := Option.map_eq_some_iff.mp hview
  obtain ⟨hrel, hexec⟩ := Prod.mk.inj heq
  refine ⟨s, hs, hrel, hexec, fun hd => ?_⟩
  have hlt := hd () _ hrel 2 (by simp)
  rw [hexec] at hlt
  exact absurd hlt (by decide)

end Vdev.Drain
