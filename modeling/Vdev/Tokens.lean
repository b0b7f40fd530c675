import Vdev.QueueOrder

/-!
Tokens of the work queue. The worker announces an empty queue, and the end of
coldplug, only when it grabs an empty list, so only when it is woken more often
than it finds work. A token is posted, held by the worker, or about to be posted
by a producer that has linked its request. There is a surplus when the tokens
outnumber the grab that empties the queue. A surplus stays until the worker grabs
an empty list, whatever the producers do.
-/
namespace Vdev.Tokens

open LinkedList WorkQueue QueueOrder

variable {Addr ρ P T : Type*}

/-- The token that the worker has taken and has not used for a grab. -/
def heldToken (s : Wq Addr ρ P T) : ℕ :=
  match s.worker with
  | .woken | .grab => 1
  | _ => 0

def tokens (s : Wq Addr ρ P T) : ℕ :=
  s.workSem + heldToken s + (s.linked.length - s.returned.length)

def Surplus (s : Wq Addr ρ P T) : Prop := s.work.isSome.toNat < tokens s

/-- The posts to `end_sem` that the worker has left to do. -/
def postsLeft (s : Wq Addr ρ P T) : ℕ :=
  match s.worker with
  | .posting k => k
  | _ => 0

/-- Every request that is linked and not posted has its producer, and every
registration has its waiting thread. -/
structure Tallied (s : Wq Addr ρ P T) : Prop where
  returned_le : s.returned.length ≤ s.linked.length
  posts : Runs.Counted (fun p => s.producers p ≠ .idle) (s.linked.length - s.returned.length)
  waits : Runs.Counted (fun t => ∃ added, s.waiters t = .waiting added)
    (s.numWaiters + postsLeft s + s.endSem)

/-- The worker has ended, or it will find the queue empty once more, or it has
just found it empty and has not read `num_waiters` yet. -/
def WillAnnounce (s : Wq Addr ρ P T) : Prop :=
  s.worker = .exited ∨ Surplus s ∨ s.worker = .grabbed none ∨ s.worker = .signalEmpty

theorem init_tallied : Tallied (init : Wq Addr ρ P T) where
  returned_le := le_rfl
  posts := Runs.counted_zero (fun _ h => h rfl)
  waits := Runs.counted_zero (by rintro t ⟨added, h⟩; cases h)

variable [DecidableEq Addr]

/-- Linking a request leaves the semaphores and the waiters alone. -/
theorem link_counts (s : Wq Addr ρ P T) (a : Addr) (r : ρ) :
    (link s a r).workSem = s.workSem ∧ (link s a r).numWaiters = s.numWaiters ∧
      (link s a r).endSem = s.endSem := by
  dsimp only [link]
  split
  · exact ⟨rfl, rfl, rfl⟩
  · exact ⟨rfl, rfl, rfl⟩
  · split <;> exact ⟨rfl, rfl, rfl⟩

theorem workerMove_tallied {s s' : Wq Addr ρ P T} (h : Tallied s) (hmove : WorkerMove s s') :
    Tallied s' := by
  cases hmove with
  | stop hpc hrun =>
    refine ⟨h.returned_le, h.posts, ?_⟩
    rcases hpc with hpc | hpc <;> simpa [postsLeft, hpc] using h.waits
  | take hpc hsem =>
    refine ⟨h.returned_le, h.posts, ?_⟩
    rcases hpc with hpc | hpc <;> simpa [postsLeft, hpc] using h.waits
  | readWaiters hpc =>
    refine ⟨h.returned_le, h.posts, ?_⟩
    simpa [postsLeft, hpc] using h.waits
  | @post k hpc =>
    refine ⟨h.returned_le, h.posts, ?_⟩
    have hw := h.waits
    simp only [postsLeft, hpc] at hw ⊢
    rw [show s.numWaiters + k + (s.endSem + 1) = s.numWaiters + (k + 1) + s.endSem by omega]
    exact hw
  | start hpc => exact ⟨h.returned_le, h.posts, by simpa [postsLeft, hpc] using h.waits⟩
  | block hpc => exact ⟨h.returned_le, h.posts, by simpa [postsLeft, hpc] using h.waits⟩
  | wake hpc => exact ⟨h.returned_le, h.posts, by simpa [postsLeft, hpc] using h.waits⟩
  | grab hpc => exact ⟨h.returned_le, h.posts, by simpa [postsLeft, hpc] using h.waits⟩
  | foundEmpty hpc => exact ⟨h.returned_le, h.posts, by simpa [postsLeft, hpc] using h.waits⟩
  | foundWork hpc => exact ⟨h.returned_le, h.posts, by simpa [postsLeft, hpc] using h.waits⟩
  | posted hpc => exact ⟨h.returned_le, h.posts, by simpa [postsLeft, hpc] using h.waits⟩
  | coldplug hpc => exact ⟨h.returned_le, h.posts, by simpa [postsLeft, hpc] using h.waits⟩
  | batchDone hpc => exact ⟨h.returned_le, h.posts, by simpa [postsLeft, hpc] using h.waits⟩
  | execute hpc => exact ⟨h.returned_le, h.posts, by simpa [postsLeft, hpc] using h.waits⟩

variable [DecidableEq P] [DecidableEq T]

theorem move_tallied {l : Label Addr ρ P T} {s s' : Wq Addr ρ P T} (h : Tallied s)
    (hmove : Move s l s') : Tallied s' := by
  have hle := h.returned_le
  cases hmove with
  | @addLink p a r hidle hfree =>
    obtain ⟨-, hpc, hw, -, hr⟩ := link_frame s a r
    obtain ⟨-, hn, he⟩ := link_counts s a r
    refine ⟨?_, ?_, ?_⟩
    · simp only [hr, List.length_append, List.length_singleton]
      omega
    · have hposts := h.posts.enter p (fun hp => hp hidle)
        (g := fun q => Function.update s.producers p (.linked s.linked.length) q ≠ .idle)
        (by simp) (fun q hq => by simp [Function.update_of_ne hq])
      simp only [hr, List.length_append, List.length_singleton]
      rw [Nat.sub_add_comm hle]
      exact hposts
    · have hposts : postsLeft (link s a r) = postsLeft s := by simp only [postsLeft, hpc]
      have hwaits := h.waits
      rw [← hn, ← he, ← hposts, ← hw] at hwaits
      exact hwaits
  | @addPost p n hlinked =>
    have hne : s.producers p ≠ .idle := by simp [hlinked]
    have hpos := h.posts.pos p hne
    refine ⟨?_, ?_, h.waits⟩
    · simp only [List.length_append, List.length_singleton]
      omega
    · have hposts := h.posts
      rw [show s.linked.length - s.returned.length =
        s.linked.length - (s.returned ++ [n]).length + 1 by
          simp only [List.length_append, List.length_singleton]; omega] at hposts
      exact hposts.leave p hne (by simp) (fun q hq => by simp [Function.update_of_ne hq])
  | worker hworker => exact workerMove_tallied h hworker
  | workerFatal hpc => exact ⟨hle, h.posts, by simpa [postsLeft, hpc] using h.waits⟩
  | @waitEnter t hidle =>
    refine ⟨hle, h.posts, ?_⟩
    have hwaits := h.waits.enter t (by simp [hidle])
      (g := fun u => ∃ added, Function.update s.waiters t (.waiting s.returned) u = .waiting added)
      (by simp) (fun u hu => by simp [Function.update_of_ne hu])
    rw [show s.numWaiters + postsLeft s + s.endSem + 1 =
      s.numWaiters + 1 + postsLeft s + s.endSem by omega] at hwaits
    exact hwaits
  | @waitRelease t added hwait hsem =>
    refine ⟨hle, h.posts, ?_⟩
    have hwaits := h.waits
    rw [show s.numWaiters + postsLeft s + s.endSem =
      s.numWaiters + postsLeft s + (s.endSem - 1) + 1 by omega] at hwaits
    exact hwaits.leave t ⟨added, hwait⟩ (by simp) (fun u hu => by simp [Function.update_of_ne hu])
  | stopRunning => exact ⟨hle, h.posts, h.waits⟩
  | stopPost hrun => exact ⟨hle, h.posts, h.waits⟩
  | osColdplugFinished => exact ⟨hle, h.posts, h.waits⟩

omit [DecidableEq Addr] [DecidableEq P] [DecidableEq T] in
theorem Surplus.mono {s s' : Wq Addr ρ P T} (h : Surplus s) (hwork : s'.work = s.work)
    (htokens : tokens s ≤ tokens s') : Surplus s' := by
  unfold Surplus at h ⊢
  rw [hwork]
  exact lt_of_lt_of_le h htokens

omit [DecidableEq P] [DecidableEq T] in
/-- Only a grab uses up a token; the grab that empties the queue leaves the
surplus, and with a surplus of tokens over an empty queue the grab is empty. -/
theorem workerMove_surplus {s s' : Wq Addr ρ P T} (h : Surplus s) (hmove : WorkerMove s s') :
    s'.worker = .exited ∨ Surplus s' ∨ s'.worker = .grabbed none := by
  cases hmove with
  | stop hpc hrun => exact Or.inl rfl
  | grab hpc =>
    cases hwork : s.work with
    | none => exact Or.inr (Or.inr rfl)
    | some a =>
      refine Or.inr (Or.inl ?_)
      unfold Surplus at h ⊢
      simp only [tokens, heldToken, hpc, hwork, Option.isSome_some, Bool.toNat_true] at h
      simp only [tokens, heldToken, Option.isSome_none, Bool.toNat_false]
      omega
  | take hpc hsem =>
    refine Or.inr (Or.inl (h.mono rfl ?_))
    rcases hpc with hpc | hpc
    · simp only [tokens, heldToken, hpc]
      omega
    · simp only [tokens, heldToken, hpc]
      omega
  | start hpc => exact Or.inr (Or.inl (h.mono rfl (by simp [tokens, heldToken, hpc])))
  | block hpc => exact Or.inr (Or.inl (h.mono rfl (by simp [tokens, heldToken, hpc])))
  | wake hpc => exact Or.inr (Or.inl (h.mono rfl (by simp [tokens, heldToken, hpc])))
  | foundEmpty hpc => exact Or.inr (Or.inl (h.mono rfl (by simp [tokens, heldToken, hpc])))
  | foundWork hpc => exact Or.inr (Or.inl (h.mono rfl (by simp [tokens, heldToken, hpc])))
  | readWaiters hpc => exact Or.inr (Or.inl (h.mono rfl (by simp [tokens, heldToken, hpc])))
  | posted hpc => exact Or.inr (Or.inl (h.mono rfl (by simp [tokens, heldToken, hpc])))
  | post hpc => exact Or.inr (Or.inl (h.mono rfl (by simp [tokens, heldToken, hpc])))
  | coldplug hpc => exact Or.inr (Or.inl (h.mono rfl (by simp [tokens, heldToken, hpc])))
  | batchDone hpc => exact Or.inr (Or.inl (h.mono rfl (by simp [tokens, heldToken, hpc])))
  | execute hpc => exact Or.inr (Or.inl (h.mono rfl (by simp [tokens, heldToken, hpc])))

/-- A token that is outstanding when a request is linked becomes a surplus. -/
theorem addLink_surplus {p : P} {a : Addr} {r : ρ} {s s' : Wq Addr ρ P T} (hle : Tallied s)
    (h : 0 < tokens s) (hmove : Move s (.addLink p a r) s') : Surplus s' := by
  cases hmove with
  | addLink hidle hfree =>
    obtain ⟨-, hpc, -, -, hr⟩ := link_frame s a r
    obtain ⟨hsem, -, -⟩ := link_counts s a r
    have hret := hle.returned_le
    have hbool : ∀ b : Bool, b.toNat ≤ 1 := Bool.toNat_le
    refine lt_of_le_of_lt (hbool _) ?_
    simp only [tokens, heldToken] at h
    simp only [tokens, heldToken, hpc, hsem, hr, List.length_append, List.length_singleton]
    omega

/-- A surplus stays until the worker ends or grabs an empty list. -/
theorem move_surplus {l : Label Addr ρ P T} {s s' : Wq Addr ρ P T} (ht : Tallied s)
    (h : Surplus s) (hmove : Move s l s') :
    s'.worker = .exited ∨ Surplus s' ∨ s'.worker = .grabbed none := by
  have hpos : 0 < tokens s := lt_of_le_of_lt (Nat.zero_le _) h
  cases hmove with
  | addLink hidle hfree =>
    exact Or.inr (Or.inl (addLink_surplus ht hpos (.addLink hidle hfree)))
  | addPost hlinked =>
    refine Or.inr (Or.inl (h.mono rfl ?_))
    simp only [tokens, heldToken, List.length_append, List.length_singleton]
    omega
  | worker hworker => exact workerMove_surplus h hworker
  | workerFatal hpc => exact Or.inl rfl
  | stopPost hrun =>
    refine Or.inr (Or.inl (h.mono rfl ?_))
    simp only [tokens, heldToken]
    omega
  | waitEnter hidle => exact Or.inr (Or.inl h)
  | waitRelease hwait hsem => exact Or.inr (Or.inl h)
  | stopRunning => exact Or.inr (Or.inl h)
  | osColdplugFinished => exact Or.inr (Or.inl h)

theorem move_exited {l : Label Addr ρ P T} {s s' : Wq Addr ρ P T} (h : s.worker = .exited)
    (hmove : Move s l s') : s'.worker = .exited := by
  cases hmove with
  | @addLink p a r hidle hfree => exact (link_frame s a r).2.1.trans h
  | worker hworker => cases hworker <;> simp_all
  | workerFatal hpc => rfl
  | _ => exact h

/-- The worker does not pass over a registered thread: on the way from an empty
grab it reads `num_waiters`, and then nobody is registered. -/
theorem move_willAnnounce {l : Label Addr ρ P T} {s s' : Wq Addr ρ P T} (ht : Tallied s)
    (h : WillAnnounce s) (hmove : Move s l s') : WillAnnounce s' ∨ s'.numWaiters = 0 := by
  rcases h with h | h | h
  · exact Or.inl (Or.inl (move_exited h hmove))
  · left
    rcases move_surplus ht h hmove with h' | h' | h'
    · exact Or.inl h'
    · exact Or.inr (Or.inl h')
    · exact Or.inr (Or.inr (Or.inl h'))
  · cases hmove with
    | @addLink p a r hidle hfree =>
      have hpc := (link_frame s a r).2.1
      left
      right
      right
      exact h.imp hpc.trans hpc.trans
    | worker hworker =>
      cases hworker with
      | foundEmpty hpc => exact Or.inl (Or.inr (Or.inr (Or.inr rfl)))
      | readWaiters hpc => exact Or.inr rfl
      | stop hpc hrun => exact Or.inl (Or.inl rfl)
      | take hpc hsem => rcases hpc with hpc | hpc <;> simp [hpc] at h
      | _ => simp_all
    | workerFatal hpc => exact Or.inl (Or.inl rfl)
    | _ => exact Or.inl (Or.inr (Or.inr h))

/-- If threads register only before an announcement, one that is registered will
be announced to. -/
theorem move_served {l : Label Addr ρ P T} {s s' : Wq Addr ρ P T} (ht : Tallied s)
    (hok : ∀ t, l = .waitEnter t → WillAnnounce s) (h : WillAnnounce s ∨ s.numWaiters = 0)
    (hmove : Move s l s') : WillAnnounce s' ∨ s'.numWaiters = 0 := by
  rcases h with h | h
  · exact move_willAnnounce ht h hmove
  · cases hmove with
    | @addLink p a r hidle hfree => exact Or.inr ((link_counts s a r).2.1.trans h)
    | worker hworker =>
      right
      cases hworker with
      | readWaiters hpc => rfl
      | _ => exact h
    | @waitEnter t hidle => exact move_willAnnounce ht (hok t rfl) (.waitEnter hidle)
    | _ => exact Or.inr h

end Vdev.Tokens
