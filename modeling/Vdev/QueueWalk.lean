import Vdev.TreeWalk
import Mathlib.Data.Finset.Card
import Mathlib.Data.List.Nodup

/-!
Walking a forest with a queue. Each round takes the first element off the queue and puts
its successors behind the others. In a forest nothing is the successor of two elements, so
the walk from a root comes to each element below the root once, and to an element after
the one it is a successor of. If there are finitely many, the walk ends.
-/
namespace Vdev.QueueWalk

variable {α : Type*} (next : α → List α)

/-- The walk from a queue, up to its end, takes the elements off in an order. -/
inductive Walk : List α → List α → Prop
  | done : Walk [] []
  | step (a : α) (rest order : List α) (h : Walk (rest ++ next a) order) :
      Walk (a :: rest) (a :: order)

/-- The elements below a root. -/
inductive Reach (root : α) : α → Prop
  | root : Reach root root
  | step (a b : α) (ha : Reach root a) (hb : b ∈ next a) : Reach root b

/-- Nothing below the root is a successor twice, and the root is none. -/
structure Forest (root : α) : Prop where
  nodup : ∀ a, (next a).Nodup
  parent_unique : ∀ a a' b, b ∈ next a → b ∈ next a' → a = a'
  root_not_mem : ∀ a, Reach next root a → root ∉ next a

/-- An element of a list comes after an element that it is a successor of. -/
def Ordered (root : α) (order : List α) : Prop :=
  ∀ pre b post, order = pre ++ b :: post → b = root ∨ ∃ a ∈ pre, b ∈ next a

/-- The elements that were taken off the queue, and those that are in it. -/
structure Inv (root : α) (done queue : List α) : Prop where
  nodup : (done ++ queue).Nodup
  reach : ∀ a ∈ done ++ queue, Reach next root a
  root_mem : root ∈ done ++ queue
  closed : ∀ a ∈ done, ∀ b ∈ next a, b ∈ done ++ queue
  parent : ∀ b ∈ done ++ queue, b = root ∨ ∃ a ∈ done, b ∈ next a
  ordered : Ordered next root done

variable {next} {root : α}

theorem Inv.start (root : α) : Inv next root [] [root] where
  nodup := List.nodup_singleton root
  reach := fun a ha => by
    rw [List.mem_singleton.mp ha]
    exact .root
  root_mem := List.mem_singleton_self root
  closed := nofun
  parent := fun b hb => Or.inl (List.mem_singleton.mp hb)
  ordered := fun pre b post h => by simp at h

/-- One round. -/
theorem Inv.step (hf : Forest next root) {done rest : List α} {a : α}
    (h : Inv next root done (a :: rest)) : Inv next root (done ++ [a]) (rest ++ next a) := by
  have hsplit : done ++ [a] ++ (rest ++ next a) = done ++ a :: rest ++ next a := by simp
  have hreach : Reach next root a := h.reach a (by simp)
  have hnot : a ∉ done := fun ha =>
    (List.disjoint_of_nodup_append h.nodup) ha List.mem_cons_self
  have hfresh : ∀ b ∈ next a, b ∉ done ++ a :: rest := by
    intro b hb hmem
    rcases h.parent b hmem with rfl | ⟨a', ha', hb'⟩
    · exact hf.root_not_mem a hreach hb
    · exact hnot (hf.parent_unique a' a b hb' hb ▸ ha')
  refine ⟨?_, ?_, ?_, ?_, ?_, ?_⟩
  · rw [hsplit, List.nodup_append']
    exact ⟨h.nodup, hf.nodup a, fun b hb hb' => hfresh b hb' hb⟩
  · intro b hb
    rw [hsplit] at hb
    rcases List.mem_append.mp hb with hb | hb
    · exact h.reach b hb
    · exact .step a b hreach hb
  · rw [hsplit]
    exact List.mem_append_left _ h.root_mem
  · intro b hb b' hb'
    rw [hsplit]
    rcases List.mem_append.mp hb with hb | hb
    · exact List.mem_append_left _ (h.closed b hb b' hb')
    · rw [List.mem_singleton.mp hb] at hb'
      exact List.mem_append_right _ hb'
  · intro b hb
    rw [hsplit] at hb
    rcases List.mem_append.mp hb with hb | hb
    · rcases h.parent b hb with hroot | ⟨a', ha', hb'⟩
      · exact Or.inl hroot
      · exact Or.inr ⟨a', List.mem_append_left _ ha', hb'⟩
    · exact Or.inr ⟨a, by simp, hb⟩
  · intro pre b post heq
    rcases List.eq_nil_or_concat post with rfl | ⟨post, x, rfl⟩
    · have hb := List.append_inj' heq rfl
      cases hb.2
      rcases h.parent a (by simp) with hroot | hparent
      · exact Or.inl hroot
      · rw [← hb.1]
        exact Or.inr hparent
    · rw [List.concat_eq_append, ← List.cons_append, ← List.append_assoc] at heq
      exact h.ordered pre b post (List.append_inj' heq rfl).1

/-- A whole walk. -/
theorem Inv.walk (hf : Forest next root) {done queue order : List α}
    (h : Inv next root done queue) (hwalk : Walk next queue order) :
    Inv next root (done ++ order) [] := by
  induction hwalk generalizing done with
  | done =>
    rw [List.append_nil]
    exact h
  | step a rest order _ ih =>
    have hnext := ih (h.step hf)
    rw [List.append_assoc] at hnext
    exact hnext

section Order

variable (hf : Forest next root) {order : List α} (hwalk : Walk next [root] order)

include hf hwalk

theorem walk_inv : Inv next root order [] := (Inv.start root).walk hf hwalk

theorem walk_nodup : order.Nodup := by
  have h := (walk_inv hf hwalk).nodup
  rw [List.append_nil] at h
  exact h

theorem mem_walk (a : α) : a ∈ order ↔ Reach next root a := by
  have h := walk_inv hf hwalk
  constructor
  · intro ha
    exact h.reach a (List.mem_append_left _ ha)
  · intro ha
    induction ha with
    | root => simpa using h.root_mem
    | step a b _ hb ih => simpa using h.closed a ih b hb

theorem walk_ordered : Ordered next root order := (walk_inv hf hwalk).ordered

end Order

/-- In a finite forest the walk ends. -/
theorem Inv.exists_walk [DecidableEq α] (hf : Forest next root) (S : Finset α)
    (hS : ∀ a, Reach next root a → a ∈ S) (done queue : List α) (h : Inv next root done queue) :
    ∃ order, Walk next queue order := by
  induction hleft : S.card - done.length generalizing done queue with
  | zero =>
    cases queue with
    | nil => exact ⟨[], .done⟩
    | cons a rest =>
      have hcard : (done ++ a :: rest).toFinset.card ≤ S.card := Finset.card_le_card
        (fun b hb => hS b (h.reach b (List.mem_toFinset.mp hb)))
      rw [List.toFinset_card_of_nodup h.nodup, List.length_append, List.length_cons] at hcard
      omega
  | succ left ih =>
    cases queue with
    | nil => exact ⟨[], .done⟩
    | cons a rest =>
      obtain ⟨order, horder⟩ := ih (done ++ [a]) (rest ++ next a) (h.step hf)
        (by rw [List.length_append, List.length_singleton]; omega)
      exact ⟨a :: order, .step a rest order horder⟩

theorem exists_walk [DecidableEq α] (hf : Forest next root) (S : Finset α)
    (hS : ∀ a, Reach next root a → a ∈ S) : ∃ order, Walk next [root] order :=
  (Inv.start root).exists_walk hf S hS

section Directories

open FileTree TreeWalk

variable {N D F : Type} [DecidableEq N] {T : Tree N D F} {dirs : List N → List N} {p : N → Prop}
  {l : List N}

omit [DecidableEq N] in
/-- The directories of a tree with names of some kind are a forest. -/
theorem forest_subdirs (hnodup : ∀ m, (dirs m).Nodup) (l : List N) : Forest (subdirs dirs) l where
  nodup := fun m => (hnodup m).map (fun a b hab => (List.cons.inj hab).1)
  parent_unique := by
    intro m m' k hk hk'
    obtain ⟨n, -, rfl⟩ := List.mem_map.mp hk
    obtain ⟨n', -, heq⟩ := List.mem_map.mp hk'
    exact (List.cons.inj heq).2.symm
  root_not_mem := by
    intro m hm hl
    have hsub : l <:+ m := by
      clear hl
      induction hm with
      | root => exact List.suffix_rfl
      | step m k _ hk ih =>
        obtain ⟨n, -, rfl⟩ := List.mem_map.mp hk
        exact ih.trans (List.suffix_cons n m)
    obtain ⟨n, -, heq⟩ := List.mem_map.mp hl
    have hlen := hsub.length_le
    rw [← heq, List.length_cons] at hlen
    omega

theorem reach_subdirs_iff (hdirs : ∀ m n, n ∈ dirs m ↔ T.IsDir (n :: m) ∧ p n) (hl : T.IsDir l)
    (m : List N) :
    Reach (subdirs dirs) l m ↔ ∃ r, m = r ++ l ∧ T.IsDir m ∧ ∀ n ∈ r, p n := by
  constructor
  · intro hm
    induction hm with
    | root => exact ⟨[], rfl, hl, nofun⟩
    | step m k _ hk ih =>
      obtain ⟨r, rfl, -, hr⟩ := ih
      obtain ⟨n, hn, rfl⟩ := List.mem_map.mp hk
      obtain ⟨hdir, hp⟩ := (hdirs _ n).mp hn
      exact ⟨n :: r, rfl, hdir, fun n' hn' => (List.mem_cons.mp hn').elim (fun h => h ▸ hp) (hr n')⟩
  · rintro ⟨r, rfl, hdir, hr⟩
    induction r with
    | nil => exact .root
    | cons n r ih =>
      have hparent : T.IsDir (r ++ l) := T.isDir_parent n _ hdir.get_ne_none
      refine .step (r ++ l) _ (ih hparent (fun n' hn' => hr n' (List.mem_cons_of_mem n hn'))) ?_
      exact List.mem_map.mpr ⟨n, (hdirs _ n).mpr ⟨hdir, hr n List.mem_cons_self⟩, rfl⟩

/-- A tree is finite, so the walk ends. -/
theorem exists_walk_subdirs (hnodup : ∀ m, (dirs m).Nodup)
    (hdirs : ∀ m n, n ∈ dirs m ↔ T.IsDir (n :: m) ∧ p n) (hl : T.IsDir l) :
    ∃ order, Walk (subdirs dirs) [l] order := by
  refine exists_walk (forest_subdirs hnodup l) T.entries.keys (fun m hm => ?_)
  obtain ⟨r, -, hdir, -⟩ := (reach_subdirs_iff hdirs hl m).mp hm
  exact Finmap.mem_keys.mpr ((T.mem_entries m).mpr hdir.get_ne_none)

end Directories

end Vdev.QueueWalk
