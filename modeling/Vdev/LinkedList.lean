import Mathlib.Data.List.Basic
import Mathlib.Logic.Function.Basic
import Mathlib.Tactic

/-!
Singly linked lists in a heap. `Chain h p l` says that following the links from
the pointer `p` visits exactly the nodes of `l`, in order, and ends at NULL.
Writes to other addresses do not matter, and a node can be hung behind the last
one by a single write to its link. A queue is such a list in a heap of its own, with
a pointer to its last node.
-/
namespace Vdev.LinkedList

variable {Addr α : Type*}

structure Node (Addr α : Type*) where
  data : α
  next : Option Addr

abbrev Heap (Addr α : Type*) := Addr → Option (Node Addr α)

def Chain (h : Heap Addr α) : Option Addr → List (Addr × α) → Prop
  | p, [] => p = none
  | p, (a, x) :: rest => p = some a ∧ ∃ next, h a = some ⟨x, next⟩ ∧ Chain h next rest

theorem Chain.eq_nil {h : Heap Addr α} {l : List (Addr × α)} (hc : Chain h none l) : l = [] := by
  cases l with
  | nil => rfl
  | cons x rest => simp [Chain] at hc

/-- A non-NULL pointer is the address of the first node. -/
theorem Chain.eq_cons {h : Heap Addr α} {a : Addr} {l : List (Addr × α)}
    (hc : Chain h (some a) l) :
    ∃ x next rest, l = (a, x) :: rest ∧ h a = some ⟨x, next⟩ ∧ Chain h next rest := by
  cases l with
  | nil => simp [Chain] at hc
  | cons y rest =>
    obtain ⟨b, x⟩ := y
    obtain ⟨hab, next, hget, hrest⟩ := hc
    cases Option.some.inj hab
    exact ⟨x, next, rest, rfl, hget, hrest⟩

theorem Chain.ne_nil {h : Heap Addr α} {a : Addr} {l : List (Addr × α)}
    (hc : Chain h (some a) l) : l ≠ [] := by
  obtain ⟨x, next, rest, rfl, -⟩ := hc.eq_cons
  simp

/-- Only the nodes of the list matter. -/
theorem Chain.congr {h h' : Heap Addr α} {p : Option Addr} {l : List (Addr × α)}
    (hc : Chain h p l) (heq : ∀ x ∈ l, h' x.1 = h x.1) : Chain h' p l := by
  induction l generalizing p with
  | nil => exact hc
  | cons x rest ih =>
    obtain ⟨a, d⟩ := x
    obtain ⟨hp, next, hget, hrest⟩ := hc
    refine ⟨hp, next, ?_, ih hrest (fun y hy => heq y (List.mem_cons_of_mem _ hy))⟩
    rw [heq (a, d) (List.mem_cons_self ..)]
    exact hget

theorem Chain.allocated {h : Heap Addr α} {p : Option Addr} {l : List (Addr × α)}
    (hc : Chain h p l) (x : Addr × α) (hx : x ∈ l) : ∃ next, h x.1 = some ⟨x.2, next⟩ := by
  induction l generalizing p with
  | nil => simp at hx
  | cons y rest ih =>
    obtain ⟨a, d⟩ := y
    obtain ⟨-, next, hget, hrest⟩ := hc
    rcases List.mem_cons.mp hx with rfl | hx
    · exact ⟨next, hget⟩
    · exact ih hrest hx

variable [DecidableEq Addr]

theorem Chain.update_of_notMem {h : Heap Addr α} {p : Option Addr} {l : List (Addr × α)}
    (hc : Chain h p l) (a : Addr) (v : Option (Node Addr α)) (ha : a ∉ l.map Prod.fst) :
    Chain (Function.update h a v) p l := by
  refine hc.congr (fun x hx => ?_)
  have hne : x.1 ≠ a := fun heq => ha (heq ▸ List.mem_map_of_mem hx)
  exact Function.update_of_ne hne _ _

/-- Hang the node `(b, y)` behind the last node `(t, x)`. -/
theorem Chain.append_node {h : Heap Addr α} {p : Option Addr} {l : List (Addr × α)}
    {t b : Addr} {x y : α} (hc : Chain h p (l ++ [(t, x)]))
    (hnodup : ((l ++ [(t, x)]).map Prod.fst).Nodup) (hb : h b = some ⟨y, none⟩)
    (hfresh : b ∉ (l ++ [(t, x)]).map Prod.fst) :
    Chain (Function.update h t (some ⟨x, some b⟩)) p (l ++ [(t, x), (b, y)]) := by
  have hbt : b ≠ t := fun heq => hfresh (by simp [heq])
  induction l generalizing p with
  | nil =>
    obtain ⟨hp, next, -, -⟩ := hc
    refine ⟨hp, some b, by simp, rfl, none, ?_, rfl⟩
    rw [Function.update_of_ne hbt]
    exact hb
  | cons z rest ih =>
    obtain ⟨a, d⟩ := z
    obtain ⟨hp, next, hget, hrest⟩ := hc
    simp only [List.cons_append, List.map_cons, List.nodup_cons, List.mem_cons, not_or]
      at hnodup hfresh
    have hat : a ≠ t := fun heq => hnodup.1 (by simp [heq])
    refine ⟨hp, next, ?_, ih hrest hnodup.2 hfresh.2⟩
    rw [Function.update_of_ne hat]
    exact hget

section Queue

/-- The heap holds the nodes of one list and no others, and `t` is the address of the
last one, if there is one. -/
structure QueueNodes (h : Heap Addr α) (p : Option Addr) (t : Addr) (l : List (Addr × α)) :
    Prop where
  chain : Chain h p l
  nodup : (l.map Prod.fst).Nodup
  used : ∀ a, h a ≠ none → a ∈ l.map Prod.fst
  last : ∀ x, l.getLast? = some x → x.1 = t

/-- A queue in a heap of its own, with a pointer to the first node and one to the last. -/
def IsQueue (h : Heap Addr α) (p : Option Addr) (t : Addr) (items : List α) : Prop :=
  ∃ l, QueueNodes h p t l ∧ l.map Prod.snd = items

variable {h : Heap Addr α} {p : Option Addr} {t : Addr} {x : α} {items : List α}

theorem IsQueue.singleton (a : Addr) (x : α) :
    IsQueue (Function.update (fun _ => none) a (some ⟨x, none⟩)) (some a) a [x] := by
  refine ⟨[(a, x)], ⟨⟨rfl, none, Function.update_self .., rfl⟩, by simp, ?_, by simp⟩, rfl⟩
  intro b hb
  by_cases hba : b = a
  · simp [hba]
  · rw [Function.update_of_ne hba] at hb
    exact absurd rfl hb

/-- There is room for another node. -/
theorem IsQueue.exists_free [Infinite Addr] (hq : IsQueue h p t items) : ∃ a, h a = none := by
  obtain ⟨l, hl, -⟩ := hq
  obtain ⟨a, ha⟩ := Infinite.exists_notMem_finset (l.map Prod.fst).toFinset
  refine ⟨a, ?_⟩
  by_contra hne
  exact ha (List.mem_toFinset.mpr (hl.used a hne))

omit [DecidableEq Addr] in
theorem IsQueue.eq_none (hq : IsQueue h p t []) : p = none := by
  obtain ⟨l, hl, hnil⟩ := hq
  have hchain := hl.chain
  rw [List.map_eq_nil_iff.mp hnil] at hchain
  exact hchain

omit [DecidableEq Addr] in
/-- The pointer to the first node can be followed. -/
theorem IsQueue.front (hq : IsQueue h p t (x :: items)) :
    ∃ a next, p = some a ∧ h a = some ⟨x, next⟩ := by
  obtain ⟨l, hl, hitems⟩ := hq
  obtain ⟨y, rest, rfl, rfl, -⟩ := List.map_eq_cons_iff.mp hitems
  obtain ⟨hp, next, hget, -⟩ := hl.chain
  exact ⟨y.1, next, hp, hget⟩

/-- Free the first node. -/
theorem IsQueue.pop {a : Addr} {next : Option Addr} (hq : IsQueue h (some a) t (x :: items))
    (hget : h a = some ⟨x, next⟩) : IsQueue (Function.update h a none) next t items := by
  obtain ⟨l, hl, hitems⟩ := hq
  obtain ⟨y, rest, rfl, rfl, rfl⟩ := List.map_eq_cons_iff.mp hitems
  obtain ⟨hp, next', hget', hrest⟩ := hl.chain
  have ha : a = y.1 := Option.some.inj hp
  subst ha
  have hnext : next' = next := by
    rw [hget'] at hget
    exact congrArg Node.next (Option.some.inj hget)
  subst hnext
  have hnodup := hl.nodup
  rw [List.map_cons, List.nodup_cons] at hnodup
  refine ⟨rest, ⟨hrest.update_of_notMem y.1 none hnodup.1, hnodup.2, ?_, ?_⟩, rfl⟩
  · intro b hb
    have hba : b ≠ y.1 := by
      rintro rfl
      exact hb (Function.update_self ..)
    rw [Function.update_of_ne hba] at hb
    exact (List.mem_cons.mp (hl.used b hb)).resolve_left hba
  · intro z hz
    cases rest with
    | nil => simp at hz
    | cons w rest => exact hl.last z (by rw [List.getLast?_cons_cons]; exact hz)

/-- Hang a new node behind the last one. The pointer to the first node stays. -/
theorem IsQueue.push {b : Addr} (hq : IsQueue h p t items) (hne : items ≠ []) (hb : h b = none)
    (y : α) : ∃ last, h t = some last ∧
      IsQueue (Function.update (Function.update h b (some ⟨y, none⟩)) t
        (some { last with next := some b })) p b (items ++ [y]) := by
  obtain ⟨l, hl, rfl⟩ := hq
  rcases List.eq_nil_or_concat l with rfl | ⟨l, z, rfl⟩
  · exact absurd rfl hne
  rw [List.concat_eq_append] at hl ⊢
  obtain ⟨a, x⟩ := z
  have hat : a = t := hl.last (a, x) (by simp)
  subst hat
  obtain ⟨next, hget⟩ := hl.chain.allocated (a, x) (by simp)
  have hfresh : b ∉ (l ++ [(a, x)]).map Prod.fst := by
    intro hmem
    obtain ⟨w, hw, rfl⟩ := List.mem_map.mp hmem
    obtain ⟨next, hnext⟩ := hl.chain.allocated w hw
    rw [hb] at hnext
    cases hnext
  have hchain := (hl.chain.update_of_notMem b (some ⟨y, none⟩) hfresh).append_node hl.nodup
    (Function.update_self ..) hfresh
  refine ⟨⟨x, next⟩, hget, l ++ [(a, x), (b, y)], ⟨hchain, ?_, ?_, ?_⟩, by simp⟩
  · rw [show l ++ [(a, x), (b, y)] = l ++ [(a, x)] ++ [(b, y)] by simp, List.map_append]
    exact hl.nodup.append (List.nodup_singleton b) (by simpa using hfresh)
  · intro c hc
    by_cases hcb : c = b
    · simp [hcb]
    · have hused : c ∈ (l ++ [(a, x)]).map Prod.fst := by
        by_cases hca : c = a
        · simp [hca]
        · rw [Function.update_of_ne hca, Function.update_of_ne hcb] at hc
          exact hl.used c hc
      simp only [List.map_append, List.map_cons, List.map_nil, List.mem_append,
        List.mem_cons] at hused ⊢
      tauto
  · intro w hw
    simp only [List.getLast?_append, List.getLast?_cons_cons, List.getLast?_singleton] at hw
    cases hw
    rfl

end Queue

end Vdev.LinkedList
