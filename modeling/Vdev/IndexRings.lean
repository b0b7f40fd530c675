import Mathlib.Data.List.Basic
import Mathlib.Logic.Function.Basic
import Mathlib.Tactic

/-!
Doubly linked lists of indices, closed to a ring by a header. `Links` says that
the neighbours in a list of indices point at each other; a ring is a list with
the header at both ends. What happens in the middle of a ring leaves the links
on either side alone, so a rename, a removal and an append each come down to
the few links in their middle.
-/
namespace Vdev.IndexRings

variable {I : Type*}

/-- Consecutive indices are linked both ways. -/
def Links (next prev : I → I) : List I → Prop
  | x :: y :: rest => next x = y ∧ prev y = x ∧ Links next prev (y :: rest)
  | _ => True

theorem links_singleton (next prev : I → I) (x : I) : Links next prev [x] := trivial

theorem links_cons_cons {next prev : I → I} {x y : I} {rest : List I} :
    Links next prev (x :: y :: rest) ↔ next x = y ∧ prev y = x ∧ Links next prev (y :: rest) :=
  Iff.rfl

/-- The links of an append are those of its two parts, which share the seam. -/
theorem links_append {next prev : I → I} (xs : List I) (a : I) (ys : List I) :
    Links next prev (xs ++ a :: ys) ↔
      Links next prev (xs ++ [a]) ∧ Links next prev (a :: ys) := by
  induction xs with
  | nil => exact ⟨fun h => ⟨trivial, h⟩, And.right⟩
  | cons x xs ih =>
    cases xs with
    | nil =>
      simp only [List.cons_append, List.nil_append, links_cons_cons, links_singleton, and_true,
        and_assoc]
    | cons y xs =>
      simp only [List.cons_append, links_cons_cons] at ih ⊢
      rw [ih]
      tauto

/-- Only the forward links of all but the last and the backward links of all but
the first matter. -/
theorem Links.congr {next prev next' prev' : I → I} {l : List I} (h : Links next prev l)
    (hnext : ∀ x ∈ l.dropLast, next' x = next x) (hprev : ∀ x ∈ l.tail, prev' x = prev x) :
    Links next' prev' l := by
  induction l with
  | nil => trivial
  | cons x l ih =>
    cases l with
    | nil => trivial
    | cons y l =>
      obtain ⟨hx, hy, hrest⟩ := h
      refine ⟨?_, ?_, ih hrest (fun z hz => ?_) (fun z hz => ?_)⟩
      · rw [hnext x (by simp), hx]
      · rw [hprev y (by simp), hy]
      · exact hnext z (by rw [List.dropLast_cons_cons]; exact List.mem_cons_of_mem _ hz)
      · exact hprev z (List.mem_cons_of_mem _ hz)

/-- The middle of a chain is replaced, and the links on either side are kept. -/
theorem Links.splice {next prev next' prev' : I → I} {xs ys mid : List I} {a b : I}
    (hleft : Links next prev (xs ++ [a])) (hright : Links next prev (b :: ys))
    (hnextl : ∀ x ∈ xs, next' x = next x) (hprevl : ∀ x ∈ (xs ++ [a]).tail, prev' x = prev x)
    (hnextr : ∀ x ∈ (b :: ys).dropLast, next' x = next x) (hprevr : ∀ x ∈ ys, prev' x = prev x)
    (hmid : Links next' prev' (a :: mid ++ [b])) :
    Links next' prev' (xs ++ a :: (mid ++ b :: ys)) := by
  refine (links_append xs a _).mpr ⟨hleft.congr ?_ hprevl, ?_⟩
  · simpa using hnextl
  · rw [← List.cons_append]
    exact (links_append (a :: mid) b ys).mpr ⟨hmid, hright.congr hnextr hprevr⟩

/-- The list closed to a ring by its header. -/
def Ring (next prev : I → I) (nil : I) (l : List I) : Prop :=
  Links next prev (nil :: l ++ [nil])

/-- The neighbours of an index in a ring, with what lies before and behind them. -/
theorem exists_neighbours (nil : I) (pre post : List I) :
    ∃ xs a b ys, nil :: pre = xs ++ [a] ∧ post ++ [nil] = b :: ys := by
  have hpre : nil :: pre ≠ [] := by simp
  refine ⟨_, _, _, _, (List.dropLast_append_getLast hpre).symm,
    (List.cons_head_tail (l := post ++ [nil]) (by simp)).symm⟩

/-- The neighbours of the middle of a ring, with what lies before and behind them. -/
structure Split (nil : I) (pre mid post xs : List I) (a b : I) (ys : List I) : Prop where
  pre_eq : nil :: pre = xs ++ [a]
  post_eq : post ++ [nil] = b :: ys
  nodup : (nil :: pre ++ mid ++ post).Nodup

theorem exists_split {nil : I} {pre mid post : List I}
    (hnodup : (nil :: pre ++ mid ++ post).Nodup) :
    ∃ xs a b ys, Split nil pre mid post xs a b ys := by
  obtain ⟨xs, a, b, ys, hpre, hpost⟩ := exists_neighbours nil pre post
  exact ⟨xs, a, b, ys, hpre, hpost, hnodup⟩

namespace Split

variable {nil a b : I} {pre mid post xs ys : List I} (h : Split nil pre mid post xs a b ys)

include h

theorem shape (l : List I) :
    nil :: (pre ++ l ++ post) ++ [nil] = xs ++ a :: (l ++ b :: ys) := by
  have heq : nil :: (pre ++ l ++ post) ++ [nil] = (nil :: pre) ++ (l ++ (post ++ [nil])) := by simp
  rw [heq, h.pre_eq, h.post_eq]
  simp

theorem mem_a : a ∈ nil :: pre := by rw [h.pre_eq]; simp

theorem mem_b : b ∈ post ∨ b = nil := by
  have hb : b ∈ post ++ [nil] := by rw [h.post_eq]; simp
  simpa using hb

theorem ne_a_of_left {x : I} (hx : x ∈ xs) : x ≠ a := by
  have hnodup : (xs ++ [a]).Nodup := by
    rw [← h.pre_eq]
    exact (List.nodup_append.mp (List.nodup_append.mp h.nodup).1).1
  exact (List.nodup_append.mp hnodup).2.2 x hx a (by simp)

theorem mem_of_left {x : I} (hx : x ∈ xs) : x ∈ nil :: pre := by
  rw [h.pre_eq]
  exact List.mem_append_left _ hx

theorem tail_left : (xs ++ [a]).tail = pre := by rw [← h.pre_eq]; rfl

theorem dropLast_right : (b :: ys).dropLast = post := by rw [← h.post_eq]; simp

theorem ne_of_mem {x y : I} (hx : x ∈ nil :: pre) (hy : y ∈ post) : x ≠ y := by
  have hpair := (List.nodup_append.mp h.nodup).2.2
  exact hpair x (List.mem_append_left _ hx) y hy

theorem ne_b_of_pre {x : I} (hx : x ∈ pre) : x ≠ b := by
  rcases h.mem_b with hb | hb
  · exact h.ne_of_mem (List.mem_cons_of_mem _ hx) hb
  · rw [hb]
    have hnodup : (nil :: pre).Nodup :=
      (List.nodup_append.mp (List.nodup_append.mp h.nodup).1).1
    exact fun heq => (List.nodup_cons.mp hnodup).1 (heq ▸ hx)

theorem ne_b_of_right {y : I} (hy : y ∈ ys) : y ≠ b := by
  have hpost : post.Nodup := (List.nodup_append.mp h.nodup).2.1
  have hnodup : (b :: ys).Nodup := by
    rw [← h.post_eq]
    refine List.nodup_append.mpr ⟨hpost, List.nodup_singleton _, fun x hx y hy => ?_⟩
    rw [List.mem_singleton.mp hy]
    exact (h.ne_of_mem List.mem_cons_self hx).symm
  exact fun heq => (List.nodup_cons.mp hnodup).1 (heq ▸ hy)

theorem mem_of_right {y : I} (hy : y ∈ ys) : y ∈ post ∨ y = nil := by
  have hmem : y ∈ post ++ [nil] := by
    rw [h.post_eq]
    exact List.mem_cons_of_mem _ hy
  simpa using hmem

/-- A ring stays one when only the links around its middle change. -/
theorem ring {next prev next' prev' : I → I} {mid' : List I}
    (hring : Ring next prev nil (pre ++ mid ++ post))
    (hnext : ∀ x, x ≠ a → x ∈ nil :: pre ∨ x ∈ post → next' x = next x)
    (hprev : ∀ x, x ≠ b → x ∈ nil :: pre ∨ x ∈ post → prev' x = prev x)
    (hmid : Links next' prev' (a :: mid' ++ [b])) : Ring next' prev' nil (pre ++ mid' ++ post) := by
  rw [Ring, h.shape] at hring ⊢
  obtain ⟨hleft, hrest⟩ := (links_append xs a _).mp hring
  rw [← List.cons_append] at hrest
  have hright := ((links_append (a :: mid) b ys).mp hrest).2
  refine hleft.splice hright (fun x hx => ?_) (fun x hx => ?_) (fun x hx => ?_)
    (fun x hx => ?_) hmid
  · exact hnext x (h.ne_a_of_left hx) (Or.inl (h.mem_of_left hx))
  · rw [h.tail_left] at hx
    exact hprev x (h.ne_b_of_pre hx) (Or.inl (List.mem_cons_of_mem _ hx))
  · rw [h.dropLast_right] at hx
    exact hnext x (h.ne_of_mem h.mem_a hx).symm (Or.inr hx)
  · refine hprev x (h.ne_b_of_right hx) ?_
    rcases h.mem_of_right hx with hx | rfl
    · exact Or.inr hx
    · exact Or.inl List.mem_cons_self

end Split

/-- Links that are not used may change. -/
theorem Ring.congr {next prev next' prev' : I → I} {nil : I} {l : List I}
    (h : Ring next prev nil l) (hnext : ∀ x ∈ nil :: l, next' x = next x)
    (hprev : ∀ x ∈ nil :: l, prev' x = prev x) : Ring next' prev' nil l := by
  refine Links.congr h (fun x hx => hnext x ?_) (fun x hx => hprev x ?_)
  · rwa [List.dropLast_concat] at hx
  · have hmem : x ∈ l ++ [nil] := hx
    simp at hmem ⊢
    tauto

/-- From every index one comes back to it, forwards and backwards. -/
theorem Ring.prev_next {next prev : I → I} {nil i : I} {l : List I}
    (h : Ring next prev nil l) (hi : i ∈ nil :: l) : prev (next i) = i := by
  obtain ⟨xs, ys, hsplit⟩ := List.append_of_mem hi
  rw [Ring, hsplit, List.append_assoc, List.cons_append, links_append] at h
  cases ys with
  | nil =>
    obtain ⟨hnext, hprev, -⟩ := h.2
    rw [hnext, hprev]
  | cons y ys =>
    obtain ⟨hnext, hprev, -⟩ := h.2
    rw [hnext, hprev]

theorem Ring.next_prev {next prev : I → I} {nil i : I} {l : List I}
    (h : Ring next prev nil l) (hi : i ∈ nil :: l) : next (prev i) = i := by
  have hmem : i ∈ l ++ [nil] := by simpa [or_comm] using hi
  obtain ⟨xs, ys, hsplit⟩ := List.append_of_mem hmem
  rw [Ring, List.cons_append, hsplit] at h
  obtain ⟨zs, a, hlast⟩ := List.eq_nil_or_concat (nil :: xs) |>.resolve_left (by simp)
  rw [← List.cons_append, hlast, List.concat_eq_append, List.append_assoc, List.singleton_append,
    links_append] at h
  obtain ⟨hnext, hprev, -⟩ := h.2
  rw [hprev, hnext]

/-- No link leads out of the ring. -/
theorem Ring.next_mem {next prev : I → I} {nil i : I} {l : List I}
    (h : Ring next prev nil l) (hi : i ∈ nil :: l) : next i ∈ nil :: l := by
  obtain ⟨xs, ys, hsplit⟩ := List.append_of_mem hi
  rw [Ring, hsplit, List.append_assoc, List.cons_append, links_append] at h
  cases ys with
  | nil =>
    rw [h.2.1]
    exact List.mem_cons_self
  | cons y ys =>
    rw [h.2.1, hsplit]
    exact List.mem_append_right _ (List.mem_cons_of_mem _ List.mem_cons_self)

theorem Ring.prev_mem {next prev : I → I} {nil i : I} {l : List I}
    (h : Ring next prev nil l) (hi : i ∈ nil :: l) : prev i ∈ nil :: l := by
  have hmem : i ∈ l ++ [nil] := by simpa [or_comm] using hi
  obtain ⟨pre, post, hsplit⟩ := List.append_of_mem hmem
  obtain ⟨xs, a, hlast⟩ := List.eq_nil_or_concat (nil :: pre) |>.resolve_left (by simp)
  have hin : a ∈ nil :: pre := by
    rw [hlast, List.concat_eq_append]
    exact List.mem_append_right _ List.mem_cons_self
  have hpre : pre <+: l := List.prefix_of_prefix_length_le (List.prefix_append pre (i :: post))
    (hsplit ▸ List.prefix_append l [nil]) (by
      have := congrArg List.length hsplit
      simp only [List.length_append, List.length_cons, List.length_nil] at this
      omega)
  rw [Ring, List.cons_append, hsplit, ← List.cons_append, hlast, List.concat_eq_append,
    List.append_assoc, List.singleton_append, links_append] at h
  rw [h.2.2.1]
  exact (List.cons_prefix_cons.mpr ⟨rfl, hpre⟩).subset hin

/-- The first index of a ring is where the header points. -/
theorem Ring.next_header {next prev : I → I} {nil i : I} {l : List I}
    (h : Ring next prev nil (i :: l)) : next nil = i := h.1

theorem Ring.next_header_nil {next prev : I → I} {nil : I} (h : Ring next prev nil []) :
    next nil = nil := h.1

/-- Behind an index stands what follows it in the list, or the header. -/
theorem Ring.next_eq {next prev : I → I} {nil i : I} {pre post : List I}
    (h : Ring next prev nil (pre ++ i :: post)) : next i = post.headD nil := by
  have hshape : nil :: (pre ++ i :: post) ++ [nil] = (nil :: pre) ++ i :: (post ++ [nil]) := by simp
  rw [Ring, hshape, links_append] at h
  cases post with
  | nil => exact h.2.1
  | cons j post => exact h.2.1

theorem nodup_middle_iff {nil source : I} {pre post : List I} :
    (nil :: (pre ++ [source] ++ post)).Nodup ↔
      source ∉ nil :: (pre ++ post) ∧ (nil :: (pre ++ post)).Nodup := by
  have hshape : nil :: (pre ++ [source] ++ post) = (nil :: pre) ++ source :: post := by simp
  rw [hshape, List.nodup_middle, List.nodup_cons, List.cons_append]

variable [DecidableEq I]

/-- An index takes the place of another: it gets its links, and the neighbours
are turned to it. -/
theorem Ring.rename {next prev : I → I} {nil source target : I} {pre post : List I}
    (h : Ring next prev nil (pre ++ [source] ++ post))
    (hnodup : (nil :: pre ++ [source] ++ post).Nodup)
    (htarget : target ∉ nil :: pre ++ [source] ++ post) :
    Ring (Function.update (Function.update next target (next source)) (prev source) target)
      (Function.update (Function.update prev target (prev source)) (next source) target)
      nil (pre ++ [target] ++ post) := by
  obtain ⟨xs, a, b, ys, hsplit⟩ := exists_split hnodup
  have hring := h
  rw [Ring, hsplit.shape, links_append] at hring
  obtain ⟨-, hnext, hprev, hnext', -, -⟩ := hring
  have hne : ∀ x, x ∈ nil :: pre ∨ x ∈ post → x ≠ target := by
    rintro x hx rfl
    exact htarget (by rcases hx with hx | hx <;> simp_all)
  have hat : a ≠ target := hne a (Or.inl hsplit.mem_a)
  have hbt : b ≠ target := by
    rcases hsplit.mem_b with hb | hb
    · exact hne b (Or.inr hb)
    · exact hb ▸ hne nil (Or.inl List.mem_cons_self)
  rw [hprev, hnext']
  refine hsplit.ring h (fun x hxa hx => ?_) (fun x hxb hx => ?_) ⟨?_, ?_, ?_, ?_, trivial⟩
  · rw [Function.update_of_ne hxa, Function.update_of_ne (hne x hx)]
  · rw [Function.update_of_ne hxb, Function.update_of_ne (hne x hx)]
  · rw [Function.update_self]
  · rw [Function.update_of_ne hbt.symm, Function.update_self]
  · rw [Function.update_of_ne hat.symm, Function.update_self]
  · rw [Function.update_self]

/-- An index leaves the ring: its neighbours are turned to each other. -/
theorem Ring.remove {next prev : I → I} {nil source : I} {pre post : List I}
    (h : Ring next prev nil (pre ++ [source] ++ post))
    (hnodup : (nil :: pre ++ [source] ++ post).Nodup) :
    Ring (Function.update next (prev source) (next source))
      (Function.update prev (next source) (prev source)) nil (pre ++ [] ++ post) := by
  obtain ⟨xs, a, b, ys, hsplit⟩ := exists_split hnodup
  have hring := h
  rw [Ring, hsplit.shape, links_append] at hring
  obtain ⟨-, hnext, hprev, hnext', -, -⟩ := hring
  rw [hprev, hnext']
  refine hsplit.ring h (fun x hxa _ => ?_) (fun x hxb _ => ?_) ⟨?_, ?_, trivial⟩
  · rw [Function.update_of_ne hxa]
  · rw [Function.update_of_ne hxb]
  · rw [Function.update_self]
  · rw [Function.update_self]

/-- A new index is put behind the last one. -/
theorem Ring.append {next prev : I → I} {nil target : I} {l : List I}
    (h : Ring next prev nil l) (hnodup : (nil :: l).Nodup) (htarget : target ∉ nil :: l) :
    Ring (Function.update (Function.update next target nil) (prev nil) target)
      (Function.update (Function.update prev target (prev nil)) nil target) nil
      (l ++ [target]) := by
  have hnodup' : (nil :: l ++ [] ++ []).Nodup := by simpa using hnodup
  obtain ⟨xs, a, b, ys, hsplit⟩ := exists_split hnodup'
  have hb : b = nil := by simpa using hsplit.mem_b
  have hring := h
  have hshape := hsplit.shape []
  rw [List.append_nil, List.append_nil] at hshape
  rw [Ring, hshape, links_append] at hring
  obtain ⟨-, hnext, hprev, -⟩ := hring
  have hne : ∀ x, x ∈ nil :: l ∨ x ∈ ([] : List I) → x ≠ target := by
    rintro x (hx | hx) rfl
    · exact htarget hx
    · cases hx
  have hat : a ≠ target := hne a (Or.inl hsplit.mem_a)
  have hnt : nil ≠ target := hne nil (Or.inl List.mem_cons_self)
  subst hb
  have hresult : Ring (Function.update (Function.update next target b) (prev b) target)
      (Function.update (Function.update prev target (prev b)) b target) b
      (l ++ [target] ++ []) := by
    refine hsplit.ring (by simpa using h) (fun x hxa hx => ?_) (fun x hxb hx => ?_)
      ⟨?_, ?_, ?_, ?_, trivial⟩
    · rw [hprev, Function.update_of_ne hxa, Function.update_of_ne (hne x hx)]
    · rw [Function.update_of_ne hxb, Function.update_of_ne (hne x hx)]
    · rw [hprev, Function.update_self]
    · rw [hprev, Function.update_of_ne hnt.symm, Function.update_self]
    · rw [hprev, Function.update_of_ne hat.symm, Function.update_self]
    · rw [Function.update_self]
  simpa using hresult

end Vdev.IndexRings
