import Mathlib.Data.Finmap
import Mathlib.Data.List.Sort
import Mathlib.Tactic

/-!
Directory trees over an arbitrary type of names. A location is the list of the
names that lead to it, the last one first, so the parent of `n :: l` is `l` and
the locations below `l` are those that have `l` as a suffix. A tree maps finitely
many locations to entries; it has a root directory, and everything else stands in
a directory.
-/
namespace Vdev.FileTree

inductive Entry (D F : Type)
  | dir (attr : D)
  | leaf (content : F)
  deriving DecidableEq

structure Tree (N D F : Type) [DecidableEq N] where
  entries : Finmap (fun _ : List N => Entry D F)
  root : ∃ a, entries.lookup [] = some (.dir a)
  closed : ∀ n l, n :: l ∈ entries → ∃ a, entries.lookup l = some (.dir a)

namespace Tree

variable {N D F : Type} [DecidableEq N]

def get (T : Tree N D F) (l : List N) : Option (Entry D F) := T.entries.lookup l

@[ext]
theorem ext {T U : Tree N D F} (h : ∀ l, T.get l = U.get l) : T = U := by
  obtain ⟨et, _, _⟩ := T
  obtain ⟨eu, _, _⟩ := U
  have he : et = eu := Finmap.ext_lookup h
  subst he
  rfl

def IsDir (T : Tree N D F) (l : List N) : Prop := ∃ a, T.get l = some (.dir a)

instance (T : Tree N D F) (l : List N) : Decidable (T.IsDir l) :=
  match h : T.get l with
  | some (.dir a) => isTrue ⟨a, h⟩
  | some (.leaf _) => isFalse (by rintro ⟨a, ha⟩; rw [h] at ha; cases ha)
  | none => isFalse (by rintro ⟨a, ha⟩; rw [h] at ha; cases ha)

theorem mem_entries (T : Tree N D F) (l : List N) : l ∈ T.entries ↔ T.get l ≠ none := by
  rw [Finmap.mem_iff, get, Option.ne_none_iff_exists']

theorem isDir_nil (T : Tree N D F) : T.IsDir [] := T.root

theorem isDir_parent (T : Tree N D F) (n : N) (l : List N) (h : T.get (n :: l) ≠ none) :
    T.IsDir l :=
  T.closed n l ((T.mem_entries _).mpr h)

theorem IsDir.get_ne_none {T : Tree N D F} {l : List N} (h : T.IsDir l) : T.get l ≠ none := by
  obtain ⟨a, ha⟩ := h
  rw [ha]
  exact Option.some_ne_none _

theorem not_isDir_of_none (T : Tree N D F) (l : List N) (h : T.get l = none) : ¬T.IsDir l :=
  fun hd => hd.get_ne_none h

theorem not_isDir_of_leaf (T : Tree N D F) (l : List N) (c : F) (h : T.get l = some (.leaf c)) :
    ¬T.IsDir l := by
  rintro ⟨a, ha⟩
  rw [h] at ha
  cases ha

/-- A proper ancestor of an entry is a directory. -/
theorem isDir_of_suffix (T : Tree N D F) {l m : List N} (hsub : l <:+ m) (hne : l ≠ m)
    (h : T.get m ≠ none) : T.IsDir l := by
  induction m with
  | nil => exact absurd (List.suffix_nil.mp hsub) hne
  | cons n m ih =>
    rcases List.suffix_cons_iff.mp hsub with heq | hsub
    · exact absurd heq hne
    · have hm : T.IsDir m := T.isDir_parent n m h
      by_cases hlm : l = m
      · rw [hlm]
        exact hm
      · exact ih hsub hlm hm.get_ne_none

theorem get_eq_none_of_suffix (T : Tree N D F) {l m : List N} (hsub : l <:+ m)
    (h : T.get l = none) : T.get m = none := by
  by_contra hm
  by_cases hlm : l = m
  · exact hm (hlm ▸ h)
  · exact (T.isDir_of_suffix hsub hlm hm).get_ne_none h

theorem get_eq_none_of_leaf (T : Tree N D F) {l m : List N} (hsub : l <:+ m) (hne : l ≠ m)
    (h : ¬T.IsDir l) : T.get m = none := by
  by_contra hm
  exact h (T.isDir_of_suffix hsub hne hm)

/-- Only directories stand on the way to `l` and at `l`, as far as anything does. -/
def Clear (T : Tree N D F) (l : List N) : Prop := ∀ k ∈ l.tails, T.get k = none ∨ T.IsDir k

instance (T : Tree N D F) (l : List N) : Decidable (T.Clear l) :=
  inferInstanceAs (Decidable (∀ k ∈ l.tails, T.get k = none ∨ T.IsDir k))

theorem clear_iff (T : Tree N D F) (l : List N) :
    T.Clear l ↔ ∀ k, k <:+ l → T.get k = none ∨ T.IsDir k := by
  simp [Clear, List.mem_tails]

theorem clear_of_isDir (T : Tree N D F) (l : List N) (h : T.IsDir l) : T.Clear l := by
  apply (T.clear_iff l).mpr
  intro k hk
  by_cases hkl : k = l
  · exact Or.inr (hkl ▸ h)
  · exact Or.inr (T.isDir_of_suffix hk hkl h.get_ne_none)

theorem clear_cons (T : Tree N D F) (n : N) (l : List N) (h : T.get (n :: l) = none) :
    T.Clear (n :: l) ↔ T.Clear l := by
  rw [clear_iff, clear_iff]
  constructor
  · intro hc k hk
    exact hc k (hk.trans (List.suffix_cons n l))
  · intro hc k hk
    rcases List.suffix_cons_iff.mp hk with rfl | hk
    · exact Or.inl h
    · exact hc k hk

theorem not_clear_of_leaf (T : Tree N D F) {l m : List N} (c : F) (hsub : l <:+ m)
    (h : T.get l = some (.leaf c)) : ¬T.Clear m := by
  intro hc
  rcases (T.clear_iff m).mp hc l hsub with hn | ⟨a, ha⟩
  · rw [h] at hn
    cases hn
  · rw [h] at ha
    cases ha

def bare (a : D) : Tree N D F where
  entries := Finmap.singleton [] (.dir a)
  root := ⟨a, Finmap.lookup_singleton_eq⟩
  closed := by
    intro n l h
    rw [Finmap.mem_singleton] at h
    exact absurd h (List.cons_ne_nil n l)

/-- Create or replace an entry in a directory. A directory is not replaced. -/
def put (T : Tree N D F) (n : N) (l : List N) (e : Entry D F) : Tree N D F :=
  if h : T.IsDir l ∧ ¬T.IsDir (n :: l) then
    { entries := T.entries.insert (n :: l) e
      root := by
        obtain ⟨a, ha⟩ := T.root
        exact ⟨a, by rw [Finmap.lookup_insert_of_ne _ (by simp)]; exact ha⟩
      closed := by
        intro m k hmem
        have hk : T.IsDir k := by
          rcases Finmap.mem_insert.mp hmem with heq | hmem
          · rw [List.cons.injEq] at heq
            rw [heq.2]
            exact h.1
          · exact T.closed m k hmem
        obtain ⟨a, ha⟩ := hk
        have hne : k ≠ n :: l := by
          intro heq
          exact h.2 (heq ▸ ⟨a, ha⟩)
        exact ⟨a, by rw [Finmap.lookup_insert_of_ne _ hne]; exact ha⟩ }
  else T

theorem get_put (T : Tree N D F) (n : N) (l : List N) (e : Entry D F) (hl : T.IsDir l)
    (hn : ¬T.IsDir (n :: l)) (m : List N) :
    (T.put n l e).get m = if m = n :: l then some e else T.get m := by
  rw [put, dif_pos ⟨hl, hn⟩]
  split_ifs with hm
  · rw [hm]
    exact Finmap.lookup_insert _
  · exact Finmap.lookup_insert_of_ne _ hm

/-- Making an entry keeps the directories. -/
theorem IsDir.put {T : Tree N D F} {k : List N} (h : T.IsDir k) (n : N) (l : List N)
    (e : Entry D F) : (T.put n l e).IsDir k := by
  by_cases hput : T.IsDir l ∧ ¬T.IsDir (n :: l)
  · obtain ⟨a, ha⟩ := h
    refine ⟨a, ?_⟩
    rw [T.get_put n l e hput.1 hput.2, if_neg, ha]
    rintro rfl
    exact hput.2 ⟨a, ha⟩
  · rw [Tree.put, dif_neg hput]
    exact h

def Childless (T : Tree N D F) (l : List N) : Prop := ∀ k ∈ T.entries.keys, k = [] ∨ k.tail ≠ l

instance (T : Tree N D F) (l : List N) : Decidable (T.Childless l) :=
  inferInstanceAs (Decidable (∀ k ∈ T.entries.keys, k = [] ∨ k.tail ≠ l))

theorem childless_iff (T : Tree N D F) (l : List N) :
    T.Childless l ↔ ∀ n, T.get (n :: l) = none := by
  constructor
  · intro h n
    by_contra hn
    have hmem : n :: l ∈ T.entries.keys := Finmap.mem_keys.mpr ((T.mem_entries _).mpr hn)
    rcases h _ hmem with hnil | htail
    · exact absurd hnil (List.cons_ne_nil n l)
    · exact htail rfl
  · intro h k hk
    cases k with
    | nil => exact Or.inl rfl
    | cons n k =>
      refine Or.inr (fun heq => ?_)
      have hget := (T.mem_entries _).mp (Finmap.mem_keys.mp hk)
      rw [show k = l from heq] at hget
      exact hget (h n)

/-- Remove an entry that nothing stands in. -/
def remove (T : Tree N D F) (n : N) (l : List N) : Tree N D F :=
  if h : T.Childless (n :: l) then
    { entries := T.entries.erase (n :: l)
      root := by
        obtain ⟨a, ha⟩ := T.root
        exact ⟨a, by rw [Finmap.lookup_erase_ne (by simp)]; exact ha⟩
      closed := by
        intro m k hmem
        obtain ⟨_, hmem⟩ := Finmap.mem_erase.mp hmem
        obtain ⟨a, ha⟩ := T.closed m k hmem
        have hne : k ≠ n :: l := by
          intro heq
          have hnone := (T.childless_iff _).mp h m
          rw [← heq] at hnone
          exact (T.mem_entries _).mp hmem hnone
        exact ⟨a, by rw [Finmap.lookup_erase_ne hne]; exact ha⟩ }
  else T

theorem get_remove (T : Tree N D F) (n : N) (l : List N) (h : T.Childless (n :: l)) (m : List N) :
    (T.remove n l).get m = if m = n :: l then none else T.get m := by
  rw [remove, dif_pos h]
  split_ifs with hm
  · rw [hm]
    exact Finmap.lookup_erase _ _
  · exact Finmap.lookup_erase_ne hm

theorem childless_of_not_isDir (T : Tree N D F) (l : List N) (h : ¬T.IsDir l) : T.Childless l := by
  apply (T.childless_iff l).mpr
  intro n
  by_contra hn
  exact h (T.isDir_parent n l hn)

/-- The name of a location that stands directly in `l`. -/
def childOf (l : List N) : List N → Option N
  | [] => none
  | n :: k => if k = l then some n else none

theorem childOf_eq_some (l k : List N) (n : N) : childOf l k = some n ↔ k = n :: l := by
  cases k with
  | nil => simp [childOf]
  | cons m k =>
    rw [childOf, List.cons.injEq]
    split_ifs with h
    · simp [h]
    · simp [h]

/-- The names of what stands in a directory, in no particular order. -/
def children (T : Tree N D F) (l : List N) : Multiset N := T.entries.keys.val.filterMap (childOf l)

theorem mem_children (T : Tree N D F) (l : List N) (n : N) :
    n ∈ T.children l ↔ T.get (n :: l) ≠ none := by
  rw [children, Multiset.mem_filterMap, ← mem_entries]
  constructor
  · rintro ⟨k, hk, hn⟩
    rw [(childOf_eq_some l k n).mp hn] at hk
    exact Finmap.mem_keys.mp hk
  · intro h
    exact ⟨n :: l, Finmap.mem_keys.mpr h, (childOf_eq_some l _ n).mpr rfl⟩

theorem nodup_children (T : Tree N D F) (l : List N) : (T.children l).Nodup := by
  apply T.entries.keys.nodup.filterMap
  intro a b n ha hb
  rw [(childOf_eq_some l a n).mp ha, (childOf_eq_some l b n).mp hb]

def depth (T : Tree N D F) : ℕ := T.entries.keys.sup List.length

theorem length_le_depth (T : Tree N D F) (l : List N) (h : T.get l ≠ none) :
    l.length ≤ T.depth := by
  have hmem : l ∈ T.entries.keys := Finmap.mem_keys.mpr ((T.mem_entries l).mpr h)
  exact Finset.le_sup (f := List.length) hmem

/-- `U` is `T` without the subtree that starts at `l`. -/
def Pruned (T : Tree N D F) (l : List N) (U : Tree N D F) : Prop :=
  ∀ m, U.get m = if l <:+ m then none else T.get m

/-- `U` is `T` with the missing directories on the way to `l` and at `l`. -/
def Grown (T : Tree N D F) (l : List N) (a : D) (U : Tree N D F) : Prop :=
  ∀ k, U.get k = if k <:+ l ∧ T.get k = none then some (.dir a) else T.get k

theorem grown_of_isDir (T : Tree N D F) (l : List N) (a : D) (h : T.IsDir l) : T.Grown l a T := by
  intro k
  rw [if_neg]
  rintro ⟨hk, hn⟩
  by_cases hkl : k = l
  · exact h.get_ne_none (hkl ▸ hn)
  · exact (T.isDir_of_suffix hk hkl h.get_ne_none).get_ne_none hn

theorem Grown.isDir {T U : Tree N D F} {l k : List N} {a : D} (h : T.Grown l a U)
    (hc : T.Clear l) (hk : k <:+ l) : U.IsDir k := by
  rcases (T.clear_iff l).mp hc k hk with hn | ⟨b, hb⟩
  · exact ⟨a, by rw [h k, if_pos ⟨hk, hn⟩]⟩
  · refine ⟨b, ?_⟩
    rw [h k, if_neg, hb]
    rintro ⟨_, hn⟩
    rw [hn] at hb
    cases hb

theorem Grown.get_of_not_suffix {T U : Tree N D F} {l k : List N} {a : D} (h : T.Grown l a U)
    (hk : ¬k <:+ l) : U.get k = T.get k := by
  rw [h k, if_neg (fun hand => hk hand.1)]

theorem Grown.get_of_ne_none {T U : Tree N D F} {l k : List N} {a : D} (h : T.Grown l a U)
    (hk : T.get k ≠ none) : U.get k = T.get k := by
  rw [h k, if_neg (fun hand => hk hand.2)]

theorem Grown.clear_iff {T U : Tree N D F} {l : List N} {a : D} (h : T.Grown l a U)
    (m : List N) : U.Clear m ↔ T.Clear m := by
  rw [Tree.clear_iff, Tree.clear_iff]
  refine forall₂_congr (fun k _ => ?_)
  by_cases hk : T.get k = none
  · simp only [hk, true_or, iff_true, IsDir, h k]
    by_cases hkl : k <:+ l
    · exact Or.inr ⟨a, by simp [hkl]⟩
    · exact Or.inl (by simp [hkl])
  · rw [IsDir, IsDir, h.get_of_ne_none hk]

end Tree

section Sorting

variable {α : Type} [LinearOrder α]

def sortMultiset (s : Multiset α) : List α :=
  Quot.liftOn s (fun l => l.insertionSort (· ≤ ·)) (fun a b hab => by
    apply List.Perm.eq_of_pairwise' (r := (· ≤ ·))
    · exact List.pairwise_insertionSort _ a
    · exact List.pairwise_insertionSort _ b
    · exact (List.perm_insertionSort _ a).trans (hab.trans (List.perm_insertionSort _ b).symm))

theorem coe_sortMultiset (s : Multiset α) : (sortMultiset s : Multiset α) = s := by
  induction s using Quot.inductionOn with
  | h l => exact Multiset.coe_eq_coe.mpr (List.perm_insertionSort _ l)

theorem mem_sortMultiset (s : Multiset α) (a : α) : a ∈ sortMultiset s ↔ a ∈ s := by
  rw [← Multiset.mem_coe, coe_sortMultiset]

theorem nodup_sortMultiset (s : Multiset α) (h : s.Nodup) : (sortMultiset s).Nodup := by
  rw [← Multiset.coe_nodup, coe_sortMultiset]
  exact h

theorem sorted_sortMultiset (s : Multiset α) : (sortMultiset s).Pairwise (· ≤ ·) := by
  induction s using Quot.inductionOn with
  | h l => exact List.pairwise_insertionSort _ l

end Sorting

end Vdev.FileTree
