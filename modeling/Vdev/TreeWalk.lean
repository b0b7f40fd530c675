import Vdev.FileTree
import Mathlib.Data.List.Pairwise

/-!
Walking the directories of a tree with a stack. The frontier is a list whose last
element is taken off; the directories in it are put on the frontier in the order in
which they are listed. The walk is a traversal in preorder: it comes to each
directory below the start once, and to a directory after the directories above it.
-/
namespace Vdev.TreeWalk

open FileTree

variable {N D F : Type} [DecidableEq N] {T : Tree N D F} {dirs : List N → List N}

/-- `dirs` lists the names of the directories in each directory. -/
structure ListsDirs (T : Tree N D F) (dirs : List N → List N) : Prop where
  nodup : ∀ l, (dirs l).Nodup
  mem_iff : ∀ l n, n ∈ dirs l ↔ T.IsDir (n :: l)

def subdirs (dirs : List N → List N) (l : List N) : List (List N) := (dirs l).map (· :: l)

/-- The walk, for a number of rounds. -/
def stackLoop (dirs : List N → List N) : ℕ → List (List N) → List (List N)
  | 0, _ => []
  | rounds + 1, frontier =>
    match frontier.getLast? with
    | none => []
    | some l => l :: stackLoop dirs rounds (frontier.dropLast ++ subdirs dirs l)

/-- A directory and the directories below it, down to some level. -/
def preorder (dirs : List N → List N) : ℕ → List N → List (List N)
  | 0, l => [l]
  | level + 1, l => l :: (subdirs dirs l).reverse.flatMap (preorder dirs level)

def visit (T : Tree N D F) (dirs : List N → List N) (l : List N) : List (List N) :=
  preorder dirs (T.depth + 1 - l.length) l

/-- Induction from the directories in a directory to the directory. -/
theorem dir_induction {motive : (l : List N) → T.IsDir l → Prop}
    (step : ∀ l hl, (∀ n hn, motive (n :: l) hn) → motive l hl) (l : List N) (hl : T.IsDir l) :
    motive l hl := by
  induction hlevel : T.depth + 1 - l.length generalizing l with
  | zero =>
    have hlen := T.length_le_depth l hl.get_ne_none
    omega
  | succ level ih =>
    refine step l hl (fun n hn => ih (n :: l) hn ?_)
    rw [List.length_cons]
    omega

theorem mem_subdirs (h : ListsDirs T dirs) (l m : List N) :
    m ∈ subdirs dirs l ↔ ∃ n, m = n :: l ∧ T.IsDir (n :: l) := by
  rw [subdirs, List.mem_map]
  constructor
  · rintro ⟨n, hn, rfl⟩
    exact ⟨n, rfl, (h.mem_iff l n).mp hn⟩
  · rintro ⟨n, rfl, hn⟩
    exact ⟨n, (h.mem_iff l n).mpr hn, rfl⟩

theorem visit_eq (h : ListsDirs T dirs) (l : List N) (hl : T.IsDir l) :
    visit T dirs l = l :: (subdirs dirs l).reverse.flatMap (visit T dirs) := by
  have hlen := T.length_le_depth l hl.get_ne_none
  rw [visit, show T.depth + 1 - l.length = T.depth - l.length + 1 by omega, preorder]
  congr 1
  refine List.flatMap_congr (fun m hm => ?_)
  obtain ⟨n, rfl, _⟩ := (mem_subdirs h l m).mp (List.mem_reverse.mp hm)
  rw [visit, List.length_cons, show T.depth + 1 - (l.length + 1) = T.depth - l.length by omega]

omit [DecidableEq N] in
theorem exists_cons_suffix {l m : List N} (h : l <:+ m) (hne : l ≠ m) : ∃ n, n :: l <:+ m := by
  obtain ⟨t, rfl⟩ := h
  rcases List.eq_nil_or_concat t with rfl | ⟨t, n, rfl⟩
  · exact absurd rfl hne
  · exact ⟨n, t, by simp⟩

theorem mem_visit (h : ListsDirs T dirs) (l : List N) (hl : T.IsDir l) (m : List N) :
    m ∈ visit T dirs l ↔ l <:+ m ∧ T.IsDir m := by
  induction l, hl using dir_induction with
  | step l hl ih =>
    rw [visit_eq h l hl, List.mem_cons, List.mem_flatMap]
    constructor
    · rintro (rfl | ⟨k, hk, hm⟩)
      · exact ⟨List.suffix_rfl, hl⟩
      · obtain ⟨n, rfl, hn⟩ := (mem_subdirs h l k).mp (List.mem_reverse.mp hk)
        obtain ⟨hsub, hdir⟩ := (ih n hn).mp hm
        exact ⟨(List.suffix_cons n l).trans hsub, hdir⟩
    · rintro ⟨hsub, hdir⟩
      by_cases hlm : l = m
      · exact Or.inl hlm.symm
      · obtain ⟨n, hn⟩ := exists_cons_suffix hsub hlm
        have hnd : T.IsDir (n :: l) := by
          by_cases heq : n :: l = m
          · rw [heq]
            exact hdir
          · exact T.isDir_of_suffix hn heq hdir.get_ne_none
        refine Or.inr ⟨n :: l, ?_, (ih n hnd).mpr ⟨hn, hdir⟩⟩
        exact List.mem_reverse.mpr ((mem_subdirs h l _).mpr ⟨n, rfl, hnd⟩)

/-- Nothing comes after a directory that is below it. -/
theorem visit_pairwise (h : ListsDirs T dirs) (l : List N) (hl : T.IsDir l) :
    (visit T dirs l).Pairwise (fun a b => ¬b <:+ a) := by
  induction l, hl using dir_induction with
  | step l hl ih =>
    have hbelow : ∀ k ∈ (subdirs dirs l).reverse, ∃ n, k = n :: l ∧ T.IsDir (n :: l) :=
      fun k hk => (mem_subdirs h l k).mp (List.mem_reverse.mp hk)
    rw [visit_eq h l hl, List.pairwise_cons]
    refine ⟨fun m hm hml => ?_, List.pairwise_flatMap.mpr ⟨fun k hk => ?_, ?_⟩⟩
    · obtain ⟨k, hk, hm⟩ := List.mem_flatMap.mp hm
      obtain ⟨n, rfl, hn⟩ := hbelow k hk
      have hlen := (((mem_visit h _ hn m).mp hm).1.trans hml).length_le
      simp at hlen
    · obtain ⟨n, rfl, hn⟩ := hbelow k hk
      exact ih n hn
    · have hnodup : (subdirs dirs l).Nodup :=
        (h.nodup l).map (fun a b hab => (List.cons.inj hab).1)
      refine (List.nodup_reverse.mpr hnodup).imp_of_mem (fun {k k'} hk hk' hne x hx y hy hyx => ?_)
      obtain ⟨n, rfl, hn⟩ := hbelow k hk
      obtain ⟨n', rfl, hn'⟩ := hbelow k' hk'
      have hxn := ((mem_visit h _ hn x).mp hx).1
      have hxn' := ((mem_visit h _ hn' y).mp hy).1.trans hyx
      rcases List.suffix_or_suffix_of_suffix hxn hxn' with hsub | hsub
      · exact hne (hsub.eq_of_length (by simp))
      · exact hne (hsub.eq_of_length (by simp)).symm

/-- The walk goes through the directories of the frontier, the last one first. -/
theorem stackLoop_eq (h : ListsDirs T dirs) (rounds : ℕ) (frontier : List (List N))
    (hdirs : ∀ l ∈ frontier, T.IsDir l)
    (hrounds : (frontier.reverse.flatMap (visit T dirs)).length ≤ rounds) :
    stackLoop dirs rounds frontier = frontier.reverse.flatMap (visit T dirs) := by
  induction rounds generalizing frontier with
  | zero => exact (List.length_eq_zero_iff.mp (Nat.le_zero.mp hrounds)).symm
  | succ rounds ih =>
    rcases List.eq_nil_or_concat frontier with rfl | ⟨rest, l, rfl⟩
    · rfl
    · have hl : T.IsDir l := hdirs l (by simp)
      have hsplit : (rest.concat l).reverse.flatMap (visit T dirs) =
          l :: (rest ++ subdirs dirs l).reverse.flatMap (visit T dirs) := by
        rw [List.concat_eq_append, List.reverse_append, List.reverse_append, List.reverse_singleton,
          List.singleton_append, List.flatMap_cons, visit_eq h l hl, List.flatMap_append,
          List.cons_append]
      rw [hsplit, List.length_cons] at hrounds
      rw [hsplit, List.concat_eq_append, stackLoop, List.getLast?_append_of_ne_nil _ (List.cons_ne_nil _ _)]
      simp only [List.getLast?_singleton, List.dropLast_concat]
      rw [ih _ _ (by omega)]
      intro m hm
      rcases List.mem_append.mp hm with hm | hm
      · exact hdirs m (by simp [hm])
      · obtain ⟨n, rfl, hn⟩ := (mem_subdirs h l m).mp hm
        exact hn

section Below

variable (h : ListsDirs T dirs) (l : List N) (hl : T.IsDir l)

include h hl

theorem visit_tail_length : (visit T dirs l).tail.length ≤ T.entries.keys.card := by
  have hnodup : (visit T dirs l).Nodup :=
    (visit_pairwise h l hl).imp (fun {a b} hab (heq : a = b) => hab (heq ▸ List.suffix_rfl))
  calc (visit T dirs l).tail.length ≤ (visit T dirs l).length := by simp
    _ = (visit T dirs l).toFinset.card := (List.toFinset_card_of_nodup hnodup).symm
    _ ≤ T.entries.keys.card := Finset.card_le_card (fun m hm => by
      have hdir := ((mem_visit h l hl m).mp (List.mem_toFinset.mp hm)).2
      exact Finmap.mem_keys.mpr ((T.mem_entries m).mpr hdir.get_ne_none))

theorem stackLoop_subdirs (rounds : ℕ) (hrounds : T.entries.keys.card ≤ rounds) :
    stackLoop dirs rounds (subdirs dirs l) = (visit T dirs l).tail := by
  have htail : (visit T dirs l).tail = (subdirs dirs l).reverse.flatMap (visit T dirs) := by
    rw [visit_eq h l hl, List.tail_cons]
  have hlen := visit_tail_length h l hl
  rw [htail] at hlen ⊢
  refine stackLoop_eq h rounds _ (fun m hm => ?_) (hlen.trans hrounds)
  obtain ⟨n, rfl, hn⟩ := (mem_subdirs h l m).mp hm
  exact hn

/-- A walk from what is in `l` comes to every directory below `l`. -/
theorem mem_stackLoop (rounds : ℕ) (hrounds : T.entries.keys.card ≤ rounds) (m : List N) :
    m ∈ stackLoop dirs rounds (subdirs dirs l) ↔ l <:+ m ∧ m ≠ l ∧ T.IsDir m := by
  have hpair := visit_pairwise h l hl
  have hmem := mem_visit h l hl m
  rw [stackLoop_subdirs h l hl rounds hrounds]
  rw [visit_eq h l hl] at hpair hmem ⊢
  rw [List.mem_cons] at hmem
  rw [List.tail_cons]
  constructor
  · intro hm
    obtain ⟨hsub, hdir⟩ := hmem.mp (Or.inr hm)
    refine ⟨hsub, ?_, hdir⟩
    rintro rfl
    exact (List.pairwise_cons.mp hpair).1 m hm List.suffix_rfl
  · rintro ⟨hsub, hne, hdir⟩
    exact (hmem.mpr ⟨hsub, hdir⟩).resolve_left hne

/-- The walk comes to a directory after the directories above it, and only once. -/
theorem stackLoop_pairwise (rounds : ℕ) (hrounds : T.entries.keys.card ≤ rounds) :
    (stackLoop dirs rounds (subdirs dirs l)).Pairwise (fun a b => ¬b <:+ a) := by
  rw [stackLoop_subdirs h l hl rounds hrounds]
  exact (visit_pairwise h l hl).tail

end Below

end Vdev.TreeWalk
