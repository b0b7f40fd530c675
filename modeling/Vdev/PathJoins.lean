import Vdev.MetadataPaths
import Vdev.Uevent

/-!
Joining paths and taking them apart (libvdev/util.c). A join has one slash between its parts,
whatever slash they have there themselves, and an empty root has no part in it. From this
description joins are associative, and the directory and the last name of a join are its parts
again, except for a path of one character.
-/
namespace Vdev.PathJoins

open CString Paths

def chop (s : CStr) : CStr := if s.getLast? = some '/' then s.dropLast else s

def cut (s : CStr) : CStr := if s.head? = some '/' then s.tail else s

/-- A directory path: no slash at the end, apart from the root. -/
def IsDirectory (d : CStr) : Prop := d = [] ∨ d = ['/'] ∨ d.getLast? ≠ some '/'

section Join

theorem chop_append_slash (s : CStr) : chop (s ++ ['/']) = s := by
  rw [chop, if_pos (by simp), List.dropLast_concat]

theorem chop_of_ne {s : CStr} (h : s.getLast? ≠ some '/') : chop s = s := if_neg h

theorem cut_slash (s : CStr) : cut ('/' :: s) = s := if_pos rfl

theorem cut_of_ne {s : CStr} (h : s.head? ≠ some '/') : cut s = s := if_neg h

theorem chop_append (s t : CStr) (ht : t ≠ []) : chop (s ++ t) = s ++ chop t := by
  unfold chop
  rw [List.getLast?_append_of_ne_nil s ht, List.dropLast_append_of_ne_nil ht]
  split_ifs <;> rfl

theorem cut_append (s t : CStr) (hs : s ≠ []) : cut (s ++ t) = cut s ++ t := by
  unfold cut
  rw [List.head?_append_of_ne_nil s hs, List.tail_append_of_ne_nil hs]
  split_ifs <;> rfl

/-- The slashes at the two ends of a path do not depend on each other; in the path of one slash
there is only one to lose. -/
theorem chop_cut (s : CStr) : chop (cut s) = cut (chop s) := by
  cases s with
  | nil => rfl
  | cons x s =>
    by_cases hs : s = []
    · subst s
      by_cases hx : x = '/'
      · subst x
        rfl
      · have hhead : ([x] : CStr).head? ≠ some '/' := by simpa using hx
        have hlast : ([x] : CStr).getLast? ≠ some '/' := by simpa using hx
        rw [cut_of_ne hhead, chop_of_ne hlast, cut_of_ne hhead]
    · have hchop : chop (x :: s) = [x] ++ chop s := chop_append [x] s hs
      by_cases hx : x = '/'
      · subst x
        rw [cut_slash, hchop, List.singleton_append, cut_slash]
      · have hhead : ∀ t : CStr, (x :: t).head? ≠ some '/' := by
          intro t
          simpa using hx
        rw [cut_of_ne (hhead s), hchop, List.singleton_append, cut_of_ne (hhead _)]

theorem fullpath_nil (path : CStr) : fullpath [] path = path := by
  rw [fullpath, if_pos rfl, List.nil_append]

/-- There is one slash between the parts of a join. -/
theorem fullpath_eq (root path : CStr) (h : root ≠ []) :
    fullpath root path = chop root ++ '/' :: cut path := by
  rw [fullpath, if_neg h]
  by_cases hroot : root.getLast? = some '/'
  · obtain ⟨r, rfl⟩ := List.getLast?_eq_some_iff.mp hroot
    rw [if_neg (fun hand => hand.1 hroot), chop_append_slash]
    by_cases hpath : path.head? = some '/'
    · obtain ⟨p, rfl⟩ := List.head?_eq_some_iff.mp hpath
      rw [if_pos ⟨hroot, hpath⟩, cut_slash, List.tail_cons, List.append_assoc,
        List.singleton_append]
    · rw [if_neg (fun hand => hpath hand.2), cut_of_ne hpath, List.append_assoc,
        List.singleton_append]
  · rw [chop_of_ne hroot]
    by_cases hpath : path.head? = some '/'
    · obtain ⟨p, rfl⟩ := List.head?_eq_some_iff.mp hpath
      rw [if_neg (fun hand => hand.2 hpath), if_neg (fun hand => hroot hand.1), cut_slash]
    · rw [if_pos ⟨hroot, hpath⟩, cut_of_ne hpath]

theorem chop_ne_nil {s : CStr} (h : s ≠ []) (hroot : s ≠ ['/']) : chop s ≠ [] := by
  unfold chop
  split_ifs with hlast
  · obtain ⟨t, rfl⟩ := List.getLast?_eq_some_iff.mp hlast
    rw [List.dropLast_concat]
    rintro rfl
    exact hroot rfl
  · exact h

theorem cut_ne_nil {s : CStr} (h : s ≠ []) (hroot : s ≠ ['/']) : cut s ≠ [] := by
  unfold cut
  split_ifs with hhead
  · obtain ⟨t, rfl⟩ := List.head?_eq_some_iff.mp hhead
    rw [List.tail_cons]
    rintro rfl
    exact hroot rfl
  · exact h

/-- The slashes on both sides of a path in the middle, taken away from either side. -/
theorem middle_eq (b s : CStr) (hb : b ≠ []) :
    chop ('/' :: cut b) ++ '/' :: s = '/' :: cut (chop b ++ '/' :: s) := by
  by_cases hroot : b = ['/']
  · rw [hroot]
    rfl
  · have hchop : chop ('/' :: cut b) = '/' :: cut (chop b) := by
      rw [← chop_cut]
      exact chop_append ['/'] (cut b) (cut_ne_nil hb hroot)
    rw [hchop, cut_append _ _ (chop_ne_nil hb hroot), List.cons_append]

/-- A join of joins, whichever of them is made first. -/
theorem fullpath_fullpath (a b c : CStr) :
    fullpath (fullpath a b) c = fullpath a (fullpath b c) := by
  by_cases ha : a = []
  · rw [ha, fullpath_nil, fullpath_nil]
  have hab : fullpath a b ≠ [] := fullpath_ne_nil a b ha
  rw [fullpath_eq _ c hab, fullpath_eq a b ha, fullpath_eq a _ ha]
  by_cases hb : b = []
  · subst b
    rw [fullpath_nil]
    exact congrArg (· ++ '/' :: cut c) (chop_append_slash (chop a))
  · rw [fullpath_eq b c hb, chop_append _ _ (List.cons_ne_nil _ _), List.append_assoc,
      middle_eq b (cut c) hb]

/-- Joins are associative, and the empty path has no part in them. -/
theorem fullpath_assoc (a b c : CStr) :
    fullpath (fullpath a b) c = fullpath a (fullpath b c) ∧ fullpath [] a = a :=
  ⟨fullpath_fullpath a b c, fullpath_nil a⟩

end Join

section Nestings

open SystemCalls Data Metadata MetadataPaths Sweep Uevent

end Nestings

section Split

theorem slashBelow_eq_none {path : CStr} (h : '/' ∉ path) (k : ℕ) : slashBelow path k = none := by
  induction k with
  | zero => rfl
  | succ k ih =>
    rw [slashBelow, if_neg (fun hk => h (List.mem_of_getElem? hk)), ih]

/-- A path without a slash has no directory. -/
theorem dirname_of_no_slash {b : CStr} (hb : b ≠ []) (hslash : '/' ∉ b) : dirname b = [] := by
  have hroot : b ≠ ['/'] := by
    rintro rfl
    exact hslash List.mem_cons_self
  have hhead : b.head? ≠ some '/' := fun h => hslash (List.mem_of_head? h)
  rw [dirname, if_neg (fun hor => hor.elim hb hroot), slashBelow_eq_none hslash]
  dsimp only [Option.getD_none]
  rw [if_neg (fun hand => hhead hand.2), List.take_zero]

/-- A path without a slash is its own last name, unless it has one character only. -/
theorem basename_of_no_slash {b : CStr} (hslash : '/' ∉ b) :
    basename b = if b.length ≤ 1 then [] else b := by
  by_cases hlen : b.length ≤ 1
  · rw [basename, basenameLen, if_pos hlen, if_pos hlen, Nat.sub_zero, List.drop_length]
  · rw [basename, basenameLen, if_neg hlen, if_neg hlen]
    dsimp only
    rw [slashBelow_eq_none hslash, Nat.sub_self, List.drop_zero]

theorem fullpath_name {d b : CStr} (hd : d ≠ []) (hlast : d.getLast? ≠ some '/')
    (hb : '/' ∉ b) : fullpath d b = d ++ '/' :: b := by
  rw [fullpath_eq d b hd, chop_of_ne hlast, cut_of_ne (fun h => hb (List.mem_of_head? h))]

/-- A join is taken apart into its parts, unless it is a single character. -/
theorem split_join_iff (d b : CStr) (hd : IsDirectory d) (hb : b ≠ []) (hslash : '/' ∉ b) :
    (dirname (fullpath d b) = d ∧ basename (fullpath d b) = b) ↔ d ≠ [] ∨ b.length ≠ 1 := by
  by_cases hnil : d = []
  · subst d
    have hpos := List.length_pos_of_ne_nil hb
    rw [fullpath_nil, dirname_of_no_slash hb hslash, basename_of_no_slash hslash]
    constructor
    · rintro ⟨-, hbase⟩
      refine Or.inr fun hone => ?_
      rw [if_pos hone.le] at hbase
      exact hb hbase.symm
    · rintro (h | h)
      · exact absurd rfl h
      · exact ⟨rfl, if_neg (by omega)⟩
  · refine iff_of_true ?_ (Or.inl hnil)
    rcases hd with rfl | rfl | hlast
    · exact absurd rfl hnil
    · have hjoin : fullpath ['/'] b = [] ++ '/' :: b := by
        rw [fullpath_eq _ b hnil, cut_of_ne (fun h => hslash (List.mem_of_head? h))]
        rfl
      rw [hjoin, dirname_append [] b hslash hb, basename_append_name [] b hslash hb]
      exact ⟨rfl, rfl⟩
    · rw [fullpath_name hnil hlast hslash, dirname_append d b hslash hb, if_neg hnil,
        basename_append_name d b hslash hb]
      exact ⟨rfl, rfl⟩

theorem split_join_iff_dev :
    (dirname (fullpath "/dev".toList "a".toList) = "/dev".toList ∧
      basename (fullpath "/dev".toList "a".toList) = "a".toList) ↔
    "/dev".toList ≠ [] ∨ "a".toList.length ≠ 1 :=
  split_join_iff "/dev".toList "a".toList (by unfold IsDirectory; decide) (by decide) (by decide)

/-- The last name of `a` is empty. -/
theorem split_join_fails :
    ¬∀ d b : CStr, IsDirectory d → b ≠ [] → '/' ∉ b →
      dirname (fullpath d b) = d ∧ basename (fullpath d b) = b := by
  intro h
  exact absurd (h [] ['a'] (Or.inl rfl) (by decide) (by decide)).2 (by decide)

end Split

end Vdev.PathJoins
