import Vdev.SystemCalls

/-!
The path functions of libvdev/util.c. They work on strings of any shape; joining
and splitting agrees with the components that the file system sees.
-/
namespace Vdev.Paths

open CString SystemCalls

/-- `vdev_fullpath`. -/
def fullpath (root path : CStr) : CStr :=
  if root = [] then root ++ path
  else if root.getLast? ≠ some '/' ∧ path.head? ≠ some '/' then root ++ '/' :: path
  else if root.getLast? = some '/' ∧ path.head? = some '/' then root ++ path.tail
  else root ++ path

/-- The loops that move `delim_i` down until it stands at a slash. The index
starts below `k`, and `none` is the index -1. -/
def slashBelow (path : CStr) : ℕ → Option ℕ
  | 0 => none
  | k + 1 => if path[k]? = some '/' then some k else slashBelow path k

/-- `vdev_dirname`. Its index starts at the terminating NUL, so the test for a
slash at the end of the path never succeeds. -/
def dirname (path : CStr) : CStr :=
  if path = [] ∨ path = ['/'] then ['/']
  else
    let delim := (slashBelow path (path.length + 1)).getD 0
    let delim := if delim = 0 ∧ path.head? = some '/' then 1 else delim
    path.take delim

/-- `vdev_basename_len`. -/
def basenameLen (path : CStr) : ℕ :=
  if path.length ≤ 1 then 0
  else
    let last := if path.getLast? = some '/' then path.length - 2 else path.length - 1
    match slashBelow path (last + 1) with
    | some delim => path.length - (delim + 1)
    | none => path.length

/-- `vdev_basename`. -/
def basename (path : CStr) : CStr := path.drop (path.length - basenameLen path)

theorem fullpath_ne_nil (root path : CStr) (h : root ≠ []) : fullpath root path ≠ [] := by
  unfold fullpath
  split_ifs <;> simp_all

/-- The components of a joined path are those of its parts. -/
theorem names_fullpath (root path : CStr) (h : root ≠ []) :
    names (fullpath root path) = names root ++ names path := by
  have hslash : ∀ a, a.getLast? = some '/' → ∀ b, names (a ++ b) = names a ++ names b := by
    intro a ha b
    obtain ⟨a', rfl⟩ := List.getLast?_eq_some_iff.mp ha
    rw [List.append_assoc, List.singleton_append, names_append_slash, names_append_slash,
      names_nil, List.append_nil]
  have htail : path.head? = some '/' → names path = names path.tail := by
    intro hp
    obtain ⟨p, rfl⟩ := List.head?_eq_some_iff.mp hp
    exact names_slash p
  rw [fullpath, if_neg h]
  split_ifs with h₁ h₂
  · exact names_append_slash root path
  · rw [hslash root h₂.1, htail h₂.2]
  · by_cases hr : root.getLast? = some '/'
    · exact hslash root hr path
    · have hp : path.head? = some '/' := by
        by_contra hp
        exact h₁ ⟨hr, hp⟩
      obtain ⟨p, rfl⟩ := List.head?_eq_some_iff.mp hp
      rw [names_append_slash, names_slash]

theorem slashed_fullpath (root path : CStr) (h : path ≠ []) (hs : path ≠ ['/']) :
    slashed (fullpath root path) = slashed path := by
  unfold fullpath
  split_ifs with h₀ h₁ h₂
  · exact slashed_append root path h
  · rw [slashed_append root _ (List.cons_ne_nil _ _)]
    exact slashed_append ['/'] path h
  · obtain ⟨p, rfl⟩ := List.head?_eq_some_iff.mp h₂.2
    have hp : p ≠ [] := fun hp => hs (by rw [hp])
    rw [List.tail_cons, slashed_append root p hp]
    exact (slashed_append ['/'] p hp).symm
  · exact slashed_append root path h

theorem slashBelow_append (d c : CStr) (hc : '/' ∉ c) (k : ℕ) (hk : k ≤ c.length + 1) :
    slashBelow (d ++ '/' :: c) (d.length + 1 + k) = some d.length := by
  induction k with
  | zero => simp [slashBelow]
  | succ k ih =>
    have hne : (d ++ '/' :: c)[d.length + 1 + k]? ≠ some '/' := by
      rw [List.getElem?_append_right (by omega), show d.length + 1 + k - d.length = k + 1 by omega,
        List.getElem?_cons_succ]
      intro h
      exact hc (List.mem_of_getElem? h)
    rw [← Nat.add_assoc, slashBelow, if_neg hne]
    exact ih (by omega)

/-- The directory part of a path; the slash of the root stays. -/
theorem slashBelow_lt (path : CStr) (k i : ℕ) (h : slashBelow path k = some i) :
    i < path.length := by
  induction k with
  | zero => cases h
  | succ k ih =>
    rw [slashBelow] at h
    split_ifs at h with hk
    · cases h
      exact (List.getElem?_eq_some_iff.mp hk).1
    · exact ih h

/-- The parent of a path is shorter, up to the root. -/
theorem dirname_length (path : CStr) (hnil : path ≠ []) (hroot : path ≠ ['/']) :
    (dirname path).length < path.length := by
  have hpos : 0 < path.length := List.length_pos_of_ne_nil hnil
  have hdelim : (slashBelow path (path.length + 1)).getD 0 < path.length := by
    cases hslash : slashBelow path (path.length + 1) with
    | none => exact hpos
    | some i => exact slashBelow_lt path _ i hslash
  rw [dirname, if_neg (fun hor => hor.elim hnil hroot)]
  dsimp only
  rw [List.length_take]
  split_ifs with hhead
  · obtain ⟨rest, hrest⟩ := List.head?_eq_some_iff.mp hhead.2
    have hne : rest ≠ [] := fun heq => hroot (by rw [hrest, heq])
    have hlen := List.length_pos_of_ne_nil hne
    rw [hrest, List.length_cons]
    omega
  · omega

theorem dirname_append (d c : CStr) (hc : '/' ∉ c) (hne : c ≠ []) :
    dirname (d ++ '/' :: c) = if d = [] then ['/'] else d := by
  have hscan : slashBelow (d ++ '/' :: c) ((d ++ '/' :: c).length + 1) = some d.length := by
    have h := slashBelow_append d c hc (c.length + 1) le_rfl
    rw [show (d ++ '/' :: c).length + 1 = d.length + 1 + (c.length + 1) by simp; omega]
    exact h
  have hroot : ¬(d ++ '/' :: c = [] ∨ d ++ '/' :: c = ['/']) := by
    rintro (h | h)
    · simp at h
    · have hlen := congrArg List.length h
      have hpos := List.length_pos_of_ne_nil hne
      simp at hlen
      omega
  rw [dirname, if_neg hroot, hscan]
  cases d with
  | nil => simp
  | cons a d => simp

theorem basename_append_name (d c : CStr) (hslash : '/' ∉ c) (hne : c ≠ []) :
    basename (d ++ '/' :: c) = c := by
  have hpos := List.length_pos_of_ne_nil hne
  have hlen : (d ++ '/' :: c).length = d.length + 1 + c.length := by
    simp
    omega
  have hlast : (d ++ '/' :: c).getLast? ≠ some '/' := by
    rw [List.getLast?_append_of_ne_nil _ (List.cons_ne_nil _ _), List.getLast?_cons,
      List.getLast?_eq_some_getLast hne]
    simp only [Option.getD_some, ne_eq, Option.some.injEq]
    intro h
    exact hslash (h ▸ List.getLast_mem hne)
  have hscan := slashBelow_append d c hslash c.length (by omega)
  have hbase : basenameLen (d ++ '/' :: c) = c.length := by
    rw [basenameLen, if_neg (by omega), if_neg hlast, hlen]
    dsimp only
    rw [show d.length + 1 + c.length - 1 + 1 = d.length + 1 + c.length by omega, hscan]
    dsimp only
    omega
  rw [basename, hbase, hlen, show d.length + 1 + c.length - c.length = d.length + 1 by omega,
    ← List.singleton_append, ← List.append_assoc]
  exact List.drop_left' (by simp)

theorem basename_append (d c : CStr) (hc : Plain c ∨ c = ['.'] ∨ c = ['.', '.']) :
    basename (d ++ '/' :: c) = c := by
  rcases hc with hc | rfl | rfl
  · exact basename_append_name d c hc.2.1 hc.1
  · exact basename_append_name d ['.'] (by decide) (by decide)
  · exact basename_append_name d ['.', '.'] (by decide) (by decide)

/-- A name joined to a path is its last component. -/
theorem fullpath_plain (root c : CStr) (h : root ≠ []) (hc : c.head? ≠ some '/') :
    ∃ d, fullpath root c = d ++ '/' :: c := by
  rw [fullpath, if_neg h]
  split_ifs with h₁ h₂
  · exact ⟨root, rfl⟩
  · exact absurd h₂.2 hc
  · have hr : root.getLast? = some '/' := by
      by_contra hr
      exact h₁ ⟨hr, hc⟩
    obtain ⟨d, rfl⟩ := List.getLast?_eq_some_iff.mp hr
    exact ⟨d, by simp⟩

theorem basename_fullpath (root c : CStr) (h : root ≠ [])
    (hc : Plain c ∨ c = ['.'] ∨ c = ['.', '.']) : basename (fullpath root c) = c := by
  have hhead : c.head? ≠ some '/' := by
    rcases hc with hc | rfl | rfl
    · intro hh
      exact hc.2.1 (List.mem_of_head? hh)
    · decide
    · decide
  obtain ⟨d, hd⟩ := fullpath_plain root c h hhead
  rw [hd, basename_append d c hc]

/-- Joining a name to a path leads one level down. -/
theorem denotes_fullpath (s : CStr) (l : Location) (n : Name) (hs : DenotesDir s l) :
    Denotes (fullpath s n.val) (n :: l) := by
  refine ⟨fullpath_ne_nil _ _ hs.ne_nil, ?_, ?_⟩
  · rw [names_fullpath _ _ hs.ne_nil, hs.names_eq, names_of_plain _ n.property, steps_cons]
  · have hne : n.val ≠ ['/'] := by
      intro h
      exact n.property.2.1 (by rw [h]; exact List.mem_singleton_self _)
    rw [slashed_fullpath _ _ n.property.1 hne]
    exact slashed_of_plain _ n.property

/-- What `vdev_fullpath` appends to the root has the components of the path. -/
theorem fullpath_split (root path : CStr) (h : root ≠ []) :
    ∃ rest, fullpath root path = root ++ rest ∧ names rest = names path ∧
      (rest.head? = some '/' ∨ slashed root = true) := by
  have hslashed : root.getLast? = some '/' → slashed root = true := by
    intro hr
    rw [slashed, hr]
    rfl
  rw [fullpath, if_neg h]
  split_ifs with h₁ h₂
  · exact ⟨'/' :: path, rfl, names_slash path, Or.inl rfl⟩
  · obtain ⟨p, rfl⟩ := List.head?_eq_some_iff.mp h₂.2
    exact ⟨p, rfl, (names_slash p).symm, Or.inr (hslashed h₂.1)⟩
  · refine ⟨path, rfl, rfl, ?_⟩
    by_cases hr : root.getLast? = some '/'
    · exact Or.inr (hslashed hr)
    · refine Or.inl ?_
      by_contra hp
      exact h₁ ⟨hr, hp⟩

/-- A path split at its last slash. -/
theorem exists_last_slash (p : CStr) (h : '/' ∈ p) : ∃ d c, p = d ++ '/' :: c ∧ '/' ∉ c := by
  obtain ⟨as, bs, heq, has⟩ := List.eq_append_cons_of_mem (List.mem_reverse.mpr h)
  refine ⟨bs.reverse, as.reverse, ?_, fun hmem => has (List.mem_reverse.mp hmem)⟩
  have hrev := congrArg List.reverse heq
  simpa using hrev

theorem names_of_no_slash (c : CStr) (hne : c ≠ []) (h : '/' ∉ c) : names c = [c] := by
  rw [names, List.splitOn_eq_singleton h]
  simp [hne]

end Vdev.Paths
