import Vdev.CallEffects
import Vdev.Paths

/-!
Making, removing and listing directories (libvdev/util.c). `vdev_mkdirs` walks
the characters of a path and makes a directory at each slash; the main result
says that it adds exactly the missing directories on the way to the location
that the path denotes, or does nothing when a file stands in the way.
-/
namespace Vdev.Directories

open CString FileTree SystemCalls CallEffects Paths

/-- The body of the loop of `vdev_mkdirs` at the end of a component. -/
def mkdirsStep (T : FS) (currdir : CStr) (mode : ℕ) : Int × FS :=
  match stat T currdir with
  | .ok (.dir _) => (0, T)
  | .ok (.leaf _) => (Errno.enotdir.rc, T)
  | .error _ =>
    match mkdir T currdir mode with
    | .error e => (e.rc, T)
    | .ok T => (0, T)

/-- The loop of `vdev_mkdirs`, at index `i`. -/
def mkdirsLoop (dirp : CStr) (mode : ℕ) : ℕ → ℕ → FS → Int × FS
  | 0, _, T => (0, T)
  | fuel + 1, i, T =>
    if i ≤ dirp.length then
      if dirp[i]? = some '/' ∨ i = dirp.length then
        let (rc, T) := mkdirsStep T (dirp.take (if i = 0 then 1 else i)) mode
        if rc ≠ 0 then (rc, T) else mkdirsLoop dirp mode fuel (i + 1) T
      else mkdirsLoop dirp mode fuel (i + 1) T
    else (0, T)

/-- `vdev_mkdirs`. The index grows from `start` to the length of the path. -/
def mkdirs (dirp : CStr) (start mode : ℕ) (T : FS) : Int × FS :=
  mkdirsLoop dirp mode (dirp.length + 1 - start) start T

/-- The loop of `vdev_rmdirs`. -/
def rmdirsLoop : ℕ → CStr → FS → Int × FS
  | 0, _, T => (0, T)
  | fuel + 1, dir, T =>
    if dir.length > 0 then
      match rmdir T dir with
      | .error e => (e.rc, T)
      | .ok T => rmdirsLoop fuel (dirname dir) T
    else (0, T)

/-- `vdev_rmdirs`. The path gets shorter in each round, or is the root, which
cannot be removed. -/
def rmdirs (dirp : CStr) (T : FS) : Int × FS := rmdirsLoop (dirp.length + 1) dirp T

/-- The loop of `vdev_load_all` over the names it scanned. -/
def loadAllLoop {ω : Type} (loader : CStr → ω → Int × ω) (dirPath : CStr) :
    List CStr → ω → Int × ω
  | [], w => (0, w)
  | name :: rest, w =>
    let (rc, w) := loader (fullpath dirPath name) w
    if rc ≠ 0 then (rc, w) else loadAllLoop loader dirPath rest w

/-- `vdev_load_all`, for a loader that acts on a world with a file tree in it. -/
def loadAll {ω : Type} (tree : ω → FS) (loader : CStr → ω → Int × ω) (dirPath : CStr) (w : ω) :
    Int × ω :=
  match scandir (tree w) dirPath with
  | .error e => (e.rc, w)
  | .ok names => loadAllLoop loader dirPath names w

/-- What making the directories on the way to `m` comes to. -/
def MadeDirs (T : FS) (m : Location) (mode : ℕ) (r : Int × FS) : Prop :=
  (T.Clear m → r.1 = 0 ∧ T.Grown m mode r.2) ∧ (¬T.Clear m → r = (Errno.enotdir.rc, T))

theorem mkdirsLoop_skip (pre p rest : CStr) (mode fuel : ℕ) (T : FS) (hp : '/' ∉ p)
    (hpre : pre ≠ []) :
    mkdirsLoop (pre ++ p ++ rest) mode (p.length + fuel) pre.length T =
      mkdirsLoop (pre ++ p ++ rest) mode fuel (pre ++ p).length T := by
  induction p generalizing pre with
  | nil => simp
  | cons c p ih =>
    have hc : c ≠ '/' := by
      intro h
      exact hp (h ▸ List.mem_cons_self)
    have hp' : '/' ∉ p := fun h => hp (List.mem_cons_of_mem _ h)
    have hget : (pre ++ c :: p ++ rest)[pre.length]? = some c := by simp
    have hlen : pre.length < (pre ++ c :: p ++ rest).length := by simp
    have hstep : mkdirsLoop (pre ++ c :: p ++ rest) mode (p.length + fuel + 1) pre.length T =
        mkdirsLoop (pre ++ c :: p ++ rest) mode (p.length + fuel) (pre.length + 1) T := by
      rw [mkdirsLoop, if_pos hlen.le, if_neg]
      rw [hget]
      rintro (h | h)
      · exact hc (Option.some.inj h)
      · omega
    have h := ih (pre ++ [c]) hp' (by simp)
    rw [show (c :: p).length + fuel = p.length + fuel + 1 by simp; omega, hstep]
    simpa [Nat.add_assoc, Nat.add_comm, Nat.add_left_comm] using h

/-- At the end of a component the loop makes one directory, then goes on. -/
theorem mkdirsLoop_step (pre rest : CStr) (mode fuel : ℕ) (T : FS) (hpre : pre ≠ [])
    (hrest : rest = [] ∨ rest.head? = some '/') :
    mkdirsLoop (pre ++ rest) mode (fuel + 1) pre.length T =
      if (mkdirsStep T pre mode).1 ≠ 0 then mkdirsStep T pre mode
      else mkdirsLoop (pre ++ rest) mode fuel (pre.length + 1) (mkdirsStep T pre mode).2 := by
  have hlen : pre.length ≤ (pre ++ rest).length := by simp
  have hend : (pre ++ rest)[pre.length]? = some '/' ∨ pre.length = (pre ++ rest).length := by
    rcases hrest with rfl | h
    · exact Or.inr (by simp)
    · obtain ⟨r, rfl⟩ := List.head?_eq_some_iff.mp h
      exact Or.inl (by simp)
  have hpos : pre.length ≠ 0 := by
    intro h
    exact hpre (List.length_eq_zero_iff.mp h)
  rw [mkdirsLoop, if_pos hlen, if_pos hend, if_neg hpos, List.take_left]

theorem mkdirsStep_dir (T : FS) (s : CStr) (l : Location) (mode : ℕ) (hs : DenotesDir s l)
    (hl : T.IsDir l) : mkdirsStep T s mode = (0, T) := by
  obtain ⟨a, ha⟩ := hs.stat T hl
  rw [mkdirsStep, ha]

theorem mkdirsStep_leaf (T : FS) (s : CStr) (n : Name) (l : Location) (mode : ℕ) (c : Leaf)
    (hs : Denotes s (n :: l)) (h : T.get (n :: l) = some (.leaf c)) :
    mkdirsStep T s mode = (Errno.enotdir.rc, T) := by
  rw [mkdirsStep, hs.stat T, h]

theorem mkdirsStep_new (T : FS) (s : CStr) (n : Name) (l : Location) (mode : ℕ)
    (hs : Denotes s (n :: l)) (hl : T.IsDir l) (h : T.get (n :: l) = none) :
    mkdirsStep T s mode = (0, T.put n l (.dir mode)) := by
  rw [mkdirsStep, hs.stat T, h, hs.toDir.mkdir_new T mode hl h]

theorem clear_below_missing (T : FS) (n : Name) (l m : Location) (hl : T.IsDir l)
    (h : T.get (n :: l) = none) (hm : n :: l <:+ m) : T.Clear m := by
  apply (T.clear_iff m).mpr
  intro k hk
  rcases List.suffix_or_suffix_of_suffix hk hm with hkn | hnk
  · rcases List.suffix_cons_iff.mp hkn with rfl | hkl
    · exact Or.inl h
    · exact (T.clear_iff l).mp (T.clear_of_isDir l hl) k hkl
  · exact Or.inl (T.get_eq_none_of_suffix hnk h)

/-- A directory made on the way to `m` is one of the missing ones. -/
theorem madeDirs_put (T : FS) (n : Name) (l m : Location) (mode : ℕ) (r : Int × FS)
    (hl : T.IsDir l) (h : T.get (n :: l) = none) (hm : n :: l <:+ m)
    (hr : MadeDirs (T.put n l (.dir mode)) m mode r) : MadeDirs T m mode r := by
  have hnd := T.not_isDir_of_none _ h
  have hget := T.get_put n l (.dir mode) hl hnd
  have hclear : (T.put n l (.dir mode)).Clear m := by
    apply ((T.put n l (.dir mode)).clear_iff m).mpr
    intro k hk
    by_cases hkn : k = n :: l
    · exact Or.inr ⟨mode, by rw [hget, if_pos hkn]⟩
    · rcases (T.clear_iff m).mp (clear_below_missing T n l m hl h hm) k hk with hnone | ⟨a, ha⟩
      · exact Or.inl (by rw [hget, if_neg hkn, hnone])
      · exact Or.inr ⟨a, by rw [hget, if_neg hkn, ha]⟩
  obtain ⟨hrc, hgrown⟩ := hr.1 hclear
  refine ⟨fun _ => ⟨hrc, ?_⟩, fun hnot => absurd (clear_below_missing T n l m hl h hm) hnot⟩
  intro k
  rw [hgrown k, hget]
  by_cases hkn : k = n :: l
  · simp [hkn, h, hm]
  · simp [hkn]

theorem madeDirs_of_isDir (T : FS) (l : Location) (mode : ℕ) (h : T.IsDir l) :
    MadeDirs T l mode (0, T) := by
  refine ⟨fun _ => ⟨rfl, T.grown_of_isDir l mode h⟩, fun hnot => ?_⟩
  exact absurd (T.clear_of_isDir l h) hnot

theorem madeDirs_of_leaf (T : FS) (n : Name) (l m : Location) (mode : ℕ) (c : Leaf)
    (h : T.get (n :: l) = some (.leaf c)) (hm : n :: l <:+ m) :
    MadeDirs T m mode (Errno.enotdir.rc, T) := by
  refine ⟨fun hclear => ?_, fun _ => rfl⟩
  exact absurd hclear (T.not_clear_of_leaf c hm h)

theorem denotesDir_slash (s : CStr) (l : Location) (h : DenotesDir s l) :
    DenotesDir (s ++ ['/']) l := by
  refine ⟨by simp, ?_⟩
  rw [names_append_slash, names_nil, List.append_nil]
  exact h.names_eq

theorem denotes_append_name (s : CStr) (l : Location) (n : Name) (hs : DenotesDir s l)
    (hslash : slashed s = true) : Denotes (s ++ n.val) (n :: l) := by
  have hlast : s.getLast? = some '/' := by simpa [slashed] using hslash
  have hhead : n.val.head? ≠ some '/' := fun h => n.property.2.1 (List.mem_of_head? h)
  have h := denotes_fullpath s l n hs
  rw [fullpath, if_neg hs.ne_nil, if_neg (fun hand => hand.1 hlast),
    if_neg (fun hand => hhead hand.2)] at h
  exact h

/-- The loop over the components `ps`, the empty ones among them included, that
follow a path to a directory. -/
theorem mkdirsLoop_spec (mode : ℕ) (ps : List CStr) (pre : CStr) (l : Location) (T : FS)
    (cs : List Name) (hne : ps ≠ []) (hps : ∀ p ∈ ps, p = [] ∨ Plain p)
    (hcs : ps.filter (· ≠ []) = cs.map Subtype.val) (hpre : DenotesDir pre l)
    (hslash : slashed pre = true) (hl : T.IsDir l) :
    MadeDirs T (cs.reverse ++ l) mode
      (mkdirsLoop (pre ++ ['/'].intercalate ps) mode ((['/'].intercalate ps).length + 1)
        pre.length T) := by
  induction ps generalizing pre l T cs with
  | nil => exact absurd rfl hne
  | cons p ps ih =>
    have hp : p = [] ∨ Plain p := hps p List.mem_cons_self
    have hnp : '/' ∉ p := by
      rcases hp with rfl | hp
      · simp
      · exact hp.2.1
    obtain ⟨R, hR, hsplit, hrest⟩ : ∃ R : CStr, ['/'].intercalate (p :: ps) = p ++ R ∧
        (R = [] ∨ R.head? = some '/') ∧
        ∀ (l' : Location) (T' : FS) (cs' : List Name), ps.filter (· ≠ []) = cs'.map Subtype.val →
          DenotesDir (pre ++ p) l' → T'.IsDir l' → MadeDirs T' (cs'.reverse ++ l') mode
            (mkdirsLoop (pre ++ p ++ R) mode R.length ((pre ++ p).length + 1) T') := by
      cases ps with
      | nil =>
        refine ⟨[], by simp [List.intercalate], Or.inl rfl, ?_⟩
        intro l' T' cs' hcs' hpre' hl'
        have hnil : cs' = [] := List.map_eq_nil_iff.mp hcs'.symm
        rw [hnil]
        exact madeDirs_of_isDir T' l' mode hl'
      | cons q qs =>
        refine ⟨'/' :: ['/'].intercalate (q :: qs), by simp [List.intercalate], Or.inr rfl, ?_⟩
        intro l' T' cs' hcs' hpre' hl'
        have h := ih (pre ++ p ++ ['/']) l' T' cs' (List.cons_ne_nil _ _)
          (fun r hr => hps r (List.mem_cons_of_mem _ hr)) hcs' (denotesDir_slash _ _ hpre')
          (by simp [slashed]) hl'
        simpa [Nat.add_assoc] using h
    have hloop : mkdirsLoop (pre ++ ['/'].intercalate (p :: ps)) mode
        ((['/'].intercalate (p :: ps)).length + 1) pre.length T =
        if (mkdirsStep T (pre ++ p) mode).1 ≠ 0 then mkdirsStep T (pre ++ p) mode
        else mkdirsLoop (pre ++ p ++ R) mode R.length ((pre ++ p).length + 1)
          (mkdirsStep T (pre ++ p) mode).2 := by
      rw [hR, List.length_append, Nat.add_assoc, ← List.append_assoc,
        mkdirsLoop_skip pre p R mode _ T hnp hpre.ne_nil]
      exact mkdirsLoop_step (pre ++ p) R mode R.length T (by simp [hpre.ne_nil]) hsplit
    rw [hloop]
    rcases hp with rfl | hp
    · have hstep := mkdirsStep_dir T (pre ++ []) l mode (by simpa using hpre) hl
      rw [hstep]
      simp only [ne_eq, not_true_eq_false, if_false]
      exact hrest l T cs (by simpa using hcs) (by simpa using hpre) hl
    · cases cs with
      | nil => simp [hp.1] at hcs
      | cons n cs =>
        rw [List.filter_cons_of_pos (by simpa using hp.1), List.map_cons, List.cons.injEq] at hcs
        obtain ⟨rfl, hcs⟩ := hcs
        have hden := denotes_append_name pre l n hpre hslash
        have hm : n :: l <:+ (n :: cs).reverse ++ l := by simp
        have hassoc : (n :: cs).reverse ++ l = cs.reverse ++ n :: l := by simp
        cases hget : T.get (n :: l) with
        | none =>
          rw [mkdirsStep_new T _ n l mode hden hl hget]
          simp only [ne_eq, not_true_eq_false, if_false]
          have hdir : (T.put n l (.dir mode)).IsDir (n :: l) :=
            ⟨mode, by rw [T.get_put n l _ hl (T.not_isDir_of_none _ hget), if_pos rfl]⟩
          apply madeDirs_put T n l _ mode _ hl hget hm
          rw [hassoc]
          exact hrest (n :: l) _ cs hcs hden.toDir hdir
        | some e =>
          cases e with
          | leaf c =>
            rw [mkdirsStep_leaf T _ n l mode c hden hget]
            simp only [ne_eq, Errno.rc_ne_zero, not_false_eq_true, if_true]
            exact madeDirs_of_leaf T n l _ mode c hget hm
          | dir a =>
            rw [mkdirsStep_dir T _ (n :: l) mode hden.toDir ⟨a, hget⟩]
            simp only [ne_eq, not_true_eq_false, if_false]
            rw [hassoc]
            exact hrest (n :: l) T cs hcs hden.toDir ⟨a, hget⟩

theorem plain_of_mem_splitOn (rest p : CStr) (cs : List Name)
    (h : names rest = cs.map Subtype.val) (hp : p ∈ rest.splitOn '/') : p = [] ∨ Plain p := by
  by_cases hnil : p = []
  · exact Or.inl hnil
  · have hmem : p ∈ names rest := List.mem_filter.mpr ⟨hp, by simpa using hnil⟩
    rw [h] at hmem
    obtain ⟨n, _, rfl⟩ := List.mem_map.mp hmem
    exact Or.inr n.property

/-- `vdev_mkdirs` started at the end of a path to a directory. -/
theorem mkdirs_spec (root rest : CStr) (l : Location) (cs : List Name) (mode : ℕ) (T : FS)
    (hroot : DenotesDir root l) (hl : T.IsDir l)
    (hrest : rest = [] ∨ rest.head? = some '/' ∨ slashed root = true)
    (hcs : names rest = cs.map Subtype.val) :
    MadeDirs T (cs.reverse ++ l) mode (mkdirs (root ++ rest) root.length mode T) := by
  have hstep := mkdirsStep_dir T root l mode hroot hl
  have hfuel : (root ++ rest).length + 1 - root.length = rest.length + 1 := by
    rw [List.length_append]
    omega
  rw [mkdirs, hfuel]
  have hslashed : slashed root = true → MadeDirs T (cs.reverse ++ l) mode
      (mkdirsLoop (root ++ rest) mode (rest.length + 1) root.length T) := by
    intro hslash
    have h := mkdirsLoop_spec mode (rest.splitOn '/') root l T cs (List.splitOn_ne_nil _ _)
      (fun p hp => plain_of_mem_splitOn rest p cs hcs hp) hcs hroot hslash hl
    rw [List.intercalate_splitOn] at h
    exact h
  rcases hrest with rfl | hhead | hslash
  · have hnil : cs = [] := List.map_eq_nil_iff.mp (hcs.symm.trans names_nil)
    rw [mkdirsLoop_step root [] mode _ T hroot.ne_nil (Or.inl rfl), hstep, hnil]
    exact madeDirs_of_isDir T l mode hl
  · obtain ⟨r, rfl⟩ := List.head?_eq_some_iff.mp hhead
    rw [names_slash] at hcs
    have h := mkdirsLoop_spec mode (r.splitOn '/') (root ++ ['/']) l T cs (List.splitOn_ne_nil _ _)
      (fun p hp => plain_of_mem_splitOn r p cs hcs hp) hcs (denotesDir_slash root l hroot)
      (by simp [slashed]) hl
    rw [List.intercalate_splitOn] at h
    rw [mkdirsLoop_step root ('/' :: r) mode _ T hroot.ne_nil (Or.inr rfl), hstep]
    simpa using h
  · exact hslashed hslash

theorem rmdir_root (T : FS) : rmdir T ['/'] = .error .ebusy := by
  have htarget : target T ['/'] = .ok ([], .root) := rfl
  rw [rmdir, htarget]

/-- Fuel beyond the length of the path is not used. -/
theorem rmdirsLoop_fuel (fuel fuel' : ℕ) (dir : CStr) (T : FS) (h : dir.length < fuel)
    (h' : dir.length < fuel') : rmdirsLoop fuel dir T = rmdirsLoop fuel' dir T := by
  induction fuel generalizing fuel' dir T with
  | zero => omega
  | succ fuel ih =>
    obtain ⟨fuel', rfl⟩ := Nat.exists_eq_succ_of_ne_zero (by omega : fuel' ≠ 0)
    rw [rmdirsLoop, rmdirsLoop]
    split
    · rename_i hpos
      by_cases hroot : dir = ['/']
      · rw [hroot, rmdir_root]
      · have hlt := dirname_length dir (List.ne_nil_of_length_pos hpos) hroot
        split
        · rfl
        · exact ih fuel' _ _ (by omega) (by omega)
    · rfl

/-- `vdev_rmdirs` removes directories only. -/
theorem rmdirsLoop_get (fuel : ℕ) (dir : CStr) (T : FS) (k : Location) (h : ¬T.IsDir k) :
    (rmdirsLoop fuel dir T).2.get k = T.get k := by
  induction fuel generalizing dir T with
  | zero => rfl
  | succ fuel ih =>
    rw [rmdirsLoop]
    split_ifs with hlen
    · cases hr : rmdir T dir with
      | error e => rfl
      | ok U =>
        obtain ⟨n, l, hd, hc, rfl⟩ := rmdir_eq_ok hr
        have hk : k ≠ n :: l := fun heq => h (heq ▸ hd)
        have hget : (T.remove n l).get k = T.get k := by
          rw [T.get_remove n l hc, if_neg hk]
        have hnd : ¬(T.remove n l).IsDir k := by
          rintro ⟨a, ha⟩
          exact h ⟨a, by rw [← hget, ha]⟩
        change (rmdirsLoop fuel (dirname dir) (T.remove n l)).2.get k = _
        rw [ih _ _ hnd, hget]
    · rfl

/-- `vdev_rmdirs` stops at once where no empty directory stands. -/
theorem rmdirs_of_not_empty (s : CStr) (n : Name) (l : Location) (T : FS)
    (hs : DenotesDir s (n :: l)) (h : ¬(T.IsDir (n :: l) ∧ T.Childless (n :: l))) :
    (rmdirs s T).2 = T := by
  obtain ⟨e, he⟩ := hs.rmdir_error T h
  rw [rmdirs, rmdirsLoop, if_pos (List.length_pos_of_ne_nil hs.ne_nil), he]

/-- The names that `scandir` reports. -/
def entryNames (T : FS) (m : Location) : List CStr :=
  sortMultiset (['.'] ::ₘ ['.', '.'] ::ₘ (T.children m).map Subtype.val)

theorem mem_entryNames (T : FS) (m : Location) (c : CStr) :
    c ∈ entryNames T m ↔
      c = ['.'] ∨ c = ['.', '.'] ∨ ∃ n : Name, n.val = c ∧ T.get (n :: m) ≠ none := by
  rw [entryNames, mem_sortMultiset, Multiset.mem_cons, Multiset.mem_cons, Multiset.mem_map]
  constructor
  · rintro (h | h | ⟨n, hn, rfl⟩)
    · exact Or.inl h
    · exact Or.inr (Or.inl h)
    · exact Or.inr (Or.inr ⟨n, rfl, (T.mem_children m n).mp hn⟩)
  · rintro (h | h | ⟨n, rfl, hn⟩)
    · exact Or.inl h
    · exact Or.inr (Or.inl h)
    · exact Or.inr (Or.inr ⟨n, (T.mem_children m n).mpr hn, rfl⟩)

theorem val_mem_entryNames (T : FS) (m : Location) (n : Name) :
    n.val ∈ entryNames T m ↔ T.get (n :: m) ≠ none := by
  rw [mem_entryNames]
  constructor
  · rintro (h | h | ⟨n', hn', h⟩)
    · exact absurd h n.property.2.2.1
    · exact absurd h n.property.2.2.2
    · rwa [← Subtype.ext hn']
  · intro h
    exact Or.inr (Or.inr ⟨n, rfl, h⟩)

theorem nodup_entryNames (T : FS) (m : Location) : (entryNames T m).Nodup := by
  have hplain : ∀ c, ¬Plain c → c ∉ (T.children m).map Subtype.val := by
    intro c hc hmem
    obtain ⟨n, _, rfl⟩ := Multiset.mem_map.mp hmem
    exact hc n.property
  apply nodup_sortMultiset
  rw [Multiset.nodup_cons, Multiset.nodup_cons, Multiset.mem_cons]
  refine ⟨?_, hplain _ (by decide), (T.nodup_children m).map Subtype.val_injective⟩
  rintro (h | h)
  · exact absurd h (by decide)
  · exact hplain _ (by decide) h

/-- The names `.` and `..` are not names of their own. -/
def nameOf (c : CStr) : Option Name := if h : Plain c then some ⟨c, h⟩ else none

theorem nameOf_val (n : Name) : nameOf n.val = some n := dif_pos n.property

theorem nameOf_eq_some {c : CStr} {n : Name} (h : nameOf c = some n) : c = n.val := by
  unfold nameOf at h
  split_ifs at h
  cases h
  rfl

end Vdev.Directories
