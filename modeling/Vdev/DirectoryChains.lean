import Vdev.Directories

/-!
`vdev_mkdirs` (libvdev/util.c) for any path: with repeated slashes, with `.` and `..`, and relative
to a working directory. Its loop looks at each prefix of the path that ends before a slash, and at
the path itself. A prefix is looked at when all shorter ones are directories, so the entry that is
made for it is the only one that it needs.
-/
namespace Vdev.DirectoryChains

open CString FileTree SystemCalls CallEffects Paths Directories

section Calls

variable (cwd : Location) (T : FS)

def origin (s : CStr) : Location := if s.head? = some '/' then [] else cwd

def resolveAt (s : CStr) : Except Errno Location :=
  if s = [] then .error .enoent
  else walk T (origin cwd s) (names s ++ if slashed s then [['.']] else [])

/-- `stat`. -/
def statAt (s : CStr) : Except Errno (Entry ℕ Leaf) :=
  match resolveAt cwd T s with
  | .error e => .error e
  | .ok l =>
    match T.get l with
    | none => .error .enoent
    | some e => .ok e

def targetAt (s : CStr) : Except Errno (Location × Last) :=
  if s = [] then .error .enoent
  else
    match (names s).reverse with
    | [] => .ok ([], .root)
    | c :: cs =>
      match walk T (origin cwd s) cs.reverse with
      | .error e => .error e
      | .ok l =>
        match T.get l with
        | none => .error .enoent
        | some (.leaf _) => .error .enotdir
        | some (.dir _) => .ok (l, lastOf c)

/-- `mkdir`. -/
def mkdirAt (s : CStr) (mode : ℕ) : Except Errno FS :=
  match targetAt cwd T s with
  | .error e => .error e
  | .ok (l, .name n) =>
    match T.get (n :: l) with
    | some _ => .error .eexist
    | none => .ok (T.put n l (.dir mode))
  | .ok _ => .error .eexist

/-- What the loop of `vdev_mkdirs` does with a prefix. -/
def makeDir (currdir : CStr) (mode : ℕ) : Int × FS :=
  match statAt cwd T currdir with
  | .ok (.dir _) => (0, T)
  | .ok (.leaf _) => (Errno.enotdir.rc, T)
  | .error _ =>
    match mkdirAt cwd T currdir mode with
    | .error e => (e.rc, T)
    | .ok T => (0, T)

end Calls

def prefixAt (dirp : CStr) (i : ℕ) : CStr := dirp.take (if i = 0 then 1 else i)

/-- The loop of `vdev_mkdirs`, at index `i`. -/
def mkdirsFrom (cwd : Location) (dirp : CStr) (mode : ℕ) : ℕ → ℕ → FS → Int × FS
  | 0, _, T => (0, T)
  | fuel + 1, i, T =>
    if i ≤ dirp.length then
      if dirp[i]? = some '/' ∨ i = dirp.length then
        let (rc, T) := makeDir cwd T (prefixAt dirp i) mode
        if rc ≠ 0 then (rc, T) else mkdirsFrom cwd dirp mode fuel (i + 1) T
      else mkdirsFrom cwd dirp mode fuel (i + 1) T
    else (0, T)

/-- `vdev_mkdirs`. The index grows from `start` to the length of the path. -/
def mkdirsAt (cwd : Location) (dirp : CStr) (start mode : ℕ) (T : FS) : Int × FS :=
  mkdirsFrom cwd dirp mode (dirp.length + 1 - start) start T

def IsDirAt (cwd : Location) (T : FS) (s : CStr) : Prop := ∃ a, statAt cwd T s = .ok (.dir a)

def Cut (dirp : CStr) (start i : ℕ) : Prop :=
  start ≤ i ∧ (dirp[i]? = some '/' ∨ i = dirp.length)

/-- All prefixes that end before `k` are directories, and only those that were missing have been
made. -/
structure Chain (cwd : Location) (dirp : CStr) (start mode k : ℕ) (T U : FS) : Prop where
  dirs : ∀ i, Cut dirp start i → i < k → IsDirAt cwd U (prefixAt dirp i)
  kept : ∀ l, T.get l ≠ none → U.get l = T.get l
  added : ∀ l, T.get l = none → U.get l ≠ none → U.get l = some (.dir mode) ∧
    ∃ i, Cut dirp start i ∧ i < k ∧ resolveAt cwd U (prefixAt dirp i) = .ok l ∧
      ∀ e, statAt cwd T (prefixAt dirp i) ≠ .ok e

section Root

theorem origin_nil (s : CStr) : origin [] s = [] := by
  unfold origin
  split_ifs <;> rfl

theorem resolveAt_nil (T : FS) (s : CStr) : resolveAt [] T s = resolve T s := by
  rw [resolveAt, resolve, origin_nil]

theorem makeDir_nil (T : FS) (s : CStr) (mode : ℕ) : makeDir [] T s mode = mkdirsStep T s mode := by
  have hstat : statAt [] T s = stat T s := by
    rw [statAt, resolveAt_nil]
    rfl
  have hmkdir : mkdirAt [] T s mode = mkdir T s mode := by
    rw [mkdirAt, targetAt, origin_nil]
    rfl
  rw [makeDir, hstat, hmkdir]
  rfl

/-- With the root as the working directory this is the function of the other modules. -/
theorem mkdirsAt_nil (dirp : CStr) (start mode : ℕ) (T : FS) :
    mkdirsAt [] dirp start mode T = mkdirs dirp start mode T := by
  have hloop : ∀ fuel i U, mkdirsFrom [] dirp mode fuel i U = mkdirsLoop dirp mode fuel i U := by
    intro fuel
    induction fuel with
    | zero => exact fun i U => rfl
    | succ fuel ih =>
      intro i U
      rw [mkdirsFrom, mkdirsLoop, prefixAt, makeDir_nil]
      simp only [ih]
  exact hloop _ _ _

end Root

section Resolving

variable {cwd : Location} {T U : FS} {s : CStr}

def Keeps (T U : FS) : Prop := ∀ l, T.get l ≠ none → U.get l = T.get l

theorem Keeps.isDir (h : Keeps T U) (l : Location) (hl : T.IsDir l) : U.IsDir l := by
  obtain ⟨a, ha⟩ := hl
  exact ⟨a, by rw [h l (by rw [ha]; exact Option.some_ne_none _), ha]⟩

theorem keeps_put {n : Name} {l : Location} {e : Entry ℕ Leaf} (hl : T.IsDir l)
    (hn : T.get (n :: l) = none) : Keeps T (T.put n l e) := by
  intro m hm
  rw [T.get_put n l e hl (T.not_isDir_of_none _ hn), if_neg]
  rintro rfl
  exact hm hn

theorem statAt_eq_ok (e : Entry ℕ Leaf) :
    statAt cwd T s = .ok e ↔ ∃ l, resolveAt cwd T s = .ok l ∧ T.get l = some e := by
  unfold statAt
  cases resolveAt cwd T s with
  | error e' => simp
  | ok l => cases hl : T.get l <;> simp [hl]

theorem resolveAt_mono (h : Keeps T U) {l : Location} (hl : resolveAt cwd T s = .ok l) :
    resolveAt cwd U s = .ok l := by
  unfold resolveAt at hl ⊢
  split_ifs at hl with hnil
  · rw [if_neg hnil, if_pos (by assumption)]
    exact walk_mono T U _ l _ h.isDir hl
  · rw [if_neg hnil, if_neg (by assumption)]
    exact walk_mono T U _ l _ h.isDir hl

theorem statAt_mono (h : Keeps T U) {e : Entry ℕ Leaf} (he : statAt cwd T s = .ok e) :
    statAt cwd U s = .ok e := by
  obtain ⟨l, hl, hget⟩ := (statAt_eq_ok e).mp he
  refine (statAt_eq_ok e).mpr ⟨l, resolveAt_mono h hl, ?_⟩
  rw [h l (by rw [hget]; exact Option.some_ne_none _), hget]

theorem IsDirAt.mono (h : Keeps T U) (hs : IsDirAt cwd T s) : IsDirAt cwd U s := by
  obtain ⟨a, ha⟩ := hs
  exact ⟨a, statAt_mono h ha⟩

/-- A walk that goes on stands in a directory. -/
theorem walk_through {l m : Location} {cs ds : List CStr} (hds : ds ≠ [])
    (h : walk T l (cs ++ ds) = .ok m) : ∃ k, walk T l cs = .ok k ∧ T.IsDir k := by
  rw [walk_append] at h
  cases hcs : walk T l cs with
  | error e =>
    rw [hcs] at h
    cases h
  | ok k =>
    rw [hcs] at h
    change walk T k ds = .ok m at h
    refine ⟨k, rfl, ?_⟩
    cases ds with
    | nil => exact absurd rfl hds
    | cons d ds =>
      rw [walk] at h
      cases hk : T.get k with
      | none =>
        rw [hk] at h
        cases h
      | some e =>
        cases e with
        | leaf c =>
          rw [hk] at h
          cases h
        | dir a => exact ⟨a, hk⟩

theorem walk_dot {k : Location} (hk : T.IsDir k) : walk T k [['.']] = .ok k := by
  obtain ⟨a, ha⟩ := hk
  rw [walk, ha]
  simp [Plain, walk]

/-- A path that leads to a directory does so with a slash at its end as well. -/
theorem resolveAt_of_walk {k : Location} (hne : s ≠ [])
    (h : walk T (origin cwd s) (names s) = .ok k) (hk : T.IsDir k) :
    resolveAt cwd T s = .ok k := by
  rw [resolveAt, if_neg hne, walk_append, h]
  change walk T k _ = _
  split_ifs
  · exact walk_dot hk
  · rfl

/-- A path with nothing but slashes behind a slash ends in a slash. -/
theorem slashed_of_names_nil (p q : CStr) (h : names q = []) : slashed (p ++ '/' :: q) = true := by
  by_contra hnot
  have hlast : (p ++ '/' :: q).getLast? ≠ some '/' := by simpa [slashed] using hnot
  have hq : q ≠ [] := by
    rintro rfl
    simp at hlast
  by_cases hslash : '/' ∈ q
  · obtain ⟨d, c, rfl, hc⟩ := exists_last_slash q hslash
    have hcne : c ≠ [] := by
      rintro rfl
      have hassoc : p ++ '/' :: (d ++ ['/']) = (p ++ '/' :: d) ++ ['/'] := by simp
      rw [hassoc, List.getLast?_concat] at hlast
      exact hlast rfl
    rw [names_append_slash, names_of_no_slash c hcne hc] at h
    simp at h
  · rw [names_of_no_slash q hq hslash] at h
    cases h

/-- What stands in front of a slash in a path that leads somewhere is a directory. -/
theorem isDirAt_of_statAt {p q : CStr} {e : Entry ℕ Leaf} (hp : p ≠ [])
    (h : statAt cwd T (p ++ '/' :: q) = .ok e) : IsDirAt cwd T p := by
  obtain ⟨l, hl, -⟩ := (statAt_eq_ok e).mp h
  have hhead : origin cwd (p ++ '/' :: q) = origin cwd p := by
    unfold origin
    rw [List.head?_append_of_ne_nil p hp]
  have hne : p ++ '/' :: q ≠ [] := by simp
  rw [resolveAt, if_neg hne, hhead, names_append_slash, List.append_assoc] at hl
  have hmore : names q ++ (if slashed (p ++ '/' :: q) then [['.']] else []) ≠ [] := by
    intro hnil
    obtain ⟨hq, hdot⟩ := List.append_eq_nil_iff.mp hnil
    rw [if_pos (slashed_of_names_nil p q hq)] at hdot
    cases hdot
  obtain ⟨k, hwalk, a, ha⟩ := walk_through hmore hl
  exact ⟨a, (statAt_eq_ok _).mpr ⟨k, resolveAt_of_walk hp hwalk ⟨a, ha⟩, ha⟩⟩

theorem isDirAt_root (cwd : Location) (T : FS) : IsDirAt cwd T ['/'] := by
  obtain ⟨a, ha⟩ := T.isDir_nil
  refine ⟨a, (statAt_eq_ok _).mpr ⟨[], ?_, ha⟩⟩
  exact resolveAt_of_walk (List.cons_ne_nil _ _) rfl ⟨a, ha⟩

theorem targetAt_eq_name {l : Location} {n : Name} (h : targetAt cwd T s = .ok (l, .name n)) :
    ∃ cs : List CStr, s ≠ [] ∧ names s = cs ++ [n.val] ∧
      walk T (origin cwd s) cs = .ok l ∧ T.IsDir l := by
  unfold targetAt at h
  split_ifs at h with hnil
  split at h
  · cases h
  · rename_i c cs hnames
    split at h
    · cases h
    · rename_i k hwalk
      split at h
      · cases h
      · cases h
      · rename_i a hk
        obtain ⟨rfl, hlast⟩ := Prod.mk.inj (Except.ok.inj h)
        obtain ⟨hc, rfl⟩ := lastOf_eq_name c n hlast
        refine ⟨cs.reverse, hnil, ?_, hwalk, a, hk⟩
        rw [← List.reverse_reverse (names s), hnames, List.reverse_cons]

/-- A directory that is made is new, and its path leads to it. -/
theorem mkdirAt_eq_ok {mode : ℕ} (h : mkdirAt cwd T s mode = .ok U) :
    ∃ n l, T.IsDir l ∧ T.get (n :: l) = none ∧ U = T.put n l (.dir mode) ∧
      resolveAt cwd U s = .ok (n :: l) := by
  unfold mkdirAt at h
  split at h
  · cases h
  · rename_i l n htarget
    split at h
    · cases h
    · rename_i hnone
      cases h
      obtain ⟨cs, hnil, hnames, hwalk, hl⟩ := targetAt_eq_name htarget
      refine ⟨n, l, hl, hnone, rfl, ?_⟩
      have hkeeps : Keeps T (T.put n l (.dir mode)) := keeps_put hl hnone
      have hdir : (T.put n l (.dir mode)).IsDir (n :: l) :=
        ⟨mode, by rw [T.get_put n l _ hl (T.not_isDir_of_none _ hnone), if_pos rfl]⟩
      apply resolveAt_of_walk hnil _ hdir
      rw [hnames, walk_append, walk_mono T _ _ l cs hkeeps.isDir hwalk]
      obtain ⟨a, ha⟩ := hkeeps.isDir l hl
      change walk _ l [n.val] = .ok (n :: l)
      rw [walk, ha]
      dsimp only
      rw [dif_pos n.property]
      rfl
  · cases h

/-- A round of the loop that goes well leaves a directory, and makes at most that one. -/
theorem makeDir_eq_zero {mode : ℕ} (h : makeDir cwd T s mode = (0, U)) :
    Keeps T U ∧ IsDirAt cwd U s ∧
      ∀ l, T.get l = none → U.get l ≠ none → U.get l = some (.dir mode) ∧
        resolveAt cwd U s = .ok l ∧ ∀ e, statAt cwd T s ≠ .ok e := by
  unfold makeDir at h
  split at h
  · rename_i a hstat
    cases h
    exact ⟨fun l _ => rfl, ⟨a, hstat⟩, fun l hnone hsome => absurd hnone hsome⟩
  · exact absurd (Prod.mk.inj h).1 (Errno.rc_ne_zero _)
  · rename_i e hstat
    split at h
    · exact absurd (Prod.mk.inj h).1 (Errno.rc_ne_zero _)
    · rename_i V hV
      cases h
      obtain ⟨n, l, hl, hnone, rfl, hres⟩ := mkdirAt_eq_ok hV
      have hget := T.get_put n l (.dir mode) hl (T.not_isDir_of_none _ hnone)
      have hnew : (T.put n l (.dir mode)).get (n :: l) = some (.dir mode) := by
        rw [hget, if_pos rfl]
      refine ⟨keeps_put hl hnone, ⟨mode, (statAt_eq_ok _).mpr ⟨_, hres, hnew⟩⟩, ?_⟩
      intro m hm hsome
      by_cases heq : m = n :: l
      · subst heq
        refine ⟨hnew, hres, fun e' he' => ?_⟩
        rw [hstat] at he'
        cases he'
      · rw [hget, if_neg heq] at hsome
        exact absurd hm hsome

end Resolving

section Loop

variable {cwd : Location} {dirp : CStr} {start mode k : ℕ} {T U V : FS}

theorem Chain.refl (cwd : Location) (dirp : CStr) (start mode : ℕ) (T : FS) :
    Chain cwd dirp start mode start T T where
  dirs _ hi hlt := absurd hi.1 (Nat.not_le.mpr hlt)
  kept _ _ := rfl
  added _ hnone hsome := absurd hnone hsome

theorem Chain.skip (h : Chain cwd dirp start mode k T U) (hk : ¬Cut dirp start k) :
    Chain cwd dirp start mode (k + 1) T U where
  dirs i hi hlt := by
    rcases Nat.lt_succ_iff_lt_or_eq.mp hlt with hlt | rfl
    · exact h.dirs i hi hlt
    · exact absurd hi hk
  kept := h.kept
  added l hnone hsome := by
    obtain ⟨hdir, i, hi, hlt, hrest⟩ := h.added l hnone hsome
    exact ⟨hdir, i, hi, Nat.lt_succ_of_lt hlt, hrest⟩

/-- One more prefix: what was made before is not new any more, and what is made now leaves it. -/
theorem Chain.step (h : Chain cwd dirp start mode k T U) (hk : Cut dirp start k)
    (hmake : makeDir cwd U (prefixAt dirp k) mode = (0, V)) :
    Chain cwd dirp start mode (k + 1) T V := by
  obtain ⟨hkeeps, hdir, hnew⟩ := makeDir_eq_zero hmake
  refine ⟨?_, ?_, ?_⟩
  · intro i hi hlt
    rcases Nat.lt_succ_iff_lt_or_eq.mp hlt with hlt | rfl
    · exact (h.dirs i hi hlt).mono hkeeps
    · exact hdir
  · intro l hl
    have hU : U.get l = T.get l := h.kept l hl
    rw [hkeeps l (by rwa [hU]), hU]
  · intro l hnone hsome
    by_cases hU : U.get l = none
    · obtain ⟨hget, hres, hmissing⟩ := hnew l hU hsome
      refine ⟨hget, k, hk, Nat.lt_succ_self k, hres, ?_⟩
      intro e he
      exact hmissing e (statAt_mono h.kept he)
    · obtain ⟨hget, i, hi, hlt, hres, hmissing⟩ := h.added l hnone hU
      refine ⟨by rw [hkeeps l hU, hget], i, hi, Nat.lt_succ_of_lt hlt, ?_, hmissing⟩
      exact resolveAt_mono hkeeps hres

/-- A loop that goes on to the end leaves the whole chain. -/
theorem mkdirsFrom_chain (fuel : ℕ) (h : Chain cwd dirp start mode k T U) (hstart : start ≤ k)
    (hfuel : dirp.length + 1 = k + fuel)
    (hrc : (mkdirsFrom cwd dirp mode fuel k U).1 = 0) :
    Chain cwd dirp start mode (dirp.length + 1) T (mkdirsFrom cwd dirp mode fuel k U).2 := by
  induction fuel generalizing k U with
  | zero =>
    rw [hfuel]
    exact h
  | succ fuel ih =>
    rw [mkdirsFrom, if_pos (by omega)] at hrc ⊢
    by_cases hcut : dirp[k]? = some '/' ∨ k = dirp.length
    · rw [if_pos hcut] at hrc ⊢
      cases hmake : makeDir cwd U (prefixAt dirp k) mode with
      | mk rc V =>
        rw [hmake] at hrc
        dsimp only at hrc ⊢
        by_cases hzero : rc = 0
        · subst hzero
          rw [if_neg (not_not_intro rfl)] at hrc ⊢
          exact ih (h.step ⟨hstart, hcut⟩ hmake) (by omega) (by omega) hrc
        · rw [if_pos hzero] at hrc
          exact absurd hrc hzero
    · rw [if_neg hcut] at hrc ⊢
      exact ih (h.skip (fun hk => hcut hk.2)) (by omega) (by omega) hrc

theorem prefixAt_length (dirp : CStr) : prefixAt dirp dirp.length = dirp := by
  unfold prefixAt
  apply List.take_of_length_le
  split_ifs with h
  · omega
  · exact le_rfl

/-- What ends before an earlier slash than a prefix that exists is a directory. -/
theorem isDirAt_of_cut {i j : ℕ} {e : Entry ℕ Leaf} (hi : dirp[i]? = some '/') (hij : i < j)
    (he : statAt cwd T (prefixAt dirp j) = .ok e) : IsDirAt cwd T (prefixAt dirp i) := by
  have hlt : i < dirp.length := (List.getElem?_eq_some_iff.mp hi).1
  by_cases hzero : i = 0
  · subst hzero
    cases dirp with
    | nil => cases hi
    | cons c rest =>
      obtain rfl : c = '/' := Option.some.inj hi
      exact isDirAt_root cwd T
  · have hj : j ≠ 0 := by omega
    have hslash : dirp[i] = '/' := by
      rw [List.getElem?_eq_getElem hlt] at hi
      exact Option.some.inj hi
    have hcut : prefixAt dirp j =
        prefixAt dirp i ++ '/' :: (dirp.drop (i + 1)).take (j - i - 1) := by
      unfold prefixAt
      rw [if_neg hj, if_neg hzero]
      have hsum : j = i + (j - i - 1 + 1) := by omega
      conv_lhs => rw [hsum]
      rw [List.take_add, List.drop_eq_getElem_cons hlt, hslash, List.take_succ_cons]
    have hne : prefixAt dirp i ≠ [] := by
      intro hnil
      have hlen := congrArg List.length hnil
      rw [prefixAt, if_neg hzero, List.length_take, List.length_nil] at hlen
      omega
    rw [hcut] at he
    exact isDirAt_of_statAt hne he

theorem makeDir_of_isDirAt {s : CStr} (h : IsDirAt cwd T s) : makeDir cwd T s mode = (0, T) := by
  obtain ⟨a, ha⟩ := h
  rw [makeDir, ha]

theorem makeDir_of_leaf {s : CStr} {c : Leaf} (h : statAt cwd T s = .ok (.leaf c)) :
    makeDir cwd T s mode = (Errno.enotdir.rc, T) := by
  rw [makeDir, h]

/-- In front of something that is no directory all prefixes are directories already. -/
theorem mkdirsFrom_leaf {j : ℕ} {c : Leaf} (fuel : ℕ) (hj : Cut dirp start j)
    (hc : statAt cwd T (prefixAt dirp j) = .ok (.leaf c)) (hkj : k ≤ j)
    (hfuel : dirp.length + 1 = k + fuel) :
    mkdirsFrom cwd dirp mode fuel k T = (Errno.enotdir.rc, T) := by
  have hlen : j ≤ dirp.length := by
    rcases hj.2 with hslash | rfl
    · exact (List.getElem?_eq_some_iff.mp hslash).1.le
    · exact le_rfl
  induction fuel generalizing k with
  | zero => omega
  | succ fuel ih =>
    rw [mkdirsFrom, if_pos (by omega)]
    rcases hkj.eq_or_lt with rfl | hlt
    · rw [if_pos hj.2, makeDir_of_leaf hc]
      dsimp only
      rw [if_pos (Errno.rc_ne_zero _)]
    · have hrest := ih hlt (by omega)
      split_ifs with hcut
      · have hslash : dirp[k]? = some '/' := hcut.resolve_right (by omega)
        rw [makeDir_of_isDirAt (isDirAt_of_cut hslash hlt hc)]
        dsimp only
        rw [if_neg (not_not_intro rfl), hrest]
      · exact hrest

end Loop

/-- The chain of directories is made exactly: a call that goes well leaves a directory for each
prefix and for the path itself and adds only those that were missing, and where a prefix is there
and no directory the call says so and adds nothing. -/
theorem mkdirs_exact (cwd : Location) (dirp : CStr) (start mode : ℕ) (T : FS)
    (hstart : start = 0 ∨ start ≤ dirp.length ∧ IsDirAt cwd T (dirp.take start)) :
    ((mkdirsAt cwd dirp start mode T).1 = 0 →
      IsDirAt cwd (mkdirsAt cwd dirp start mode T).2 dirp ∧
      Chain cwd dirp start mode (dirp.length + 1) T (mkdirsAt cwd dirp start mode T).2) ∧
    ∀ i c, Cut dirp start i → statAt cwd T (prefixAt dirp i) = .ok (.leaf c) →
      mkdirsAt cwd dirp start mode T = (Errno.enotdir.rc, T) := by
  have hle : start ≤ dirp.length := by
    rcases hstart with rfl | h
    · exact Nat.zero_le _
    · exact h.1
  have hfuel : dirp.length + 1 = start + (dirp.length + 1 - start) := by omega
  constructor
  · intro hrc
    have hchain := mkdirsFrom_chain _ (Chain.refl cwd dirp start mode T) le_rfl hfuel hrc
    refine ⟨?_, hchain⟩
    have hwhole := hchain.dirs dirp.length ⟨hle, Or.inr rfl⟩ (Nat.lt_succ_self _)
    rwa [prefixAt_length] at hwhole
  · intro i c hi hc
    exact mkdirsFrom_leaf _ hi hc hi.1 hfuel

theorem mkdirs_exact_bare :
    IsDirAt [] (mkdirsAt [] ['/', 'a', '/'] 1 0o755 (Tree.bare 0o755)).2 ['/', 'a', '/'] ∧
      IsDirAt [] (mkdirs ['/', 'a', '/'] 1 0o755 (Tree.bare 0o755)).2 ['/', 'a', '/'] := by
  have hdir := ((mkdirs_exact [] ['/', 'a', '/'] 1 0o755 (Tree.bare 0o755)
    (Or.inr ⟨by decide, isDirAt_root [] _⟩)).1 (by decide +kernel)).1
  refine ⟨hdir, ?_⟩
  rwa [mkdirsAt_nil] at hdir

end Vdev.DirectoryChains
