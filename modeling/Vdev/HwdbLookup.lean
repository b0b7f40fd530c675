import Vdev.HwdbPieces

/-!
The lookup in a database with one way down, as it is made for one match line. In each directory
there is one name; the search goes on below it, prints the properties, or ends.
-/
namespace Vdev.Hwdb

open CString Shell

def dirs (ps : List CStr) : List CStr := ps.filter (fun p => ¬Skipped p)

/-- `mkdir -p` of new directories makes one way down. -/
theorem mkdirP_chain (names : List CStr) (dir : List CStr) (t : Tree)
    (hdots : "..".toList ∉ names) (hfresh : ∀ s, t.children (dir ++ s) = []) :
    ∃ t', mkdirP names dir t = (t', some (dir ++ dirs names)) ∧ t'.files = t.files ∧
      (∀ s c rest, dirs names = s ++ c :: rest → t'.children (dir ++ s) = [c]) ∧
      ∀ d, ¬dir <+: d → t'.children d = t.children d := by
  induction names generalizing dir t with
  | nil =>
    refine ⟨t, by simp [mkdirP, dirs], rfl, fun s c rest h => ?_, fun d _ => rfl⟩
    simp [dirs] at h
  | cons name names ih =>
    have hdots' : "..".toList ∉ names := fun h => hdots (List.mem_cons_of_mem _ h)
    by_cases hskip : Skipped name
    · obtain ⟨t', heq, hrest⟩ := ih dir t hdots' hfresh
      have hdirs : dirs (name :: names) = dirs names :=
        List.filter_cons_of_neg (by simpa using hskip)
      rw [hdirs]
      refine ⟨t', ?_, hrest⟩
      rw [mkdirP, if_pos hskip, heq]
    · have hname : name ≠ "..".toList := fun h => hdots (h ▸ List.mem_cons_self)
      have hempty : t.children dir = [] := by simpa using hfresh []
      have hdirs : dirs (name :: names) = name :: dirs names :=
        List.filter_cons_of_pos (by simpa using hskip)
      have hadd : t.addChild dir name =
          { t with children := Function.update t.children dir [name] } := by
        rw [Tree.addChild, hempty, if_neg List.not_mem_nil, List.nil_append]
      have hlonger (s : List CStr) : dir ++ [name] ++ s ≠ dir := by simp
      obtain ⟨t', heq, hfiles, hway, hframe⟩ := ih (dir ++ [name]) (t.addChild dir name) hdots' (by
        intro s
        rw [hadd]
        refine (Function.update_of_ne (hlonger s) _ _).trans ?_
        simpa using hfresh (name :: s))
      have hself : ¬dir ++ [name] <+: dir := fun h => by simpa using h.length_le
      refine ⟨t', ?_, ?_, fun s c rest h => ?_, fun d hd => ?_⟩
      · rw [mkdirP, if_neg hskip, if_neg hname, heq, hdirs, List.append_assoc]
        rfl
      · rw [hfiles, hadd]
      · rw [hdirs] at h
        cases s with
        | nil =>
          rw [List.append_nil, hframe dir hself, hadd]
          refine (Function.update_self dir _ _).trans ?_
          rw [(List.cons.inj h).1]
        | cons first s =>
          obtain ⟨rfl, htail⟩ := List.cons.inj h
          simpa using hway s c rest htail
      · rw [hframe d fun h => hd ((List.prefix_append dir [name]).trans h), hadd]
        refine Function.update_of_ne ?_ _ _
        rintro rfl
        exact hd List.prefix_rfl

/-- A database with one way down, and one file of properties at its end. -/
structure Chain (t : Tree) (way : List CStr) (file : CStr) : Prop where
  children : ∀ s c rest, way = s ++ c :: rest → t.children s = [c]
  files : ∀ dir, t.files dir = if dir = way then some file else none

def LitChar (c : Char) : Prop := c ∉ " \t\n\x0b\x0c\r/#=*?[\\\x00".toList

instance (c : Char) : Decidable (LitChar c) := inferInstanceAs (Decidable (_ ∉ _))

section Lookup

variable {env : Env} {t : Tree} {way : List CStr} {file : CStr}

theorem ls_chain (h : Chain t way file) (dir : List CStr) (name : CStr) (rest : List CStr)
    (hway : way = dir ++ name :: rest) :
    ls env t dir = if name.head? = some '.' then [] else name ++ ['\n'] := by
  have hfile : t.files dir = none := by
    rw [h.files, if_neg]
    rintro rfl
    simpa using congrArg List.length hway
  rw [ls, h.children dir name rest hway, hfile]
  simp only [Option.isSome_none, Bool.false_eq_true, if_false, List.append_nil]
  split_ifs with hdot
  · rw [List.filter_cons_of_neg (by simp [hdot]), List.filter_nil,
      List.perm_nil.mp (env.sort_perm [])]
    rfl
  · rw [List.filter_cons_of_pos (by simp [hdot]), List.filter_nil,
      List.perm_singleton.mp (env.sort_perm [name])]
    simp [lineText]

theorem fnmatch_lit (env : Env) (lit field : CStr) (hlit : ∀ c ∈ lit, LitChar c) :
    env.fnmatch (lit ++ ['*']) field = true ↔ lit <+: field := by
  refine env.fnmatch_star lit field fun c hc hmem => hlit c hc ?_
  have hsub : "*?[\\".toList ⊆ " \t\n\x0b\x0c\r/#=*?[\\\x00".toList := by decide
  exact hsub hmem

theorem not_isBlank_of_litChar (c : Char) (h : LitChar c) : isBlank c = false := by
  unfold isBlank
  rw [Bool.or_eq_false_iff, beq_eq_false_iff_ne, beq_eq_false_iff_ne]
  constructor
  · rintro rfl
    exact absurd h (by decide)
  · rintro rfl
    exact absurd h (by decide)

/-- The search for a name of literal characters. -/
theorem tryName_lit (env : Env) (t : Tree) (dir : List CStr) (field lit : CStr) (all : Bool)
    (hlit : ∀ c ∈ lit, LitChar c) :
    tryName env t dir field ⟨[], all, []⟩ lit =
      if lit <+: field then ⟨lit, false, []⟩ else ⟨[], false, []⟩ := by
  have htrim : trim lit = lit :=
    trim_eq_self lit fun c hc => not_isBlank_of_litChar c (hlit c hc)
  have hlast : lit.getLast? ≠ some '*' := by
    intro h
    exact absurd (hlit '*' (List.mem_of_getLast? h)) (by decide)
  have hmatch := fnmatch_lit env lit field hlit
  simp only [tryName, htrim, if_neg hlast, bne_self_eq_false, Bool.false_eq_true, if_false]
  by_cases h : lit <+: field
  · simp [hmatch.mpr h, h]
  · simp [Bool.eq_false_iff.mpr fun hf => h (hmatch.mp hf), h]

/-- The search for a name that ends in the `*`. -/
theorem tryName_star (env : Env) (t : Tree) (dir : List CStr) (field lit : CStr) (all : Bool)
    (hlit : ∀ c ∈ lit, LitChar c) :
    tryName env t dir field ⟨[], all, []⟩ (lit ++ ['*']) =
      if lit <+: field then ⟨lit ++ ['*'], true, (t.files (dir ++ [lit ++ ['*']])).getD []⟩
      else ⟨[], true, []⟩ := by
  have htrim : trim (lit ++ ['*']) = lit ++ ['*'] := by
    refine trim_eq_self _ fun c hc => ?_
    rcases List.mem_append.mp hc with hc | hc
    · exact not_isBlank_of_litChar c (hlit c hc)
    · rw [List.mem_singleton.mp hc]
      decide
  have hmatch := fnmatch_lit env lit field hlit
  have hall : (lit.length != (lit ++ ['*']).length) = true := by simp
  simp only [tryName, htrim, List.getLast?_concat, if_true, List.dropLast_concat, hall]
  by_cases h : lit <+: field
  · simp [hmatch.mpr h, h]
  · simp [Bool.eq_false_iff.mpr fun hf => h (hmatch.mp hf), h]

/-- In a directory with no visible name the search ends. -/
theorem tryName_nil (env : Env) (t : Tree) (dir : List CStr) (field : CStr) (all : Bool) :
    tryName env t dir field ⟨[], all, []⟩ [] = ⟨[], false, []⟩ := by
  rw [tryName_lit env t dir field [] all (by simp)]
  split_ifs <;> rfl

theorem newline_not_mem (lit : CStr) (hlit : ∀ c ∈ lit, LitChar c) : '\n' ∉ lit :=
  fun h => absurd (hlit '\n' h) (by decide)

def goOn (env : Env) (t : Tree) (fields : List CStr) (dir : List CStr) (s : Search) : CStr :=
  if s.best = [] then s.printed
  else s.printed ++ lookupLoop env t fields (dir ++ [s.best]) s.allMatch

/-- A round in a directory of the chain, which has one name. -/
theorem lookupLoop_chain (env : Env) (h : Chain t way file) (dir : List CStr) (name : CStr)
    (rest : List CStr) (hway : way = dir ++ name :: rest) (hname : '\n' ∉ name) (field : CStr)
    (fields : List CStr) (all : Bool) :
    lookupLoop env t (field :: fields) dir all =
      goOn env t fields dir
        (tryName env t dir field ⟨[], all, []⟩ (if name.head? = some '.' then [] else name)) := by
  have hfile : t.files dir = none := by
    rw [h.files, if_neg]
    rintro rfl
    simpa using congrArg List.length hway
  have hread : hereDocument (ls env t dir) = [if name.head? = some '.' then [] else name] := by
    rw [ls_chain h dir name rest hway]
    split_ifs
    · rfl
    · exact hereDocument_line name hname
  rw [lookupLoop, hfile, if_neg (by simp), hread]
  rfl

theorem goOn_nil (env : Env) (t : Tree) (fields : List CStr) (dir : List CStr) (all : Bool) :
    goOn env t fields dir ⟨[], all, []⟩ = [] := by
  rw [goOn, if_pos rfl]

/-- A field in a directory whose only name is a piece of literal characters. -/
theorem lookup_lit (env : Env) (h : Chain t way file) (dir : List CStr) (lit : CStr)
    (rest : List CStr) (hway : way = dir ++ lit :: rest) (hlit : ∀ c ∈ lit, LitChar c)
    (hne : lit ≠ []) (field : CStr) (fields : List CStr) (all : Bool) :
    lookupLoop env t (field :: fields) dir all =
      if lit.head? ≠ some '.' ∧ lit <+: field then lookupLoop env t fields (dir ++ [lit]) false
      else [] := by
  rw [lookupLoop_chain env h dir lit rest hway (newline_not_mem lit hlit)]
  by_cases hdot : lit.head? = some '.'
  · rw [if_pos hdot, tryName_nil, goOn_nil, if_neg fun hboth => hboth.1 hdot]
  · rw [if_neg hdot, tryName_lit env t dir field lit all hlit]
    by_cases hfield : lit <+: field
    · rw [if_pos hfield, if_pos ⟨hdot, hfield⟩, goOn, if_neg hne, List.nil_append]
    · rw [if_neg hfield, goOn_nil, if_neg fun hboth => hfield hboth.2]

/-- A field in a directory whose only name ends in the `*`. -/
theorem lookup_star (env : Env) (h : Chain t way file) (dir : List CStr) (lit : CStr)
    (hway : way = dir ++ [lit ++ ['*']]) (hlit : ∀ c ∈ lit, LitChar c) (field : CStr)
    (fields : List CStr) (all : Bool) :
    lookupLoop env t (field :: fields) dir all =
      if lit.head? ≠ some '.' ∧ lit <+: field then file else [] := by
  have hnl : '\n' ∉ lit ++ ['*'] := by
    simpa using newline_not_mem lit hlit
  have hhead : (lit ++ ['*']).head? = some '.' ↔ lit.head? = some '.' := by
    cases lit with
    | nil => decide
    | cons c lit => rfl
  have hend : lookupLoop env t fields way true = [] := by
    cases fields with
    | nil => rfl
    | cons f fs => rw [lookupLoop, if_pos ⟨rfl, by simp [h.files]⟩]
  rw [lookupLoop_chain env h dir _ [] hway hnl]
  by_cases hdot : lit.head? = some '.'
  · rw [if_pos (hhead.mpr hdot), tryName_nil, goOn_nil, if_neg fun hboth => hboth.1 hdot]
  · rw [if_neg fun hd => hdot (hhead.mp hd), tryName_star env t dir field lit all hlit, ← hway,
      h.files, if_pos rfl]
    by_cases hfield : lit <+: field
    · rw [if_pos hfield, if_pos ⟨hdot, hfield⟩, goOn, if_neg (by simp), ← hway, hend,
        List.append_nil]
      rfl
    · rw [if_neg hfield, goOn_nil, if_neg fun hboth => hfield hboth.2]

/-- A skipped field does not start with the text of a directory. -/
theorem not_prefix_of_skipped {field lit : CStr} (hfield : Skipped field) (hne : lit ≠ [])
    (hlit : lit ≠ ".".toList) : ¬lit <+: field := by
  rintro ⟨rest, h⟩
  rcases hfield with rfl | rfl
  · exact hne (List.append_eq_nil_iff.mp h).1
  · cases lit with
    | nil => exact hne rfl
    | cons c lit =>
      obtain ⟨rfl, htail⟩ := List.cons.inj h
      rw [(List.append_eq_nil_iff.mp htail).1] at hlit
      exact hlit rfl

theorem not_skipped_of_mem_dirs {ps : List CStr} {d : CStr} (h : d ∈ dirs ps) :
    d ∈ ps ∧ ¬Skipped d := by
  simpa [dirs] using h

/-- The fields that begin with the pieces of a literal find the file exactly when they can walk
down to it. The induction is on the pieces: the next directory is that of the next piece that has
one. -/
theorem lookup_pieces (env : Env) (h : Chain t way file) (ps : List CStr) (rest : CStr)
    (hps : ∀ p ∈ ps, ∀ c ∈ p, LitChar c) (hrest : ∀ c ∈ rest, LitChar c)
    (hopen : rest = [] ∨ ∃ a, rest = [a]) (field : CStr) (fields : List CStr)
    (hfield : rest <+: field) (dir : List CStr) (hway : way = dir ++ dirs ps ++ [rest ++ ['*']])
    (all : Bool) :
    (Walkable ps rest → lookupLoop env t (ps ++ field :: fields) dir all = file) ∧
      (¬Walkable ps rest → lookupLoop env t (ps ++ field :: fields) dir all = []) := by
  have hdot : rest.head? ≠ some '.' ↔ rest ≠ ".".toList := by
    rcases hopen with rfl | ⟨a, rfl⟩
    · decide
    · simp
  induction ps generalizing dir all with
  | nil =>
    have hway' : way = dir ++ [rest ++ ['*']] := by simpa [dirs] using hway
    rw [List.nil_append, lookup_star env h dir rest hway' hrest, Walkable]
    exact ⟨fun hw => if_pos ⟨hdot.mpr hw, hfield⟩,
      fun hw => if_neg fun hboth => hw (hdot.mp hboth.1)⟩
  | cons p ps ih =>
    have hps' : ∀ q ∈ ps, ∀ c ∈ q, LitChar c := fun q hq => hps q (List.mem_cons_of_mem _ hq)
    rw [List.cons_append]
    by_cases hskip : Skipped p
    · have hdirs : dirs (p :: ps) = dirs ps := List.filter_cons_of_neg (by simpa using hskip)
      rw [hdirs] at hway
      rw [Walkable, if_pos hskip]
      cases hnext : dirs ps with
      | nil =>
        -- only the `*` is left
        have hall : ∀ q ∈ ps, Skipped q := by
          intro q hq
          by_contra hn
          have hmem : q ∈ dirs ps := by simpa [dirs] using ⟨hq, hn⟩
          rw [hnext] at hmem
          exact absurd hmem List.not_mem_nil
        have hway' : way = dir ++ [rest ++ ['*']] := by simpa [hnext] using hway
        rw [lookup_star env h dir rest hway' hrest]
        constructor
        · rintro ⟨rfl, -⟩
          exact if_pos ⟨by decide, List.nil_prefix⟩
        · intro hw
          refine if_neg fun hboth => not_prefix_of_skipped hskip ?_ (hdot.mp hboth.1) hboth.2
          exact fun hnil => hw ⟨hnil, hall⟩
      | cons d ds =>
        -- the next directory belongs to a later piece
        obtain ⟨hd, hnot⟩ := not_skipped_of_mem_dirs (hnext ▸ List.mem_cons_self)
        have hne : d ≠ [] := fun hnil => hnot (Or.inl hnil)
        have hway' : way = dir ++ d :: (ds ++ [rest ++ ['*']]) := by simpa [hnext] using hway
        have hmiss := not_prefix_of_skipped hskip hne fun hdot => hnot (Or.inr hdot)
        rw [lookup_lit env h dir d _ hway' (hps' d hd) hne, if_neg fun hboth => hmiss hboth.2]
        exact ⟨fun hw => absurd (hw.2 d hd) hnot, fun _ => rfl⟩
    · have hdirs : dirs (p :: ps) = p :: dirs ps := List.filter_cons_of_pos (by simpa using hskip)
      have hway' : way = dir ++ p :: (dirs ps ++ [rest ++ ['*']]) := by
        simpa [hdirs] using hway
      have hnext : way = dir ++ [p] ++ dirs ps ++ [rest ++ ['*']] := by simpa using hway'
      have hne : p ≠ [] := fun hnil => hskip (Or.inl hnil)
      obtain ⟨hfound, hlost⟩ := ih hps' (dir ++ [p]) hnext false
      rw [lookup_lit env h dir p _ hway' (hps p List.mem_cons_self) hne, Walkable, if_neg hskip]
      by_cases hhidden : p.head? ≠ some '.'
      · rw [if_pos ⟨hhidden, List.prefix_rfl⟩]
        exact ⟨fun hw => hfound hw.2, fun hw => hlost fun hw' => hw ⟨hhidden, hw'⟩⟩
      · rw [if_neg fun hboth => hhidden hboth.1]
        exact ⟨fun hw => absurd hw.1 hhidden, fun _ => rfl⟩

/-- Whatever the fields are, the search finds the file at most once. The induction is on the fields:
each one leads a directory further down, or ends the search. -/
theorem lookup_either (env : Env) (h : Chain t way file) (rest : CStr)
    (hrest : ∀ c ∈ rest, LitChar c) (fields ds dir : List CStr)
    (hds : ∀ d ∈ ds, d ≠ [] ∧ ∀ c ∈ d, LitChar c) (hway : way = dir ++ ds ++ [rest ++ ['*']])
    (all : Bool) :
    lookupLoop env t fields dir all = file ∨ lookupLoop env t fields dir all = [] := by
  induction fields generalizing ds dir all with
  | nil => exact Or.inr rfl
  | cons field fields ih =>
    cases ds with
    | nil =>
      rw [lookup_star env h dir rest (by simpa using hway) hrest]
      exact ite_eq_or_eq _ _ _
    | cons d ds =>
      obtain ⟨hne, hlit⟩ := hds d List.mem_cons_self
      rw [lookup_lit env h dir d _ (by simpa using hway) hlit hne]
      split_ifs
      · exact ih ds (dir ++ [d]) (fun d' hd' => hds d' (List.mem_cons_of_mem _ hd'))
          (by simpa using hway) false
      · exact Or.inr rfl

end Lookup

end Vdev.Hwdb
