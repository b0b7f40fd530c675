import Vdev.ConfigFile

/-!
The command line of vdevd (libvdev/config.c). `getopt_long` puts the arguments that are no
options behind the options, and keeps its position between two calls. A second pass over the
same arguments begins where the first one has ended: behind the options. The environment does
not set `POSIXLY_CORRECT`.
-/
namespace Vdev.CommandLine

open CString Parsing ConfigFile

/-- `struct vdev_config`, with the fields that no file sets. -/
structure VdevConfig extends FileConfig where
  foreground : Bool := false
  instanceStr : CStr := []
  osQuirks : ℕ := 0

/-- The position of `getopt_long`: the arguments that it has passed over, the letters of the
current argument that are left, and the arguments after it. -/
structure Position where
  skipped : List CStr
  letters : CStr
  rest : List CStr
  deriving DecidableEq

def Position.before (args : List CStr) : Position := ⟨[], [], args⟩

abbrev Opt := Char × CStr

def optstr : CStr := "c:v:l:o:f1np:ds".toList

/-- `struct option`. -/
structure LongOption where
  name : CStr
  hasArg : Bool
  val : Char

def vdevOptions : List LongOption :=
  [⟨"config-file".toList, true, 'c'⟩, ⟨"verbose-level".toList, true, 'v'⟩,
    ⟨"logfile".toList, true, 'l'⟩, ⟨"pidfile".toList, true, 'p'⟩,
    ⟨"once".toList, false, '1'⟩, ⟨"coldplug-only".toList, false, 'n'⟩,
    ⟨"foreground".toList, false, 'f'⟩]

/-- What is returned for an option that is not known, or that lacks its argument. -/
def unknown : Opt := ('?', [])

def nextArg (c : Char) (p : Position) : Opt × Position :=
  match p.rest with
  | [] => (unknown, p)
  | arg :: rest => ((c, arg), { p with rest := rest })

/-- A letter, where `p` is the position behind it. -/
def shortOption (c : Char) (p : Position) : Opt × Position :=
  if c = ':' then (unknown, p)
  else
    match optstr.dropWhile (· ≠ c) with
    | [] => (unknown, p)
    | _ :: ':' :: _ =>
      if p.letters ≠ [] then ((c, p.letters), { p with letters := [] }) else nextArg c p
    | _ :: _ => ((c, []), p)

/-- The long option with a name, or the only one that begins with it. -/
def findLong (name : CStr) : Option LongOption :=
  match vdevOptions.find? (fun o => o.name == name) with
  | some o => some o
  | none =>
    match vdevOptions.filter (fun o => name.isPrefixOf o.name) with
    | [o] => some o
    | _ => none

/-- The text behind two dashes, where `p` is the position behind the argument. -/
def longOption (text : CStr) (p : Position) : Opt × Position :=
  match findLong (text.takeWhile (· ≠ '=')) with
  | none => (unknown, p)
  | some o =>
    match text.dropWhile (· ≠ '=') with
    | _ :: value => if o.hasArg then ((o.val, value), p) else (unknown, p)
    | [] => if o.hasArg then nextArg o.val p else ((o.val, []), p)

/-- Arguments that begin with a dash are options, unless they are only that. -/
def nonOption (arg : CStr) : Bool := arg.head? != some '-' || arg == ['-']

/-- `getopt_long`. At the end it has no result, and its position is that of the first argument
that is no option. -/
def getoptLong (p : Position) : Option Opt × Position :=
  match p.letters with
  | c :: letters =>
    let (o, p) := shortOption c { p with letters := letters }
    (some o, p)
  | [] =>
    let skipped := p.skipped ++ p.rest.takeWhile nonOption
    match p.rest.dropWhile nonOption with
    | [] => (none, .before skipped)
    | arg :: rest =>
      if arg = "--".toList then (none, .before (skipped ++ rest))
      else
        match arg.drop 1 with
        | '-' :: text =>
          let (o, p) := longOption text ⟨skipped, [], rest⟩
          (some o, p)
        | c :: letters =>
          let (o, p) := shortOption c ⟨skipped, letters, rest⟩
          (some o, p)
        | [] => (none, .before (skipped ++ arg :: rest))

/-- The level for `-v`, if the text is a number. -/
def verboseLevel (text : CStr) : Option Int :=
  if (strtol 10 text).2 ≠ [] then none else some (Int.bmod (strtol 10 text).1 (2 ^ 32))

/-- The body of the loop of `vdev_config_load_from_args`, without arguments for FUSE. -/
def setOption (o : Opt) (conf : VdevConfig) : Option VdevConfig :=
  match o.1 with
  | 'c' => some { conf with configPath := some o.2 }
  | 'l' => some { conf with logfilePath := some o.2 }
  | 'p' => some { conf with pidfilePath := some o.2 }
  | 'v' => (verboseLevel o.2).map (fun level => { conf with debugLevel := level })
  | 'n' => some { conf with coldplugOnly := true }
  | '1' => some { conf with coldplugOnly := true }
  | 's' => some conf
  | 'd' => some conf
  | 'f' => some { conf with foreground := true }
  | 'o' => some conf
  | _ => none

/-- The loop of `vdev_config_load_from_args`. -/
def optionsLoop : ℕ → Position → VdevConfig → Option VdevConfig × Position
  | 0, p, conf => (some conf, p)
  | fuel + 1, p, conf =>
    match getoptLong p with
    | (none, p) => (some conf, p)
    | (some o, p) =>
      match setOption o conf with
      | none => (none, p)
      | some conf => optionsLoop fuel p conf

def Position.size (p : Position) : ℕ := p.letters.length + (p.rest.map (·.length + 1)).sum

/-- `vdev_config_load_from_args`, with the position that it leaves behind. The mountpoint is
the argument at that position. Each option takes at least one character. -/
def configLoadFromArgs (realpath : CStr → Except Errno CStr) (p : Position) (conf : VdevConfig) :
    Except Int VdevConfig × Position :=
  match optionsLoop (p.size + 1) p conf with
  | (none, p) => (.error (-1), p)
  | (some conf, p) =>
    match p.rest.head? with
    | none => (.error Errno.einval.rc, p)
    | some arg =>
      match realpath arg with
      | .error e => (.error e.rc, p)
      | .ok mountpoint => (.ok { conf with mountpoint := some mountpoint }, p)

def scanLoop : ℕ → Position → List Opt × Position
  | 0, p => ([], p)
  | fuel + 1, p =>
    match getoptLong p with
    | (none, p) => ([], p)
    | (some o, p) =>
      let (os, p) := scanLoop fuel p
      (o :: os, p)

def scan (p : Position) : List Opt × Position := scanLoop (p.size + 1) p

def lastArg (c : Char) (os : List Opt) : Option CStr :=
  os.reverse.findSome? (fun o => if o.1 = c then some o.2 else none)

/-- The last level of an option `-v`. -/
def lastLevel (os : List Opt) : Option Int :=
  os.reverse.findSome? (fun o => if o.1 = 'v' then verboseLevel o.2 else none)

def hasOption (c : Char) (os : List Opt) : Bool := os.any (fun o => o.1 == c)

def withOptions (os : List Opt) (conf : VdevConfig) : VdevConfig :=
  { conf with
    configPath := (lastArg 'c' os).or conf.configPath
    logfilePath := (lastArg 'l' os).or conf.logfilePath
    pidfilePath := (lastArg 'p' os).or conf.pidfilePath
    debugLevel := (lastLevel os).getD conf.debugLevel
    coldplugOnly := conf.coldplugOnly || hasOption 'n' os || hasOption '1' os
    foreground := conf.foreground || hasOption 'f' os }

theorem size_nextArg_le (c : Char) (p : Position) : (nextArg c p).2.size ≤ p.size := by
  unfold nextArg
  split
  · exact le_refl _
  · rename_i arg rest hrest
    simp only [Position.size, hrest, List.map_cons, List.sum_cons]
    omega

theorem size_shortOption_le (c : Char) (p : Position) : (shortOption c p).2.size ≤ p.size := by
  unfold shortOption
  split
  · exact le_refl _
  · split
    · exact le_refl _
    · split
      · simp [Position.size]
      · exact size_nextArg_le c p
    · exact le_refl _

theorem size_longOption_le (text : CStr) (p : Position) : (longOption text p).2.size ≤ p.size := by
  unfold longOption
  split
  · exact le_refl _
  · rename_i o _
    split
    · split_ifs <;> exact le_refl _
    · split_ifs
      · exact size_nextArg_le o.val p
      · exact le_refl _

/-- Every option takes at least one character. -/
theorem size_getoptLong_lt {p p' : Position} {o : Opt} (h : getoptLong p = (some o, p')) :
    p'.size < p.size := by
  unfold getoptLong at h
  split at h
  · rename_i c letters hletters
    have hle := size_shortOption_le c { p with letters := letters }
    cases h
    refine lt_of_le_of_lt hle ?_
    simp [Position.size, hletters]
  · rename_i hletters
    split at h
    · cases h
    · rename_i arg rest hrest
      have hsum : (arg.length + 1) + (rest.map (·.length + 1)).sum ≤ p.size := by
        have hsplit := List.takeWhile_append_dropWhile (p := nonOption) (l := p.rest)
        rw [hrest] at hsplit
        rw [Position.size, ← hsplit]
        simp only [List.map_append, List.map_cons, List.sum_append, List.sum_cons]
        omega
      split_ifs at h
      · cases h
      split at h
      · rename_i text htext
        have hle := size_longOption_le text
          ⟨p.skipped ++ p.rest.takeWhile nonOption, [], rest⟩
        cases h
        refine lt_of_le_of_lt hle ?_
        simp only [Position.size, List.length_nil] at hsum ⊢
        omega
      · rename_i c letters _ htext
        have hle := size_shortOption_le c
          ⟨p.skipped ++ p.rest.takeWhile nonOption, letters, rest⟩
        have hlen := congrArg List.length htext
        rw [List.length_drop, List.length_cons] at hlen
        cases h
        refine lt_of_le_of_lt hle ?_
        simp only [Position.size] at hsum ⊢
        omega
      · cases h

theorem optionsLoop_fuel {p : Position} {fuel fuel' : ℕ} (h : p.size < fuel)
    (h' : p.size < fuel') (conf : VdevConfig) :
    optionsLoop fuel p conf = optionsLoop fuel' p conf := by
  induction fuel generalizing fuel' p conf with
  | zero => omega
  | succ fuel ih =>
    obtain ⟨fuel', rfl⟩ : ∃ k, fuel' = k + 1 := ⟨fuel' - 1, by omega⟩
    rw [optionsLoop, optionsLoop]
    split
    · rfl
    · rename_i o q hq
      have hlt := size_getoptLong_lt hq
      split
      · rfl
      · exact ih (by omega) (by omega) _

theorem withOptions_nil (conf : VdevConfig) : withOptions [] conf = conf := by
  simp [withOptions, lastArg, lastLevel, hasOption]

theorem withOptions_cons (o : Opt) (os : List Opt) (conf : VdevConfig) :
    withOptions (o :: os) conf = withOptions os (withOptions [o] conf) := by
  have hgetD : ∀ (x y : Option Int) (d : Int), (x.or y).getD d = x.getD (y.getD d) := by
    intro x y d
    cases x <;> rfl
  have hbool : ∀ a b c d e : Bool, (a || (b || c) || (d || e)) = (a || b || d || c || e) := by
    decide
  simp [withOptions, lastArg, lastLevel, hasOption, List.findSome?_append, Option.or_assoc, hgetD,
    hbool, Bool.or_assoc]

theorem setOption_eq {o : Opt} {conf conf' : VdevConfig} (h : setOption o conf = some conf') :
    conf' = withOptions [o] conf := by
  obtain ⟨c, text⟩ := o
  unfold setOption at h
  split at h
  case h_4 heq =>
    obtain ⟨level, hlevel, rfl⟩ := Option.map_eq_some_iff.mp h
    have hc : c = 'v' := heq
    subst hc
    have hlevel : verboseLevel text = some level := hlevel
    simp [withOptions, lastArg, lastLevel, hasOption, hlevel]
  case h_11 => cases h
  all_goals
    rename_i heq
    have hc : c = _ := heq
    subst hc
    cases h
    simp [withOptions, lastArg, lastLevel, hasOption]

/-- No argument that is left ends the options, and those passed over are none. -/
structure Position.Undashed (p : Position) : Prop where
  rest : "--".toList ∉ p.rest
  skipped : ∀ arg ∈ p.skipped, nonOption arg

/-- A position with no option behind it: all arguments that are left are no options. -/
def Position.Ended (p : Position) : Prop := ∃ args, p = .before args ∧ ∀ arg ∈ args, nonOption arg

theorem undashed_nextArg (c : Char) {p : Position} (h : p.Undashed) :
    (nextArg c p).2.Undashed := by
  unfold nextArg
  split
  · exact h
  · rename_i arg rest hrest
    exact ⟨fun hmem => h.rest (hrest ▸ List.mem_cons_of_mem arg hmem), h.skipped⟩

theorem undashed_shortOption (c : Char) {p : Position} (h : p.Undashed) :
    (shortOption c p).2.Undashed := by
  unfold shortOption
  split
  · exact h
  · split
    · exact h
    · split
      · exact ⟨h.rest, h.skipped⟩
      · exact undashed_nextArg c h
    · exact h

theorem undashed_longOption (text : CStr) {p : Position} (h : p.Undashed) :
    (longOption text p).2.Undashed := by
  unfold longOption
  split
  · exact h
  · rename_i o _
    split
    · split_ifs <;> exact h
    · split_ifs
      · exact undashed_nextArg o.val h
      · exact h

/-- When two dashes do not end the options, a call takes an option or finds none left. -/
theorem getoptLong_undashed {p : Position} (h : p.Undashed) :
    (∃ q, getoptLong p = (none, q) ∧ q.Ended) ∨
      ∃ o q, getoptLong p = (some o, q) ∧ q.Undashed := by
  unfold getoptLong
  split
  · rename_i c letters _
    have hnext : (⟨p.skipped, letters, p.rest⟩ : Position).Undashed := ⟨h.rest, h.skipped⟩
    exact Or.inr ⟨(shortOption c _).1, (shortOption c _).2, rfl, undashed_shortOption c hnext⟩
  have htake : ∀ arg ∈ p.skipped ++ p.rest.takeWhile nonOption, nonOption arg := by
    intro arg harg
    rcases List.mem_append.mp harg with hold | hnew
    · exact h.skipped arg hold
    · exact List.mem_takeWhile_imp hnew
  dsimp only
  split
  · exact Or.inl ⟨_, rfl, _, rfl, htake⟩
  rename_i arg rest hrest
  have hmem : ∀ x ∈ arg :: rest, x ∈ p.rest := by
    intro x hx
    rw [← hrest] at hx
    exact (List.dropWhile_suffix _).subset hx
  have hdash : arg ≠ "--".toList := by
    intro heq
    exact h.rest (heq ▸ hmem arg List.mem_cons_self)
  have hrest' : "--".toList ∉ rest := fun hx => h.rest (hmem _ (List.mem_cons_of_mem _ hx))
  rw [if_neg hdash]
  split
  · rename_i text _
    exact Or.inr ⟨(longOption text _).1, (longOption text _).2, rfl,
      undashed_longOption text ⟨hrest', htake⟩⟩
  · rename_i c letters _ _
    exact Or.inr ⟨(shortOption c _).1, (shortOption c _).2, rfl,
      undashed_shortOption c ⟨hrest', htake⟩⟩
  · rename_i htail
    -- an argument of at most one character is no option
    have hopt : nonOption arg = false := by
      have hhead := List.head?_dropWhile_not nonOption p.rest
      rw [hrest] at hhead
      simpa using hhead
    have hno : nonOption arg = true := by
      match arg, htail with
      | [], _ => rfl
      | [c], _ =>
        by_cases hc : c = '-'
        · simp [nonOption, hc]
        · simp [nonOption, hc]
    rw [hopt] at hno
    cases hno

/-- The scan goes on until no option is left. -/
theorem scanLoop_ended {fuel : ℕ} {p : Position} (hfuel : p.size < fuel) (h : p.Undashed) :
    (scanLoop fuel p).2.Ended := by
  induction fuel generalizing p with
  | zero => omega
  | succ fuel ih =>
    rw [scanLoop]
    rcases getoptLong_undashed h with ⟨q, hq, hended⟩ | ⟨o, q, hq, hnext⟩
    · rw [hq]
      exact hended
    · rw [hq]
      have hlt := size_getoptLong_lt hq
      exact ih (by omega) hnext

theorem getoptLong_ended {p : Position} (h : p.Ended) : getoptLong p = (none, p) := by
  obtain ⟨args, rfl, hargs⟩ := h
  have hdrop : args.dropWhile nonOption = [] := List.dropWhile_eq_nil_iff.mpr hargs
  have htake : args.takeWhile nonOption = args := List.takeWhile_eq_self_iff.mpr hargs
  simp [getoptLong, Position.before, hdrop, htake]

theorem scan_ended {p : Position} (h : p.Ended) : scan p = ([], p) := by
  rw [scan, scanLoop, getoptLong_ended h]

theorem configLoadFromArgs_ended (realpath : CStr → Except Errno CStr) {p : Position}
    (h : p.Ended) (conf : VdevConfig) : (configLoadFromArgs realpath p conf).2 = p := by
  have hloop : optionsLoop (p.size + 1) p conf = (some conf, p) := by
    rw [optionsLoop, getoptLong_ended h]
  unfold configLoadFromArgs
  rw [hloop]
  dsimp only
  split
  · rfl
  · split <;> rfl

/-- When all options are accepted, they are those of the scan. -/
theorem optionsLoop_eq {fuel : ℕ} {p p' : Position} {conf conf' : VdevConfig}
    (h : optionsLoop fuel p conf = (some conf', p')) :
    conf' = withOptions (scanLoop fuel p).1 conf ∧ p' = (scanLoop fuel p).2 := by
  induction fuel generalizing p conf with
  | zero =>
    cases h
    exact ⟨(withOptions_nil _).symm, rfl⟩
  | succ fuel ih =>
    rw [optionsLoop] at h
    rw [scanLoop]
    split at h
    · cases h
      exact ⟨(withOptions_nil _).symm, rfl⟩
    · rename_i o q hq
      split at h
      · cases h
      · rename_i next hnext
        obtain ⟨hconf, hp⟩ := ih h
        refine ⟨?_, hp⟩
        rw [hconf, setOption_eq hnext]
        exact (withOptions_cons o _ conf).symm

/-- What the command line makes of a configuration, and where the mountpoint comes from. -/
theorem configLoadFromArgs_eq {realpath : CStr → Except Errno CStr} {p p' : Position}
    {conf conf' : VdevConfig} (h : configLoadFromArgs realpath p conf = (.ok conf', p')) :
    p' = (scan p).2 ∧ ∃ arg mountpoint, (scan p).2.rest.head? = some arg ∧
      realpath arg = .ok mountpoint ∧
      conf' = { withOptions (scan p).1 conf with mountpoint := some mountpoint } := by
  unfold configLoadFromArgs at h
  split at h
  · cases h
  · rename_i next q hloop
    obtain ⟨hnext, hq⟩ := optionsLoop_eq hloop
    split at h
    · cases h
    · rename_i arg harg
      split at h
      · cases h
      · rename_i mountpoint hreal
        cases h
        refine ⟨hq, arg, mountpoint, ?_, hreal, ?_⟩
        · rw [← harg, hq]
          rfl
        · rw [hnext]
          rfl

end Vdev.CommandLine
