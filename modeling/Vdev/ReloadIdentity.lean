import Vdev.Runs
import Vdev.Startup

/-!
A reload of unchanged files. What a configuration is loaded from is the working directory and
the arguments from the position of `getopt_long` on, and a reload finds both changed: vdevd
runs in the root directory, and the options have been read. A new nonce is made, and the OS
quirks are forgotten. The theorem says when none of this makes a difference.
-/
namespace Vdev.ReloadIdentity

open CString Data Ini SystemCalls ConfigFile ConfigFields CommandLine ActionFile Nonce Startup
  Congruential Runs

section Sources

variable (W : World) (a : Source)

def options : List Opt := (scan a.position).1

/-- The path of the configuration file, as it is given. -/
def configArg : CStr := (lastArg 'c' (options a)).getD VDEV_CONFIG_FILE

/-- The real path of the argument behind the options. -/
def mountpointOf : Option CStr :=
  (scan a.position).2.rest.head?.bind (fun arg => (W.realpath a.cwd arg).toOption)

def coldplug : Bool := hasOption 'n' (options a) || hasOption '1' (options a)

/-- What the command line makes of an empty configuration. -/
def initial : FileConfig where
  configPath := some (configArg a)
  logfilePath := lastArg 'l' (options a)
  pidfilePath := lastArg 'p' (options a)
  debugLevel := (lastLevel (options a)).getD 0
  coldplugOnly := coldplug a
  mountpoint := mountpointOf W a

def fileEntries : List Entry :=
  ((openFrom W.files a.cwd (configArg a)).toOption.bind entries).getD []

end Sources

/-- The path of the logfile, which may be `syslog`. -/
def absoluteLog (cwd : CStr) (path : Option CStr) : Option CStr :=
  if path = some "syslog".toList then path else absolute cwd path

/-- What `vdev_config_fullpaths` makes of a configuration. -/
def absolutePaths (cwd : CStr) (conf : FileConfig) : FileConfig :=
  { conf with
    configPath := absolute cwd conf.configPath
    aclsDir := absolute cwd conf.aclsDir
    actsDir := absolute cwd conf.actsDir
    helpersDir := absolute cwd conf.helpersDir
    pidfilePath := absolute cwd conf.pidfilePath
    logfilePath := absoluteLog cwd conf.logfilePath
    preseedPath := absolute cwd conf.preseedPath }

/-- A configuration that was loaded from a source, with the state of the generator before. -/
structure Loaded (W : World) (a : Source) (x : ℕ) (conf : VdevConfig) : Prop where
  mountpoint : ∃ m, mountpointOf W a = some m
  openable : ∃ file, openFrom W.files a.cwd (configArg a) = .ok file
  file : conf.toFileConfig = absolutePaths a.cwd (withEntries (fileEntries W a) (initial W a))
  foreground : conf.foreground = hasOption 'f' (options a)
  instanceStr : conf.instanceStr = (makeInstanceNonce x).1

theorem configLoad_eq {W : World} {a : Source} {conf conf' : VdevConfig} {x x' : ℕ}
    (hinit : conf.toFileConfig = initial W a)
    (h : configLoad W a.cwd (configArg a) conf x = (.ok conf', x')) :
    (∃ file, openFrom W.files a.cwd (configArg a) = .ok file) ∧
      conf'.toFileConfig = absolutePaths a.cwd (withEntries (fileEntries W a) (initial W a)) ∧
      conf'.foreground = conf.foreground ∧ conf'.osQuirks = conf.osQuirks ∧
      conf'.instanceStr = (makeInstanceNonce x).1 ∧ x' = nextState^[32] x := by
  unfold configLoad at h
  split at h
  · cases h
  rename_i file hopen
  split at h
  · cases h
  rename_i loaded hload
  cases h
  refine ⟨⟨file, hopen⟩, ?_, rfl, rfl, rfl, makeInstanceNonce_state x⟩
  rw [hinit] at hload
  unfold configLoadFile at hload
  split at hload
  · cases hload
  rename_i parsed hparse
  obtain ⟨es, hes, -⟩ := (iniParseFile_eq_ok _ _ _ _).mp hparse
  have hentries : fileEntries W a = es := by
    unfold fileEntries
    rw [hopen]
    simp [Except.toOption, hes]
  unfold configFullpaths at hload
  split at hload
  · cases hload
  rename_i cwd hcwd
  have hcwd : cwd = a.cwd := by
    unfold getcwd at hcwd
    split_ifs at hcwd
    exact (Option.some.inj hcwd).symm
  cases hload
  rw [hentries, ← iniParseFile_eq hes hparse, hcwd]
  rfl

structure Prepared (W : World) (a : Source) (conf : VdevConfig) : Prop where
  mountpoint : ∃ m, mountpointOf W a = some m
  file : conf.toFileConfig = initial W a
  foreground : conf.foreground = hasOption 'f' (options a)
  osQuirks : conf.osQuirks = 0

theorem prepared_mountpoint {W : World} {a : Source} {arg m : CStr}
    (harg : (scan a.position).2.rest.head? = some arg) (hreal : W.realpath a.cwd arg = .ok m) :
    mountpointOf W a = some m := by
  unfold mountpointOf
  rw [harg, Option.bind_some, hreal]
  rfl

/-- The start of vdevd takes the default path after the command line. -/
theorem prepared_init {W : World} {cwd : CStr} {p p' : Position} {conf : VdevConfig}
    (h : configLoadFromArgs (W.realpath cwd) p {} = (.ok conf, p')) :
    Prepared W ⟨cwd, p⟩ (withDefaultPath conf) := by
  obtain ⟨-, arg, m, harg, hreal, rfl⟩ := configLoadFromArgs_eq h
  have hmount := prepared_mountpoint (a := ⟨cwd, p⟩) harg hreal
  refine ⟨⟨m, hmount⟩, ?_, ?_, ?_⟩
  · unfold initial
    rw [hmount]
    unfold withDefaultPath configArg options coldplug
    cases hpath : lastArg 'c' (scan p).1 <;> simp [withOptions, hpath, options]
  · unfold withDefaultPath
    split <;> simp [withOptions, options]
  · unfold withDefaultPath
    split <;> rfl

/-- A reload takes the default path before the command line. -/
theorem prepared_reload {W : World} {cwd : CStr} {p p' : Position} {conf : VdevConfig}
    (h : configLoadFromArgs (W.realpath cwd) p { configPath := some VDEV_CONFIG_FILE } =
      (.ok conf, p')) : Prepared W ⟨cwd, p⟩ conf := by
  obtain ⟨-, arg, m, harg, hreal, rfl⟩ := configLoadFromArgs_eq h
  have hmount := prepared_mountpoint (a := ⟨cwd, p⟩) harg hreal
  refine ⟨⟨m, hmount⟩, ?_, ?_, rfl⟩
  · unfold initial
    rw [hmount]
    unfold configArg options coldplug
    cases hpath : lastArg 'c' (scan p).1 <;> simp [withOptions, hpath, options]
  · simp [withOptions, options]

theorem Prepared.load {W : World} {a : Source} {conf conf' : VdevConfig} {x x' : ℕ}
    (h : Prepared W a conf)
    (hload : configLoad W a.cwd (conf.configPath.getD []) conf x = (.ok conf', x')) :
    Loaded W a x conf' ∧ conf'.osQuirks = 0 ∧ x' = nextState^[32] x := by
  have hpath : conf.configPath.getD [] = configArg a := by
    rw [h.file]
    rfl
  rw [hpath] at hload
  obtain ⟨hopen, hfile, hfore, hquirks, hstr, hx⟩ := configLoad_eq h.file hload
  exact ⟨⟨h.mountpoint, hopen, hfile, hfore.trans h.foreground, hstr⟩,
    hquirks.trans h.osQuirks, hx⟩

theorem initConfig_loaded {W : World} {cwd : CStr} {args : List CStr} {x : ℕ} {c : Configured}
    (h : initConfig W cwd args x = .ok c) :
    Loaded W ⟨cwd, .before args⟩ x c.config ∧ c.position = (scan (.before args)).2 ∧
      c.random = nextState^[32] x := by
  unfold initConfig at h
  split at h
  · cases h
  rename_i conf p hargs
  obtain ⟨hp, -⟩ := configLoadFromArgs_eq hargs
  dsimp only at h
  split at h
  · cases h
  rename_i loaded x' hload
  obtain ⟨hloaded, -, hx⟩ := (prepared_init hargs).load hload
  cases h
  exact ⟨hloaded, hp, hx⟩

theorem vdevInit_loaded {W : World} {cwd : CStr} {args : List CStr} {x : ℕ} {s : Daemon}
    (h : vdevInit W cwd args x = some (.ok s)) :
    Loaded W ⟨cwd, .before args⟩ x s.config ∧ s.source = ⟨cwd, .before args⟩ ∧ s.loads = 0 ∧
      s.position = (scan (.before args)).2 ∧ s.random = nextState^[32] x ∧
      actionLoadAll W.regcomp s.config.actsDir s.config.helpersDir W.files = some (.ok s.acts) := by
  rw [vdevInit_eq] at h
  split at h
  · cases h
  rename_i c hinit
  obtain ⟨hloaded, hp, hx⟩ := initConfig_loaded hinit
  obtain ⟨r, hacts, hr⟩ := Option.map_eq_some_iff.mp h
  cases r with
  | error rc => cases hr
  | ok acts =>
    cases hr
    exact ⟨hloaded, rfl, rfl, hp, hx, hacts⟩

theorem configLoadFromArgs_error {realpath : CStr → Except Errno CStr} {p p' : Position}
    {conf : VdevConfig} {rc : Int} (h : configLoadFromArgs realpath p conf = (.error rc, p')) :
    rc ≠ 0 := by
  unfold configLoadFromArgs at h
  split at h
  · cases h
    decide
  · split at h
    · cases h
      exact Errno.einval.rc_ne_zero
    · split at h
      · rename_i e _
        cases h
        exact e.rc_ne_zero
      · cases h

theorem configLoad_error {W : World} {cwd path : CStr} {conf : VdevConfig} {x x' : ℕ} {rc : Int}
    (h : configLoad W cwd path conf x = (.error rc, x')) : rc ≠ 0 ∧ x' = x := by
  unfold configLoad at h
  split at h
  · rename_i e _
    cases h
    exact ⟨e.rc_ne_zero, rfl⟩
  · split at h
    · rename_i hload
      cases h
      refine ⟨?_, rfl⟩
      unfold configLoadFile at hload
      split at hload
      · rename_i lineno hparse
        cases hload
        exact Int.natCast_ne_zero.mpr (iniParseFile_error_ne_zero hparse)
      · unfold configFullpaths at hload
        split at hload
        · cases hload
          exact Errno.erange.rc_ne_zero
        · cases hload
    · cases h

theorem actionLoadAll_error {regcomp : CStr → Int} {actsDir helpersDir : Option CStr} {T : FS}
    {rc : Int} (h : actionLoadAll regcomp actsDir helpersDir T = some (.error rc)) : rc ≠ 0 := by
  unfold actionLoadAll at h
  split at h
  · cases h
    exact Errno.einval.rc_ne_zero
  · dsimp only at h
    split_ifs at h with _ hrc
    · cases h
      exact hrc
    · cases h

/-- A reload that succeeds has loaded everything. -/
theorem vdevReload_loaded {W : World} {s s' : Daemon} (h : vdevReload W s = some (0, s')) :
    Loaded W ⟨s.cwd, s.position⟩ s.random s'.config ∧ s'.config.osQuirks = 0 ∧
      s'.source = ⟨s.cwd, s.position⟩ ∧ s'.loads = 0 ∧ s'.random = nextState^[32] s.random ∧
      actionLoadAll W.regcomp s'.config.actsDir s'.config.helpersDir W.files =
        some (.ok s'.acts) := by
  unfold vdevReload at h
  split at h
  · rename_i rc p hargs
    obtain ⟨hrc, -⟩ := Prod.mk.inj (Option.some.inj h)
    exact absurd hrc (configLoadFromArgs_error hargs)
  rename_i conf p hargs
  split at h
  · rename_i rc x hload
    obtain ⟨hrc, -⟩ := Prod.mk.inj (Option.some.inj h)
    exact absurd hrc (configLoad_error hload).1
  rename_i loaded x' hload
  obtain ⟨hloaded, hquirks, hx⟩ := (prepared_reload hargs).load hload
  split at h
  · cases h
  · rename_i rc hacts
    obtain ⟨hrc, -⟩ := Prod.mk.inj (Option.some.inj h)
    exact absurd hrc (actionLoadAll_error hacts)
  rename_i acts hacts
  cases h
  exact ⟨hloaded, hquirks, rfl, rfl, hx, hacts⟩

/-- A reload that fails keeps what is installed, and has made at most one nonce. -/
theorem vdevReload_failed {W : World} {s s' : Daemon} {rc : Int} (hrc : rc ≠ 0)
    (h : vdevReload W s = some (rc, s')) :
    s'.config = s.config ∧ s'.acts = s.acts ∧ s'.source = s.source ∧
      (s'.loads = s.loads ∧ s'.random = s.random ∨
        s'.loads = s.loads + 1 ∧ s'.random = nextState^[32] s.random) := by
  unfold vdevReload at h
  split at h
  · cases h
    exact ⟨rfl, rfl, rfl, Or.inl ⟨rfl, rfl⟩⟩
  rename_i conf p hargs
  split at h
  · rename_i rc x hload
    cases h
    exact ⟨rfl, rfl, rfl, Or.inl ⟨rfl, (configLoad_error hload).2⟩⟩
  rename_i loaded x' hload
  obtain ⟨-, -, hx⟩ := (prepared_reload hargs).load hload
  split at h
  · cases h
  · cases h
    exact ⟨rfl, rfl, rfl, Or.inr ⟨rfl, hx⟩⟩
  · cases h
    exact absurd rfl hrc

def withoutDaemonlets (acts : List FileAction) : List FileAction :=
  acts.map FileAction.initDaemonlet

/-- What a reload of unchanged files should leave as it is. -/
structure Unchanged (s s' : Daemon) : Prop where
  config : s'.config = s.config
  acts : withoutDaemonlets s'.acts = withoutDaemonlets s.acts

/-- The installed configuration was loaded from its source, but for the OS quirks, and the
generator has made one nonce for it and one for each load since. -/
structure Inv (W : World) (s : Daemon) : Prop where
  loaded : ∃ x, Loaded W s.source x s.config ∧ s.random = nextState^[32 * (s.loads + 1)] x
  acts : ∃ acts, actionLoadAll W.regcomp s.config.actsDir s.config.helpersDir W.files =
    some (.ok acts) ∧ withoutDaemonlets s.acts = withoutDaemonlets acts

theorem Loaded.setOSQuirk {W : World} {a : Source} {x : ℕ} {conf : VdevConfig}
    (h : Loaded W a x conf) (quirk : ℕ) : Loaded W a x (setOSQuirk conf quirk) :=
  ⟨h.mountpoint, h.openable, h.file, h.foreground, h.instanceStr⟩

theorem inv_osInit {W : World} {s s' : Daemon} (h : Inv W s) (hinit : osInit W s = some s') :
    Inv W s' := by
  unfold osInit at hinit
  dsimp only at hinit
  split_ifs at hinit
  · cases hinit
    obtain ⟨x, hloaded, hx⟩ := h.loaded
    exact ⟨⟨x, hloaded.setOSQuirk _, hx⟩, h.acts⟩
  · cases hinit
    exact h

theorem inv_startUp {W : World} {cwd : CStr} {args : List CStr} {x : ℕ} {s : Daemon}
    (h : startUp W cwd args x = some s) : Inv W s := by
  unfold startUp at h
  split at h
  · rename_i s₀ hinit
    obtain ⟨hloaded, hsource, hloads, -, hrandom, hacts⟩ := vdevInit_loaded hinit
    have hs₀ : Inv W s₀ := by
      refine ⟨⟨x, ?_, ?_⟩, s₀.acts, hacts, rfl⟩
      · rw [hsource]
        exact hloaded
      · rw [hrandom, hloads]
    have hchdir : Inv W { s₀ with cwd := ['/'] } := ⟨hs₀.loaded, hs₀.acts⟩
    split_ifs at h
    · exact inv_osInit hs₀ h
    · exact inv_osInit hs₀ h
    · exact inv_osInit hchdir h
  · cases h

theorem withoutDaemonlets_zipWith (acts : List FileAction) (handles : List Handle)
    (h : handles.length = acts.length) :
    withoutDaemonlets (List.zipWith setHandle acts handles) = withoutDaemonlets acts := by
  induction acts generalizing handles with
  | nil => rfl
  | cons act acts ih =>
    cases handles with
    | nil => cases h
    | cons handle handles =>
      have hrest := ih handles (by simpa using h)
      have hact : (setHandle act handle).initDaemonlet = act.initDaemonlet := rfl
      unfold withoutDaemonlets at hrest ⊢
      rw [List.zipWith_cons_cons, List.map_cons, List.map_cons, hact, hrest]

theorem step_inv {W : World} {l : Label} {s s' : Daemon} (h : Inv W s)
    (hstep : step W l s = some s') : Inv W s' := by
  unfold step at hstep
  split at hstep
  · obtain ⟨⟨rc, t⟩, hreload, rfl⟩ := Option.map_eq_some_iff.mp hstep
    by_cases hrc : rc = 0
    · subst hrc
      obtain ⟨hloaded, -, hsource, hloads, hrandom, hacts⟩ := vdevReload_loaded hreload
      refine ⟨⟨s.random, ?_, ?_⟩, t.acts, hacts, rfl⟩
      · rw [hsource]
        exact hloaded
      · rw [hrandom, hloads]
    · obtain ⟨hconfig, hacts, hsource, hrest⟩ := vdevReload_failed hrc hreload
      obtain ⟨x, hloaded, hx⟩ := h.loaded
      refine ⟨⟨x, ?_, ?_⟩, ?_⟩
      · rw [hsource, hconfig]
        exact hloaded
      · rcases hrest with ⟨hloads, hrandom⟩ | ⟨hloads, hrandom⟩
        · rw [hrandom, hloads]
          exact hx
        · have hsum : 32 * (s.loads + 1 + 1) = 32 + 32 * (s.loads + 1) := by omega
          rw [hrandom, hloads, hx, hsum, Function.iterate_add_apply]
      · rw [hconfig, hacts]
        exact h.acts
  · rename_i handles
    split_ifs at hstep with hlen
    cases hstep
    obtain ⟨acts, hacts, hsame⟩ := h.acts
    exact ⟨h.loaded, acts, hacts, (withoutDaemonlets_zipWith s.acts handles hlen).trans hsame⟩

theorem osInit_position {W : World} {s s' : Daemon} (h : osInit W s = some s') :
    s'.position = s.position := by
  unfold osInit at h
  dsimp only at h
  split_ifs at h <;> cases h <;> rfl

theorem vdevReload_position {W : World} {s : Daemon} {r : Int × Daemon}
    (h : vdevReload W s = some r) :
    r.2.position =
      (configLoadFromArgs (W.realpath s.cwd) s.position { configPath := some VDEV_CONFIG_FILE }).2 := by
  unfold vdevReload at h
  split at h
  · rename_i hargs
    cases h
    rw [hargs]
  rename_i conf p hargs
  rw [hargs]
  split at h
  · cases h
    rfl
  split at h
  · cases h
  · cases h
    rfl
  · cases h
    rfl

/-- A command line on which two dashes do not end the options is read once: no reload finds
an option. -/
theorem options_of_reload {W : World} {cwd : CStr} {args : List CStr} {x : ℕ} {ls : List Label}
    {s₀ s : Daemon} (hdash : "--".toList ∉ args) (hstart : startUp W cwd args x = some s₀)
    (hrun : run (step W) ls s₀ = some s) : options ⟨s.cwd, s.position⟩ = [] := by
  have hended : s.position.Ended := by
    refine run_invariant (step W) (fun s => s.position.Ended) ?_ ?_ hrun
    · intro l s s' h hstep
      unfold step at hstep
      split at hstep
      · obtain ⟨r, hreload, rfl⟩ := Option.map_eq_some_iff.mp hstep
        rw [vdevReload_position hreload, configLoadFromArgs_ended _ h]
        exact h
      · split_ifs at hstep
        cases hstep
        exact h
    · have hscan : (scan (.before args)).2.Ended :=
        scanLoop_ended (by omega) ⟨hdash, fun arg harg => nomatch harg⟩
      unfold startUp at hstart
      split at hstart
      · rename_i s₁ hinit
        obtain ⟨-, -, -, hp, -⟩ := vdevInit_loaded hinit
        rw [← hp] at hscan
        split_ifs at hstart
        all_goals
          rw [osInit_position hstart]
          exact hscan
      · cases hstart
  exact congrArg Prod.fst (scan_ended hended)

def pathKeys : List Key := [.acls, .actions, .helpers, .preseed]

def pidfileOf (a : Source) (es : List Entry) : Option CStr :=
  absolute a.cwd ((lastArg 'p' (options a)).or (firstValue .pidfile es))

def logfileOf (a : Source) (es : List Entry) : Option CStr :=
  absoluteLog a.cwd ((lastArg 'l' (options a)).or (firstValue .logfile es))

/-- Two sources that a configuration does not tell apart. The options and the working directory
may differ where the file decides, or where a path is absolute. -/
structure SameInputs (W : World) (a b : Source) : Prop where
  configPath : absolute b.cwd (some (configArg b)) = absolute a.cwd (some (configArg a))
  mountpoint : mountpointOf W b = mountpointOf W a
  paths : ∀ key ∈ pathKeys, absolute b.cwd (firstValue key (fileEntries W a)) =
    absolute a.cwd (firstValue key (fileEntries W a))
  pidfile : pidfileOf b (fileEntries W a) = pidfileOf a (fileEntries W a)
  logfile : logfileOf b (fileEntries W a) = logfileOf a (fileEntries W a)
  verbosity : lastOf levelsOf (fileEntries W a) = none →
    (lastLevel (options b)).getD 0 = (lastLevel (options a)).getD 0
  coldplug : (fileEntries W a).any coldplugEntry = false → coldplug b = coldplug a
  foreground : hasOption 'f' (options b) = hasOption 'f' (options a)

/-- One path leads to one file. -/
theorem fileEntries_eq {W : World} {a b : Source} {x y : ℕ} {conf conf' : VdevConfig}
    (ha : Loaded W a x conf) (hb : Loaded W b y conf')
    (h : absolute b.cwd (some (configArg b)) = absolute a.cwd (some (configArg a))) :
    fileEntries W b = fileEntries W a := by
  have hopen : ∀ (c : Source) (z : ℕ) (d : VdevConfig), Loaded W c z d →
      openFrom W.files c.cwd (configArg c) =
        fopen W.files ((absolute c.cwd (some (configArg c))).getD []) := by
    intro c z d hc
    obtain ⟨file, hfile⟩ := hc.openable
    have hne : configArg c ≠ [] := by
      intro hnil
      rw [openFrom, if_pos hnil] at hfile
      cases hfile
    rw [openFrom, if_neg hne]
    rfl
  unfold fileEntries
  rw [hopen b y conf' hb, hopen a x conf ha, h]

/-- Two configurations that were loaded are the same when their sources are not told apart. -/
theorem Loaded.same_iff {W : World} {a b : Source} {x y : ℕ} {conf conf' : VdevConfig}
    (ha : Loaded W a x conf) (hb : Loaded W b y conf') :
    (conf'.toFileConfig = conf.toFileConfig ∧ conf'.foreground = conf.foreground) ↔
      SameInputs W a b := by
  obtain ⟨m, hm⟩ := ha.mountpoint
  obtain ⟨m', hm'⟩ := hb.mountpoint
  rw [ha.file, hb.file, ha.foreground, hb.foreground]
  constructor
  · rintro ⟨hfile, hfore⟩
    have hpath : absolute b.cwd (some (configArg b)) = absolute a.cwd (some (configArg a)) :=
      congrArg FileConfig.configPath hfile
    rw [fileEntries_eq ha hb hpath] at hfile
    refine ⟨hpath, ?_, ?_, ?_, ?_, ?_, ?_, hfore⟩
    · have hmount := congrArg FileConfig.mountpoint hfile
      simp only [absolutePaths, withEntries, initial, hm, hm', Option.some_or] at hmount
      rw [hm, hm', hmount]
    · intro key hkey
      simp only [pathKeys, List.mem_cons, List.not_mem_nil, or_false] at hkey
      rcases hkey with rfl | rfl | rfl | rfl
      · exact congrArg FileConfig.aclsDir hfile
      · exact congrArg FileConfig.actsDir hfile
      · exact congrArg FileConfig.helpersDir hfile
      · exact congrArg FileConfig.preseedPath hfile
    · exact congrArg FileConfig.pidfilePath hfile
    · exact congrArg FileConfig.logfilePath hfile
    · intro hnone
      have hlevel := congrArg FileConfig.debugLevel hfile
      simpa only [absolutePaths, withEntries, initial, hnone, Option.map_none, Option.getD_none]
        using hlevel
    · intro hoff
      have hcold := congrArg FileConfig.coldplugOnly hfile
      simpa only [absolutePaths, withEntries, initial, hoff, Bool.or_false] using hcold
  · intro h
    have hlevel : ((lastOf levelsOf (fileEntries W a)).map Prod.fst).getD
        ((lastLevel (options b)).getD 0) =
          ((lastOf levelsOf (fileEntries W a)).map Prod.fst).getD
            ((lastLevel (options a)).getD 0) := by
      cases hlast : lastOf levelsOf (fileEntries W a) with
      | none =>
        rw [Option.map_none, Option.getD_none, Option.getD_none]
        exact h.verbosity hlast
      | some levels => rfl
    have hcold : (coldplug b || (fileEntries W a).any coldplugEntry) =
        (coldplug a || (fileEntries W a).any coldplugEntry) := by
      cases hany : (fileEntries W a).any coldplugEntry with
      | true => rw [Bool.or_true, Bool.or_true]
      | false => rw [h.coldplug hany]
    have hmount : (mountpointOf W b).or (firstValue .mountpoint (fileEntries W a)) =
        (mountpointOf W a).or (firstValue .mountpoint (fileEntries W a)) := by
      rw [h.mountpoint]
    rw [fileEntries_eq ha hb h.configPath]
    refine ⟨?_, h.foreground⟩
    unfold absolutePaths
    rw [FileConfig.mk.injEq]
    refine ⟨h.configPath, h.paths .preseed ?_, h.paths .acls ?_, h.paths .actions ?_,
      h.paths .helpers ?_, rfl, hlevel, rfl, h.pidfile, h.logfile, hmount, hcold, rfl, rfl⟩
    all_goals simp [pathKeys]

/-- A reload of unchanged files leaves the configuration and the actions as they are exactly
when its source is not told apart from the one of the installed configuration, no OS quirk is
noted, and the number of nonces since is a multiple of `2 ^ 19`. -/
theorem unchanged_iff {W : World} {cwd : CStr} {args : List CStr} {x : ℕ} {ls : List Label}
    {s₀ s s' : Daemon} (hstart : startUp W cwd args x = some s₀)
    (hrun : run (step W) ls s₀ = some s) (hreload : vdevReload W s = some (0, s')) :
    Unchanged s s' ↔
      SameInputs W s.source ⟨s.cwd, s.position⟩ ∧ s.config.osQuirks = 0 ∧ 2 ^ 19 ∣ s.loads + 1 := by
  have hinv : Inv W s :=
    run_invariant (step W) (Inv W) (fun _ _ _ h hstep => step_inv h hstep) (inv_startUp hstart) hrun
  obtain ⟨y, hold, hrandom⟩ := hinv.loaded
  obtain ⟨acts, hacts, hsame⟩ := hinv.acts
  obtain ⟨hnew, hquirks, -, -, -, hacts'⟩ := vdevReload_loaded hreload
  have hnonce : s'.config.instanceStr = s.config.instanceStr ↔ 2 ^ 19 ∣ s.loads + 1 := by
    rw [hnew.instanceStr, hold.instanceStr, hrandom]
    exact makeInstanceNonce_repeats_iff y (s.loads + 1)
  rw [← hold.same_iff hnew, ← hnonce]
  constructor
  · intro h
    rw [h.config] at hquirks ⊢
    exact ⟨⟨rfl, rfl⟩, hquirks, rfl⟩
  · rintro ⟨⟨hfile, hfore⟩, hzero, hstr⟩
    have hconfig : s'.config = s.config := by
      generalize s'.config = conf' at hfile hfore hstr hquirks
      generalize s.config = conf at hfile hfore hstr hzero
      obtain ⟨file', fore', str', quirks'⟩ := conf'
      obtain ⟨file, fore, str, quirks⟩ := conf
      cases hfile
      cases hfore
      cases hstr
      cases hquirks
      cases hzero
      rfl
    refine ⟨hconfig, ?_⟩
    rw [hconfig, hacts] at hacts'
    cases hacts'
    exact hsame.symm

def nameEtc : Name := ⟨"etc".toList, by decide⟩

def nameVdev : Name := ⟨"vdev".toList, by decide⟩

def nameConf : Name := ⟨"vdevd.conf".toList, by decide⟩

def nameOther : Name := ⟨"other.conf".toList, by decide⟩

def confText : CStr := "[vdev-config]\nactions=/etc\nlogfile=syslog\n".toList

/-- The default configuration file, and another one with the same text. -/
def confTree : FS :=
  ((((FileTree.Tree.bare 0o755).put nameEtc [] (.dir 0o755)).put nameVdev [nameEtc] (.dir 0o755)).put
    nameConf [nameVdev, nameEtc] (.leaf (.file 0o644 confText))).put
    nameOther [] (.leaf (.file 0o644 confText))

/-- A machine with these files, and with a file system on `/dev`. -/
def machine (type : CStr) : World where
  files := confTree
  realpath := fun _ path => .ok path
  mounts := .ok [("/dev".toList, type)]
  regcomp := fun _ => 0

/-- The start of vdevd and a reload, run with a check of their results. -/
theorem exists_of_check (W : World) (cwd : CStr) (args : List CStr) (x : ℕ)
    (p : Daemon → Daemon → Bool)
    (h : (startUp W cwd args x).any (fun s =>
      (vdevReload W s).any (fun r => r.1 == 0 && p s r.2)) = true) :
    ∃ s s', startUp W cwd args x = some s ∧ vdevReload W s = some (0, s') ∧ p s s' = true := by
  obtain ⟨s, hstart, hs⟩ := (Option.any_eq_true _ _).mp h
  obtain ⟨⟨rc, s'⟩, hreload, hr⟩ := (Option.any_eq_true _ _).mp hs
  obtain ⟨hrc, hp⟩ := Bool.and_eq_true_iff.mp hr
  have hrc : rc = 0 := by simpa using hrc
  subst hrc
  exact ⟨s, s', hstart, hreload, hp⟩

/-- Just after the start of vdevd without options, a reload changes the nonce. -/
theorem unchanged_iff_tmpfs :
    ∃ s s', startUp (machine "tmpfs".toList) ['/'] ["/dev".toList] 0 = some s ∧
      vdevReload (machine "tmpfs".toList) s = some (0, s') ∧
      s'.config.configPath = s.config.configPath ∧ s'.config.osQuirks = s.config.osQuirks ∧
      ¬Unchanged s s' := by
  obtain ⟨s, s', hstart, hreload, hcheck⟩ := exists_of_check (machine "tmpfs".toList)
    ['/'] ["/dev".toList] 0 (fun s s' => s'.config.configPath = s.config.configPath ∧
      s'.config.osQuirks = s.config.osQuirks ∧ s.loads = 0) (by decide +kernel)
  obtain ⟨hpath, hquirks, hloads⟩ := of_decide_eq_true hcheck
  refine ⟨s, s', hstart, hreload, hpath, hquirks, fun h => ?_⟩
  have hrun : run (step (machine "tmpfs".toList)) [] s = some s := rfl
  obtain ⟨-, -, hdvd⟩ := (unchanged_iff hstart hrun hreload).mp h
  rw [hloads] at hdvd
  exact absurd hdvd (by decide)

def otherArgs : List CStr := ["-c".toList, "/other.conf".toList, "/dev".toList]

/-- On a devtmpfs, with another configuration file: a reload reads the default file, forgets
that the device nodes exist, and makes a new nonce. -/
theorem not_unchanged_devtmpfs :
    ∃ s s', startUp (machine "devtmpfs".toList) ['/'] otherArgs 0 = some s ∧
      vdevReload (machine "devtmpfs".toList) s = some (0, s') ∧
      s.config.configPath = some "/other.conf".toList ∧
      s'.config.configPath = some VDEV_CONFIG_FILE ∧
      configHasOSQuirk s.config.osQuirks VDEV_OS_QUIRK_DEVICE_EXISTS = true ∧
      configHasOSQuirk s'.config.osQuirks VDEV_OS_QUIRK_DEVICE_EXISTS = false ∧
      s'.config.instanceStr ≠ s.config.instanceStr ∧ ¬Unchanged s s' := by
  obtain ⟨s, s', hstart, hreload, hcheck⟩ := exists_of_check (machine "devtmpfs".toList)
    ['/'] otherArgs 0 (fun s s' => s.config.configPath = some "/other.conf".toList ∧
      s'.config.configPath = some VDEV_CONFIG_FILE ∧
      configHasOSQuirk s.config.osQuirks VDEV_OS_QUIRK_DEVICE_EXISTS = true ∧
      configHasOSQuirk s'.config.osQuirks VDEV_OS_QUIRK_DEVICE_EXISTS = false ∧
      s'.config.instanceStr ≠ s.config.instanceStr) (by decide +kernel)
  obtain ⟨hold, hnew, hquirk, hnone, hnonce⟩ := of_decide_eq_true hcheck
  refine ⟨s, s', hstart, hreload, hold, hnew, hquirk, hnone, hnonce, fun h => ?_⟩
  exact hnonce (congrArg VdevConfig.instanceStr h.config)

end Vdev.ReloadIdentity
