import Vdev.ReloadIdentity

/-!
The command line and the configuration file at the start of vdevd (vdevd/vdev.c,
libvdev/config.c). A path that the command line gives is there before the file is read, and
the file does not replace it. The mountpoint always comes from the command line. The log level
of the file replaces the one of `-v`, and the messages that are enabled then are those of both.
-/
namespace Vdev.Precedence

open CString Parsing Ini SystemCalls ConfigFile ConfigFields CommandLine ActionFile Startup
  ReloadIdentity

section Spec

/-- The number that the last `-v` gives. -/
def givenLevel (os : List Opt) : Option Int :=
  (lastArg 'v' os).map (fun text => (strtol 10 text).1)

/-- The debug level of the last log level in a file. -/
def levelOf (es : List Entry) : Option Int := (lastOf levelsOf es).map Prod.fst

/-- The switch for coldplug in a file, which any entry turns on. -/
def coldplugOf (es : List Entry) : Option Bool :=
  if es.any (fun e => (valueOf .coldplugOnly e).isSome) then some (es.any coldplugEntry) else none

/-- Messages are enabled as a debug level says: informational ones from 1 on, and all from 2
on. -/
def Enabled (level : Int) (m : Messages) : Prop := (getDebugLevel m : Int) = min (max level 0) 2

variable (W : World) (a : Source) (c : Configured)

/-- Each option has the value from the command line if it is given there, and else the value
from the file if that sets it. -/
structure CommandLineWins : Prop where
  logfile : ∀ path,
    (lastArg 'l' (options a)).or (firstValue .logfile (fileEntries W a)) = some path →
      c.config.logfilePath = absoluteLog a.cwd (some path)
  pidfile : ∀ path,
    (lastArg 'p' (options a)).or (firstValue .pidfile (fileEntries W a)) = some path →
      c.config.pidfilePath = absolute a.cwd (some path)
  mountpoint : ∀ m, (mountpointOf W a).or (firstValue .mountpoint (fileEntries W a)) = some m →
    c.config.mountpoint = some m
  verbosity : ∀ level, (givenLevel (options a)).or (levelOf (fileEntries W a)) = some level →
    c.config.debugLevel = level ∧ Enabled level c.messages
  coldplug : ∀ b,
    (if coldplug a then some true else none).or (coldplugOf (fileEntries W a)) = some b →
      c.config.coldplugOnly = b

/-- The number for `-v` fits in an `int`, and a log level in the file means the same. -/
def SameLevel : Prop :=
  ∀ n, givenLevel (options a) = some n →
    Int.bmod n (2 ^ 32) = n ∧ ∀ level, levelOf (fileEntries W a) = some level → level = n

end Spec

/-- Every `-v` that is accepted has a number. -/
theorem verboseLevel_of_accepted {fuel : ℕ} {p p' : Position} {conf conf' : VdevConfig}
    (h : optionsLoop fuel p conf = (some conf', p')) :
    ∀ o ∈ (scanLoop fuel p).1, o.1 = 'v' → verboseLevel o.2 ≠ none := by
  induction fuel generalizing p conf with
  | zero => simp [scanLoop]
  | succ fuel ih =>
    rw [optionsLoop] at h
    rw [scanLoop]
    split at h
    · simp
    · rename_i o q hq
      split at h
      · cases h
      · rename_i next hnext
        intro o' ho' hv
        rcases List.mem_cons.mp ho' with rfl | ho'
        · obtain ⟨c, text⟩ := o'
          obtain rfl : c = 'v' := hv
          intro hnone
          have hset : setOption ('v', text) conf = (verboseLevel text).map
              (fun level => { conf with debugLevel := level }) := rfl
          rw [hset, show verboseLevel text = none from hnone] at hnext
          cases hnext
        · exact ih h o' ho' hv

/-- The last level is that of the last argument. -/
theorem lastLevel_eq {os : List Opt} (h : ∀ o ∈ os, o.1 = 'v' → verboseLevel o.2 ≠ none) :
    lastLevel os = (lastArg 'v' os).bind verboseLevel := by
  unfold lastLevel lastArg
  have hrev : ∀ o ∈ os.reverse, o.1 = 'v' → verboseLevel o.2 ≠ none :=
    fun o ho => h o (List.mem_reverse.mp ho)
  generalize os.reverse = l at hrev ⊢
  induction l with
  | nil => rfl
  | cons o l ih =>
    rw [List.findSome?_cons, List.findSome?_cons]
    by_cases hv : o.1 = 'v'
    · obtain ⟨level, hlevel⟩ := Option.ne_none_iff_exists'.mp (hrev o List.mem_cons_self hv)
      rw [if_pos hv, if_pos hv, hlevel]
      exact hlevel.symm
    · rw [if_neg hv, if_neg hv]
      exact ih (fun o ho => hrev o (List.mem_cons_of_mem _ ho))

theorem verboseLevel_eq {text : CStr} (h : verboseLevel text ≠ none) :
    verboseLevel text = some (Int.bmod (strtol 10 text).1 (2 ^ 32)) := by
  unfold verboseLevel at h ⊢
  split_ifs at h ⊢
  · exact absurd rfl h
  · rfl

/-- The level of an accepted command line is the number, converted to an `int`. -/
theorem lastLevel_of_accepted {os : List Opt}
    (h : ∀ o ∈ os, o.1 = 'v' → verboseLevel o.2 ≠ none) :
    lastLevel os = (givenLevel os).map (fun n => Int.bmod n (2 ^ 32)) := by
  rw [lastLevel_eq h, givenLevel]
  cases harg : lastArg 'v' os with
  | none => rfl
  | some text =>
    obtain ⟨o, ho, hval⟩ := List.exists_of_findSome?_eq_some harg
    have hv : o.1 = 'v' ∧ o.2 = text := by
      split_ifs at hval with hv
      exact ⟨hv, Option.some.inj hval⟩
    have hne := h o (List.mem_reverse.mp ho) hv.1
    rw [hv.2] at hne
    exact verboseLevel_eq hne

/-- The log levels of a file are small. -/
theorem levelOf_range {es : List Entry} {level : Int} (h : levelOf es = some level) :
    0 ≤ level ∧ level ≤ 2 := by
  obtain ⟨levels, hlevels, rfl⟩ := Option.map_eq_some_iff.mp h
  obtain ⟨e, -, he⟩ := List.exists_of_findSome?_eq_some hlevels
  obtain ⟨value, -, hvalue⟩ := Option.bind_eq_some_iff.mp he
  unfold logLevels at hvalue
  split_ifs at hvalue <;> cases hvalue <;> decide

/-- Enabling messages for a level, and for another one after it, enables them for the
larger. -/
theorem enabled_set (d : Int) : Enabled d (setDebugLevel d {}) := by
  unfold Enabled setDebugLevel getDebugLevel
  split_ifs <;> simp <;> omega

theorem enabled_set_set (d d' : Int) :
    Enabled (max d d') (setDebugLevel d' (setDebugLevel d {})) := by
  unfold Enabled setDebugLevel getDebugLevel
  split_ifs <;> simp <;> omega

/-- The messages about errors are enabled apart from the others. -/
theorem enabled_setErrorLevel (level e : Int) (m : Messages) :
    Enabled level (setErrorLevel e m) ↔ Enabled level m := by
  have hsame : getDebugLevel (setErrorLevel e m) = getDebugLevel m := by
    unfold setErrorLevel getDebugLevel
    split_ifs <;> rfl
  rw [Enabled, hsame, Enabled]

theorem setDebugLevel_setErrorLevel (d e : Int) (m : Messages) :
    setDebugLevel d (setErrorLevel e m) = setErrorLevel e (setDebugLevel d m) := by
  unfold setDebugLevel setErrorLevel
  split_ifs <;> rfl

/-- The level zero enables no more than what was enabled. -/
theorem enabled_max_zero (d : Int) (m : Messages) : Enabled (max d 0) m ↔ Enabled d m := by
  unfold Enabled
  rw [max_assoc, max_self]

/-- What `vdev_init` has made of the command line and the file. -/
structure Started (W : World) (a : Source) (x : ℕ) (c : Configured) : Prop where
  loaded : Loaded W a x c.config
  accepted : ∀ o ∈ options a, o.1 = 'v' → verboseLevel o.2 ≠ none
  messages : Enabled (max ((lastLevel (options a)).getD 0) c.config.debugLevel) c.messages

theorem initConfig_started {W : World} {cwd : CStr} {args : List CStr} {x : ℕ} {c : Configured}
    (h : initConfig W cwd args x = .ok c) : Started W ⟨cwd, .before args⟩ x c := by
  unfold initConfig at h
  split at h
  · cases h
  rename_i conf p hargs
  dsimp only at h
  split at h
  · cases h
  rename_i loaded x' hload
  have hprepared := prepared_init hargs
  obtain ⟨hloaded, -, -⟩ := hprepared.load hload
  cases h
  refine ⟨hloaded, ?_, ?_⟩
  · unfold configLoadFromArgs at hargs
    split at hargs
    · cases hargs
    · rename_i hloop
      exact verboseLevel_of_accepted hloop
  · have hlevel : (withDefaultPath conf).debugLevel =
        (lastLevel (options ⟨cwd, .before args⟩)).getD 0 :=
      congrArg FileConfig.debugLevel hprepared.file
    dsimp only
    rw [← hlevel]
    have hlater : ∀ (P : Prop) [Decidable P] (level e : Int) (m : Messages),
        Enabled level (if P then setErrorLevel e m else m) ↔ Enabled level m := by
      intro P _ level e m
      split_ifs
      · exact enabled_setErrorLevel level e m
      · exact Iff.rfl
    rw [hlater]
    split_ifs with hzero
    · rw [setDebugLevel_setErrorLevel, enabled_setErrorLevel]
      exact enabled_set_set _ _
    · rw [not_not.mp hzero, enabled_max_zero, enabled_setErrorLevel]
      exact enabled_set _

/-- The levels that an accepted file and command line leave behind. -/
theorem Started.debugLevel {W : World} {a : Source} {x : ℕ} {c : Configured}
    (h : Started W a x c) : c.config.debugLevel =
      (levelOf (fileEntries W a)).getD
        (((givenLevel (options a)).map (fun n => Int.bmod n (2 ^ 32))).getD 0) := by
  have hfile := congrArg FileConfig.debugLevel h.loaded.file
  rw [← lastLevel_of_accepted h.accepted]
  exact hfile

/-- With the same level in both places, the level is the one that was given. -/
theorem Started.verbosity {W : World} {a : Source} {x : ℕ} {c : Configured} (h : Started W a x c)
    (hsame : SameLevel W a) (level : Int)
    (hlevel : (givenLevel (options a)).or (levelOf (fileEntries W a)) = some level) :
    c.config.debugLevel = level ∧ Enabled level c.messages := by
  have hdebug := h.debugLevel
  have hmessages := h.messages
  rw [lastLevel_of_accepted h.accepted] at hmessages
  cases hgiven : givenLevel (options a) with
  | none =>
    rw [hgiven, Option.none_or] at hlevel
    have hrange := levelOf_range hlevel
    have hc : c.config.debugLevel = level := by
      rw [hdebug, hlevel]
      rfl
    rw [hgiven, hc] at hmessages
    refine ⟨hc, ?_⟩
    rw [← max_eq_right hrange.1]
    exact hmessages
  | some n =>
    obtain ⟨hfits, hagree⟩ := hsame n hgiven
    rw [hgiven, Option.some_or] at hlevel
    obtain rfl : n = level := Option.some.inj hlevel
    have hc : c.config.debugLevel = n := by
      rw [hdebug, hgiven]
      cases hset : levelOf (fileEntries W a) with
      | none => exact hfits
      | some level => exact hagree level hset
    rw [hgiven, hc, Option.map_some, Option.getD_some, hfits, max_self] at hmessages
    exact ⟨hc, hmessages⟩

theorem Started.sameLevel {W : World} {a : Source} {x : ℕ} {c : Configured} (h : Started W a x c)
    (hwins : CommandLineWins W a c) : SameLevel W a := by
  intro n hn
  have hdebug := h.debugLevel
  have hlevel := hwins.verbosity n (by rw [hn]; rfl)
  rw [hlevel.1, hn] at hdebug
  cases hset : levelOf (fileEntries W a) with
  | none =>
    rw [hset] at hdebug
    exact ⟨hdebug.symm, nofun⟩
  | some level =>
    rw [hset] at hdebug
    obtain rfl : n = level := hdebug
    have hrange := levelOf_range hset
    exact ⟨by rw [Int.bmod_eq_of_le] <;> omega, fun level hl => (Option.some.inj hl).symm⟩

theorem Started.coldplugOnly {W : World} {a : Source} {x : ℕ} {c : Configured}
    (h : Started W a x c) (b : Bool)
    (hb : (if coldplug a then some true else none).or (coldplugOf (fileEntries W a)) = some b) :
    c.config.coldplugOnly = b := by
  have hc : c.config.coldplugOnly = (coldplug a || (fileEntries W a).any coldplugEntry) := by
    rw [h.loaded.file]
    rfl
  rw [hc]
  cases hgiven : coldplug a with
  | true =>
    rw [hgiven, if_pos rfl, Option.some_or] at hb
    exact Option.some.inj hb
  | false =>
    rw [hgiven, if_neg Bool.false_ne_true, Option.none_or, coldplugOf] at hb
    split_ifs at hb
    exact Option.some.inj hb

/-- The command line wins exactly if the log level of the file is not another one than that
of `-v`. -/
theorem commandLineWins_iff {W : World} {cwd : CStr} {args : List CStr} {x : ℕ} {c : Configured}
    (h : initConfig W cwd args x = .ok c) :
    CommandLineWins W ⟨cwd, .before args⟩ c ↔ SameLevel W ⟨cwd, .before args⟩ := by
  have hstarted := initConfig_started h
  generalize Source.mk cwd (.before args) = a at hstarted ⊢
  have hfile := hstarted.loaded.file
  constructor
  · exact hstarted.sameLevel
  · intro hsame
    refine ⟨?_, ?_, ?_, hstarted.verbosity hsame, hstarted.coldplugOnly⟩
    · intro path hpath
      rw [hfile]
      exact congrArg (absoluteLog a.cwd) hpath
    · intro path hpath
      rw [hfile]
      exact congrArg (absolute a.cwd) hpath
    · intro m hm
      rw [hfile]
      exact hm

def withConf (text : CStr) : World where
  files := (((FileTree.Tree.bare 0o755).put nameEtc [] (.dir 0o755)).put nameVdev [nameEtc]
    (.dir 0o755)).put nameConf [nameVdev, nameEtc] (.leaf (.file 0o644 text))
  realpath := fun _ path => .ok path
  mounts := .ok []
  regcomp := fun _ => 0

theorem exists_of_initConfig (W : World) (cwd : CStr) (args : List CStr) (x : ℕ)
    (p : Configured → Bool)
    (h : (initConfig W cwd args x).toOption.any p = true) :
    ∃ c, initConfig W cwd args x = .ok c ∧ p c = true := by
  obtain ⟨c, hc, hp⟩ := (Option.any_eq_true _ _).mp h
  refine ⟨c, ?_, hp⟩
  cases hinit : initConfig W cwd args x with
  | error rc =>
    rw [hinit] at hc
    cases hc
  | ok c' =>
    rw [hinit] at hc
    rw [Option.some.inj hc]

def fullText : CStr :=
  "[vdev-config]\nlogfile=/a\npidfile=/b\nmountpoint=/c\nloglevel=debug\ncoldplug_only=0\n".toList

/-- The arguments for a log file of their own, and the level of the file. -/
def ownLog : List CStr := ["-l".toList, "/log".toList, "-v".toList, "2".toList, "-1".toList,
  "/dev".toList]

theorem commandLineWins_fullText :
    ∃ c, initConfig (withConf fullText) ['/'] ownLog 0 = .ok c ∧
      CommandLineWins (withConf fullText) ⟨['/'], .before ownLog⟩ c := by
  obtain ⟨c, hc, -⟩ := exists_of_initConfig (withConf fullText) ['/'] ownLog 0 (fun _ => true)
    (by decide +kernel)
  refine ⟨c, hc, (commandLineWins_iff hc).mpr ?_⟩
  have hgiven : givenLevel (options ⟨['/'], .before ownLog⟩) = some 2 := by decide +kernel
  have hlevel : levelOf (fileEntries (withConf fullText) ⟨['/'], .before ownLog⟩) = some 2 := by
    decide +kernel
  intro n hn
  cases hgiven.symm.trans hn
  exact ⟨by decide, fun level hl => Option.some.inj (hl.symm.trans hlevel)⟩

def quietArgs : List CStr := ["-v".toList, "0".toList, "/dev".toList]

/-- With `-v 0` and the log level `debug` in the file, the messages are enabled. -/
theorem commandLine_loses :
    ∃ c, initConfig (withConf fullText) ['/'] quietArgs 0 = .ok c ∧
      givenLevel (options ⟨['/'], .before quietArgs⟩) = some 0 ∧ c.config.debugLevel = 2 ∧
      getDebugLevel c.messages = 2 ∧
      ¬CommandLineWins (withConf fullText) ⟨['/'], .before quietArgs⟩ c := by
  have hgiven : givenLevel (options ⟨['/'], .before quietArgs⟩) = some 0 := by decide +kernel
  obtain ⟨c, hc, hlevels⟩ := exists_of_initConfig (withConf fullText) ['/'] quietArgs 0
    (fun c => c.config.debugLevel = 2 ∧ getDebugLevel c.messages = 2) (by decide +kernel)
  obtain ⟨hdebug, hmessages⟩ := of_decide_eq_true hlevels
  refine ⟨c, hc, hgiven, hdebug, hmessages, fun hwins => ?_⟩
  have hlevel := hwins.verbosity 0 (by rw [hgiven]; rfl)
  rw [hdebug] at hlevel
  exact absurd hlevel.1 (by decide)

end Vdev.Precedence
