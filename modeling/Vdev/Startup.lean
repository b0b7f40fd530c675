import Vdev.ActionFile
import Vdev.CommandLine
import Vdev.ConfigFields
import Vdev.Nonce

/-!
Starting vdevd and reloading its configuration (vdevd/vdev.c, vdevd/main.c, vdevd/os/linux.c).
Both read the command line, then the configuration file and then the actions. In between,
vdevd becomes a daemon in the root directory, and the OS layer notes its quirks in the
configuration. A reload that succeeds installs a new configuration, which has none of this.
-/
namespace Vdev.Startup

open CString Data FileTree SystemCalls Paths ConfigFile CommandLine ActionFile Nonce

/-- What vdevd finds outside of its process: the files, `realpath` from a working directory,
the directories and types of `/proc/mounts`, and `regcomp`. -/
structure World where
  files : FS
  realpath : CStr → CStr → Except Errno CStr
  mounts : Except Errno (List (CStr × CStr))
  regcomp : CStr → Int

/-- `VDEV_CONFIG_FILE`. -/
def VDEV_CONFIG_FILE : CStr := "/etc/vdev/vdevd.conf".toList

def PATH_MAX : ℕ := 4096

/-- `getcwd` into the buffer of `vdev_config_fullpaths`. -/
def getcwd (cwd : CStr) : Option CStr := if cwd.length < PATH_MAX then some cwd else none

/-- `fopen` of a path that may be relative. -/
def openFrom (T : FS) (cwd path : CStr) : Except Errno CStr :=
  if path = [] then .error .enoent
  else fopen T (if path.head? ≠ some '/' then fullpath cwd path else path)

/-- `vdev_config_load`, with the state of the generator. -/
def configLoad (W : World) (cwd path : CStr) (conf : VdevConfig) (x : ℕ) :
    Except Int VdevConfig × ℕ :=
  match openFrom W.files cwd path with
  | .error e => (.error e.rc, x)
  | .ok file =>
    match configLoadFile (getcwd cwd) file conf.toFileConfig with
    | .error rc => (.error rc, x)
    | .ok loaded =>
      let (instanceStr, x) := makeInstanceNonce x
      (.ok { conf with toFileConfig := loaded, instanceStr := instanceStr }, x)

/-- Where a configuration was loaded from: the working directory, and the position of
`getopt_long`. -/
structure Source where
  cwd : CStr
  position : Position

/-- A running vdevd, with the state of the library functions that it uses. The last two
fields are ghosts: what the installed configuration was loaded from, and how many other
configurations were loaded since. -/
structure Daemon where
  config : VdevConfig
  acts : List FileAction
  cwd : CStr
  position : Position
  random : ℕ
  source : Source
  loads : ℕ

/-- The default path, if the command line has none. -/
def withDefaultPath (conf : VdevConfig) : VdevConfig :=
  if conf.configPath = none then { conf with configPath := some VDEV_CONFIG_FILE } else conf

/-- The messages that are enabled in the process. -/
structure Messages where
  debug : Bool := false
  info : Bool := false
  warn : Bool := true
  error : Bool := true

/-- `vdev_set_debug_level`. Nothing is ever disabled. -/
def setDebugLevel (d : Int) (m : Messages) : Messages :=
  let m := if d ≥ 1 then { m with info := true } else m
  if d ≥ 2 then { m with debug := true } else m

/-- `vdev_set_error_level`. -/
def setErrorLevel (e : Int) (m : Messages) : Messages :=
  let m := if e ≥ 1 then { m with error := true } else m
  if e ≥ 2 then { m with warn := true } else m

/-- `vdev_get_debug_level`. -/
def getDebugLevel (m : Messages) : ℕ := m.debug.toNat + m.info.toNat

/-- What `vdev_init` has before it loads the actions. -/
structure Configured where
  config : VdevConfig
  position : Position
  random : ℕ
  messages : Messages

/-- `vdev_init` up to the actions. -/
def initConfig (W : World) (cwd : CStr) (args : List CStr) (x : ℕ) : Except Int Configured :=
  match configLoadFromArgs (W.realpath cwd) (.before args) {} with
  | (.error rc, _) => .error rc
  | (.ok conf, p) =>
    let conf := withDefaultPath conf
    let m := setErrorLevel conf.errorLevel (setDebugLevel conf.debugLevel {})
    match configLoad W cwd (conf.configPath.getD []) conf x with
    | (.error rc, _) => .error rc
    | (.ok conf, x) =>
      let m := if conf.debugLevel ≠ 0 then setDebugLevel conf.debugLevel m else m
      let m := if conf.errorLevel ≠ 0 then setErrorLevel conf.errorLevel m else m
      .ok ⟨conf, p, x, m⟩

/-- `vdev_init`, for the arguments behind the name of the program. It has no result when the
process dies. -/
def vdevInit (W : World) (cwd : CStr) (args : List CStr) (x : ℕ) : Option (Except Int Daemon) :=
  match configLoadFromArgs (W.realpath cwd) (.before args) {} with
  | (.error rc, _) => some (.error rc)
  | (.ok conf, p) =>
    let conf := withDefaultPath conf
    match configLoad W cwd (conf.configPath.getD []) conf x with
    | (.error rc, _) => some (.error rc)
    | (.ok conf, x) =>
      match actionLoadAll W.regcomp conf.actsDir conf.helpersDir W.files with
      | none => none
      | some (.error rc) => some (.error rc)
      | some (.ok acts) =>
        some (.ok
          { config := conf
            acts := acts
            cwd := cwd
            position := p
            random := x
            source := ⟨cwd, .before args⟩
            loads := 0 })

/-- Behind the configuration, `vdev_init` loads the actions. -/
theorem vdevInit_eq (W : World) (cwd : CStr) (args : List CStr) (x : ℕ) :
    vdevInit W cwd args x =
      match initConfig W cwd args x with
      | .error rc => some (.error rc)
      | .ok c =>
        (actionLoadAll W.regcomp c.config.actsDir c.config.helpersDir W.files).map
          (fun r => r.map (fun acts => ⟨c.config, acts, cwd, c.position, c.random,
            ⟨cwd, .before args⟩, 0⟩)) := by
  unfold vdevInit initConfig
  rcases configLoadFromArgs (W.realpath cwd) (.before args) {} with ⟨rc | conf, p⟩
  · rfl
  dsimp only
  rcases configLoad W cwd ((withDefaultPath conf).configPath.getD []) (withDefaultPath conf) x with
    ⟨rc | loaded, x'⟩
  · rfl
  dsimp only
  rcases actionLoadAll W.regcomp loaded.actsDir loaded.helpersDir W.files with _ | rc | acts
  · rfl
  · rfl
  · rfl

/-- The test in `vdev_linux_mountpoint_on_devtmpfs`. -/
def contained (devtmpfs mountpoint : CStr) : Bool :=
  let len := min devtmpfs.length mountpoint.length
  devtmpfs.take len == mountpoint.take len &&
    ((mountpoint.drop len).contains '/' || devtmpfs == mountpoint)

/-- The loop of `vdev_linux_mountpoint_on_devtmpfs`. -/
def devtmpfsLoop (realpath : CStr → Except Errno CStr) (mountpoint : CStr) :
    List (CStr × CStr) → Int
  | [] => 0
  | (dir, type) :: rest =>
    if type = "devtmpfs".toList then
      match realpath mountpoint with
      | .error e => e.rc
      | .ok real =>
        match realpath dir with
        | .error e => e.rc
        | .ok devtmpfs => if contained devtmpfs real then 1 else devtmpfsLoop realpath mountpoint rest
    else devtmpfsLoop realpath mountpoint rest

/-- `vdev_linux_mountpoint_on_devtmpfs`. -/
def mountpointOnDevtmpfs (W : World) (cwd mountpoint : CStr) : Int :=
  match W.mounts with
  | .error e => e.rc
  | .ok mounts => devtmpfsLoop (W.realpath cwd) mountpoint mounts

/-- `vdev_config_set_OS_quirk`. -/
def setOSQuirk (conf : VdevConfig) (quirk : ℕ) : VdevConfig :=
  { conf with osQuirks := conf.osQuirks ||| quirk }

/-- `vdev_os_init`, as far as it concerns the configuration. -/
def osInit (W : World) (s : Daemon) : Option Daemon :=
  let rc := mountpointOnDevtmpfs W s.cwd (s.config.mountpoint.getD [])
  if rc < 0 then none
  else if rc > 0 then some { s with config := setOSQuirk s.config VDEV_OS_QUIRK_DEVICE_EXISTS }
  else some s

/-- `main` from the start of vdevd to its device requests. A daemon runs in the root
directory, and needs a logfile. -/
def startUp (W : World) (cwd : CStr) (args : List CStr) (x : ℕ) : Option Daemon :=
  match vdevInit W cwd args x with
  | some (.ok s) =>
    if s.config.foreground then osInit W s
    else if s.config.logfilePath = none then none
    else if s.config.coldplugOnly then osInit W s
    else osInit W { s with cwd := ['/'] }
  | _ => none

/-- `vdev_reload`. It has no result when the process dies. -/
def vdevReload (W : World) (s : Daemon) : Option (Int × Daemon) :=
  match configLoadFromArgs (W.realpath s.cwd) s.position { configPath := some VDEV_CONFIG_FILE } with
  | (.error rc, p) => some (rc, { s with position := p })
  | (.ok conf, p) =>
    match configLoad W s.cwd (conf.configPath.getD []) conf s.random with
    | (.error rc, x) => some (rc, { s with position := p, random := x })
    | (.ok conf, x) =>
      match actionLoadAll W.regcomp conf.actsDir conf.helpersDir W.files with
      | none => none
      | some (.error rc) => some (rc, { s with position := p, random := x, loads := s.loads + 1 })
      | some (.ok acts) =>
        some (0,
          { config := conf
            acts := acts
            cwd := s.cwd
            position := p
            random := x
            source := ⟨s.cwd, s.position⟩
            loads := 0 })

structure Handle where
  pid : Int
  stdin : Int
  stdout : Int

def setHandle (act : FileAction) (h : Handle) : FileAction :=
  { act with daemonletPid := h.pid, daemonletStdin := h.stdin, daemonletStdout := h.stdout }

/-- What happens to a running vdevd: a reload, or a device request, which may start and stop
daemonlets. -/
inductive Label
  | reload
  | request (handles : List Handle)

def step (W : World) (l : Label) (s : Daemon) : Option Daemon :=
  match l with
  | .reload => (vdevReload W s).map Prod.snd
  | .request handles =>
    if handles.length = s.acts.length then
      some { s with acts := List.zipWith setHandle s.acts handles }
    else none

end Vdev.Startup
