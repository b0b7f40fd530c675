import Vdev.Data
import Vdev.Vdevfs

/-!
Loading the configuration file (libvdev/config.c). The default policy of a file is
the last one in it, and the parser stores it the wrong way round: the value `allow`
becomes the number for deny, and every other value the number for allow.
-/
namespace Vdev.ConfigFile

open CString Parsing Ini Data AccessControl Vdevfs

/-- `struct vdev_config` as far as a file and its loader write it. Before a file is
loaded it holds what the command line has set. -/
structure FileConfig where
  configPath : Option CStr := none
  preseedPath : Option CStr := none
  aclsDir : Option CStr := none
  actsDir : Option CStr := none
  helpersDir : Option CStr := none
  defaultPolicy : Int := 0
  debugLevel : Int := 0
  errorLevel : Int := 0
  pidfilePath : Option CStr := none
  logfilePath : Option CStr := none
  mountpoint : Option CStr := none
  coldplugOnly : Bool := false
  osConfig : Params := Params.empty
  defaultMode : BitVec 32 := 0

/-- A value is saved unless there is one already. -/
def saved (old : Option CStr) (value : CStr) : Option CStr := if old = none then some value else old

def logLevels (value : CStr) : Option (Int × Int) :=
  if strcaseEq value "debug".toList then some (2, 2)
  else if strcaseEq value "info".toList then some (1, 2)
  else if strcaseEq value "warn".toList || strcaseEq value "warning".toList then some (0, 2)
  else if strcaseEq value "error".toList || strcaseEq value "critical".toList then some (0, 1)
  else none

/-- The key for coldplug. It is the name, not the value, that is compared with `true`
and `false`. -/
def coldplugKey (e : Entry) (conf : FileConfig) : Option FileConfig :=
  if strcaseEq e.name "true".toList then some { conf with coldplugOnly := true }
  else if strcaseEq e.name "false".toList then some { conf with coldplugOnly := false }
  else if !conf.coldplugOnly then
    (parseUint64 e.value).map (fun n => { conf with coldplugOnly := n != 0 })
  else some conf

/-- `vdev_config_ini_parser`. -/
def configIniParser (e : Entry) (conf : FileConfig) : Option FileConfig :=
  if e.sect = "vdev-config".toList then
    if e.name = "acls".toList then some { conf with aclsDir := saved conf.aclsDir e.value }
    else if e.name = "actions".toList then some { conf with actsDir := saved conf.actsDir e.value }
    else if e.name = "helpers".toList then
      some { conf with helpersDir := saved conf.helpersDir e.value }
    else if e.name = "default_permissions".toList then
      if (strtoul 8 e.value).2 ≠ [] then none
      else some { conf with defaultMode := BitVec.ofNat 32 (strtoul 8 e.value).1 }
    else if e.name = "default_policy".toList then
      some { conf with defaultPolicy := if !strcaseEq e.value "allow".toList then 1 else 0 }
    else if e.name = "pidfile".toList then
      some { conf with pidfilePath := saved conf.pidfilePath e.value }
    else if e.name = "logfile".toList then
      some { conf with logfilePath := saved conf.logfilePath e.value }
    else if e.name = "loglevel".toList then
      (logLevels e.value).map
        (fun (debug, error) => { conf with debugLevel := debug, errorLevel := error })
    else if e.name = "mountpoint".toList then
      some { conf with mountpoint := saved conf.mountpoint e.value }
    else if e.name = "coldplug_only".toList then coldplugKey e conf
    else if e.name = "preseed".toList then
      some { conf with preseedPath := saved conf.preseedPath e.value }
    else some conf
  else if e.sect = "vdev-OS".toList then
    match conf.osConfig.add e.name e.value with
    | .error _ => none
    | .ok osConfig => some { conf with osConfig := osConfig }
  else some conf

def absolute (cwd : CStr) (path : Option CStr) : Option CStr :=
  path.map (fun path => if path.head? ≠ some '/' then Paths.fullpath cwd path else path)

/-- `vdev_config_fullpaths`, where `getcwd` may fail. -/
def configFullpaths (getcwd : Option CStr) (conf : FileConfig) : Except Int FileConfig :=
  match getcwd with
  | none => .error Errno.erange.rc
  | some cwd =>
    .ok { conf with
      configPath := absolute cwd conf.configPath
      aclsDir := absolute cwd conf.aclsDir
      actsDir := absolute cwd conf.actsDir
      helpersDir := absolute cwd conf.helpersDir
      pidfilePath := absolute cwd conf.pidfilePath
      logfilePath :=
        if conf.logfilePath = some "syslog".toList then conf.logfilePath
        else absolute cwd conf.logfilePath
      preseedPath := absolute cwd conf.preseedPath }

/-- `vdev_config_load_file`. -/
def configLoadFile (getcwd : Option CStr) (file : CStr) (conf : FileConfig) :
    Except Int FileConfig :=
  match iniParseFile configIniParser file conf with
  | .error lineno => .error lineno
  | .ok conf => configFullpaths getcwd conf

def policyEntry (e : Entry) : Option CStr :=
  if e.sect = "vdev-config".toList ∧ e.name = "default_policy".toList then some e.value else none

def policyValue (es : List Entry) : Option CStr := (es.filterMap policyEntry).getLast?

def policyNumber (value : CStr) : Int := if !strcaseEq value "allow".toList then 1 else 0

def HasPolicy (policy : Int) (result : Option FileConfig) : Prop :=
  ∀ conf, result = some conf → conf.defaultPolicy = policy

theorem hasPolicy_coldplugKey (e : Entry) (conf : FileConfig) :
    HasPolicy conf.defaultPolicy (coldplugKey e conf) := by
  unfold coldplugKey
  refine Ensures.ite (fun _ => Ensures.some rfl) (fun _ => ?_)
  refine Ensures.ite (fun _ => Ensures.some rfl) (fun _ => ?_)
  exact Ensures.ite (fun _ => Ensures.map _ _ (fun _ _ => rfl)) (fun _ => Ensures.some rfl)

/-- An entry sets the default policy if it has one, and else keeps it. -/
theorem hasPolicy_configIniParser (e : Entry) (conf : FileConfig) :
    HasPolicy ((policyEntry e).elim conf.defaultPolicy policyNumber) (configIniParser e conf) := by
  unfold configIniParser
  by_cases hpol : e.sect = "vdev-config".toList ∧ e.name = "default_policy".toList
  · rw [policyEntry, if_pos hpol, if_pos hpol.1, hpol.2, if_neg (by decide), if_neg (by decide),
      if_neg (by decide), if_neg (by decide), if_pos rfl]
    exact Ensures.some rfl
  rw [policyEntry, if_neg hpol]
  refine Ensures.ite (fun hsect => ?_) (fun _ => Ensures.ite (fun _ => ?_) (fun _ => ?_))
  · refine Ensures.ite (fun _ => Ensures.some rfl) (fun _ => ?_)
    refine Ensures.ite (fun _ => Ensures.some rfl) (fun _ => ?_)
    refine Ensures.ite (fun _ => Ensures.some rfl) (fun _ => ?_)
    refine Ensures.ite (fun _ => Ensures.ite (fun _ => Ensures.none)
      (fun _ => Ensures.some rfl)) (fun _ => ?_)
    refine Ensures.ite (fun hname => (hpol ⟨hsect, hname⟩).elim) (fun _ => ?_)
    refine Ensures.ite (fun _ => Ensures.some rfl) (fun _ => ?_)
    refine Ensures.ite (fun _ => Ensures.some rfl) (fun _ => ?_)
    refine Ensures.ite (fun _ => Ensures.map _ _ (fun _ _ => rfl)) (fun _ => ?_)
    refine Ensures.ite (fun _ => Ensures.some rfl) (fun _ => ?_)
    refine Ensures.ite (fun _ => hasPolicy_coldplugKey e conf) (fun _ => ?_)
    exact Ensures.ite (fun _ => Ensures.some rfl) (fun _ => Ensures.some rfl)
  · split
    · exact Ensures.none
    · exact Ensures.some rfl
  · exact Ensures.some rfl

theorem policyValue_append (es : List Entry) (e : Entry) :
    policyValue (es ++ [e]) = (policyEntry e).or (policyValue es) := by
  unfold policyValue
  rw [List.filterMap_append]
  cases he : policyEntry e with
  | none =>
    rw [List.filterMap_cons_none he, List.filterMap_nil, List.append_nil]
    rfl
  | some value =>
    rw [List.filterMap_cons_some he, List.filterMap_nil, List.getLast?_concat]
    rfl

/-- The default policy that is loaded is that of the last entry with one. -/
theorem defaultPolicy_of_configLoadFile (getcwd : Option CStr) (file : CStr)
    (conf conf' : FileConfig) (h : configLoadFile getcwd file conf = .ok conf') (es : List Entry)
    (hes : entries file = some es) :
    conf'.defaultPolicy = (policyValue es).elim conf.defaultPolicy policyNumber := by
  unfold configLoadFile at h
  cases hparse : iniParseFile configIniParser file conf with
  | error lineno =>
    rw [hparse] at h
    cases h
  | ok parsed =>
    rw [hparse] at h
    have hsame : conf'.defaultPolicy = parsed.defaultPolicy := by
      unfold configFullpaths at h
      cases getcwd with
      | none => cases h
      | some cwd =>
        cases h
        rfl
    rw [hsame]
    refine iniParseFile_induct configIniParser
      (fun es c => c.defaultPolicy = (policyValue es).elim conf.defaultPolicy policyNumber) conf rfl
      ?_ file es hes parsed hparse
    intro es e c c' hc hstep
    rw [hasPolicy_configIniParser e c c' hstep, policyValue_append, hc]
    cases policyEntry e with
    | none => rfl
    | some value => rfl

/-- Without ACLs, the access check is the policy number. -/
theorem accessCheck_nil (m : Matchers) (policy : Int) (caller : Caller) (path : CStr) :
    accessCheck m policy [] caller path = 0 ↔
      (∃ ps, caller.pstat = .ok ps) ∧ 0 < policy := by
  rw [accessCheck_eq_zero_iff]
  constructor
  · rintro ⟨ps, hps, -, ⟨-, hpos⟩ | ⟨hnil, -⟩⟩
    · exact ⟨⟨ps, hps⟩, hpos⟩
    · exact (hnil rfl).elim
  · rintro ⟨⟨ps, hps⟩, hpos⟩
    refine ⟨ps, hps, ?_, Or.inl ⟨rfl, hpos⟩⟩
    rintro (⟨-, hneg⟩ | ⟨acl, hmem, -⟩)
    · omega
    · cases hmem

/-- With a default policy in the file and no ACLs, the access check grants what the file
says only where it grants nothing: when the process of the caller is not found and
the policy is not `allow`. -/
theorem default_policy_iff (getcwd : Option CStr) (file : CStr) (conf conf' : FileConfig)
    (h : configLoadFile getcwd file conf = .ok conf') (es : List Entry)
    (hes : entries file = some es) (value : CStr) (hvalue : policyValue es = some value)
    (m : Matchers) (caller : Caller) (path : CStr) :
    (accessCheck m conf'.defaultPolicy [] caller path = 0 ↔
      strcaseEq value "allow".toList = true) ↔
    (¬∃ ps, caller.pstat = .ok ps) ∧ ¬strcaseEq value "allow".toList = true := by
  have hpolicy : conf'.defaultPolicy = policyNumber value := by
    rw [defaultPolicy_of_configLoadFile getcwd file conf conf' h es hes, hvalue]
    rfl
  have hnumber : 0 < policyNumber value ↔ ¬strcaseEq value "allow".toList = true := by
    unfold policyNumber
    cases strcaseEq value "allow".toList <;> decide
  rw [hpolicy, accessCheck_nil, hnumber]
  by_cases hfound : ∃ ps, caller.pstat = .ok ps
  · -- the two sides are negations of each other
    simp [hfound]
  · simp [hfound]

def denyFile : CStr := "[vdev-config]\ndefault_policy=deny\n".toList

def allowFile : CStr := "[vdev-config]\ndefault_policy=Allow\n".toList

def gone : Caller := ⟨1000, 1000, .error (-3)⟩

theorem default_policy_iff_deny :
    accessCheck randomMatchers 1 [] gone "/hw/random".toList = 0 ↔
      strcaseEq "deny".toList "allow".toList = true := by
  refine (default_policy_iff (some "/".toList) denyFile {} { defaultPolicy := 1 } rfl
    [⟨"vdev-config".toList, "default_policy".toList, "deny".toList⟩] (by decide) "deny".toList
    (by decide) randomMatchers gone "/hw/random".toList).mpr ⟨?_, by decide⟩
  rintro ⟨ps, hps⟩
  cases hps

/-- The policy `Allow` denies, and the policy `deny` permits. -/
theorem default_policy_inverted :
    (configLoadFile (some "/".toList) allowFile {} = .ok { defaultPolicy := 0 } ∧
      (entries allowFile).bind policyValue = some "Allow".toList ∧
      strcaseEq "Allow".toList "allow".toList = true ∧
      accessCheck randomMatchers 0 [] user "/hw/random".toList = Errno.eperm.rc) ∧
    (configLoadFile (some "/".toList) denyFile {} = .ok { defaultPolicy := 1 } ∧
      (entries denyFile).bind policyValue = some "deny".toList ∧
      strcaseEq "deny".toList "allow".toList = false ∧
      accessCheck randomMatchers 1 [] user "/hw/random".toList = 0) := by
  refine ⟨⟨rfl, by decide, by decide, by decide⟩, rfl, by decide, by decide, by decide⟩

end Vdev.ConfigFile
