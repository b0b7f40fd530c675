import Vdev.Metadata

/-!
The environment that vdevd passes to a helper (vdevd/device.c). An exec'ed helper
gets the strings `KEY=VALUE` as they are; a daemonlet is sent them over a pipe.
The strings are kept here as pairs, and put together by `makeEnvStr`.
-/
namespace Vdev.Environment

open CString Data Metadata

/-- `PATH_MAX`. -/
def PATH_MAX : ℕ := 4096

/-- `vdev_device_request_make_env_str`. -/
def makeEnvStr (e : CStr × CStr) : CStr := e.1 ++ '=' :: e.2

/-- `vdev_device_request_type_to_string`. -/
def typeToString : RequestType → CStr
  | .add => "add".toList
  | .remove => "remove".toList
  | .change => "change".toList
  | _ => "none".toList

/-- `vdev_device_request_mode_to_string`. -/
def modeToString (mode : ℕ) : CStr :=
  if isBlk mode then "block".toList
  else if isChr mode then "char".toList
  else "none".toList

/-- `major` and `minor` of sys/sysmacros.h, on a 64-bit device number. -/
def major (dev : ℕ) : ℕ := ((dev >>> 8) &&& 0xfff) ||| ((dev >>> 32) &&& 0xfffff000)
def minor (dev : ℕ) : ℕ := (dev &&& 0xff) ||| ((dev >>> 12) &&& 0xffffff00)

/-- The digits of `%u`, the last one first. -/
def digitsRev : ℕ → ℕ → CStr
  | 0, _ => []
  | fuel + 1, n =>
    Char.ofNat ('0'.toNat + n % 10) :: if n < 10 then [] else digitsRev fuel (n / 10)

/-- `%u`, for a 32-bit number. -/
def formatUnsigned (n : ℕ) : CStr := (digitsRev 10 n).reverse

def logLevel (st : VdevState) : CStr :=
  if st.debugLevel > 0 then
    if st.debugLevel = 1 then "info".toList else "debug".toList
  else if st.errorLevel > 0 then
    if st.errorLevel = 1 then "error".toList else "warning".toList
  else "warning".toList

def envPath (req : Request) : Option CStr := req.renamedPath <|> req.path

/-- The variables of `vdev_device_request_to_env`, as pairs of a key and a value, where
`helpers_dir` is set. -/
def requestEnv (st : VdevState) (req : Request) (helperVars : Params) (isDaemonlet : Bool) :
    List (CStr × CStr) :=
  ("VDEV_MOUNTPOINT".toList, st.mountpoint) ::
  ("VDEV_ACTION".toList, typeToString req.type) ::
  (match envPath req with
    | none => []
    | some path =>
      [("VDEV_PATH".toList, path),
        ("VDEV_METADATA".toList, snprintf PATH_MAX
          (st.mountpoint ++ '/' :: metadataPrefix ++ "/dev/".toList ++ path))]) ++
  [("VDEV_GLOBAL_METADATA".toList, snprintf PATH_MAX (st.mountpoint ++ '/' :: metadataPrefix)),
    ("VDEV_CONFIG_FILE".toList, st.config.configPath)] ++
  (if req.dev ≠ 0 then
    [("VDEV_MAJOR".toList, snprintf 50 (formatUnsigned (major req.dev))),
      ("VDEV_MINOR".toList, snprintf 50 (formatUnsigned (minor req.dev)))]
  else []) ++
  (if req.mode &&& (S_IFBLK ||| S_IFCHR) ≠ 0 then
    [("VDEV_MODE".toList, modeToString req.mode)]
  else []) ++
  [("VDEV_HELPERS".toList, st.config.helpersDir.getD [])] ++
  (match st.config.logfilePath with
    | none => []
    | some path =>
      if strcaseEq path "syslog".toList then [] else [("VDEV_LOGFILE".toList, path)]) ++
  [("VDEV_INSTANCE".toList, st.config.instanceStr),
    ("VDEV_DAEMONLET".toList, if isDaemonlet then ['1'] else ['0']),
    ("VDEV_LOGLEVEL".toList, logLevel st)] ++
  req.params.entries.map (fun e => ("VDEV_OS_".toList ++ e.1, e.2)) ++
  helperVars.entries.map (fun e => ("VDEV_VAR_".toList ++ e.1, e.2))

def envStrings (st : VdevState) (req : Request) (helperVars : Params) (isDaemonlet : Bool) :
    List CStr :=
  (requestEnv st req helperVars isDaemonlet).map makeEnvStr

/-- `vdev_device_request_to_env`. It takes the length of `helpers_dir`, so there is no result
where that is NULL. -/
def requestToEnv (st : VdevState) (req : Request) (helperVars : Params) (isDaemonlet : Bool) :
    Option (List CStr) :=
  if st.config.helpersDir = none then none
  else some (envStrings st req helperVars isDaemonlet)

theorem requestEnv_ne_nil (st : VdevState) (req : Request) (helperVars : Params)
    (isDaemonlet : Bool) : requestEnv st req helperVars isDaemonlet ≠ [] := by
  rw [requestEnv]
  exact List.cons_ne_nil _ _

/-- The names of the variables that do not come from a parameter. -/
def fixedNames : List CStr :=
  ["VDEV_MOUNTPOINT".toList, "VDEV_ACTION".toList, "VDEV_PATH".toList, "VDEV_METADATA".toList,
    "VDEV_GLOBAL_METADATA".toList, "VDEV_CONFIG_FILE".toList, "VDEV_MAJOR".toList,
    "VDEV_MINOR".toList, "VDEV_MODE".toList, "VDEV_HELPERS".toList, "VDEV_LOGFILE".toList,
    "VDEV_INSTANCE".toList, "VDEV_DAEMONLET".toList, "VDEV_LOGLEVEL".toList]

def paramNames (start : CStr) (p : Params) : List CStr := p.entries.map (fun e => start ++ e.1)

def envNames (req : Request) (helperVars : Params) : List CStr :=
  fixedNames ++ paramNames "VDEV_OS_".toList req.params ++
    paramNames "VDEV_VAR_".toList helperVars

theorem requestEnv_names (st : VdevState) (req : Request) (helperVars : Params)
    (isDaemonlet : Bool) :
    ((requestEnv st req helperVars isDaemonlet).map Prod.fst).Sublist
      (envNames req helperVars) := by
  have hos : (req.params.entries.map (fun e => ("VDEV_OS_".toList ++ e.1, e.2))).map Prod.fst =
      paramNames "VDEV_OS_".toList req.params := List.map_map
  have hvar : (helperVars.entries.map (fun e => ("VDEV_VAR_".toList ++ e.1, e.2))).map Prod.fst =
      paramNames "VDEV_VAR_".toList helperVars := List.map_map
  rw [requestEnv]
  repeat rw [List.map_append]
  rw [hos, hvar]
  refine List.Sublist.append (List.Sublist.append ?_ (List.Sublist.refl _)) (List.Sublist.refl _)
  show List.Sublist _ <|
    ["VDEV_MOUNTPOINT".toList, "VDEV_ACTION".toList, "VDEV_PATH".toList, "VDEV_METADATA".toList] ++
    ["VDEV_GLOBAL_METADATA".toList, "VDEV_CONFIG_FILE".toList] ++
    ["VDEV_MAJOR".toList, "VDEV_MINOR".toList] ++ ["VDEV_MODE".toList] ++
    ["VDEV_HELPERS".toList] ++ ["VDEV_LOGFILE".toList] ++
    ["VDEV_INSTANCE".toList, "VDEV_DAEMONLET".toList, "VDEV_LOGLEVEL".toList]
  refine List.Sublist.append (List.Sublist.append (List.Sublist.append (List.Sublist.append
    (List.Sublist.append (List.Sublist.append ?_ (List.Sublist.refl _)) ?_) ?_) (List.Sublist.refl _)) ?_)
    (List.Sublist.refl _)
  · rw [List.map_cons, List.map_cons]
    refine List.Sublist.cons_cons _ (List.Sublist.cons_cons _ ?_)
    split
    · exact List.nil_sublist _
    · exact List.Sublist.refl _
  · split
    · exact List.Sublist.refl _
    · exact List.nil_sublist _
  · split
    · exact List.Sublist.refl _
    · exact List.nil_sublist _
  · split
    · exact List.nil_sublist _
    · split
      · exact List.nil_sublist _
      · exact List.Sublist.refl _

theorem paramNames_nodup (start : CStr) (p : Params) : (paramNames start p).Nodup := by
  have h := p.keys_nodup
  have hmap : paramNames start p = (p.entries.map Prod.fst).map (start ++ ·) := by
    rw [List.map_map]
    rfl
  rw [hmap]
  exact h.map (List.append_right_injective start)

theorem isPrefixOf_of_mem_paramNames (start name : CStr) (p : Params)
    (h : name ∈ paramNames start p) : start.isPrefixOf name = true := by
  obtain ⟨e, _, rfl⟩ := List.mem_map.mp h
  exact List.isPrefixOf_iff_prefix.mpr (List.prefix_append start e.1)

/-- No variable of the environment is set twice. -/
theorem envNames_nodup (req : Request) (helperVars : Params) :
    (envNames req helperVars).Nodup := by
  have hfixed : fixedNames.Nodup := by decide +kernel
  have hnoOs : ∀ name ∈ fixedNames, "VDEV_OS_".toList.isPrefixOf name = false := by decide +kernel
  have hnoVar : ∀ name ∈ fixedNames, "VDEV_VAR_".toList.isPrefixOf name = false := by
    decide +kernel
  unfold envNames
  rw [List.nodup_append, List.nodup_append]
  refine ⟨⟨hfixed, paramNames_nodup _ _, ?_⟩, paramNames_nodup _ _, ?_⟩
  · intro a ha b hb heq
    have hprefix := isPrefixOf_of_mem_paramNames _ _ _ hb
    rw [← heq, hnoOs a ha] at hprefix
    exact absurd hprefix (by decide)
  · intro a ha b hb heq
    have hprefix := isPrefixOf_of_mem_paramNames _ _ _ hb
    rw [← heq] at hprefix
    rcases List.mem_append.mp ha with ha | ha
    · rw [hnoVar a ha] at hprefix
      exact absurd hprefix (by decide)
    · obtain ⟨e, _, rfl⟩ := List.mem_map.mp ha
      exact absurd hprefix Bool.false_ne_true

theorem requestEnv_nodup (st : VdevState) (req : Request) (helperVars : Params)
    (isDaemonlet : Bool) : ((requestEnv st req helperVars isDaemonlet).map Prod.fst).Nodup :=
  (envNames_nodup req helperVars).sublist (requestEnv_names st req helperVars isDaemonlet)

end Vdev.Environment
