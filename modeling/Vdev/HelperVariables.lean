import Vdev.Environment

/-!
The array of variables that a helper gets (`vdev_device_request_to_env`). The entries
are written one after the other into an array whose size is fixed in advance by a
constant and the two parameter sets. The variables with a name of their own form a
table, in which a variable without a value is skipped; each is there exactly when its
source is. A key with an equals sign would move the end of a name, so what a helper
reads back is said for keys without one.
-/
namespace Vdev.HelperVariables

open CString Data Metadata Environment

/-- `num_vars`. -/
def numVars (req : Request) (helperVars : Params) : ℕ :=
  15 + req.params.entries.length + helperVars.entries.length

/-- Each entry is written to `env[i]`, and `i` goes up. There is no result if a write misses the
array. -/
def writeEntries : List CStr → List (Option CStr) → ℕ → Option (List (Option CStr) × ℕ)
  | [], env, i => some (env, i)
  | e :: rest, env, i =>
    if i < env.length then writeEntries rest (env.set i (some e)) (i + 1) else none

/-- `*ret_env` and `*num_env`. The array is allocated by `calloc`. -/
def envArray (st : VdevState) (req : Request) (helperVars : Params) (isDaemonlet : Bool) :
    Option (List (Option CStr) × ℕ) :=
  (requestToEnv st req helperVars isDaemonlet).bind fun entries =>
    writeEntries entries (List.replicate (numVars req helperVars + 1) none) 0

/-- The entries follow those that are there, and the rest of the array stays empty. -/
theorem writeEntries_eq (entries written : List CStr) (k : ℕ) (h : entries.length ≤ k) :
    writeEntries entries (written.map some ++ List.replicate k none) written.length =
      some ((written ++ entries).map some ++ List.replicate (k - entries.length) none,
        (written ++ entries).length) := by
  induction entries generalizing written k with
  | nil => simp [writeEntries]
  | cons e rest ih =>
    obtain ⟨k, rfl⟩ : ∃ j, k = j + 1 := ⟨k - 1, by simp at h; omega⟩
    have hset : (written.map some ++ List.replicate (k + 1) none).set written.length (some e) =
        (written ++ [e]).map some ++ List.replicate k none := by
      rw [List.set_append_right _ _ (by simp), List.length_map, Nat.sub_self,
        List.replicate_succ, List.set_cons_zero, List.map_append]
      simp
    have hnext := ih (written ++ [e]) k (by simpa using h)
    rw [writeEntries, if_pos (by simp), hset]
    rw [List.length_append, List.length_singleton] at hnext
    rw [hnext]
    simp

/-- The value of VDEV_LOGFILE: there is no file for the log that goes to syslog. -/
def logfileVariable (st : VdevState) : Option CStr :=
  match st.config.logfilePath with
  | none => none
  | some path => if strcaseEq path "syslog".toList then none else some path

/-- The variables that have names of their own, in their order. Those without a value are left
out. -/
def fixedEntries (st : VdevState) (req : Request) (isDaemonlet : Bool) :
    List (CStr × Option CStr) :=
  [("VDEV_MOUNTPOINT".toList, some st.mountpoint),
    ("VDEV_ACTION".toList, some (typeToString req.type)),
    ("VDEV_PATH".toList, envPath req),
    ("VDEV_METADATA".toList, (envPath req).map (fun path => snprintf PATH_MAX
      (st.mountpoint ++ '/' :: metadataPrefix ++ "/dev/".toList ++ path))),
    ("VDEV_GLOBAL_METADATA".toList,
      some (snprintf PATH_MAX (st.mountpoint ++ '/' :: metadataPrefix))),
    ("VDEV_CONFIG_FILE".toList, some st.config.configPath),
    ("VDEV_MAJOR".toList,
      if req.dev ≠ 0 then some (snprintf 50 (formatUnsigned (major req.dev))) else none),
    ("VDEV_MINOR".toList,
      if req.dev ≠ 0 then some (snprintf 50 (formatUnsigned (minor req.dev))) else none),
    ("VDEV_MODE".toList,
      if req.mode &&& (S_IFBLK ||| S_IFCHR) ≠ 0 then some (modeToString req.mode) else none),
    ("VDEV_HELPERS".toList, some (st.config.helpersDir.getD [])),
    ("VDEV_LOGFILE".toList, logfileVariable st),
    ("VDEV_INSTANCE".toList, some st.config.instanceStr),
    ("VDEV_DAEMONLET".toList, some (if isDaemonlet then ['1'] else ['0'])),
    ("VDEV_LOGLEVEL".toList, some (logLevel st))]

def present (e : CStr × Option CStr) : Option (CStr × CStr) := e.2.map (fun v => (e.1, v))

def paramEntries (start : CStr) (p : Params) : List (CStr × CStr) :=
  p.entries.map (fun e => (start ++ e.1, e.2))

theorem requestEnv_eq (st : VdevState) (req : Request) (helperVars : Params)
    (isDaemonlet : Bool) :
    requestEnv st req helperVars isDaemonlet =
      (fixedEntries st req isDaemonlet).filterMap present ++
        paramEntries "VDEV_OS_".toList req.params ++
        paramEntries "VDEV_VAR_".toList helperVars := by
  unfold requestEnv fixedEntries paramEntries logfileVariable
  congr 2
  cases envPath req <;> cases st.config.logfilePath <;> dsimp only <;> split_ifs <;> rfl

theorem mem_filterMap_present_iff {table : List (CStr × Option CStr)}
    (hnodup : (table.map Prod.fst).Nodup) {name : CStr} {value : Option CStr}
    (hmem : (name, value) ∈ table) (v : CStr) :
    (name, v) ∈ table.filterMap present ↔ value = some v := by
  rw [List.mem_filterMap]
  constructor
  · rintro ⟨⟨name', value'⟩, hmem', heq⟩
    obtain ⟨v', hv', heq⟩ := Option.map_eq_some_iff.mp heq
    cases heq
    have h := List.inj_on_of_nodup_map hnodup hmem hmem' rfl
    rw [(Prod.mk.inj h).2]
    exact hv'
  · rintro rfl
    exact ⟨_, hmem, rfl⟩

theorem fixedEntries_names (st : VdevState) (req : Request) (isDaemonlet : Bool) :
    (fixedEntries st req isDaemonlet).map Prod.fst = fixedNames := rfl

theorem not_mem_paramEntries {start name : CStr} (h : start.isPrefixOf name = false) (p : Params)
    (v : CStr) : (name, v) ∉ paramEntries start p := by
  intro hmem
  have hname : name ∈ paramNames start p := by
    obtain ⟨e, he, heq⟩ := List.mem_map.mp hmem
    exact List.mem_map.mpr ⟨e, he, congrArg Prod.fst heq⟩
  rw [isPrefixOf_of_mem_paramNames start name p hname] at h
  cases h

/-- A variable with a name of its own is there with a value exactly when the table has it. -/
theorem mem_requestEnv_iff (st : VdevState) (req : Request) (helperVars : Params)
    (isDaemonlet : Bool) {name : CStr} {value : Option CStr}
    (hmem : (name, value) ∈ fixedEntries st req isDaemonlet) (v : CStr) :
    (name, v) ∈ requestEnv st req helperVars isDaemonlet ↔ value = some v := by
  have hname : name ∈ fixedNames := by
    rw [← fixedEntries_names st req isDaemonlet]
    exact List.mem_map_of_mem hmem
  have hparam : ∀ n ∈ fixedNames, "VDEV_OS_".toList.isPrefixOf n = false ∧
      "VDEV_VAR_".toList.isPrefixOf n = false := by decide +kernel
  have hnodup : ((fixedEntries st req isDaemonlet).map Prod.fst).Nodup := by
    rw [fixedEntries_names]
    decide +kernel
  obtain ⟨hos, hvar⟩ := hparam name hname
  rw [requestEnv_eq, List.mem_append, List.mem_append,
    or_iff_left (not_mem_paramEntries hvar helperVars v),
    or_iff_left (not_mem_paramEntries hos req.params v),
    mem_filterMap_present_iff hnodup hmem v]

theorem length_requestEnv_le (st : VdevState) (req : Request) (helperVars : Params)
    (isDaemonlet : Bool) :
    (requestEnv st req helperVars isDaemonlet).length ≤ numVars req helperVars := by
  have hfixed := List.length_filterMap_le present (fixedEntries st req isDaemonlet)
  have hcount : (fixedEntries st req isDaemonlet).length = 14 := rfl
  rw [requestEnv_eq, List.length_append, List.length_append, paramEntries, paramEntries,
    List.length_map, List.length_map, numVars]
  omega

/-- The name of a variable, as `getenv` and the shell read it. -/
def nameOf (entry : CStr) : CStr := entry.takeWhile (· ≠ '=')

theorem nameOf_makeEnvStr {e : CStr × CStr} (h : '=' ∉ e.1) : nameOf (makeEnvStr e) = e.1 := by
  unfold nameOf makeEnvStr
  rw [List.takeWhile_append_of_pos (fun c hc => by
    simp only [decide_eq_true_eq]
    rintro rfl
    exact h hc)]
  simp

theorem names_plain (st : VdevState) (req : Request) (helperVars : Params) (isDaemonlet : Bool)
    (hkeys : ∀ kv ∈ req.params.entries ++ helperVars.entries, '=' ∉ kv.1) :
    ∀ e ∈ requestEnv st req helperVars isDaemonlet, '=' ∉ e.1 := by
  intro e he
  have hfixed : ∀ n ∈ fixedNames, '=' ∉ n := by decide +kernel
  have hname := (requestEnv_names st req helperVars isDaemonlet).subset (List.mem_map_of_mem he)
  rcases List.mem_append.mp hname with hname | hname
  · rcases List.mem_append.mp hname with hname | hname
    · exact hfixed e.1 hname
    · obtain ⟨kv, hkv, heq⟩ := List.mem_map.mp hname
      rw [← heq, List.mem_append, not_or]
      exact ⟨by decide, hkeys kv (List.mem_append_left _ hkv)⟩
  · obtain ⟨kv, hkv, heq⟩ := List.mem_map.mp hname
    rw [← heq, List.mem_append, not_or]
    exact ⟨by decide, hkeys kv (List.mem_append_right _ hkv)⟩

/-- What a helper can rely on. `text` says the same of the strings. -/
structure Complete (st : VdevState) (req : Request) (helperVars : Params) (isDaemonlet : Bool) :
    Prop where
  result : requestToEnv st req helperVars isDaemonlet =
    some (envStrings st req helperVars isDaemonlet)
  bound : (requestEnv st req helperVars isDaemonlet).length ≤ numVars req helperVars
  array : envArray st req helperVars isDaemonlet =
    some ((envStrings st req helperVars isDaemonlet).map some ++
        List.replicate
          (numVars req helperVars + 1 - (requestEnv st req helperVars isDaemonlet).length) none,
      (requestEnv st req helperVars isDaemonlet).length)
  names : ((requestEnv st req helperVars isDaemonlet).map Prod.fst).Nodup
  params : ∀ kv ∈ req.params.entries,
    (requestEnv st req helperVars isDaemonlet).count ("VDEV_OS_".toList ++ kv.1, kv.2) = 1
  vars : ∀ kv ∈ helperVars.entries,
    (requestEnv st req helperVars isDaemonlet).count ("VDEV_VAR_".toList ++ kv.1, kv.2) = 1
  path : ∀ v, ("VDEV_PATH".toList, v) ∈ requestEnv st req helperVars isDaemonlet ↔
    envPath req = some v
  metadata : (∃ v, ("VDEV_METADATA".toList, v) ∈ requestEnv st req helperVars isDaemonlet) ↔
    envPath req ≠ none
  device : ∀ name ∈ ["VDEV_MAJOR".toList, "VDEV_MINOR".toList],
    (∃ v, (name, v) ∈ requestEnv st req helperVars isDaemonlet) ↔ req.dev ≠ 0
  mode : (∃ v, ("VDEV_MODE".toList, v) ∈ requestEnv st req helperVars isDaemonlet) ↔
    req.mode &&& (S_IFBLK ||| S_IFCHR) ≠ 0
  logfile : ∀ v, ("VDEV_LOGFILE".toList, v) ∈ requestEnv st req helperVars isDaemonlet ↔
    st.config.logfilePath = some v ∧ strcaseEq v "syslog".toList = false
  text : (∀ kv ∈ req.params.entries ++ helperVars.entries, '=' ∉ kv.1) →
    ((envStrings st req helperVars isDaemonlet).map nameOf).Nodup ∧
    (∀ kv ∈ req.params.entries, (envStrings st req helperVars isDaemonlet).count
      (makeEnvStr ("VDEV_OS_".toList ++ kv.1, kv.2)) = 1) ∧
    ∀ kv ∈ helperVars.entries, (envStrings st req helperVars isDaemonlet).count
      (makeEnvStr ("VDEV_VAR_".toList ++ kv.1, kv.2)) = 1

theorem mem_requestEnv_param (st : VdevState) (req : Request) (helperVars : Params)
    (isDaemonlet : Bool) {kv : CStr × CStr} (hkv : kv ∈ req.params.entries) :
    ("VDEV_OS_".toList ++ kv.1, kv.2) ∈ requestEnv st req helperVars isDaemonlet := by
  rw [requestEnv_eq]
  exact List.mem_append_left _ (List.mem_append_right _ (List.mem_map_of_mem hkv))

theorem mem_requestEnv_var (st : VdevState) (req : Request) (helperVars : Params)
    (isDaemonlet : Bool) {kv : CStr × CStr} (hkv : kv ∈ helperVars.entries) :
    ("VDEV_VAR_".toList ++ kv.1, kv.2) ∈ requestEnv st req helperVars isDaemonlet := by
  rw [requestEnv_eq]
  exact List.mem_append_right _ (List.mem_map_of_mem hkv)

theorem exists_ite_eq_some_iff (p : Prop) [Decidable p] (x : CStr) :
    (∃ v, (if p then some x else none) = some v) ↔ p := by
  by_cases hp : p
  · simp [hp]
  · simp [hp]

theorem logfileVariable_eq_some_iff (st : VdevState) (v : CStr) :
    logfileVariable st = some v ↔
      st.config.logfilePath = some v ∧ strcaseEq v "syslog".toList = false := by
  unfold logfileVariable
  cases st.config.logfilePath with
  | none => simp
  | some path =>
    dsimp only
    split_ifs with hsyslog
    · refine iff_of_false (by simp) ?_
      rintro ⟨heq, hnot⟩
      cases heq
      rw [hsyslog] at hnot
      cases hnot
    · rw [Option.some.injEq, Bool.not_eq_true] at *
      refine ⟨?_, fun h => h.1⟩
      rintro rfl
      exact ⟨rfl, hsyslog⟩

/-- The environment of a helper is complete, unambiguous and in bounds, where `helpers_dir`
is set. -/
theorem requestToEnv_complete (st : VdevState) (req : Request) (helperVars : Params)
    (isDaemonlet : Bool) (hhelpers : st.config.helpersDir ≠ none) :
    Complete st req helperVars isDaemonlet := by
  have hbound := length_requestEnv_le st req helperVars isDaemonlet
  have hnames := requestEnv_nodup st req helperVars isDaemonlet
  have hnodup : (requestEnv st req helperVars isDaemonlet).Nodup := List.Nodup.of_map _ hnames
  have hfixed : ∀ (i : ℕ) {name : CStr} {value : Option CStr},
      (fixedEntries st req isDaemonlet)[i]? = some (name, value) → ∀ v,
        (name, v) ∈ requestEnv st req helperVars isDaemonlet ↔ value = some v :=
    fun _ _ _ h => mem_requestEnv_iff st req helperVars isDaemonlet (List.mem_of_getElem? h)
  have hlength : (envStrings st req helperVars isDaemonlet).length =
      (requestEnv st req helperVars isDaemonlet).length := List.length_map _
  have hresult : requestToEnv st req helperVars isDaemonlet =
      some (envStrings st req helperVars isDaemonlet) := if_neg hhelpers
  refine ⟨hresult, hbound, ?_, hnames, ?_, ?_, ?_, ?_, ?_, ?_, ?_, ?_⟩
  · have h := writeEntries_eq (envStrings st req helperVars isDaemonlet) []
      (numVars req helperVars + 1) (by omega)
    rw [hlength, List.nil_append, hlength] at h
    rw [envArray, hresult]
    exact h
  · exact fun kv hkv => List.count_eq_one_of_mem hnodup
      (mem_requestEnv_param st req helperVars isDaemonlet hkv)
  · exact fun kv hkv => List.count_eq_one_of_mem hnodup
      (mem_requestEnv_var st req helperVars isDaemonlet hkv)
  · exact hfixed 2 rfl
  · have hmetadata := hfixed 3 rfl
    simp only [hmetadata, ← Option.isSome_iff_exists, Option.isSome_map]
    exact Option.isSome_iff_ne_none
  · have hmajor := hfixed 6 rfl
    have hminor := hfixed 7 rfl
    intro name hname
    rcases List.mem_pair.mp hname with rfl | rfl
    · simp only [hmajor]
      exact exists_ite_eq_some_iff _ _
    · simp only [hminor]
      exact exists_ite_eq_some_iff _ _
  · have hmode := hfixed 8 rfl
    simp only [hmode]
    exact exists_ite_eq_some_iff _ _
  · intro v
    rw [hfixed 10 rfl v, logfileVariable_eq_some_iff]
  · intro hkeys
    have hplain := names_plain st req helperVars isDaemonlet hkeys
    have htext : (envStrings st req helperVars isDaemonlet).map nameOf =
        (requestEnv st req helperVars isDaemonlet).map Prod.fst := by
      rw [envStrings, List.map_map]
      exact List.map_congr_left (fun e he => nameOf_makeEnvStr (hplain e he))
    have hnodup' : ((envStrings st req helperVars isDaemonlet).map nameOf).Nodup := by
      rw [htext]
      exact hnames
    refine ⟨hnodup', fun kv hkv => ?_, fun kv hkv => ?_⟩
    · exact List.count_eq_one_of_mem (List.Nodup.of_map _ hnodup')
        (List.mem_map_of_mem (mem_requestEnv_param st req helperVars isDaemonlet hkv))
    · exact List.count_eq_one_of_mem (List.Nodup.of_map _ hnodup')
        (List.mem_map_of_mem (mem_requestEnv_var st req helperVars isDaemonlet hkv))

/-- A disk without a device number and without a log file gets ten variables. -/
theorem requestToEnv_complete_disk :
    let req : Request := { type := .add, path := some "sda".toList }
    Complete bareState req Params.empty false ∧
      (requestToEnv bareState req Params.empty false).map List.length = some 10 :=
  ⟨requestToEnv_complete bareState { type := .add, path := some "sda".toList } Params.empty false
    (by decide), by decide +kernel⟩

/-- A log that goes to syslog has a path and no variable; and keys with an equals sign can give
two equal entries. -/
theorem not_every_logfile_and_key :
    let st : VdevState :=
      { bareState with config := { bareState.config with logfilePath := some "syslog".toList } }
    let params : Params :=
      ⟨[("a".toList, "b=c".toList), ("a=b".toList, "c".toList)], by decide⟩
    let req : Request := { type := .add, path := some "sda".toList, params := params }
    ¬((∃ v, ("VDEV_LOGFILE".toList, v) ∈ requestEnv st req Params.empty false) ↔
        st.config.logfilePath ≠ none) ∧
      (envStrings st req Params.empty false).count "VDEV_OS_a=b=c".toList = 2 := by
  intro st params req
  refine ⟨fun h => ?_, by decide +kernel⟩
  obtain ⟨v, hv⟩ := h.mpr (by simp [st])
  have hlog := (mem_requestEnv_iff st req Params.empty false
    (List.mem_of_getElem? (show (fixedEntries st req false)[10]? = _ from rfl)) v).mp hv
  cases hlog

end Vdev.HelperVariables
