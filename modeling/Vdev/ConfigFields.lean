import Vdev.ConfigFile

/-!
What a configuration file makes of a configuration, field by field. A path keeps the value
that it has before the file is read, and else takes the first one in the file. The levels, the
default policy and the default mode are those of the last entry. Coldplug only is switched on
by any entry, and never off.
-/
namespace Vdev.ConfigFields

open CString Parsing Ini Data ConfigFile

/-- The keys of the section `vdev-config`. -/
inductive Key
  | acls | actions | helpers | defaultPermissions | defaultPolicy | pidfile | logfile | loglevel
  | mountpoint | coldplugOnly | preseed
  deriving DecidableEq

def Key.name : Key → CStr
  | .acls => "acls".toList
  | .actions => "actions".toList
  | .helpers => "helpers".toList
  | .defaultPermissions => "default_permissions".toList
  | .defaultPolicy => "default_policy".toList
  | .pidfile => "pidfile".toList
  | .logfile => "logfile".toList
  | .loglevel => "loglevel".toList
  | .mountpoint => "mountpoint".toList
  | .coldplugOnly => "coldplug_only".toList
  | .preseed => "preseed".toList

def valueOf (key : Key) (e : Entry) : Option CStr :=
  if e.sect = "vdev-config".toList ∧ e.name = key.name then some e.value else none

def levelsOf (e : Entry) : Option (Int × Int) := (valueOf .loglevel e).bind logLevels

def modeOf (e : Entry) : Option (BitVec 32) :=
  (valueOf .defaultPermissions e).map (fun value => BitVec.ofNat 32 (strtoul 8 value).1)

def policyOf (e : Entry) : Option Int := (valueOf .defaultPolicy e).map policyNumber

def coldplugEntry (e : Entry) : Bool :=
  (((valueOf .coldplugOnly e).bind parseUint64).map (· != 0)).getD false

def osParams (e : Entry) (params : Params) : Params :=
  if e.sect = "vdev-OS".toList then
    match params.add e.name e.value with
    | .ok params => params
    | .error _ => params
  else params

def firstValue (key : Key) (es : List Entry) : Option CStr := es.findSome? (valueOf key)

def lastOf {α : Type} (f : Entry → Option α) (es : List Entry) : Option α := es.reverse.findSome? f

def withEntries (es : List Entry) (conf : FileConfig) : FileConfig where
  configPath := conf.configPath
  preseedPath := conf.preseedPath.or (firstValue .preseed es)
  aclsDir := conf.aclsDir.or (firstValue .acls es)
  actsDir := conf.actsDir.or (firstValue .actions es)
  helpersDir := conf.helpersDir.or (firstValue .helpers es)
  defaultPolicy := (lastOf policyOf es).getD conf.defaultPolicy
  debugLevel := ((lastOf levelsOf es).map Prod.fst).getD conf.debugLevel
  errorLevel := ((lastOf levelsOf es).map Prod.snd).getD conf.errorLevel
  pidfilePath := conf.pidfilePath.or (firstValue .pidfile es)
  logfilePath := conf.logfilePath.or (firstValue .logfile es)
  mountpoint := conf.mountpoint.or (firstValue .mountpoint es)
  coldplugOnly := conf.coldplugOnly || es.any coldplugEntry
  osConfig := es.foldl (fun params e => osParams e params) conf.osConfig
  defaultMode := (lastOf modeOf es).getD conf.defaultMode

theorem firstValue_cons (key : Key) (e : Entry) (es : List Entry) :
    firstValue key (e :: es) = (valueOf key e).or (firstValue key es) := by
  unfold firstValue
  rw [List.findSome?_cons]
  cases valueOf key e <;> rfl

theorem lastOf_cons {α : Type} (f : Entry → Option α) (e : Entry) (es : List Entry) :
    lastOf f (e :: es) = (lastOf f es).or (f e) := by
  unfold lastOf
  rw [List.reverse_cons, List.findSome?_append]
  simp

theorem getD_or {α : Type} (x y : Option α) (d : α) : (x.or y).getD d = x.getD (y.getD d) := by
  cases x <;> rfl

theorem map_or {α β : Type} (f : α → β) (x y : Option α) :
    (x.or y).map f = (x.map f).or (y.map f) := by
  cases x <;> rfl

theorem withEntries_nil (conf : FileConfig) : withEntries [] conf = conf := by
  simp [withEntries, firstValue, lastOf]

theorem withEntries_cons (e : Entry) (es : List Entry) (conf : FileConfig) :
    withEntries (e :: es) conf = withEntries es (withEntries [e] conf) := by
  have hfirst : ∀ key, firstValue key [e] = valueOf key e := by
    intro key
    rw [firstValue_cons]
    cases valueOf key e <;> rfl
  have hlast : ∀ {α : Type} (f : Entry → Option α), lastOf f [e] = f e := by
    intro α f
    rw [lastOf_cons]
    rfl
  simp only [withEntries, firstValue_cons, hfirst, lastOf_cons, hlast, getD_or, map_or,
    Option.or_assoc, List.any_cons, List.any_nil, Bool.or_false, Bool.or_assoc, List.foldl_cons,
    List.foldl_nil]

theorem firstValue_singleton (key : Key) (e : Entry) : firstValue key [e] = valueOf key e := by
  rw [firstValue_cons]
  cases valueOf key e <;> rfl

theorem lastOf_singleton {α : Type} (f : Entry → Option α) (e : Entry) : lastOf f [e] = f e := by
  rw [lastOf_cons]
  rfl

def keys : List Key :=
  [.acls, .actions, .helpers, .defaultPermissions, .defaultPolicy, .pidfile, .logfile, .loglevel,
    .mountpoint, .coldplugOnly, .preseed]

theorem Key.name_injective (a b : Key) (h : a.name = b.name) : a = b := by
  have hnodup : (keys.map Key.name).Nodup := by decide +kernel
  have hmem : ∀ k : Key, k ∈ keys := by
    intro k
    cases k <;> simp [keys]
  exact List.inj_on_of_nodup_map hnodup (hmem a) (hmem b) h

theorem valueOf_eq {e : Entry} {k : Key} (hsect : e.sect = "vdev-config".toList)
    (hname : e.name = k.name) (key : Key) : valueOf key e = if k = key then some e.value else none := by
  unfold valueOf
  by_cases h : k = key
  · rw [if_pos h, if_pos ⟨hsect, h ▸ hname⟩]
  · rw [if_neg h, if_neg]
    intro hboth
    exact h (Key.name_injective k key (hname.symm.trans hboth.2))

def setKey (e : Entry) (conf : FileConfig) : Key → FileConfig
  | .acls => { conf with aclsDir := conf.aclsDir.or (some e.value) }
  | .actions => { conf with actsDir := conf.actsDir.or (some e.value) }
  | .helpers => { conf with helpersDir := conf.helpersDir.or (some e.value) }
  | .defaultPermissions => { conf with defaultMode := BitVec.ofNat 32 (strtoul 8 e.value).1 }
  | .defaultPolicy => { conf with defaultPolicy := policyNumber e.value }
  | .pidfile => { conf with pidfilePath := conf.pidfilePath.or (some e.value) }
  | .logfile => { conf with logfilePath := conf.logfilePath.or (some e.value) }
  | .loglevel =>
    { conf with
      debugLevel := ((logLevels e.value).map Prod.fst).getD conf.debugLevel
      errorLevel := ((logLevels e.value).map Prod.snd).getD conf.errorLevel }
  | .mountpoint => { conf with mountpoint := conf.mountpoint.or (some e.value) }
  | .coldplugOnly =>
    { conf with
      coldplugOnly := conf.coldplugOnly || ((parseUint64 e.value).map (· != 0)).getD false }
  | .preseed => { conf with preseedPath := conf.preseedPath.or (some e.value) }

theorem withEntries_key {e : Entry} {k : Key} (hsect : e.sect = "vdev-config".toList)
    (hname : e.name = k.name) (conf : FileConfig) : withEntries [e] conf = setKey e conf k := by
  have hval := valueOf_eq hsect hname
  have hos : osParams e conf.osConfig = conf.osConfig := by
    unfold osParams
    rw [hsect, if_neg (by decide)]
  cases k <;>
    simp only [withEntries, setKey, firstValue_singleton, lastOf_singleton, levelsOf, modeOf,
      policyOf, coldplugEntry, hval, hos, reduceCtorEq, if_true, if_false, Option.or_none,
      Option.bind_none, Option.bind_some, Option.map_none, Option.map_some, Option.getD_none,
      Option.getD_some, List.any_cons, List.any_nil, Bool.or_false, List.foldl_cons, List.foldl_nil]

theorem withEntries_other {e : Entry} (h : ∀ k, valueOf k e = none) (conf : FileConfig) :
    withEntries [e] conf = { conf with osConfig := osParams e conf.osConfig } := by
  simp only [withEntries, firstValue_singleton, lastOf_singleton, levelsOf, modeOf, policyOf,
    coldplugEntry, h, Option.or_none, Option.bind_none, Option.map_none, Option.getD_none,
    List.any_cons, List.any_nil, Bool.or_false, List.foldl_cons, List.foldl_nil]

theorem saved_eq (old : Option CStr) (value : CStr) : saved old value = old.or (some value) := by
  cases old <;> rfl

/-- An accepted entry makes of a configuration what it says. -/
theorem configIniParser_eq (e : Entry) (conf : FileConfig) :
    Ensures (· = withEntries [e] conf) (configIniParser e conf) := by
  have hkey : ∀ (k : Key) {conf' : FileConfig}, e.sect = "vdev-config".toList →
      e.name = k.name → conf' = setKey e conf k →
      Ensures (· = withEntries [e] conf) (some conf') := by
    intro k conf' hsect hname hconf
    exact Ensures.some (hconf.trans (withEntries_key hsect hname conf).symm)
  unfold configIniParser
  simp only [saved_eq]
  refine Ensures.ite (fun hsect => ?_) (fun hsect => ?_)
  · refine Ensures.ite (fun hname => hkey .acls hsect hname rfl) (fun h₁ => ?_)
    refine Ensures.ite (fun hname => hkey .actions hsect hname rfl) (fun h₂ => ?_)
    refine Ensures.ite (fun hname => hkey .helpers hsect hname rfl) (fun h₃ => ?_)
    refine Ensures.ite (fun hname => Ensures.ite (fun _ => Ensures.none)
      (fun _ => hkey .defaultPermissions hsect hname rfl)) (fun h₄ => ?_)
    refine Ensures.ite (fun hname => hkey .defaultPolicy hsect hname rfl) (fun h₅ => ?_)
    refine Ensures.ite (fun hname => hkey .pidfile hsect hname rfl) (fun h₆ => ?_)
    refine Ensures.ite (fun hname => hkey .logfile hsect hname rfl) (fun h₇ => ?_)
    refine Ensures.ite (fun hname => Ensures.map _ _ (fun levels hlevels => ?_)) (fun h₈ => ?_)
    · rw [withEntries_key (k := .loglevel) hsect hname, setKey, hlevels]
      rfl
    refine Ensures.ite (fun hname => hkey .mountpoint hsect hname rfl) (fun h₉ => ?_)
    refine Ensures.ite (fun hname => ?_) (fun h₁₀ => ?_)
    · rw [withEntries_key (k := .coldplugOnly) hsect hname, setKey, coldplugKey, hname]
      refine Ensures.ite (fun h => absurd h (by decide)) (fun _ => ?_)
      refine Ensures.ite (fun h => absurd h (by decide)) (fun _ => ?_)
      refine Ensures.ite (fun hoff => Ensures.map _ _ (fun n hn => ?_)) (fun hon => Ensures.some ?_)
      · rw [hn]
        simp only [Bool.not_eq_true'] at hoff
        simp [hoff]
      · have hkeep : ∀ b, (conf.coldplugOnly || b) = conf.coldplugOnly := by
          intro b
          simp only [Bool.not_eq_true', Bool.not_eq_false] at hon
          rw [hon, Bool.true_or]
        rw [hkeep]
    refine Ensures.ite (fun hname => hkey .preseed hsect hname rfl) (fun h₁₁ => Ensures.some ?_)
    have hname : ∀ k : Key, e.name ≠ k.name := by
      intro k
      cases k with
      | acls => exact h₁
      | actions => exact h₂
      | helpers => exact h₃
      | defaultPermissions => exact h₄
      | defaultPolicy => exact h₅
      | pidfile => exact h₆
      | logfile => exact h₇
      | loglevel => exact h₈
      | mountpoint => exact h₉
      | coldplugOnly => exact h₁₀
      | preseed => exact h₁₁
    have hnone : ∀ k, valueOf k e = none := fun k => if_neg (fun h => hname k h.2)
    have hos : osParams e conf.osConfig = conf.osConfig := by
      unfold osParams
      rw [hsect, if_neg (by decide)]
    rw [withEntries_other hnone, hos]
  · have hnone : ∀ k, valueOf k e = none := fun k => if_neg (fun h => hsect h.1)
    rw [withEntries_other hnone]
    unfold osParams
    refine Ensures.ite (fun hos => ?_) (fun hos => Ensures.some ?_)
    · rw [if_pos hos]
      cases hadd : conf.osConfig.add e.name e.value with
      | error _ => exact Ensures.none
      | ok params => exact Ensures.some rfl
    · rw [if_neg hos]

/-- What the parser makes of a file depends on the file through its entries. -/
theorem iniParseFile_eq {file : CStr} {es : List Entry} (hes : entries file = some es)
    {conf conf' : FileConfig} (h : iniParseFile configIniParser file conf = .ok conf') :
    conf' = withEntries es conf := by
  obtain ⟨es', hes', hfold⟩ := (iniParseFile_eq_ok _ file conf conf').mp h
  cases hes.symm.trans hes'
  clear hes hes' h
  induction es generalizing conf with
  | nil =>
    cases hfold
    exact (withEntries_nil _).symm
  | cons e es ih =>
    rw [List.foldlM_cons] at hfold
    obtain ⟨next, hnext, hrest⟩ := Option.bind_eq_some_iff.mp hfold
    rw [ih hrest, configIniParser_eq e conf next hnext]
    exact (withEntries_cons e es _).symm

end Vdev.ConfigFields
