import Vdev.ActionFile
import Vdev.ConfigFields

/-!
What the entries of an action file make of an action, field by field. The parser accepts a
file when each entry accepts its value, and when no parameter is given twice. The path, the
commands, the event and the other fields are then those of the last entry for them, and each
path has been compiled.
-/
namespace Vdev.ActionFields

open CString Data Ini ActionFile

/-- The keys of the section `vdev-action`, without the parameters. -/
inductive Key
  | path | renameCommand | event | command | helper | async | type | ifExists | daemonlet
  deriving DecidableEq

def Key.name : Key → CStr
  | .path => "path".toList
  | .renameCommand => "rename_command".toList
  | .event => "event".toList
  | .command => "command".toList
  | .helper => "helper".toList
  | .async => "async".toList
  | .type => "type".toList
  | .ifExists => "if_exists".toList
  | .daemonlet => "daemonlet".toList

def Key.Takes (regcomp : CStr → Int) : Key → CStr → Prop
  | .path, value => regcomp value = 0
  | .event, value => parseTrigger value ≠ .invalid
  | .async, value => asyncValue value ≠ none
  | .ifExists, value => ifExistsValue value ≠ none
  | _, _ => True

def valueOf (key : Key) (e : Entry) : Option CStr :=
  if e.name = key.name then some e.value else none

def lastValue (key : Key) (es : List Entry) : Option CStr := ConfigFields.lastOf (valueOf key) es

/-- The parameter that an entry gives, for a prefix of the names of such entries. -/
def paramOf (pre : CStr) (e : Entry) : Option (CStr × CStr) :=
  if pre <+: e.name then some (e.name.drop pre.length, e.value) else none

def keysOf (pre : CStr) (es : List Entry) : List CStr := (es.filterMap (paramOf pre)).map Prod.fst

def withParam (pre : CStr) (e : Entry) (params : Params) : Params :=
  match paramOf pre e with
  | none => params
  | some (key, value) =>
    match params.add key value with
    | .error _ => params
    | .ok params => params

def withEntry (act : FileAction) (e : Entry) : FileAction :=
  { act with
    trigger := ((valueOf .event e).map parseTrigger).getD act.trigger
    path := (valueOf .path e).or act.path
    hasType := (valueOf .type e).isSome || act.hasType
    type := (valueOf .type e).getD act.type
    renameCommand := (valueOf .renameCommand e).or act.renameCommand
    command := (valueOf .command e).or act.command
    helper := (valueOf .helper e).or act.helper
    devParams := withParam osPrefix e act.devParams
    helperVars := withParam varPrefix e act.helperVars
    async := ((valueOf .async e).bind asyncValue).getD act.async
    ifExists := ((valueOf .ifExists e).bind ifExistsValue).getD act.ifExists
    isDaemonlet := (valueOf .daemonlet e).any (strcaseEq · "true".toList) || act.isDaemonlet }

def setKey (e : Entry) (act : FileAction) : Key → FileAction
  | .path => { act with path := some e.value }
  | .renameCommand => { act with renameCommand := some e.value }
  | .event => { act with trigger := parseTrigger e.value }
  | .command => { act with command := some e.value }
  | .helper => { act with helper := some e.value }
  | .async => { act with async := (asyncValue e.value).getD act.async }
  | .type => { act with hasType := true, type := e.value }
  | .ifExists => { act with ifExists := (ifExistsValue e.value).getD act.ifExists }
  | .daemonlet => { act with isDaemonlet := strcaseEq e.value "true".toList || act.isDaemonlet }

/-- An entry that is accepted, unless its parameter was given before. -/
inductive Acceptable (regcomp : CStr → Int) (e : Entry) : Prop
  | key (k : Key) (hname : e.name = k.name) (hvalue : k.Takes regcomp e.value)
  | os (hname : osPrefix <+: e.name)
  | var (hname : varPrefix <+: e.name)

structure WellFormed (regcomp : CStr → Int) (es : List Entry) : Prop where
  sect : ∀ e ∈ es, e.sect = "vdev-action".toList
  acceptable : ∀ e ∈ es, Acceptable regcomp e
  osKeys : (keysOf osPrefix es).Nodup
  varKeys : (keysOf varPrefix es).Nodup

variable {regcomp : CStr → Int}

def keys : List Key :=
  [.path, .renameCommand, .event, .command, .helper, .async, .type, .ifExists, .daemonlet]

theorem mem_keys (k : Key) : k ∈ keys := by
  cases k <;> simp [keys]

theorem Key.name_injective (a b : Key) (h : a.name = b.name) : a = b := by
  have hnodup : (keys.map Key.name).Nodup := by decide +kernel
  exact List.inj_on_of_nodup_map hnodup (mem_keys a) (mem_keys b) h

theorem valueOf_eq {e : Entry} {k : Key} (hname : e.name = k.name) (key : Key) :
    valueOf key e = if k = key then some e.value else none := by
  unfold valueOf
  by_cases h : k = key
  · rw [if_pos h, if_pos (h ▸ hname)]
  · rw [if_neg h, if_neg]
    intro heq
    exact h (Key.name_injective k key (hname.symm.trans heq))

/-- No key starts like a parameter. -/
theorem Key.not_prefix (k : Key) : ¬osPrefix <+: k.name ∧ ¬varPrefix <+: k.name := by
  cases k <;> decide +kernel

theorem not_both_prefixes {name : CStr} (hos : osPrefix <+: name) : ¬varPrefix <+: name := by
  obtain ⟨rest, rfl⟩ := hos
  rintro ⟨rest', h⟩
  exact absurd (List.cons.inj h).1 (by decide)

theorem withParam_of_not_prefix {pre : CStr} {e : Entry} (h : ¬pre <+: e.name) (params : Params) :
    withParam pre e params = params := by
  have hparam : paramOf pre e = none := if_neg h
  rw [withParam, hparam]

theorem withEntry_key {e : Entry} {k : Key} (hname : e.name = k.name) (act : FileAction) :
    withEntry act e = setKey e act k := by
  have hval := valueOf_eq hname
  obtain ⟨hos, hvar⟩ := k.not_prefix
  rw [← hname] at hos hvar
  cases k <;>
    simp only [withEntry, setKey, hval, withParam_of_not_prefix hos, withParam_of_not_prefix hvar,
      reduceCtorEq, if_true, if_false, Option.none_or, Option.some_or, Option.map_none,
      Option.map_some, Option.bind_none, Option.bind_some, Option.getD_none, Option.getD_some,
      Option.isSome_none, Option.isSome_some, Option.any_none, Option.any_some, Bool.false_or,
      Bool.true_or]

theorem withEntry_param {e : Entry} (hname : ∀ k : Key, e.name ≠ k.name) (act : FileAction) :
    withEntry act e =
      { act with
        devParams := withParam osPrefix e act.devParams
        helperVars := withParam varPrefix e act.helperVars } := by
  have hval : ∀ k, valueOf k e = none := fun k => if_neg (hname k)
  simp only [withEntry, hval, Option.none_or, Option.map_none, Option.bind_none, Option.getD_none,
    Option.isSome_none, Option.any_none, Bool.false_or]

def Fresh (pre : CStr) (e : Entry) (params : Params) : Prop :=
  ∀ x, paramOf pre e = some x → x.1 ∉ params.entries.map Prod.fst

theorem fresh_of_not_prefix {pre : CStr} {e : Entry} (h : ¬pre <+: e.name) (params : Params) :
    Fresh pre e params := by
  intro x hx
  rw [paramOf, if_neg h] at hx
  cases hx

theorem taken_iff {takes : Prop} (h : takes) {act' new : FileAction} :
    some new = some act' ↔ takes ∧ act' = new := by
  rw [Option.some_inj, eq_comm, and_iff_right h]

theorem refused_iff {takes : Prop} (h : ¬takes) {act' new : FileAction} :
    none = some act' ↔ takes ∧ act' = new :=
  iff_of_false nofun (fun hact => h hact.1)

theorem actionIniParser_key {e : Entry} {k : Key} (hsect : e.sect = "vdev-action".toList)
    (hname : e.name = k.name) (act act' : FileAction) :
    actionIniParser regcomp e act = some act' ↔
      k.Takes regcomp e.value ∧ act' = setKey e act k := by
  have hne : ∀ key, k ≠ key → e.name ≠ key.name := fun key hk heq =>
    hk (Key.name_injective k key (hname.symm.trans heq))
  have hpath : k ≠ .path → ¬e.name = "path".toList := hne .path
  have hrename : k ≠ .renameCommand → ¬e.name = "rename_command".toList := hne .renameCommand
  have hevent : k ≠ .event → ¬e.name = "event".toList := hne .event
  have hcommand : k ≠ .command → ¬e.name = "command".toList := hne .command
  have hhelper : k ≠ .helper → ¬e.name = "helper".toList := hne .helper
  have hasync : k ≠ .async → ¬e.name = "async".toList := hne .async
  have htype : k ≠ .type → ¬e.name = "type".toList := hne .type
  have hexists : k ≠ .ifExists → ¬e.name = "if_exists".toList := hne .ifExists
  unfold actionIniParser
  rw [if_neg (not_not.mpr hsect)]
  cases k with
  | path =>
    replace hname : e.name = "path".toList := hname
    rw [if_pos hname]
    by_cases hcomp : regcomp e.value = 0
    · rw [if_neg (not_not.mpr hcomp)]
      exact taken_iff hcomp
    · rw [if_pos hcomp]
      exact refused_iff hcomp
  | renameCommand =>
    replace hname : e.name = "rename_command".toList := hname
    rw [if_neg (hpath nofun), if_pos hname]
    exact taken_iff trivial
  | event =>
    replace hname : e.name = "event".toList := hname
    rw [if_neg (hpath nofun), if_neg (hrename nofun), if_pos hname]
    by_cases hparse : parseTrigger e.value = .invalid
    · rw [if_pos hparse]
      exact refused_iff (not_not.mpr hparse)
    · rw [if_neg hparse]
      exact taken_iff hparse
  | command =>
    replace hname : e.name = "command".toList := hname
    rw [if_neg (hpath nofun), if_neg (hrename nofun), if_neg (hevent nofun), if_pos hname]
    exact taken_iff trivial
  | helper =>
    replace hname : e.name = "helper".toList := hname
    rw [if_neg (hpath nofun), if_neg (hrename nofun), if_neg (hevent nofun),
      if_neg (hcommand nofun), if_pos hname]
    exact taken_iff trivial
  | async =>
    replace hname : e.name = "async".toList := hname
    rw [if_neg (hpath nofun), if_neg (hrename nofun), if_neg (hevent nofun),
      if_neg (hcommand nofun), if_neg (hhelper nofun), if_pos hname]
    cases hval : asyncValue e.value with
    | none => exact refused_iff (not_not.mpr hval)
    | some async =>
      rw [setKey, hval]
      exact taken_iff (hval.trans_ne (Option.some_ne_none async))
  | type =>
    replace hname : e.name = "type".toList := hname
    rw [if_neg (hpath nofun), if_neg (hrename nofun), if_neg (hevent nofun),
      if_neg (hcommand nofun), if_neg (hhelper nofun), if_neg (hasync nofun), if_pos hname]
    exact taken_iff trivial
  | ifExists =>
    replace hname : e.name = "if_exists".toList := hname
    rw [if_neg (hpath nofun), if_neg (hrename nofun), if_neg (hevent nofun),
      if_neg (hcommand nofun), if_neg (hhelper nofun), if_neg (hasync nofun),
      if_neg (htype nofun), if_pos hname]
    cases hval : ifExistsValue e.value with
    | none => exact refused_iff (not_not.mpr hval)
    | some ifExists =>
      rw [setKey, hval]
      exact taken_iff (hval.trans_ne (Option.some_ne_none ifExists))
  | daemonlet =>
    replace hname : e.name = "daemonlet".toList := hname
    rw [if_neg (hpath nofun), if_neg (hrename nofun), if_neg (hevent nofun),
      if_neg (hcommand nofun), if_neg (hhelper nofun), if_neg (hasync nofun),
      if_neg (htype nofun), if_neg (hexists nofun), if_pos hname, setKey]
    by_cases hon : strcaseEq e.value "true".toList
    · rw [if_pos hon, hon, Bool.true_or]
      exact taken_iff trivial
    · rw [if_neg hon, Bool.eq_false_of_not_eq_true hon, Bool.false_or]
      exact taken_iff trivial

/-- An entry that no key names is a parameter, or is not accepted. -/
theorem actionIniParser_param {e : Entry} (hsect : e.sect = "vdev-action".toList)
    (hname : ∀ k : Key, e.name ≠ k.name) (act : FileAction) :
    actionIniParser regcomp e act =
      if osPrefix.isPrefixOf e.name then
        (act.devParams.add (e.name.drop osPrefix.length) e.value).toOption.map
          (fun params => { act with devParams := params })
      else if varPrefix.isPrefixOf e.name then
        (act.helperVars.add (e.name.drop varPrefix.length) e.value).toOption.map
          (fun vars => { act with helperVars := vars })
      else none := by
  have hpath : ¬e.name = "path".toList := hname .path
  have hrename : ¬e.name = "rename_command".toList := hname .renameCommand
  have hevent : ¬e.name = "event".toList := hname .event
  have hcommand : ¬e.name = "command".toList := hname .command
  have hhelper : ¬e.name = "helper".toList := hname .helper
  have hasync : ¬e.name = "async".toList := hname .async
  have htype : ¬e.name = "type".toList := hname .type
  have hexists : ¬e.name = "if_exists".toList := hname .ifExists
  have hdaemonlet : ¬e.name = "daemonlet".toList := hname .daemonlet
  unfold actionIniParser
  rw [if_neg (not_not.mpr hsect), if_neg hpath, if_neg hrename, if_neg hevent, if_neg hcommand,
    if_neg hhelper, if_neg hasync, if_neg htype, if_neg hexists, if_neg hdaemonlet]
  cases act.devParams.add (e.name.drop osPrefix.length) e.value <;>
    cases act.helperVars.add (e.name.drop varPrefix.length) e.value <;> rfl

/-- A parameter is added when it is new. -/
theorem add_eq {pre : CStr} {e : Entry} (hname : pre <+: e.name) {params : Params}
    (hfresh : Fresh pre e params) :
    params.add (e.name.drop pre.length) e.value = .ok (withParam pre e params) := by
  have hparam : paramOf pre e = some (e.name.drop pre.length, e.value) := if_pos hname
  obtain ⟨q, hq, -⟩ := Params.add_of_new params (e.name.drop pre.length) e.value (hfresh _ hparam)
  rw [withParam, hparam]
  dsimp only
  rw [hq]

theorem add_old {pre : CStr} {e : Entry} (hname : pre <+: e.name) {params : Params}
    (hold : ¬Fresh pre e params) :
    params.add (e.name.drop pre.length) e.value = .error .eexist := by
  apply Params.add_of_mem
  by_contra hnot
  apply hold
  intro x hx
  rw [paramOf, if_pos hname] at hx
  cases hx
  exact hnot

/-- What one entry does. -/
theorem actionIniParser_eq_some_iff (e : Entry) (act act' : FileAction) :
    actionIniParser regcomp e act = some act' ↔
      e.sect = "vdev-action".toList ∧ Acceptable regcomp e ∧ Fresh osPrefix e act.devParams ∧
        Fresh varPrefix e act.helperVars ∧ act' = withEntry act e := by
  by_cases hsect : e.sect = "vdev-action".toList
  swap
  · unfold actionIniParser
    rw [if_pos hsect]
    exact iff_of_false nofun (fun h => hsect h.1)
  by_cases hname : ∃ k : Key, e.name = k.name
  · obtain ⟨k, hk⟩ := hname
    obtain ⟨hos, hvar⟩ := k.not_prefix
    rw [← hk] at hos hvar
    rw [actionIniParser_key hsect hk, ← withEntry_key hk]
    constructor
    · rintro ⟨htakes, hact⟩
      exact ⟨hsect, .key k hk htakes, fresh_of_not_prefix hos _, fresh_of_not_prefix hvar _, hact⟩
    · rintro ⟨-, haccept, -, -, hact⟩
      refine ⟨?_, hact⟩
      cases haccept with
      | key k' hk' htakes => exact Key.name_injective k' k (hk'.symm.trans hk) ▸ htakes
      | os h => exact absurd h hos
      | var h => exact absurd h hvar
  have hkeys : ∀ k : Key, e.name ≠ k.name := fun k hk => hname ⟨k, hk⟩
  rw [actionIniParser_param hsect hkeys, withEntry_param hkeys]
  have hsome : ∀ {new : FileAction}, some new = some act' ↔ act' = new := by
    intro new
    rw [Option.some_inj, eq_comm]
  by_cases hos : osPrefix <+: e.name
  · have hvar := not_both_prefixes hos
    rw [if_pos (List.isPrefixOf_iff_prefix.mpr hos), withParam_of_not_prefix hvar]
    by_cases hfresh : Fresh osPrefix e act.devParams
    · rw [add_eq hos hfresh]
      exact hsome.trans ⟨fun h => ⟨hsect, .os hos, hfresh, fresh_of_not_prefix hvar _, h⟩,
        fun h => h.2.2.2.2⟩
    · rw [add_old hos hfresh]
      exact iff_of_false nofun (fun h => hfresh h.2.2.1)
  · rw [if_neg (fun h => hos (List.isPrefixOf_iff_prefix.mp h)), withParam_of_not_prefix hos]
    by_cases hvar : varPrefix <+: e.name
    · rw [if_pos (List.isPrefixOf_iff_prefix.mpr hvar)]
      by_cases hfresh : Fresh varPrefix e act.helperVars
      · rw [add_eq hvar hfresh]
        exact hsome.trans ⟨fun h => ⟨hsect, .var hvar, fresh_of_not_prefix hos _, hfresh, h⟩,
          fun h => h.2.2.2.2⟩
      · rw [add_old hvar hfresh]
        exact iff_of_false nofun (fun h => hfresh h.2.2.2.1)
    · rw [if_neg (fun h => hvar (List.isPrefixOf_iff_prefix.mp h))]
      refine iff_of_false nofun (fun h => ?_)
      cases h.2.1 with
      | key k hk => exact hkeys k hk
      | os h => exact hos h
      | var h => exact hvar h

def NewKeys (pre : CStr) (es : List Entry) (params : Params) : Prop :=
  (keysOf pre es).Nodup ∧ ∀ key ∈ keysOf pre es, key ∉ params.entries.map Prod.fst

theorem newKeys_cons (pre : CStr) (e : Entry) (es : List Entry) (params : Params) :
    NewKeys pre (e :: es) params ↔
      Fresh pre e params ∧ NewKeys pre es (withParam pre e params) := by
  cases hparam : paramOf pre e with
  | none =>
    have hkeys : keysOf pre (e :: es) = keysOf pre es := by
      rw [keysOf, List.filterMap_cons_none hparam, keysOf]
    have hfresh : Fresh pre e params := fun x hx => nomatch hparam.symm.trans hx
    rw [NewKeys, NewKeys, hkeys, withParam, hparam]
    exact (and_iff_right hfresh).symm
  | some x =>
    obtain ⟨key, value⟩ := x
    have hkeys : keysOf pre (e :: es) = key :: keysOf pre es := by
      rw [keysOf, List.filterMap_cons_some hparam, List.map_cons, keysOf]
    by_cases hnew : key ∈ params.entries.map Prod.fst
    · refine iff_of_false (fun h => ?_) (fun h => h.1 _ hparam hnew)
      exact h.2 key (hkeys ▸ List.mem_cons_self) hnew
    · have hfresh : Fresh pre e params := by
        intro x hx
        cases hparam.symm.trans hx
        exact hnew
      obtain ⟨q, hq, hmem⟩ := Params.add_of_new params key value hnew
      have hwith : withParam pre e params = q := by
        rw [withParam, hparam]
        dsimp only
        rw [hq]
      have hq := Params.mem_keys_of_add hmem
      rw [NewKeys, NewKeys, hkeys, hwith, List.nodup_cons, List.forall_mem_cons]
      constructor
      · rintro ⟨⟨hnot, hnodup⟩, -, hold⟩
        refine ⟨hfresh, hnodup, fun k hk hmem => ?_⟩
        rcases (hq k).mp hmem with rfl | hmem
        · exact hnot hk
        · exact hold k hk hmem
      · rintro ⟨-, hnodup, hold⟩
        refine ⟨⟨fun hk => hold key hk ((hq key).mpr (Or.inl rfl)), hnodup⟩, hnew,
          fun k hk hmem => ?_⟩
        exact hold k hk ((hq k).mpr (Or.inr hmem))

/-- The parser over the entries of a file. -/
theorem foldlM_eq_some_iff (es : List Entry) (act act' : FileAction) :
    es.foldlM (fun act e => actionIniParser regcomp e act) act = some act' ↔
      (∀ e ∈ es, e.sect = "vdev-action".toList ∧ Acceptable regcomp e) ∧
        NewKeys osPrefix es act.devParams ∧ NewKeys varPrefix es act.helperVars ∧
        act' = es.foldl withEntry act := by
  induction es generalizing act with
  | nil =>
    have hnil : ∀ pre params, NewKeys pre [] params := fun pre params =>
      ⟨List.nodup_nil, fun key hkey => nomatch hkey⟩
    rw [List.foldlM_nil, List.foldl_nil]
    constructor
    · intro h
      exact ⟨fun e he => (nomatch he), hnil _ _, hnil _ _, (Option.some.inj h).symm⟩
    · rintro ⟨-, -, -, rfl⟩
      rfl
  | cons e es ih =>
    rw [List.foldlM_cons, List.forall_mem_cons, newKeys_cons, newKeys_cons, List.foldl_cons]
    constructor
    · intro h
      obtain ⟨next, hnext, hrest⟩ := Option.bind_eq_some_iff.mp h
      obtain ⟨hsect, haccept, hos, hvar, rfl⟩ := (actionIniParser_eq_some_iff e act next).mp hnext
      obtain ⟨hall, hoss, hvars, hact⟩ := (ih _).mp hrest
      exact ⟨⟨⟨hsect, haccept⟩, hall⟩, ⟨hos, hoss⟩, ⟨hvar, hvars⟩, hact⟩
    · rintro ⟨⟨⟨hsect, haccept⟩, hall⟩, ⟨hos, hoss⟩, ⟨hvar, hvars⟩, hact⟩
      have hnext := (actionIniParser_eq_some_iff e act _).mpr ⟨hsect, haccept, hos, hvar, rfl⟩
      exact Option.bind_eq_some_iff.mpr ⟨_, hnext, (ih _).mpr ⟨hall, hoss, hvars, hact⟩⟩

/-- The parser succeeds on the files whose entries are well-formed, and on no others. -/
theorem iniParseFile_eq_ok_iff (file : CStr) (act : FileAction) :
    iniParseFile (actionIniParser regcomp) file actionInit = .ok act ↔
      ∃ es, entries file = some es ∧ WellFormed regcomp es ∧
        act = es.foldl withEntry actionInit := by
  have hnew : ∀ pre es, NewKeys pre es Params.empty ↔ (keysOf pre es).Nodup := fun pre es =>
    and_iff_left (fun _ _ hmem => nomatch hmem)
  rw [iniParseFile_eq_ok]
  refine exists_congr (fun es => and_congr_right (fun _ => ?_))
  rw [foldlM_eq_some_iff]
  constructor
  · rintro ⟨hall, hos, hvar, hact⟩
    exact ⟨⟨fun e he => (hall e he).1, fun e he => (hall e he).2, (hnew _ _).mp hos,
      (hnew _ _).mp hvar⟩, hact⟩
  · rintro ⟨hwell, hact⟩
    exact ⟨fun e he => ⟨hwell.sect e he, hwell.acceptable e he⟩, (hnew _ _).mpr hwell.osKeys,
      (hnew _ _).mpr hwell.varKeys, hact⟩

theorem lastValue_cons (key : Key) (e : Entry) (es : List Entry) :
    lastValue key (e :: es) = (lastValue key es).or (valueOf key e) :=
  ConfigFields.lastOf_cons (valueOf key) e es

/-- A field that each entry for a key sets is set by the last one. -/
theorem foldl_withEntry {β : Type} (field : FileAction → β) (key : Key) (f : CStr → β)
    (hstep : ∀ act e, field (withEntry act e) = ((valueOf key e).map f).getD (field act))
    (es : List Entry) (act : FileAction) :
    field (es.foldl withEntry act) = ((lastValue key es).map f).getD (field act) := by
  induction es generalizing act with
  | nil => rfl
  | cons e es ih =>
    rw [List.foldl_cons, ih, hstep, lastValue_cons, ConfigFields.map_or, ConfigFields.getD_or]

theorem getD_map_some (x y : Option CStr) : (x.map some).getD y = x.or y := by
  cases x <;> rfl

/-- The fields of the action that a file makes. -/
theorem parsed_fields (es : List Entry) :
    (es.foldl withEntry actionInit).path = lastValue .path es ∧
      (es.foldl withEntry actionInit).renameCommand = lastValue .renameCommand es ∧
      (es.foldl withEntry actionInit).command = lastValue .command es ∧
      (es.foldl withEntry actionInit).helper = lastValue .helper es ∧
      (es.foldl withEntry actionInit).trigger =
        ((lastValue .event es).map parseTrigger).getD .invalid := by
  have hfield : ∀ (field : FileAction → Option CStr) (key : Key), field actionInit = none →
      (∀ act e, field (withEntry act e) = (valueOf key e).or (field act)) →
      field (es.foldl withEntry actionInit) = lastValue key es := by
    intro field key hinit hstep
    rw [foldl_withEntry field key some, hinit, getD_map_some, Option.or_none]
    intro act e
    rw [hstep, getD_map_some]
  exact ⟨hfield (fun act => act.path) .path rfl (fun _ _ => rfl),
    hfield (fun act => act.renameCommand) .renameCommand rfl (fun _ _ => rfl),
    hfield (fun act => act.command) .command rfl (fun _ _ => rfl),
    hfield (fun act => act.helper) .helper rfl (fun _ _ => rfl),
    foldl_withEntry (fun act => act.trigger) .event parseTrigger (fun _ _ => rfl) es actionInit⟩

/-- The last value for a key is one that the key takes. -/
theorem WellFormed.takes {es : List Entry} (h : WellFormed regcomp es) {key : Key} {value : CStr}
    (hlast : lastValue key es = some value) : key.Takes regcomp value := by
  obtain ⟨e, he, hval⟩ := List.exists_of_findSome?_eq_some hlast
  have hname : e.name = key.name := by
    by_contra hne
    rw [valueOf, if_neg hne] at hval
    cases hval
  rw [valueOf, if_pos hname] at hval
  cases hval
  obtain ⟨hos, hvar⟩ := key.not_prefix
  cases h.acceptable e (List.mem_reverse.mp he) with
  | key k hk htakes => exact Key.name_injective k key (hk.symm.trans hname) ▸ htakes
  | os hpre => exact absurd (hname ▸ hpre) hos
  | var hpre => exact absurd (hname ▸ hpre) hvar

end Vdev.ActionFields
