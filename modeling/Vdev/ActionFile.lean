import Vdev.Data
import Vdev.Directories
import Vdev.Ini

/-!
Loading the actions (vdevd/action.c). Each regular file in the directory of actions is one
action. The first file that cannot be read, parsed or accepted ends the loading. What is
loaded depends on the files and on the directory of the helpers, and records no daemonlets.
-/
namespace Vdev.ActionFile

open CString Data FileTree SystemCalls Directories Ini

/-- `struct vdev_action`, with the helper that its command may come from. -/
structure FileAction extends Action where
  helper : Option CStr := none

/-- `vdev_action_init`, as `vdev_action_load` calls it. -/
def actionInit : FileAction := { trigger := .invalid, useShell := false }

/-- `vdev_action_parse_trigger`. -/
def parseTrigger (type : CStr) : RequestType :=
  if type = "add".toList then .add
  else if type = "remove".toList then .remove
  else if type = "change".toList then .change
  else if type = "any".toList then .any
  else .invalid

/-- The value of `async`, if it is valid. -/
def asyncValue (value : CStr) : Option Bool :=
  if strcaseEq value "true".toList || value == "1".toList then some true
  else if strcaseEq value "false".toList || value == "0".toList then some false
  else none

/-- The value of `if_exists`, if it is valid. -/
def ifExistsValue (value : CStr) : Option IfExists :=
  if value = "error".toList then some .error
  else if value = "mask".toList then some .mask
  else if value = "run".toList then some .run
  else none

def osPrefix : CStr := "OS_".toList

def varPrefix : CStr := "VAR_".toList

/-- `vdev_action_ini_parser`. -/
def actionIniParser (regcomp : CStr → Int) (e : Entry) (act : FileAction) : Option FileAction :=
  if e.sect ≠ "vdev-action".toList then none
  else if e.name = "path".toList then
    if regcomp e.value ≠ 0 then none else some { act with path := some e.value }
  else if e.name = "rename_command".toList then some { act with renameCommand := some e.value }
  else if e.name = "event".toList then
    if parseTrigger e.value = .invalid then none
    else some { act with trigger := parseTrigger e.value }
  else if e.name = "command".toList then some { act with command := some e.value }
  else if e.name = "helper".toList then some { act with helper := some e.value }
  else if e.name = "async".toList then
    (asyncValue e.value).map (fun async => { act with async := async })
  else if e.name = "type".toList then some { act with hasType := true, type := e.value }
  else if e.name = "if_exists".toList then
    (ifExistsValue e.value).map (fun ifExists => { act with ifExists := ifExists })
  else if e.name = "daemonlet".toList then
    if strcaseEq e.value "true".toList then some { act with isDaemonlet := true } else some act
  else if osPrefix.isPrefixOf e.name then
    match act.devParams.add (e.name.drop osPrefix.length) e.value with
    | .error _ => none
    | .ok params => some { act with devParams := params }
  else if varPrefix.isPrefixOf e.name then
    match act.helperVars.add (e.name.drop varPrefix.length) e.value with
    | .error _ => none
    | .ok vars => some { act with helperVars := vars }
  else none

/-- `vdev_action_sanity_check`. -/
def actionSanityCheck (act : FileAction) : Int :=
  if act.command = none ∧ act.renameCommand = none ∧ act.helper = none then Errno.einval.rc
  else if act.command ≠ none ∧ act.helper ≠ none then Errno.einval.rc
  else if act.trigger = .invalid then Errno.einval.rc
  else 0

/-- `vdev_action_postprocess`. It has no result when there is no directory of helpers to put
before the helper: the code reads through a null pointer then. -/
def actionPostprocess (helpersDir : Option CStr) (act : FileAction) : Option FileAction :=
  match act.command, act.helper with
  | none, some helper =>
    helpersDir.map (fun dir => { act with command := some (dir ++ '/' :: helper), useShell := false })
  | _, _ => some { act with useShell := true }

/-- `vdev_action_load_file`. -/
def actionLoadFile (regcomp : CStr → Int) (helpersDir : Option CStr) (file : CStr) :
    Option (Except Int FileAction) :=
  match iniParseFile (actionIniParser regcomp) file actionInit with
  | .error lineno => some (.error lineno)
  | .ok act =>
    if actionSanityCheck act ≠ 0 then some (.error (actionSanityCheck act))
    else (actionPostprocess helpersDir act).map Except.ok

/-- `fopen` for reading, and what can be read. A directory can be opened, but not read. -/
def fopen (T : FS) (path : CStr) : Except Errno CStr :=
  match stat T path with
  | .error e => .error e
  | .ok (.dir _) => .ok []
  | .ok (.leaf (.file _ content)) => .ok content
  | .ok (.leaf (.device _ _)) => .error .enxio

/-- `vdev_action_load`. -/
def actionLoad (regcomp : CStr → Int) (helpersDir : Option CStr) (T : FS) (path : CStr) :
    Option (Except Int FileAction) :=
  match fopen T path with
  | .error e => some (.error e.rc)
  | .ok file =>
    match actionLoadFile regcomp helpersDir file with
    | none => none
    | some (.error rc) => some (.error rc)
    | some (.ok act) => some (.ok { act with name := path })

structure Loading where
  acts : List FileAction := []
  died : Bool := false

/-- `vdev_action_loader`. -/
def actionLoader (regcomp : CStr → Int) (helpersDir : Option CStr) (T : FS) (path : CStr)
    (l : Loading) : Int × Loading :=
  match stat T path with
  | .error e => (e.rc, l)
  | .ok (.leaf (.file _ _)) =>
    match actionLoad regcomp helpersDir T path with
    | none => (-1, { l with died := true })
    | some (.error rc) => (rc, l)
    | some (.ok act) => (0, { l with acts := l.acts ++ [act] })
  | .ok _ => (0, l)

/-- `vdev_action_load_all`. It has no result when the process dies. -/
def actionLoadAll (regcomp : CStr → Int) (actsDir helpersDir : Option CStr) (T : FS) :
    Option (Except Int (List FileAction)) :=
  match actsDir with
  | none => some (.error Errno.einval.rc)
  | some dir =>
    let (rc, l) := loadAll (fun _ => T) (actionLoader regcomp helpersDir T) dir {}
    if l.died then none else if rc ≠ 0 then some (.error rc) else some (.ok l.acts)

/-- The daemonlet fields as `vdev_action_init` sets them. -/
def FileAction.initDaemonlet (act : FileAction) : FileAction :=
  { act with daemonletPid := -1, daemonletStdin := -1, daemonletStdout := -1 }

end Vdev.ActionFile
