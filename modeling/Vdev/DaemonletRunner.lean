import Vdev.Daemonlet
import Vdev.Shell

/-!
The runner of the daemonlets (vdevd/helpers/LINUX/daemonlet). It reads one stanza
of `KEY=VALUE` lines after the other, assigns the variables, and calls `main` of
the helper. Each value passes through field splitting, pathname expansion, a loop
that joins the fields again, and an `eval` inside double quotes.

`Readable` lists what a value must not have for this to be faithful. A stanza of
readable values is read back as it was written.
-/
namespace Vdev.DaemonletRunner

open CString Data Environment Daemonlet Shell

variable {ω : Type}

def patternChars : List Char := ['*', '?', '[']

def curEnviron : CStr := "CUR_ENVIRON".toList

/-- What the runner takes from outside: pathname expansion, `eval` of what is no
plain assignment (with the positional parameters), and the `main` of the helper.
A word that is no pattern is not expanded. A command may read from the pipe of the
runner, but it cannot put anything back; the helper's `main` does not read from it,
and does not assign to the runner's own variable. -/
structure Host (ω : Type) where
  glob : ω → CStr → List CStr
  evalOther : List CStr → CStr → Sh ω → Sh ω
  main : Sh ω → ℕ × Sh ω
  glob_plain : ∀ w word, (∀ c ∈ patternChars, c ∉ word) → glob w word = [word]
  evalOther_input : ∀ args text sh, (evalOther args text sh).input.length ≤ sh.input.length
  main_input : ∀ sh, (main sh).2.input = sh.input
  main_curEnviron : ∀ sh, (main sh).2.vars curEnviron = sh.vars curEnviron

/-- The variables that `daemonlet_default_environ` sets. -/
def defaultNames : List CStr :=
  ["VDEV_ACTION".toList, "VDEV_MOUNTPOINT".toList, "VDEV_PATH".toList, "VDEV_METADATA".toList,
    "VDEV_GLOBAL_METADATA".toList, "VDEV_CONFIG_FILE".toList, "VDEV_MAJOR".toList,
    "VDEV_MINOR".toList, "VDEV_MODE".toList, "VDEV_HELPERS".toList, "VDEV_LOGFILE".toList,
    "VDEV_INSTANCE".toList, "VDEV_OS_SYSFS_MOUNTPOINT".toList, "VDEV_OS_MODALIAS".toList,
    "VDEV_OS_DEVPATH".toList, "VDEV_OS_SUBSYSTEM".toList, "VDEV_OS_IFINDEX".toList,
    "VDEV_OS_SEQNUM".toList, "VDEV_OS_DRIVER".toList]

def assignAll (env : List (CStr × CStr)) (sh : Sh ω) : Sh ω :=
  env.foldl (fun sh e => sh.set e.1 e.2) sh

/-- `daemonlet_default_environ`. -/
def defaultEnviron (sh : Sh ω) : Sh ω := assignAll (defaultNames.map (fun name => (name, []))) sh

/-- The loop of `daemonlet_read_environ` that reconstructs a value from the
positional parameters, from the parameter `idx` on. -/
def reconstruct (args : List CStr) : ℕ → ℕ → CStr → CStr
  | 0, _, value => value
  | n + 1, idx, value =>
    reconstruct args n (idx + 1) (value ++ '=' :: dollar args (idx + 1) idx)

/-- The body of the loop of `daemonlet_read_environ`, for a line that does not end
the stanza: the name of the variable, or nothing when the line is malformed. -/
def importVar (host : Host ω) (line : CStr) (sh : Sh ω) : Option (CStr × Sh ω) :=
  match (splitFields '=' line).flatMap (host.glob sh.world) with
  | [] => none
  | [name] => some (name, evalAssign (host.evalOther [name]) name [] sh)
  | name :: value :: rest =>
    let args := name :: value :: rest
    let value := stripPrefixQuote (stripSuffixQuote (reconstruct args rest.length 3 value))
    some (name, evalAssign (host.evalOther args) name value sh)

/-- The end of `daemonlet_read_environ`, after its loop. -/
def finishEnviron (count : ℕ) (allEnv : CStr) (sh : Sh ω) : ℕ × Sh ω :=
  if count = 0 then (1, sh) else (0, sh.set curEnviron allEnv)

/-- The loop of `daemonlet_read_environ`. It reads at least one character in each
round. -/
def readEnvironLoop (host : Host ω) : ℕ → ℕ → CStr → Sh ω → ℕ × Sh ω
  | 0, count, allEnv, sh => finishEnviron count allEnv sh
  | fuel + 1, count, allEnv, sh =>
    match readLine sh.input with
    | none => finishEnviron count allEnv (sh.withInput [])
    | some (line, rest) =>
      let sh := sh.withInput rest
      if line = [] then (1, sh)
      else if line = "done".toList then finishEnviron count allEnv sh
      else
        match importVar host line sh with
        | none => (2, sh)
        | some (name, sh) => readEnvironLoop host fuel (count + 1) (name ++ ' ' :: allEnv) sh

/-- `daemonlet_read_environ`. -/
def readEnviron (host : Host ω) (sh : Sh ω) : ℕ × Sh ω :=
  readEnvironLoop host (sh.input.length + 1) 0 [] sh

/-- The loop of `daemonlet_clear_environ`. -/
def clearLoop (host : Host ω) : List CStr → Sh ω → Sh ω
  | [], sh => sh
  | name :: args, sh => clearLoop host args (evalAssign (host.evalOther args) name [] sh)

/-- `daemonlet_clear_environ`. -/
def clearEnviron (host : Host ω) (sh : Sh ω) : Sh ω :=
  let args := (splitBlanks ((sh.vars curEnviron).getD [])).flatMap (host.glob sh.world)
  (clearLoop host args sh).set curEnviron []

/-- One round of the main loop: the status that is sent back to vdevd, or nothing
when the runner exits. -/
def serve (host : Host ω) (sh : Sh ω) : Option (ℕ × Sh ω) :=
  let (rc, sh) := readEnviron host (defaultEnviron sh)
  if rc = 0 then
    let (status, sh) := host.main sh
    some (status, clearEnviron host sh)
  else none

theorem importVar_input (host : Host ω) (line name : CStr) (sh sh' : Sh ω)
    (h : importVar host line sh = some (name, sh')) : sh'.input.length ≤ sh.input.length := by
  unfold importVar at h
  split at h
  · cases h
  · cases h
    exact evalAssign_input _ (host.evalOther_input _) _ _ sh
  · cases h
    exact evalAssign_input _ (host.evalOther_input _) _ _ sh

/-- Fuel beyond the length of the input is not used. -/
theorem readEnvironLoop_fuel (host : Host ω) (fuel fuel' count : ℕ) (allEnv : CStr) (sh : Sh ω)
    (h : sh.input.length < fuel) (h' : sh.input.length < fuel') :
    readEnvironLoop host fuel count allEnv sh = readEnvironLoop host fuel' count allEnv sh := by
  induction fuel generalizing fuel' count allEnv sh with
  | zero => omega
  | succ fuel ih =>
    obtain ⟨fuel', rfl⟩ := Nat.exists_eq_succ_of_ne_zero (by omega : fuel' ≠ 0)
    rw [readEnvironLoop, readEnvironLoop]
    cases hread : readLine sh.input with
    | none => rfl
    | some read =>
      obtain ⟨line, rest⟩ := read
      have hrest := readLine_length sh.input line rest hread
      dsimp only
      split
      · rfl
      · split
        · rfl
        · cases himport : importVar host line (sh.withInput rest) with
          | none => rfl
          | some imported =>
            obtain ⟨name, sh'⟩ := imported
            have hsh' := importVar_input host line name _ sh' himport
            rw [Sh.withInput_input] at hsh'
            exact ih fuel' (count + 1) _ sh' (by omega) (by omega)

/-- A value that the runner reads back as it was sent: it has no newline, double
quotes keep it as it is, it does not end in an equals sign, none of its fields
has a positional parameter of two digits, no field is a pattern that matches a
file, and the line fits into the buffer of vdevd. -/
structure Readable (host : Host ω) (w : ω) (name value : CStr) : Prop where
  newline : '\n' ∉ value
  verbatim : Verbatim value
  ending : value.getLast? ≠ some '='
  fields : (value.splitOn '=').length ≤ 8
  unmatched : ∀ word ∈ value.splitOn '=', host.glob w word = [word]
  fits : (makeEnvStr (name, value)).length + 1 < PATH_MAX

@[simp] theorem assignAll_cons (e : CStr × CStr) (env : List (CStr × CStr)) (sh : Sh ω) :
    assignAll (e :: env) sh = assignAll env (sh.set e.1 e.2) := rfl

theorem assignAll_frame (env : List (CStr × CStr)) (sh : Sh ω) :
    (assignAll env sh).input = sh.input ∧ (assignAll env sh).executed = sh.executed ∧
      (assignAll env sh).world = sh.world := by
  induction env generalizing sh with
  | nil => exact ⟨rfl, rfl, rfl⟩
  | cons e env ih =>
    obtain ⟨hinput, hexecuted, hworld⟩ := ih (sh.set e.1 e.2)
    rw [assignAll_cons]
    exact ⟨hinput, hexecuted, hworld⟩

theorem defaultEnviron_frame (sh : Sh ω) :
    (defaultEnviron sh).input = sh.input ∧ (defaultEnviron sh).executed = sh.executed ∧
      (defaultEnviron sh).world = sh.world :=
  assignAll_frame _ sh

theorem assignAll_withInput (env : List (CStr × CStr)) (sh : Sh ω) (input : CStr) :
    assignAll env (sh.withInput input) = (assignAll env sh).withInput input := by
  induction env generalizing sh with
  | nil => rfl
  | cons e env ih => rw [assignAll_cons, assignAll_cons, Sh.withInput_set, ih]

theorem assignAll_vars_of_not_mem (env : List (CStr × CStr)) (sh : Sh ω) (name : CStr)
    (h : name ∉ env.map Prod.fst) : (assignAll env sh).vars name = sh.vars name := by
  induction env generalizing sh with
  | nil => rfl
  | cons e env ih =>
    rw [List.map_cons, List.mem_cons, not_or] at h
    rw [assignAll_cons, ih _ h.2, Sh.set_vars_of_ne _ _ _ _ h.1]

/-- Variables with different names keep the values that they are given. -/
theorem assignAll_vars_of_mem (env : List (CStr × CStr)) (sh : Sh ω)
    (hnodup : (env.map Prod.fst).Nodup) (e : CStr × CStr) (he : e ∈ env) :
    (assignAll env sh).vars e.1 = some e.2 := by
  induction env generalizing sh with
  | nil => exact absurd he List.not_mem_nil
  | cons first env ih =>
    rw [List.map_cons, List.nodup_cons] at hnodup
    rw [assignAll_cons]
    rcases List.mem_cons.mp he with rfl | he
    · rw [assignAll_vars_of_not_mem env _ _ hnodup.1, Sh.set_vars_self]
    · exact ih _ hnodup.2 he

/-- Up to the ninth parameter, the fields are joined again. -/
theorem reconstruct_eq (before rest : List CStr) (value : CStr)
    (h : before.length + rest.length ≤ 9) :
    reconstruct (before ++ rest) rest.length (before.length + 1) value =
      value ++ rest.flatMap ('=' :: ·) := by
  induction rest generalizing before value with
  | nil => simp [reconstruct]
  | cons word rest ih =>
    rw [List.length_cons] at h
    have hword : dollar (before ++ word :: rest) (before.length + 1 + 1) (before.length + 1) =
        word := by
      rw [dollar_of_lt _ _ _ (by omega), Nat.add_sub_cancel]
      simp
    have ih := ih (before ++ [word]) (value ++ '=' :: word) (by
      rw [List.length_append, List.length_singleton]
      omega)
    rw [List.append_assoc, List.singleton_append, List.length_append, List.length_singleton] at ih
    rw [List.length_cons, reconstruct, hword, ih, List.flatMap_cons, List.append_assoc]

theorem flatMap_glob (host : Host ω) (w : ω) (words : List CStr)
    (h : ∀ word ∈ words, host.glob w word = [word]) : words.flatMap (host.glob w) = words := by
  induction words with
  | nil => rfl
  | cons word words ih =>
    rw [List.flatMap_cons, h word List.mem_cons_self,
      ih (fun other hother => h other (List.mem_cons_of_mem _ hother))]
    rfl

/-- A name is not a pattern. -/
theorem glob_identifier (host : Host ω) (w : ω) (name : CStr) (h : isIdentifier name = true) :
    host.glob w name = [name] := by
  apply host.glob_plain
  intro c hc
  apply not_mem_of_isIdentifier name c h
  fin_cases hc <;> decide

/-- One line of a stanza assigns one variable, and does nothing else. -/
theorem importVar_readable (host : Host ω) (name value : CStr) (sh : Sh ω)
    (hname : isIdentifier name = true) (hvalue : Readable host sh.world name value) :
    importVar host (makeEnvStr (name, value)) sh = some (name, sh.set name value) := by
  have hsep : '=' ∉ name := not_mem_of_isIdentifier name '=' hname (by decide)
  have hglob := glob_identifier host sh.world name hname
  unfold importVar makeEnvStr
  by_cases hempty : value = []
  · subst hempty
    rw [splitFields_empty '=' name hsep, List.flatMap_cons, hglob, List.flatMap_nil,
      List.append_nil]
    dsimp only
    rw [evalAssign_verbatim _ _ _ _ hname hvalue.verbatim]
  · obtain ⟨first, rest, hsplit⟩ := List.exists_cons_of_ne_nil (List.splitOn_ne_nil '=' value)
    have hlength := hvalue.fields
    rw [hsplit, List.length_cons] at hlength
    have hjoin : first ++ rest.flatMap ('=' :: ·) = value := by
      rw [← intercalate_cons_flatMap, ← hsplit]
      exact List.intercalate_splitOn '='
    have hvalues := reconstruct_eq [name, first] rest first (by
      rw [List.length_cons, List.length_singleton]
      omega)
    rw [splitFields_value '=' name value hsep hempty hvalue.ending, List.flatMap_cons, hglob,
      flatMap_glob host sh.world _ hvalue.unmatched, hsplit]
    dsimp only [List.singleton_append]
    rw [show reconstruct (name :: first :: rest) rest.length 3 first = value from
        hvalues.trans hjoin,
      strip_quotes value hvalue.verbatim.quote_not_mem,
      evalAssign_verbatim _ _ _ _ hname hvalue.verbatim]

/-- The pipe of a daemonlet as its reader sees it: all that was written. -/
def openPipe : Sys CStr where
  runnerExecutable _ w := (some true, w)
  pipe w := (.error .eagain, w)
  fork w := (.error .eagain, w)
  readByte _ w := (.ok none, w)
  write _ text w := (text.length, w ++ text)
  waitpid _ _ w := (.error .echild, w)
  close _ w := (.ok (), w)
  kill _ w := (.ok (), w)

/-- What vdevd writes for one request, where `helpers_dir` is set. -/
def stanza (st : VdevState) (act : Action) (req : Request) : CStr :=
  (writeStanza openPipe (envStrings st req act.helperVars true) act []).2

theorem envLine_length_pos (e : CStr) : 0 < (envLine e).length := by
  unfold envLine snprintf
  rw [List.length_take, List.length_append, List.length_singleton, PATH_MAX]
  omega

theorem feedEnv_openPipe (fd : Int) (env : List CStr) (rc : Int) (w : CStr)
    (h : env ≠ [] ∨ 0 < rc) :
    0 < (feedEnv openPipe fd env rc w).1 ∧
      (feedEnv openPipe fd env rc w).2 = w ++ env.flatMap envLine := by
  induction env generalizing rc w with
  | nil =>
    rw [feedEnv, List.flatMap_nil, List.append_nil]
    exact ⟨h.resolve_left (fun hne => hne rfl), rfl⟩
  | cons e env ih =>
    have hpos : (0 : Int) < (envLine e).length := Int.natCast_pos.mpr (envLine_length_pos e)
    have hstep : feedEnv openPipe fd (e :: env) rc w =
        feedEnv openPipe fd env (envLine e).length (w ++ envLine e) := by
      rw [feedEnv]
      exact if_neg (by
        show ¬ ((envLine e).length : Int) < 0
        omega)
    obtain ⟨hrc, hout⟩ := ih (envLine e).length (w ++ envLine e) (Or.inr hpos)
    rw [hstep, List.flatMap_cons, ← List.append_assoc]
    exact ⟨hrc, hout⟩

theorem stanza_eq (st : VdevState) (act : Action) (req : Request) :
    stanza st act req =
      (requestEnv st req act.helperVars true).flatMap (fun e => envLine (makeEnvStr e)) ++
        doneLine := by
  have hne : envStrings st req act.helperVars true ≠ [] := by
    unfold envStrings
    rw [Ne, List.map_eq_nil_iff]
    exact requestEnv_ne_nil _ _ _ _
  obtain ⟨hrc, hout⟩ := feedEnv_openPipe act.daemonletStdin _ 0 [] (Or.inl hne)
  unfold stanza writeStanza
  dsimp only
  rw [if_pos hrc]
  show (feedEnv openPipe act.daemonletStdin _ 0 []).2 ++ doneLine = _
  rw [hout, List.nil_append, envStrings, List.flatMap_map]

theorem envLine_eq (e : CStr × CStr) (h : (makeEnvStr e).length + 1 < PATH_MAX) :
    envLine (makeEnvStr e) = makeEnvStr e ++ ['\n'] := by
  apply snprintf_of_lt
  rw [List.length_append, List.length_singleton]
  exact h

/-- A line is not the end of a stanza. -/
theorem makeEnvStr_ne (e : CStr × CStr) (text : CStr) (h : '=' ∉ text) : makeEnvStr e ≠ text := by
  intro heq
  apply h
  rw [← heq]
  exact List.mem_append_right _ List.mem_cons_self

theorem newline_not_mem_makeEnvStr (host : Host ω) (w : ω) (e : CStr × CStr)
    (hname : isIdentifier e.1 = true) (hvalue : Readable host w e.1 e.2) :
    '\n' ∉ makeEnvStr e := by
  intro hmem
  rcases List.mem_append.mp hmem with hmem | hmem
  · exact not_mem_of_isIdentifier e.1 '\n' hname (by decide) hmem
  · rcases List.mem_cons.mp hmem with heq | hmem
    · exact absurd heq (by decide)
    · exact hvalue.newline hmem

theorem readLine_done (rest : CStr) :
    readLine (doneLine ++ rest) = some ("done".toList, rest) :=
  readLine_append "done".toList rest (by decide)

/-- The names in the order in which `_ALL_ENV` collects them. -/
def collected (env : List (CStr × CStr)) : CStr := (env.map Prod.fst).reverse.flatMap (· ++ [' '])

/-- The loop reads a stanza up to its end, and leaves the rest of the input. -/
theorem readEnvironLoop_stanza (host : Host ω) (env : List (CStr × CStr)) (fuel count : ℕ)
    (allEnv rest : CStr) (sh : Sh ω) (hfuel : env.length < fuel)
    (hinput : sh.input = env.flatMap (fun e => envLine (makeEnvStr e)) ++ doneLine ++ rest)
    (hnames : ∀ e ∈ env, isIdentifier e.1 = true)
    (hvalues : ∀ e ∈ env, Readable host sh.world e.1 e.2) :
    readEnvironLoop host fuel count allEnv sh =
      finishEnviron (count + env.length) (collected env ++ allEnv)
        ((assignAll env sh).withInput rest) := by
  induction env generalizing fuel count allEnv sh with
  | nil =>
    obtain ⟨fuel, rfl⟩ := Nat.exists_eq_succ_of_ne_zero (by omega : fuel ≠ 0)
    rw [List.flatMap_nil, List.nil_append] at hinput
    rw [readEnvironLoop, hinput, readLine_done]
    rfl
  | cons e env ih =>
    rw [List.length_cons] at hfuel
    obtain ⟨fuel, rfl⟩ := Nat.exists_eq_succ_of_ne_zero (by omega : fuel ≠ 0)
    have hname := hnames e List.mem_cons_self
    have hvalue := hvalues e List.mem_cons_self
    have hread : readLine sh.input = some (makeEnvStr e,
        env.flatMap (fun e => envLine (makeEnvStr e)) ++ doneLine ++ rest) := by
      rw [hinput, List.flatMap_cons, envLine_eq e hvalue.fits, List.append_assoc, List.append_assoc,
        List.append_assoc, List.singleton_append,
        readLine_append _ _ (newline_not_mem_makeEnvStr host sh.world e hname hvalue),
        List.append_assoc]
    have himport : ∀ input, importVar host (makeEnvStr e) (sh.withInput input) =
        some (e.1, (sh.set e.1 e.2).withInput input) :=
      fun input => importVar_readable host e.1 e.2 (sh.withInput input) hname hvalue
    rw [readEnvironLoop, hread]
    dsimp only
    rw [if_neg (makeEnvStr_ne e [] List.not_mem_nil), if_neg (makeEnvStr_ne e _ (by decide)), himport]
    dsimp only
    rw [ih fuel (count + 1) _ ((sh.set e.1 e.2).withInput _) (by omega) rfl
      (fun other hother => hnames other (List.mem_cons_of_mem _ hother))
      (fun other hother => hvalues other (List.mem_cons_of_mem _ hother))]
    have hcollected : collected env ++ (e.1 ++ ' ' :: allEnv) = collected (e :: env) ++ allEnv := by
      unfold collected
      rw [List.map_cons, List.reverse_cons, List.flatMap_append, List.flatMap_cons,
        List.flatMap_nil, List.append_nil, List.append_assoc, List.append_assoc]
      rfl
    have hcount : count + 1 + env.length = count + (e :: env).length := by
      rw [List.length_cons]
      omega
    rw [hcollected, hcount, assignAll_withInput, Sh.withInput_withInput,
      assignAll_cons]

end Vdev.DaemonletRunner
