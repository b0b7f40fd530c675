import Vdev.DaemonletRunner
import Vdev.Runs

/-!
A daemonlet over its whole life. vdevd writes one stanza for each request; the
runner reads it, calls the helper, and clears the variables again. When the values
of all requests so far are readable, the helper gets the environment that an
exec'ed helper would have got, and nothing is executed on the way.
-/
namespace Vdev.DaemonletService

open CString Data Environment Daemonlet Shell DaemonletRunner

variable {ω : Type}

def IdentifierKeys (p : Params) : Prop := ∀ e ∈ p.entries, isIdentifier e.1 = true

theorem paramNames_identifier (start : CStr) (p : Params) (hstart : isIdentifier start = true)
    (hkeys : IdentifierKeys p) : ∀ name ∈ paramNames start p, isIdentifier name = true := by
  intro name hname
  obtain ⟨e, he, rfl⟩ := List.mem_map.mp hname
  exact isIdentifier_append start e.1 hstart (hkeys e he)

theorem envNames_identifier (req : Request) (helperVars : Params)
    (hreq : IdentifierKeys req.params) (hvars : IdentifierKeys helperVars) :
    ∀ name ∈ envNames req helperVars, isIdentifier name = true := by
  have hfixed : ∀ name ∈ fixedNames, isIdentifier name = true := by decide +kernel
  intro name hname
  rcases List.mem_append.mp hname with hname | hname
  · rcases List.mem_append.mp hname with hname | hname
    · exact hfixed name hname
    · exact paramNames_identifier _ _ (by decide +kernel) hreq name hname
  · exact paramNames_identifier _ _ (by decide +kernel) hvars name hname

/-- The runner's own variable is none of the environment. -/
theorem curEnviron_not_mem (req : Request) (helperVars : Params) :
    curEnviron ∉ envNames req helperVars := by
  intro hmem
  rcases List.mem_append.mp hmem with hmem | hmem
  · rcases List.mem_append.mp hmem with hmem | hmem
    · exact absurd hmem (by decide +kernel)
    · exact absurd (isPrefixOf_of_mem_paramNames _ _ _ hmem) (by decide)
  · exact absurd (isPrefixOf_of_mem_paramNames _ _ _ hmem) (by decide)

theorem length_le_length_flatMap (env : List (CStr × CStr)) :
    env.length ≤ (env.flatMap (fun e => envLine (makeEnvStr e))).length := by
  induction env with
  | nil => exact Nat.zero_le _
  | cons e env ih =>
    have hpos := envLine_length_pos (makeEnvStr e)
    rw [List.length_cons, List.flatMap_cons, List.length_append]
    omega

section Serving

variable (host : Host ω) (st : VdevState) (act : Action)

def sentEnv (req : Request) : List (CStr × CStr) := requestEnv st req act.helperVars true

/-- All values of the request can be read back in the state `sh`. -/
def ReadableRequest (req : Request) (sh : Sh ω) : Prop :=
  ∀ e ∈ sentEnv st act req, Readable host sh.world e.1 e.2

def imported (req : Request) (rest : CStr) (sh : Sh ω) : Sh ω :=
  ((assignAll (sentEnv st act req) (defaultEnviron sh)).withInput rest).set curEnviron
    (collected (sentEnv st act req))

theorem sentEnv_identifier (req : Request) (hreq : IdentifierKeys req.params)
    (hvars : IdentifierKeys act.helperVars) :
    ∀ name ∈ (sentEnv st act req).map Prod.fst, isIdentifier name = true := by
  intro name hname
  exact envNames_identifier req act.helperVars hreq hvars name
    ((requestEnv_names st req act.helperVars true).subset hname)

theorem readEnviron_stanza (req : Request) (rest : CStr) (sh : Sh ω)
    (hreq : IdentifierKeys req.params) (hvars : IdentifierKeys act.helperVars)
    (hinput : sh.input = stanza st act req ++ rest)
    (hvalues : ReadableRequest host st act req sh) :
    readEnviron host (defaultEnviron sh) = (0, imported st act req rest sh) := by
  obtain ⟨hkept, _, hworld⟩ := defaultEnviron_frame sh
  have hdefault : (defaultEnviron sh).input = (sentEnv st act req).flatMap
      (fun e => envLine (makeEnvStr e)) ++ doneLine ++ rest := by
    unfold sentEnv
    rw [← stanza_eq, ← hinput, hkept]
  have hlength := length_le_length_flatMap (sentEnv st act req)
  have hcount : 0 + (sentEnv st act req).length ≠ 0 := by
    rw [Nat.zero_add, Ne, List.length_eq_zero_iff]
    exact requestEnv_ne_nil _ _ _ _
  unfold readEnviron
  rw [readEnvironLoop_stanza host (sentEnv st act req) _ 0 [] rest (defaultEnviron sh) ?_ hdefault
      (fun e he => sentEnv_identifier st act req hreq hvars e.1 (List.mem_map_of_mem he)) ?_,
    finishEnviron, if_neg hcount, List.append_nil, imported]
  · rw [hdefault, List.length_append, List.length_append]
    omega
  · intro e he
    rw [hworld]
    exact hvalues e he

/-- Reading a request sets its variables, runs nothing and leaves the rest of the input. -/
theorem imported_spec (req : Request) (rest : CStr) (sh : Sh ω) :
    (∀ e ∈ sentEnv st act req, (imported st act req rest sh).vars e.1 = some e.2) ∧
      (imported st act req rest sh).executed = sh.executed ∧
      (imported st act req rest sh).input = rest := by
  have hnodup : ((sentEnv st act req).map Prod.fst).Nodup :=
    requestEnv_nodup st req act.helperVars true
  unfold imported
  refine ⟨fun e he => ?_, ?_, ?_⟩
  · have hne : e.1 ≠ curEnviron := by
      intro heq
      apply curEnviron_not_mem req act.helperVars
      rw [← heq]
      exact (requestEnv_names st req act.helperVars true).subset (List.mem_map_of_mem he)
    rw [Sh.set_vars_of_ne _ _ _ _ hne, Sh.withInput_vars, assignAll_vars_of_mem _ _ hnodup e he]
  · rw [Sh.set_executed, Sh.withInput_executed,
      (assignAll_frame (sentEnv st act req) (defaultEnviron sh)).2.1, (defaultEnviron_frame sh).2.1]
  · rw [Sh.set_input, Sh.withInput_input]

theorem clearLoop_eq (names : List CStr) (sh : Sh ω)
    (hnames : ∀ name ∈ names, isIdentifier name = true) :
    clearLoop host names sh = assignAll (names.map (fun name => (name, []))) sh := by
  induction names generalizing sh with
  | nil => rfl
  | cons name names ih =>
    have hempty : Verbatim [] := trivial
    rw [clearLoop, evalAssign_verbatim _ _ _ _ (hnames name List.mem_cons_self) hempty,
      ih _ (fun other hother => hnames other (List.mem_cons_of_mem _ hother))]
    rfl

/-- Clearing names that are identifiers assigns to them. -/
theorem clearEnviron_eq (env : List (CStr × CStr)) (sh : Sh ω)
    (hcur : sh.vars curEnviron = some (collected env))
    (hnames : ∀ name ∈ env.map Prod.fst, isIdentifier name = true) :
    clearEnviron host sh =
      (assignAll ((env.map Prod.fst).reverse.map (fun name => (name, []))) sh).set curEnviron [] := by
  have hnames : ∀ name ∈ (env.map Prod.fst).reverse, isIdentifier name = true :=
    fun name hname => hnames name (List.mem_reverse.mp hname)
  have hsplit : splitBlanks (collected env) = (env.map Prod.fst).reverse :=
    splitBlanks_flatMap _ (fun name hname => ⟨ne_nil_of_isIdentifier name (hnames name hname),
      not_mem_of_isIdentifier name ' ' (hnames name hname) (by decide)⟩)
  unfold clearEnviron
  dsimp only
  rw [hcur, Option.getD_some, hsplit, flatMap_glob host sh.world _
    (fun name hname => glob_identifier host sh.world name (hnames name hname)),
    clearLoop_eq host _ _ hnames]

theorem clearEnviron_input (env : List (CStr × CStr)) (sh : Sh ω)
    (hcur : sh.vars curEnviron = some (collected env))
    (hnames : ∀ name ∈ env.map Prod.fst, isIdentifier name = true) :
    (clearEnviron host sh).input = sh.input := by
  rw [clearEnviron_eq host env sh hcur hnames, Sh.set_input]
  exact (assignAll_frame _ sh).1

/-- The runner answers a readable request, and is then ready for the next one. -/
theorem serve_stanza (req : Request) (rest : CStr) (sh : Sh ω)
    (hreq : IdentifierKeys req.params) (hvars : IdentifierKeys act.helperVars)
    (hinput : sh.input = stanza st act req ++ rest)
    (hvalues : ReadableRequest host st act req sh) :
    ∃ status sh', serve host sh = some (status, sh') ∧ sh'.input = rest := by
  have hcur : (host.main (imported st act req rest sh)).2.vars curEnviron =
      some (collected (sentEnv st act req)) := by
    rw [host.main_curEnviron]
    exact Sh.set_vars_self _ _ _
  have hleft : (clearEnviron host (host.main (imported st act req rest sh)).2).input = rest := by
    rw [clearEnviron_input host _ _ hcur (sentEnv_identifier st act req hreq hvars),
      host.main_input, imported, Sh.set_input, Sh.withInput_input]
  refine ⟨(host.main (imported st act req rest sh)).1,
    clearEnviron host (host.main (imported st act req rest sh)).2, ?_, hleft⟩
  unfold serve
  rw [readEnviron_stanza host st act req rest sh hreq hvars hinput hvalues]
  rfl

/-- One request in the life of a daemonlet. The request only names the stanza that
is next in the input. -/
def serveRequest (_ : Request) (sh : Sh ω) : Option (Sh ω) := (serve host sh).map Prod.snd

/-- The runner answers one readable request after the other. -/
theorem run_serveRequest (reqs : List Request) (rest : CStr) (sh : Sh ω)
    (hreqs : ∀ req ∈ reqs, IdentifierKeys req.params) (hvars : IdentifierKeys act.helperVars)
    (hinput : sh.input = reqs.flatMap (stanza st act) ++ rest)
    (hok : Runs.Guarded (serveRequest host) (ReadableRequest host st act) reqs sh) :
    ∃ sh', Runs.run (serveRequest host) reqs sh = some sh' ∧ sh'.input = rest := by
  induction reqs generalizing sh with
  | nil => exact ⟨sh, rfl, hinput⟩
  | cons req reqs ih =>
    rw [List.flatMap_cons, List.append_assoc] at hinput
    obtain ⟨status, sh₁, hserve, hrest⟩ := serve_stanza host st act req _ sh
      (hreqs req List.mem_cons_self) hvars hinput hok.1
    have hstep : serveRequest host req sh = some sh₁ := by
      unfold serveRequest
      rw [hserve]
      rfl
    obtain ⟨sh', hrun, hleft⟩ := ih sh₁
      (fun other hother => hreqs other (List.mem_cons_of_mem _ hother)) hrest (hok.2 sh₁ hstep)
    refine ⟨sh', ?_, hleft⟩
    rw [Runs.run, hstep]
    exact hrun

/-- After any readable requests, a readable request gives the helper the values
that an exec'ed helper would get, and no command runs while it is read. -/
theorem daemonlet_sees_exec_environment (before : List Request) (req : Request) (rest : CStr)
    (sh : Sh ω) (hreqs : ∀ r ∈ before ++ [req], IdentifierKeys r.params)
    (hvars : IdentifierKeys act.helperVars)
    (hinput : sh.input = (before ++ [req]).flatMap (stanza st act) ++ rest)
    (hok : Runs.Guarded (serveRequest host) (ReadableRequest host st act) (before ++ [req]) sh) :
    ∃ sh₁ sh₂, Runs.run (serveRequest host) before sh = some sh₁ ∧
      readEnviron host (defaultEnviron sh₁) = (0, sh₂) ∧
      (∀ e ∈ requestEnv st req act.helperVars true, sh₂.vars e.1 = some e.2) ∧
      sh₂.executed = sh₁.executed ∧ sh₂.input = rest := by
  rw [List.flatMap_append, List.flatMap_singleton, List.append_assoc] at hinput
  obtain ⟨hbefore, hlast⟩ := Runs.guarded_append (serveRequest host) hok
  obtain ⟨sh₁, hrun, hleft⟩ := run_serveRequest host st act before _ sh
    (fun r hr => hreqs r (List.mem_append_left _ hr)) hvars hinput hbefore
  obtain ⟨hvalues, hexecuted, hrest⟩ := imported_spec st act req rest sh₁
  have hread := readEnviron_stanza host st act req rest sh₁
    (hreqs req (List.mem_append_right _ List.mem_cons_self)) hvars hleft (hlast sh₁ hrun).1
  exact ⟨sh₁, imported st act req rest sh₁, hrun, hread, hvalues, hexecuted, hrest⟩

end Serving

/-- The characters that mean something on the way from vdevd to the helper. -/
def specialChars : List Char := ['\n', '$', '`', '"', '\\', '=', '*', '?', '[']

theorem verbatim_of_plain (value : CStr) (h : ∀ c ∈ specialChars, c ∉ value) :
    Verbatim value := by
  induction value with
  | nil => trivial
  | cons c rest ih =>
    have hc : ∀ d ∈ specialChars, c ≠ d := by
      intro d hd heq
      exact h d hd (heq ▸ List.mem_cons_self)
    refine ⟨hc _ (by decide), hc _ (by decide), hc _ (by decide), ?_, ?_⟩
    · intro hback
      exact absurd hback (hc _ (by decide))
    · exact ih (fun d hd hmem => h d hd (List.mem_cons_of_mem _ hmem))

/-- A value of ordinary characters is readable whatever files exist. -/
theorem readable_of_plain (host : Host ω) (w : ω) (name value : CStr)
    (h : ∀ c ∈ specialChars, c ∉ value)
    (hfits : (makeEnvStr (name, value)).length + 1 < PATH_MAX) : Readable host w name value := by
  have hsplit : value.splitOn '=' = [value] := List.splitOn_eq_singleton (h '=' (by decide))
  refine ⟨h _ (by decide), verbatim_of_plain value h, ?_, ?_, ?_, hfits⟩
  · exact fun hlast => h '=' (by decide) (List.mem_of_getLast? hlast)
  · rw [hsplit, List.length_singleton]
    omega
  · intro word hword
    rw [hsplit, List.mem_singleton] at hword
    subst hword
    apply host.glob_plain
    intro c hc
    apply h
    fin_cases hc <;> decide

def plainHost : Host Unit where
  glob _ word := [word]
  evalOther _ _ sh := sh
  main sh := (0, sh)
  glob_plain _ _ _ := rfl
  evalOther_input _ _ _ := le_rfl
  main_input _ := rfl
  main_curEnviron _ := rfl

def diskRequest (serial : CStr) : Request where
  type := .add
  path := some "sda".toList
  dev := 2048
  mode := S_IFBLK
  params := ⟨[("SERIAL".toList, serial)], List.pairwise_singleton _ _⟩

/-- A runner whose pipe holds `input`. -/
def freshRunner (input : CStr) : Sh Unit := ⟨fun _ => none, input, [], ()⟩

theorem identifierKeys_diskRequest (serial : CStr) : IdentifierKeys (diskRequest serial).params := by
  intro e he
  rw [List.mem_singleton.mp he]
  exact (by decide : isIdentifier "SERIAL".toList = true)

theorem readableRequest_diskRequest (sh : Sh Unit) (serial : CStr)
    (h : serial = "WD-42".toList ∨ serial = "WD-43".toList) :
    ReadableRequest plainHost bareState { trigger := .add } (diskRequest serial) sh := by
  have hplain : (sentEnv bareState { trigger := .add } (diskRequest serial)).all
      (fun e => specialChars.all (fun c => !e.2.elem c) &&
        ((makeEnvStr e).length + 1).blt PATH_MAX) = true := by
    rcases h with rfl | rfl
    · decide +kernel
    · decide +kernel
  intro e he
  have hvalue := List.all_eq_true.mp hplain e he
  rw [Bool.and_eq_true, List.all_eq_true, Nat.blt_eq] at hvalue
  refine readable_of_plain plainHost sh.world e.1 e.2 (fun c hc => ?_) hvalue.2
  have helem := hvalue.1 c hc
  intro hmem
  rw [List.elem_iff.mpr hmem] at helem
  exact absurd helem (by decide)

theorem second_disk_request_read :
    ∃ sh₁ sh₂ : Sh Unit,
      readEnviron plainHost (defaultEnviron sh₁) = (0, sh₂) ∧
      (∀ e ∈ requestEnv bareState (diskRequest "WD-42".toList) Params.empty true,
        sh₂.vars e.1 = some e.2) ∧
      sh₂.executed = sh₁.executed := by
  have hguard : Runs.Guarded (serveRequest plainHost)
      (ReadableRequest plainHost bareState { trigger := .add })
      ([diskRequest "WD-42".toList] ++ [diskRequest "WD-42".toList])
      (freshRunner (([diskRequest "WD-42".toList] ++ [diskRequest "WD-42".toList]).flatMap
        (stanza bareState { trigger := .add }) ++ [])) :=
    ⟨readableRequest_diskRequest _ _ (Or.inl rfl),
      fun _ _ => ⟨readableRequest_diskRequest _ _ (Or.inl rfl), fun _ _ => trivial⟩⟩
  obtain ⟨sh₁, sh₂, _, hread, hvalues, hexecuted, _⟩ :=
    daemonlet_sees_exec_environment plainHost bareState { trigger := .add }
      [diskRequest "WD-42".toList] (diskRequest "WD-42".toList) [] _
      (by
        intro r hr
        rw [List.mem_append, List.mem_singleton, or_self] at hr
        rw [hr]
        exact identifierKeys_diskRequest _)
      (fun e he => absurd he List.not_mem_nil) rfl hguard
  exact ⟨sh₁, sh₂, hread, hvalues, hexecuted⟩

/-- A value that ends in an equals sign loses it: a serial number in base64 is not
the one that an exec'ed helper gets. -/
theorem trailing_equals_sign_lost :
    ("VDEV_OS_SERIAL".toList, "YQ==".toList) ∈
        requestEnv bareState (diskRequest "YQ==".toList) Params.empty true ∧
      (readEnviron plainHost (defaultEnviron (freshRunner
        (stanza bareState { trigger := .add } (diskRequest "YQ==".toList))))).1 = 0 ∧
      (readEnviron plainHost (defaultEnviron (freshRunner
        (stanza bareState { trigger := .add } (diskRequest "YQ==".toList))))).2.vars
          "VDEV_OS_SERIAL".toList = some "YQ=".toList := by
  decide +kernel

end Vdev.DaemonletService
