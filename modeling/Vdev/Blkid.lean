import Vdev.Parsing
import Vdev.ShellPatterns
import Vdev.StreamEditor

/-!
How the helpers take the output of busybox's blkid apart (`vdev_blkid` of
vdevd/helpers/LINUX/subr.sh). Each round finds a variable, uses its text as a pattern for `sed` to
take it off, and echoes it. What the first round leaves begins with a blank, so the second one finds
no variable and takes the whole rest for one.
-/
namespace Vdev.Blkid

open CString Shell ShellPatterns StreamEditor

/-- The programs around the helper, with the status and the output of blkid for a path. `echo` of
the shell takes `-n` for an option, or prints it. -/
structure Env where
  sed : Sed
  echo : Echo
  echo_option : echo.print "-n".toList = [] ∨ echo.print "-n".toList = "-n\n".toList
  patterns : Patterns
  isSymlink : Bool
  blkid : CStr → ℕ × CStr
  blkidExport : CStr → ℕ × CStr

/-- `s/^\([^ =]\+\)="\([^"]\+\)" .\+$/\1="\2"/g` on a line. -/
def firstVar (line : CStr) : CStr :=
  let name := line.takeWhile (fun c => c != ' ' && c != '=')
  match line.dropWhile (fun c => c != ' ' && c != '=') with
  | '=' :: '"' :: rest =>
    let value := rest.takeWhile (· != '"')
    match rest.dropWhile (· != '"') with
    | '"' :: ' ' :: _ :: _ =>
      if name = [] ∨ value = [] then line else name ++ '=' :: '"' :: (value ++ ['"'])
    | _ => line
  | _ => line

/-- The loop of `vdev_blkid`, with what each round echoes. Without fuel it has not ended. -/
def consume (env : Env) : ℕ → CStr → Option (List CStr)
  | 0, _ => none
  | fuel + 1, vars =>
    if vars = [] then some []
    else
      let varent := substituted (sedLines firstVar (env.echo.print vars))
      let expr := deletion varent
      let varent := strip env.patterns [' '] varent
      let vars := substituted (env.sed.run expr (env.echo.print vars))
      (consume env fuel vars).map (env.echo.print varent :: ·)

/-- `vdev_blkid`: its status and what it prints. -/
def vdevBlkid (env : Env) (path : CStr) (fuel : ℕ) : Option (ℕ × List CStr) :=
  if env.isSymlink then
    let vars := substituted (env.blkid path).2
    if (env.blkid path).1 ≠ 0 then some ((env.blkid path).1, [])
    else (consume env fuel (strip env.patterns (path ++ ": ".toList) vars)).map (0, ·)
  else some ((env.blkidExport path).1, [(env.blkidExport path).2])

structure Var where
  key : CStr
  value : CStr
  key_ok : key ≠ [] ∧ ∀ c ∈ key, isNameChar c = true
  value_ok : ∀ c ∈ value, c ≠ '"' ∧ c ≠ '\n' ∧ c ≠ '\x00'

def Var.text (x : Var) : CStr := x.key ++ '=' :: '"' :: (x.value ++ ['"'])

def varsText (vars : List Var) : CStr := [' '].intercalate (vars.map Var.text)

/-- The variables behind another one. -/
def restText (vars : List Var) : CStr := vars.flatMap (' ' :: ·.text)

/-- What blkid of busybox prints for a path. -/
def blkidOutput (path : CStr) (vars : List Var) : CStr :=
  path ++ ": ".toList ++ varsText vars ++ ['\n']

def groupLines (groups : List (List Var)) : List CStr :=
  groups.map (fun group => varsText group ++ ['\n'])

/-- The helper ends with success, and its lines are the variables, each once and in order. -/
def Consumed (env : Env) (path : CStr) (vars : List Var) : Prop :=
  ∃ (fuel : ℕ) (groups : List (List Var)), vdevBlkid env path fuel =
      some (0, groupLines groups) ∧ (∀ group ∈ groups, group ≠ []) ∧ groups.flatten = vars

/-- The characters that mean something else in a command of `sed` or to `echo`, but for the dot. -/
def special : List Char := ['*', '[', '\\', '/']

def Ordinary (x : Var) : Prop := ∀ c ∈ x.value, c ∉ special

instance (x : Var) : Decidable (Ordinary x) := inferInstanceAs (Decidable (∀ c ∈ x.value, _))

/-- The text of the first variable, as a pattern, matches nothing in the variables behind it. -/
def FirstOnce (vars : List Var) : Prop :=
  ∀ x rest, vars = x :: rest → x.value ≠ [] → ¬Occurs x.text (restText rest)

section Texts

theorem varsText_cons (x : Var) (rest : List Var) :
    varsText (x :: rest) = x.text ++ restText rest := by
  rw [varsText, List.map_cons, intercalate_cons_flatMap, List.flatMap_map]
  rfl

theorem restText_eq (vars : List Var) (hne : vars ≠ []) : restText vars = ' ' :: varsText vars := by
  obtain ⟨x, rest, rfl⟩ := List.exists_cons_of_ne_nil hne
  rw [varsText_cons, restText, List.flatMap_cons]
  rfl

/-- A line that is the text of the first variable has no other. -/
theorem group_eq_singleton {x : Var} {rest group more : List Var} (hne : group ≠ [])
    (hflat : group ++ more = x :: rest) (htext : varsText group = x.text) : group = [x] := by
  obtain ⟨y, others, rfl⟩ := List.exists_cons_of_ne_nil hne
  rw [List.cons_append, List.cons.injEq] at hflat
  rw [varsText_cons, hflat.1] at htext
  have hnone : restText others = [] := List.append_right_eq_self.mp htext
  have hothers : others = [] := by
    by_contra hothers
    rw [restText_eq others hothers] at hnone
    exact List.cons_ne_nil _ _ hnone
  rw [hothers, hflat.1]

theorem key_ne {x : Var} {c d : Char} (hc : c ∈ x.key) (hd : isNameChar d = false) : c ≠ d := by
  rintro rfl
  rw [x.key_ok.2 c hc] at hd
  cases hd

/-- A text that the shell and `sed` leave as it is. -/
def Clean (s : CStr) : Prop := ∀ c ∈ s, c ∉ special ++ ['\n', '\x00']

instance (s : CStr) : Decidable (Clean s) := inferInstanceAs (Decidable (∀ c ∈ s, _))

theorem Clean.plain {s : CStr} (h : Clean s) : Plain s := by
  intro c hc
  have hclean := h c hc
  refine ⟨?_, ?_, ?_⟩ <;> rintro rfl <;> exact hclean (by decide)

theorem Clean.star {s : CStr} (h : Clean s) : '*' ∉ s := fun hmem => h _ hmem (by decide)

theorem clean_text {x : Var} (h : Ordinary x) : Clean x.text := by
  intro c hc
  rw [Var.text, List.mem_append, List.mem_cons, List.mem_cons, List.mem_append,
    List.mem_singleton] at hc
  rcases hc with hc | rfl | rfl | hc | rfl
  · have hnames : ∀ d ∈ special ++ ['\n', '\x00'], isNameChar d = false := by decide
    exact fun hmem => key_ne hc (hnames c hmem) rfl
  · decide
  · decide
  · have hvalue := x.value_ok c hc
    intro hmem
    rcases List.mem_append.mp hmem with hmem | hmem
    · exact h c hc hmem
    · rcases List.mem_cons.mp hmem with rfl | hmem
      · exact hvalue.2.1 rfl
      · exact hvalue.2.2 (List.mem_singleton.mp hmem)
  · decide

theorem clean_restText {vars : List Var} (h : ∀ x ∈ vars, Ordinary x) : Clean (restText vars) := by
  intro c hc
  obtain ⟨x, hx, hc⟩ := List.mem_flatMap.mp hc
  rcases List.mem_cons.mp hc with rfl | hc
  · decide
  · exact clean_text (h x hx) c hc

theorem clean_varsText {vars : List Var} (h : ∀ x ∈ vars, Ordinary x) : Clean (varsText vars) := by
  cases vars with
  | nil => exact fun c hc => absurd hc List.not_mem_nil
  | cons x rest =>
    rw [varsText_cons]
    intro c hc
    rcases List.mem_append.mp hc with hc | hc
    · exact clean_text (h x List.mem_cons_self) c hc
    · exact clean_restText (fun y hy => h y (List.mem_cons_of_mem _ hy)) c hc

end Texts

section FirstVar

/-- A line that begins with a blank has no variable at its beginning. -/
theorem firstVar_blank (s : CStr) : firstVar (' ' :: s) = ' ' :: s := rfl

theorem key_parts (x : Var) (s : CStr) :
    (x.text ++ s).takeWhile (fun c => c != ' ' && c != '=') = x.key ∧
      (x.text ++ s).dropWhile (fun c => c != ' ' && c != '=') =
        '=' :: '"' :: (x.value ++ '"' :: s) := by
  have htext : x.text ++ s = x.key ++ '=' :: '"' :: (x.value ++ '"' :: s) := by
    simp [Var.text]
  rw [htext]
  refine Parsing.takeWhile_append_stop _ x.key _ '=' (fun c hc => ?_) (by decide)
  simp [key_ne hc (show isNameChar ' ' = false by decide),
    key_ne hc (show isNameChar '=' = false by decide)]

theorem value_parts (x : Var) (s : CStr) :
    (x.value ++ '"' :: s).takeWhile (· != '"') = x.value ∧
      (x.value ++ '"' :: s).dropWhile (· != '"') = '"' :: s :=
  Parsing.takeWhile_append_stop _ x.value s '"' (fun c hc => by simp [(x.value_ok c hc).1])
    (by decide)

/-- The first of several variables is found when its value is not empty. -/
theorem firstVar_first (x : Var) (hvalue : x.value ≠ []) (c : Char) (s : CStr) :
    firstVar (x.text ++ ' ' :: c :: s) = x.text := by
  have hkey := key_parts x (' ' :: c :: s)
  have hparts := value_parts x (' ' :: c :: s)
  simp only [firstVar, hkey, hparts, x.key_ok.1, hvalue, or_self, if_false]
  rfl

theorem firstVar_empty (x : Var) (hvalue : x.value = []) (s : CStr) :
    firstVar (x.text ++ s) = x.text ++ s := by
  have hkey := key_parts x s
  have hparts := value_parts x s
  simp only [firstVar, hkey, hparts]
  split
  · exact if_pos (Or.inr hvalue)
  · rfl

/-- The only variable is taken as the line that it is. -/
theorem firstVar_alone (x : Var) : firstVar x.text = x.text := by
  have hkey := key_parts x []
  have hparts := value_parts x []
  rw [List.append_nil] at hkey
  simp only [firstVar, hkey, hparts]

end FirstVar

section Rounds

variable (env : Env)

/-- One round, on a text that echo prints as it is. -/
theorem consume_succ (fuel : ℕ) {vars varent : CStr} (hne : vars ≠ []) (hplain : Plain vars)
    (hoption : vars ≠ "-n".toList) (hfirst : firstVar vars = varent) (hvarent : '\n' ∉ varent) :
    consume env (fuel + 1) vars =
      (consume env fuel (substituted (env.sed.run (deletion varent) (vars ++ ['\n'])))).map
        (env.echo.print (strip env.patterns [' '] varent) :: ·) := by
  have hline : '\n' ∉ vars := fun hmem => (hplain _ hmem).2.1 rfl
  have hround : substituted (sedLines firstVar (vars ++ ['\n'])) = varent := by
    rw [sedLines_line _ vars hline, hfirst, substituted_line varent hvarent]
  rw [consume, if_neg hne, env.echo.print_of_plain hplain hoption]
  dsimp only
  rw [hround]

/-- A round that `sed` does not help never ends. -/
theorem consume_stuck {vars : CStr} (hne : vars ≠ []) (hplain : Plain vars)
    (hoption : vars ≠ "-n".toList) (hfirst : firstVar vars = vars) (hbasic : Basic vars)
    (hdelete : deleteAll vars vars = vars) (fuel : ℕ) : consume env fuel vars = none := by
  have hline : '\n' ∉ vars := fun hmem => (hplain _ hmem).2.1 rfl
  induction fuel with
  | zero => rfl
  | succ fuel ih =>
    rw [consume_succ env fuel hne hplain hoption hfirst hline,
      env.sed.substituted_run hbasic hline, hdelete, ih]
    rfl

theorem text_ne_option {s : CStr} (h : '"' ∈ s) : s ≠ "-n".toList := by
  rintro rfl
  exact absurd h (by decide)

theorem quote_mem_text (x : Var) : '"' ∈ x.text := by
  simp [Var.text]

theorem quote_mem_varsText {vars : List Var} (hne : vars ≠ []) : '"' ∈ varsText vars := by
  obtain ⟨x, rest, rfl⟩ := List.exists_cons_of_ne_nil hne
  rw [varsText_cons]
  exact List.mem_append_left _ (quote_mem_text x)

theorem varsText_head (x : Var) (rest : List Var) :
    ∃ c s, varsText (x :: rest) = c :: s ∧ isNameChar c = true := by
  obtain ⟨c, key, hkey⟩ := List.exists_cons_of_ne_nil x.key_ok.1
  rw [varsText_cons, Var.text, hkey]
  exact ⟨c, _, rfl, x.key_ok.2 c (hkey ▸ List.mem_cons_self)⟩

theorem text_last (x : Var) : x.text.getLast? = some '"' := by
  have htext : x.text = (x.key ++ '=' :: '"' :: x.value) ++ ['"'] := by
    simp [Var.text]
  rw [htext, List.getLast?_concat]

theorem varsText_last {vars : List Var} (hne : vars ≠ []) :
    (varsText vars).getLast? = some '"' := by
  induction vars with
  | nil => exact absurd rfl hne
  | cons x rest ih =>
    rw [varsText_cons]
    cases hrest : rest with
    | nil =>
      rw [restText, List.flatMap_nil, List.append_nil]
      exact text_last x
    | cons y more =>
      have hlast := ih (hrest ▸ List.cons_ne_nil y more)
      rw [← hrest, restText_eq rest (hrest ▸ List.cons_ne_nil y more), List.getLast?_append,
        List.getLast?_cons, hlast]
      rfl

/-- A text of variables is a pattern that `sed` deletes. -/
theorem basic_of_clean {c : Char} {s : CStr} (hclean : Clean (c :: s)) (hc : c ≠ '^')
    (hlast : (c :: s).getLast? = some '"') : Basic (c :: s) := by
  refine ⟨List.cons_ne_nil _ _, fun d hd hmem => ?_, ?_, ?_, ?_, fun hstars => ?_⟩
  · have hspecial : ∀ d ∈ "[\\/\n".toList, d ∈ special ++ ['\n', '\x00'] := by decide
    exact hclean d hd (hspecial d hmem)
  · simpa using hc
  · rw [List.head?_cons, Ne, Option.some.injEq]
    rintro rfl
    exact hclean.star List.mem_cons_self
  · rw [hlast]
    decide
  · exact hclean.star (hstars.subset (by decide))

theorem basic_varsText {vars : List Var} (hne : vars ≠ []) (h : ∀ x ∈ vars, Ordinary x) :
    Basic (varsText vars) := by
  have hclean := clean_varsText h
  have hlast := varsText_last hne
  obtain ⟨x, rest, rfl⟩ := List.exists_cons_of_ne_nil hne
  obtain ⟨c, s, hs, hc⟩ := varsText_head x rest
  rw [hs] at hclean hlast ⊢
  refine basic_of_clean hclean ?_ hlast
  rintro rfl
  exact absurd hc (by decide)

theorem strip_blank {x : Var} (rest : List Var) :
    strip env.patterns [' '] (varsText (x :: rest)) = varsText (x :: rest) := by
  obtain ⟨c, s, hs, hc⟩ := varsText_head x rest
  refine strip_of_not_isPrefix env.patterns (by decide) fun hpre => ?_
  rw [hs, List.cons_prefix_cons] at hpre
  rw [← hpre.1] at hc
  exact absurd hc (by decide)

/-- A round that takes the whole text for one variable, and deletes it. -/
theorem consume_whole (fuel : ℕ) {x : Var} {rest : List Var} (h : ∀ y ∈ x :: rest, Ordinary y)
    (hfirst : firstVar (varsText (x :: rest)) = varsText (x :: rest)) :
    consume env (fuel + 1) (varsText (x :: rest)) =
      (consume env fuel []).map ((varsText (x :: rest) ++ ['\n']) :: ·) := by
  have hclean := clean_varsText h
  have hquote := quote_mem_varsText (List.cons_ne_nil x rest)
  have hline : '\n' ∉ varsText (x :: rest) := fun hmem => (hclean.plain _ hmem).2.1 rfl
  rw [consume_succ env fuel (List.ne_nil_of_mem hquote) hclean.plain (text_ne_option hquote) hfirst
      hline, env.sed.substituted_run (basic_varsText (List.cons_ne_nil _ _) h) hline,
    deleteAll_self hclean.star, strip_blank,
    env.echo.print_of_plain hclean.plain (text_ne_option hquote)]

/-- A round on what begins with a blank. -/
theorem consume_rest (fuel : ℕ) {vars : List Var} (hne : vars ≠ []) (h : ∀ x ∈ vars, Ordinary x) :
    consume env (fuel + 1) (restText vars) =
      (consume env fuel []).map ((varsText vars ++ ['\n']) :: ·) := by
  have hclean := clean_restText h
  have hquote := quote_mem_varsText hne
  have hlast := varsText_last hne
  have hline : '\n' ∉ restText vars := fun hmem => (hclean.plain _ hmem).2.1 rfl
  rw [restText_eq vars hne] at hclean hline ⊢
  have hbasic : Basic (' ' :: varsText vars) := by
    refine basic_of_clean hclean (by decide) ?_
    rw [List.getLast?_cons, hlast]
    rfl
  rw [consume_succ env fuel (List.cons_ne_nil _ _) hclean.plain
      (text_ne_option (List.mem_cons_of_mem _ hquote)) (firstVar_blank _) hline,
    env.sed.substituted_run hbasic hline, deleteAll_self hclean.star,
    show ' ' :: varsText vars = [' '] ++ varsText vars from rfl,
    strip_append env.patterns _ (by decide),
    env.echo.print_of_plain (clean_varsText h).plain (text_ne_option hquote)]

/-- The round that finds the first of several variables. -/
theorem consume_first (fuel : ℕ) {x : Var} {rest : List Var} (h : ∀ y ∈ x :: rest, Ordinary y)
    (hvalue : x.value ≠ []) (hne : rest ≠ []) :
    consume env (fuel + 1) (varsText (x :: rest)) =
      (consume env fuel (deleteAll x.text (restText rest))).map ((x.text ++ ['\n']) :: ·) := by
  have hclean := clean_varsText h
  have hx : ∀ y ∈ [x], Ordinary y := fun y hy => by
    rw [List.mem_singleton.mp hy]
    exact h x List.mem_cons_self
  have halone : varsText [x] = x.text := List.append_nil x.text ▸ varsText_cons x []
  have hbasic := basic_varsText (List.cons_ne_nil x []) hx
  have hcleanx := clean_varsText hx
  have hstrip := strip_blank env (x := x) []
  rw [halone] at hbasic hcleanx hstrip
  have hquote := quote_mem_varsText (List.cons_ne_nil x rest)
  have hline : '\n' ∉ varsText (x :: rest) := fun hmem => (hclean.plain _ hmem).2.1 rfl
  have hfirst : firstVar (varsText (x :: rest)) = x.text := by
    obtain ⟨y, more, rfl⟩ := List.exists_cons_of_ne_nil hne
    obtain ⟨c, s, hs, -⟩ := varsText_head y more
    rw [varsText_cons, restText_eq _ (List.cons_ne_nil y more), hs]
    exact firstVar_first x hvalue c s
  rw [consume_succ env fuel (List.ne_nil_of_mem hquote) hclean.plain (text_ne_option hquote) hfirst
      (fun hmem => (hcleanx.plain _ hmem).2.1 rfl), env.sed.substituted_run hbasic hline,
    varsText_cons, deleteAll_append hcleanx.star, hstrip,
    env.echo.print_of_plain hcleanx.plain (text_ne_option (quote_mem_text x))]

theorem eq_nil_of_consume_nil {fuel : ℕ} {prints : List CStr}
    (h : consume env fuel [] = some prints) : prints = [] := by
  cases fuel with
  | zero => cases h
  | succ fuel =>
    rw [consume, if_pos rfl] at h
    exact (Option.some.inj h).symm

/-- What begins with a blank is taken whole, so if variables are echoed it is made of just these. -/
theorem eq_restText_of_consume {fuel : ℕ} {s : CStr} {groups : List (List Var)}
    (hclean : Clean (' ' :: s)) (hrun : consume env fuel (' ' :: s) = some (groupLines groups))
    (hne : ∀ group ∈ groups, group ≠ []) (hflat : groups.flatten ≠ [])
    (h : ∀ x ∈ groups.flatten, Ordinary x) : ' ' :: s = restText groups.flatten := by
  have hline : '\n' ∉ ' ' :: s := fun hmem => (hclean.plain _ hmem).2.1 rfl
  have hplain : Plain s := fun c hc => hclean.plain c (List.mem_cons_of_mem _ hc)
  cases fuel with
  | zero => cases hrun
  | succ fuel =>
    cases groups with
    | nil => exact absurd rfl hflat
    | cons group more =>
      have hgroup := hne group List.mem_cons_self
      have hround := hrun
      rw [consume_succ env fuel (List.cons_ne_nil _ _) hclean.plain (by simp) (firstVar_blank s)
          hline, show ' ' :: s = [' '] ++ s from rfl, strip_append env.patterns _ (by decide)]
        at hround
      obtain ⟨lines, -, hlines⟩ := Option.map_eq_some_iff.mp hround
      have hprint : env.echo.print s = varsText group ++ ['\n'] := (List.cons.inj hlines).1
      have hquote : '"' ∈ varsText group ++ ['\n'] :=
        List.mem_append_left _ (quote_mem_varsText hgroup)
      have hoption : s ≠ "-n".toList := by
        rintro rfl
        rw [← hprint] at hquote
        rcases env.echo_option with hecho | hecho <;> rw [hecho] at hquote
        · exact List.not_mem_nil hquote
        · exact absurd hquote (by decide)
      rw [env.echo.print_of_plain hplain hoption] at hprint
      have htext : ' ' :: s = restText group := by
        rw [restText_eq group hgroup, List.append_cancel_right hprint]
      -- then the whole text is deleted, and the loop ends
      rw [htext, consume_rest env fuel hgroup
        (fun x hx => h x (List.mem_flatten_of_mem List.mem_cons_self hx))] at hrun
      obtain ⟨lines, hnil, hlines⟩ := Option.map_eq_some_iff.mp hrun
      rw [eq_nil_of_consume_nil env hnil] at hlines
      have hmore : more = [] := List.map_eq_nil_iff.mp (List.cons.inj hlines).2.symm
      rw [hmore, htext, List.flatten_cons, List.flatten_nil, List.append_nil]

/-- A blank is not deleted by the text of a variable. -/
theorem deleteAll_blank {x : Var} (hx : Ordinary x) (s : CStr) :
    deleteAll x.text (' ' :: s) = ' ' :: deleteAll x.text s := by
  refine deleteFrom_not_fits (clean_text hx).star ' ' s ?_
  obtain ⟨c, key, hkey⟩ := List.exists_cons_of_ne_nil x.key_ok.1
  have hc : c ∈ x.key := hkey ▸ List.mem_cons_self
  rw [Var.text, hkey, List.cons_append, fits,
    beq_false_of_ne (key_ne hc (by decide : isNameChar '.' = false)),
    beq_false_of_ne (key_ne hc (by decide : isNameChar ' ' = false))]
  rfl

end Rounds

section Main

variable {env : Env} {path : CStr} {vars : List Var} (hlink : env.isSymlink = true)
  (hpath : PatternFree path)

include hlink hpath

/-- The prefix with the path is stripped. -/
theorem vdevBlkid_eq (hblkid : env.blkid path = (0, blkidOutput path vars)) (fuel : ℕ) :
    vdevBlkid env path fuel = (consume env fuel (varsText vars)).map (0, ·) := by
  have hend : (path ++ ": ".toList ++ varsText vars).getLast? ≠ some '\n' := by
    cases vars with
    | nil =>
      change (path ++ [':', ' '] ++ []).getLast? ≠ some '\n'
      rw [List.append_nil, List.getLast?_append]
      exact (by decide : some ' ' ≠ some '\n')
    | cons x rest =>
      rw [List.getLast?_append, varsText_last (List.cons_ne_nil x rest)]
      exact (by decide : some '"' ≠ some '\n')
  have hfree : PatternFree (path ++ ": ".toList) := by
    intro c hc
    rcases List.mem_append.mp hc with hc | hc
    · exact hpath c hc
    · exact (by decide : ∀ c ∈ ": ".toList, c ∉ "*?[\\".toList) c hc
  have hsubst : substituted (blkidOutput path vars) = path ++ ": ".toList ++ varsText vars := by
    rw [substituted, blkidOutput, List.rdropWhile_concat_pos _ _ _ (by decide),
      List.rdropWhile_eq_self_iff]
    intro hne hlast
    rw [List.getLast?_eq_some_getLast hne, beq_iff_eq.mp hlast] at hend
    exact hend rfl
  rw [vdevBlkid, if_pos hlink, hblkid]
  dsimp only
  rw [if_neg (fun h => h rfl), hsubst, strip_append env.patterns _ hfree]

theorem consumed_of_consume (hblkid : env.blkid path = (0, blkidOutput path vars)) (fuel : ℕ)
    (groups : List (List Var)) (h : consume env fuel (varsText vars) = some (groupLines groups))
    (hne : ∀ group ∈ groups, group ≠ []) (hflat : groups.flatten = vars) :
    Consumed env path vars := by
  refine ⟨fuel, groups, ?_, hne, hflat⟩
  rw [vdevBlkid_eq hlink hpath hblkid, h]
  rfl

/-- A second match would be missing in the rest. -/
theorem not_occurs_of_consumed {x : Var} {rest : List Var}
    (hblkid : env.blkid path = (0, blkidOutput path (x :: rest)))
    (h : ∀ y ∈ x :: rest, Ordinary y) (hvalue : x.value ≠ [])
    (hconsumed : Consumed env path (x :: rest)) : ¬Occurs x.text (restText rest) := by
  intro hoccurs
  have hx := h x List.mem_cons_self
  have hxne : x.text ≠ [] := List.ne_nil_of_mem (quote_mem_text x)
  have hshorter := length_deleteAll_lt (clean_text hx).star hxne _ hoccurs
  have hrest : rest ≠ [] := by
    rintro rfl
    exact absurd hshorter (Nat.not_lt_zero _)
  obtain ⟨fuel, groups, hrun, hne, hflat⟩ := hconsumed
  rw [vdevBlkid_eq hlink hpath hblkid] at hrun
  obtain ⟨prints, hconsume, hprints⟩ := Option.map_eq_some_iff.mp hrun
  rw [Prod.mk.injEq] at hprints
  rw [hprints.2] at hconsume
  cases fuel with
  | zero => cases hconsume
  | succ fuel =>
    rw [consume_first env fuel h hvalue hrest] at hconsume
    obtain ⟨lines, hlines, heq⟩ := Option.map_eq_some_iff.mp hconsume
    cases groups with
    | nil => cases heq
    | cons group more =>
      obtain ⟨hfirst, htail⟩ := List.cons.inj heq
      have hgroup : group = [x] := group_eq_singleton (hne group List.mem_cons_self) hflat
        (List.append_cancel_right hfirst).symm
      have hmore : more.flatten = rest := by
        rw [List.flatten_cons, hgroup, List.singleton_append, List.cons.injEq] at hflat
        exact hflat.2
      have hblank : deleteAll x.text (restText rest) =
          ' ' :: deleteAll x.text (varsText rest) := by
        rw [restText_eq rest hrest, deleteAll_blank hx]
      have hclean : Clean (deleteAll x.text (restText rest)) := fun c hc =>
        clean_restText (fun y hy => h y (List.mem_cons_of_mem _ hy)) c
          ((deleteFrom_sublist _ _ _).subset hc)
      rw [htail] at hlines
      rw [hblank] at hlines hclean hshorter
      have hleft := eq_restText_of_consume env hclean hlines
        (fun g hg => hne g (List.mem_cons_of_mem _ hg)) (by rw [hmore]; exact hrest)
        (by rw [hmore]; exact fun y hy => h y (List.mem_cons_of_mem _ hy))
      rw [hleft, hmore] at hshorter
      exact lt_irrefl _ hshorter

/-- With values that mean nothing to `sed` but for dots, the helper takes the variables apart
exactly when the first one is the only one, has an empty value, or matches nothing behind it. -/
theorem consumed_iff (hblkid : env.blkid path = (0, blkidOutput path vars))
    (h : ∀ x ∈ vars, Ordinary x) : Consumed env path vars ↔ FirstOnce vars := by
  constructor
  · rintro hconsumed x rest rfl hvalue
    exact not_occurs_of_consumed hlink hpath hblkid h hvalue hconsumed
  · intro honce
    cases hvars : vars with
    | nil =>
      subst hvars
      exact consumed_of_consume hlink hpath hblkid 1 [] rfl (by simp) rfl
    | cons x rest =>
      subst hvars
      by_cases hwhole : x.value = [] ∨ rest = []
      · have hfirst : firstVar (varsText (x :: rest)) = varsText (x :: rest) := by
          rw [varsText_cons]
          rcases hwhole with hvalue | rfl
          · exact firstVar_empty x hvalue _
          · rw [restText, List.flatMap_nil, List.append_nil]
            exact firstVar_alone x
        refine consumed_of_consume hlink hpath hblkid 2 [x :: rest] ?_
          (by simp) (by simp)
        rw [consume_whole env 1 h hfirst]
        rfl
      · obtain ⟨hvalue, hrest⟩ := not_or.mp hwhole
        refine consumed_of_consume hlink hpath hblkid 3 [[x], rest] ?_
          (by simpa using hrest) (by simp)
        have hkept := deleteAll_of_not_occurs (clean_text (h x List.mem_cons_self)).star _
          (honce x rest rfl hvalue)
        rw [consume_first env 2 h hvalue hrest, hkept,
          consume_rest env 1 hrest (fun y hy => h y (List.mem_cons_of_mem _ hy)), groupLines,
          List.map_cons, varsText_cons, restText, List.flatMap_nil, List.append_nil]
        rfl

end Main

def deletionSed : Sed where
  run := fun expr input =>
    let pattern := (expr.drop 2).take (expr.length - 5)
    if expr = deletion pattern then sedLines (deleteAll pattern) input else []
  run_deletion := fun pattern input _ => by
    have hlen : (deletion pattern).length - 5 = pattern.length := by
      have hstart : "s/".toList.length = 2 := rfl
      have hend : "//g".toList.length = 3 := rfl
      rw [deletion, List.length_append, List.length_append]
      omega
    have hcut : ((deletion pattern).drop 2).take ((deletion pattern).length - 5) = pattern := by
      rw [hlen, deletion, List.append_assoc]
      exact List.take_left
    rw [hcut, if_pos rfl]

def partitionEnv (vars : List Var) : Env where
  sed := deletionSed
  echo := Echo.simple
  echo_option := Or.inr rfl
  patterns := literal
  isSymlink := true
  blkid := fun path => (0, blkidOutput path vars)
  blkidExport := fun _ => (0, [])

/-- Two labels and a type. -/
def dotted : Var := ⟨"LABEL".toList, "a.b".toList, by decide, by decide⟩
def starred : Var := ⟨"LABEL".toList, "a*b".toList, by decide, by decide⟩
def fsType : Var := ⟨"TYPE".toList, "ext4".toList, by decide, by decide⟩

theorem consumed_iff_dotted : Consumed (partitionEnv [dotted, fsType]) "/dev/sda1".toList
    [dotted, fsType] := by
  have hordinary : ∀ x ∈ [dotted, fsType], Ordinary x := by
    intro x hx
    simp only [List.mem_cons, List.not_mem_nil, or_false] at hx
    rcases hx with rfl | rfl <;> decide
  have hlink : (partitionEnv [dotted, fsType]).isSymlink = true := rfl
  refine (consumed_iff hlink (by decide) rfl hordinary).mpr ?_
  intro x rest hvars _ hoccurs
  cases hvars
  have hshorter := length_deleteAll_lt (by decide) (by decide) _ hoccurs
  exact absurd hshorter (by decide)

/-- For the label `a*b` the loop never ends. -/
theorem consumed_fails : ¬∀ (env : Env) (path : CStr) (vars : List Var), env.isSymlink = true →
    env.blkid path = (0, blkidOutput path vars) → Consumed env path vars := by
  intro h
  obtain ⟨fuel, groups, hrun, -⟩ := h (partitionEnv [starred]) "/dev/sda1".toList [starred] rfl rfl
  have htext : varsText [starred] = starred.text := rfl
  have hstuck : consume (partitionEnv [starred]) fuel (varsText [starred]) = none :=
    consume_stuck _ (by decide) (by decide) (by decide) (htext ▸ firstVar_alone starred)
      (by decide) (by decide) fuel
  rw [vdevBlkid_eq rfl (by decide) rfl, hstuck] at hrun
  cases hrun

end Vdev.Blkid
