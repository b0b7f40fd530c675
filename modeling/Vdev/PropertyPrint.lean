import Vdev.Shell
import Mathlib.Data.Set.Basic

/-!
The properties that the stat helpers print for the shell (vdevd/helpers/LINUX/common.c): one
assignment of a single-quoted value for each property, and the list of their names. The values come
from devices and are printed as they are. Of the shell, the assignments of quoted texts without
expansions are described; any other text may do anything.
-/
namespace Vdev.PropertyPrint

open CString Shell

abbrev Property := CStr × CStr

/-- `vdev_property_add`: at the tail of the list. -/
def vdevPropertyAdd (props : List Property) (name value : CStr) : List Property :=
  props ++ [(name, value)]

def addAll (adds : List Property) : List Property :=
  adds.foldl (fun props add => vdevPropertyAdd props add.1 add.2) []

/-- `%s='%s'\n`. -/
def printed (prop : Property) : CStr :=
  prop.1 ++ "='".toList ++ prop.2 ++ ['\'', '\n']

/-- The names, with a blank behind each. -/
def nameList (props : List Property) : CStr := props.flatMap (·.1 ++ [' '])

/-- `vdev_property_print`. -/
def vdevPropertyPrint (props : List Property) : CStr :=
  if props = [] then []
  else props.flatMap printed ++ "VDEV_PROPERTIES=\"".toList ++ nameList props ++ ['"', '\n']

/-- How the text is quoted where the shell stands. -/
inductive Quoting
  | bare
  | single
  | double

/-- Where the shell stands: in the name of an assignment, or in its value. -/
inductive Place
  | name (name : CStr)
  | value (name value : CStr) (quoting : Quoting)

/-- The assignments that a text consists of, each on a line of its own. -/
def assignments : Place → CStr → Option (List Property)
  | .name name, [] => if name = [] then some [] else none
  | .name name, c :: rest =>
    if c = '=' then
      if isIdentifier name then assignments (.value name [] .bare) rest else none
    else if isNameChar c then assignments (.name (name ++ [c])) rest else none
  | .value name value .bare, [] => some [(name, value)]
  | .value _ _ _, [] => none
  | .value name value .bare, c :: rest =>
    if c = '\n' then (assignments (.name []) rest).map ((name, value) :: ·)
    else if c = '\'' then assignments (.value name value .single) rest
    else if c = '"' then assignments (.value name value .double) rest
    else if isNameChar c then assignments (.value name (value ++ [c]) .bare) rest else none
  | .value name value .single, c :: rest =>
    if c = '\'' then assignments (.value name value .bare) rest
    else assignments (.value name (value ++ [c]) .single) rest
  | .value name value .double, c :: rest =>
    if c = '"' then assignments (.value name value .bare) rest
    else if c ∈ quotable then none
    else assignments (.value name (value ++ [c]) .double) rest

/-- `eval` of a text. `other` is what the shell does with a text that is more than assignments. -/
def evalText (other : CStr → Sh ω → Sh ω) (text : CStr) (sh : Sh ω) : Sh ω :=
  match assignments (.name []) text with
  | some props => props.foldl (fun sh prop => sh.set prop.1 prop.2) sh
  | none => other text sh

def propertiesName : CStr := "VDEV_PROPERTIES".toList

/-- The names that `$VDEV_PROPERTIES` expands to. -/
def listed (sh : Sh ω) : List CStr := splitBlanks ((sh.vars propertiesName).getD [])

def lastValue (adds : List Property) (name : CStr) : Option CStr := adds.reverse.lookup name

/-- The properties survive the shell: no command is executed, each name has the value that was added
last, and the names are listed in order. -/
def Survives (other : CStr → Sh ω → Sh ω) (adds : List Property) (sh : Sh ω) : Prop :=
  (evalText other (vdevPropertyPrint (addAll adds)) sh).executed = sh.executed ∧
    (∀ name value, lastValue adds name = some value →
      (evalText other (vdevPropertyPrint (addAll adds)) sh).vars name = some value) ∧
    listed (evalText other (vdevPropertyPrint (addAll adds)) sh) = adds.map Prod.fst

/-- The text is made of these characters. A C string has no NUL. -/
def Over (chars : Set Char) (text : CStr) : Prop := ∀ c ∈ text, c ∈ chars ∧ c ≠ '\x00'

theorem addAll_eq (adds : List Property) : addAll adds = adds := by
  have hfold (start : List Property) :
      adds.foldl (fun props add => vdevPropertyAdd props add.1 add.2) start = start ++ adds := by
    induction adds generalizing start with
    | nil => exact (List.append_nil start).symm
    | cons add adds ih =>
      rw [List.foldl_cons, ih, vdevPropertyAdd, List.append_assoc]
      rfl
  exact hfold []

section Lexing

variable (name value rest : CStr)

theorem assignments_name_cons (c : Char) : assignments (.name name) (c :: rest) =
    if c = '=' then
      if isIdentifier name then assignments (.value name [] .bare) rest else none
    else if isNameChar c then assignments (.name (name ++ [c])) rest else none := rfl

theorem assignments_bare_cons (c : Char) : assignments (.value name value .bare) (c :: rest) =
    if c = '\n' then (assignments (.name []) rest).map ((name, value) :: ·)
    else if c = '\'' then assignments (.value name value .single) rest
    else if c = '"' then assignments (.value name value .double) rest
    else if isNameChar c then assignments (.value name (value ++ [c]) .bare) rest else none := rfl

theorem assignments_single_cons (c : Char) :
    assignments (.value name value .single) (c :: rest) =
      if c = '\'' then assignments (.value name value .bare) rest
      else assignments (.value name (value ++ [c]) .single) rest := rfl

theorem assignments_double_cons (c : Char) :
    assignments (.value name value .double) (c :: rest) =
      if c = '"' then assignments (.value name value .bare) rest
      else if c ∈ quotable then none
      else assignments (.value name (value ++ [c]) .double) rest := rfl

/-- A value ends with its line. -/
theorem assignments_newline :
    assignments (.value name value .bare) ('\n' :: rest) =
      (assignments (.name []) rest).map ((name, value) :: ·) := by
  rw [assignments_bare_cons, if_pos rfl]

/-- A single quote opens a quoting. -/
theorem assignments_quote :
    assignments (.value name value .bare) ('\'' :: rest) =
      assignments (.value name value .single) rest := by
  rw [assignments_bare_cons, if_neg (by decide), if_pos rfl]

end Lexing

section Texts

theorem assignments_name (pre name rest : CStr) (hid : isIdentifier (pre ++ name) = true) :
    assignments (.name pre) (name ++ '=' :: rest) =
      assignments (.value (pre ++ name) [] .bare) rest := by
  induction name generalizing pre with
  | nil =>
    rw [List.append_nil] at hid ⊢
    rw [List.nil_append, assignments_name_cons, if_pos rfl, if_pos hid]
  | cons c name ih =>
    have hc := isNameChar_of_mem (pre ++ c :: name) c hid (by simp)
    have hne : c ≠ '=' := by
      rintro rfl
      exact absurd hc (by decide)
    rw [List.append_cons pre c name] at hid ⊢
    rw [List.cons_append, assignments_name_cons, if_neg hne, if_pos hc, ih (pre ++ [c]) hid]

/-- Single quotes keep everything but single quotes. -/
theorem assignments_single (name value quoted rest : CStr) (h : '\'' ∉ quoted) :
    assignments (.value name value .single) (quoted ++ '\'' :: rest) =
      assignments (.value name (value ++ quoted) .bare) rest := by
  induction quoted generalizing value with
  | nil => rw [List.nil_append, List.append_nil, assignments_single_cons, if_pos rfl]
  | cons c quoted ih =>
    have hc : c ≠ '\'' := fun heq => h (heq ▸ List.mem_cons_self)
    rw [List.cons_append, assignments_single_cons, if_neg hc,
      ih (value ++ [c]) (fun hmem => h (List.mem_cons_of_mem _ hmem)), List.append_assoc]
    rfl

theorem assignments_double (name value quoted rest : CStr) (h : ∀ c ∈ quoted, c ∉ quotable) :
    assignments (.value name value .double) (quoted ++ '"' :: rest) =
      assignments (.value name (value ++ quoted) .bare) rest := by
  induction quoted generalizing value with
  | nil => rw [List.nil_append, List.append_nil, assignments_double_cons, if_pos rfl]
  | cons c quoted ih =>
    have hc := h c List.mem_cons_self
    have hquote : c ≠ '"' := by
      rintro rfl
      exact hc (by decide)
    rw [List.cons_append, assignments_double_cons, if_neg hquote, if_neg hc,
      ih (value ++ [c]) (fun d hd => h d (List.mem_cons_of_mem _ hd)), List.append_assoc]
    rfl

/-- Between single quotes, the shell reads `read` where `text` stands. -/
def ReadsAs (text read : CStr) : Prop :=
  ∀ name rest, assignments (.value name [] .single) (text ++ '\'' :: rest) =
    assignments (.value name read .bare) rest

theorem readsAs_self (text : CStr) (h : '\'' ∉ text) : ReadsAs text text :=
  fun name rest => assignments_single name [] text rest h

/-- Two single quotes are nothing. -/
theorem readsAs_quotes : ReadsAs ['\'', '\''] [] := by
  intro name rest
  rw [List.cons_append, List.cons_append, assignments_single_cons, if_pos rfl, assignments_quote]
  exact assignments_single name [] [] rest List.not_mem_nil

theorem assignments_printed (name text read rest : CStr) (hname : isIdentifier name = true)
    (hread : ReadsAs text read) :
    assignments (.name []) (printed (name, text) ++ rest) =
      (assignments (.name []) rest).map ((name, read) :: ·) := by
  have htext : printed (name, text) ++ rest =
      name ++ '=' :: '\'' :: (text ++ '\'' :: '\n' :: rest) := by
    simp [printed]
  rw [htext, assignments_name [] name _ hname, List.nil_append]
  rw [assignments_quote, hread, assignments_newline]

theorem nameList_plain (props : List Property)
    (hnames : ∀ prop ∈ props, isIdentifier prop.1 = true) : ∀ c ∈ nameList props, c ∉ quotable := by
  intro c hc hquotable
  obtain ⟨prop, hprop, hc⟩ := List.mem_flatMap.mp hc
  have hplain : isNameChar c = false ∧ c ≠ ' ' := by
    simp only [quotable, List.mem_cons, List.not_mem_nil, or_false] at hquotable
    rcases hquotable with rfl | rfl | rfl | rfl <;> exact ⟨by decide, by decide⟩
  rcases List.mem_append.mp hc with hc | hc
  · exact not_mem_of_isIdentifier prop.1 c (hnames prop hprop) hplain.1 hc
  · exact hplain.2 (List.mem_singleton.mp hc)

theorem assignments_list (names : CStr) (h : ∀ c ∈ names, c ∉ quotable) :
    assignments (.name []) ("VDEV_PROPERTIES=\"".toList ++ names ++ ['"', '\n']) =
      some [(propertiesName, names)] := by
  have htext : "VDEV_PROPERTIES=\"".toList ++ names ++ ['"', '\n'] =
      propertiesName ++ '=' :: '"' :: (names ++ '"' :: ['\n']) := by
    have hstart : "VDEV_PROPERTIES=\"".toList = propertiesName ++ ['=', '"'] := by decide +kernel
    rw [hstart, List.append_assoc, List.append_assoc]
    rfl
  have hname : isIdentifier propertiesName = true := by decide +kernel
  rw [htext, assignments_name [] propertiesName _ hname, List.nil_append]
  have hopen (tail : CStr) : assignments (.value propertiesName [] .bare) ('"' :: tail) =
      assignments (.value propertiesName [] .double) tail := by
    rw [assignments_bare_cons, if_neg (by decide), if_neg (by decide), if_pos rfl]
  rw [hopen, assignments_double _ _ _ _ h, List.nil_append, assignments_newline]
  rfl

/-- What the shell makes of the printed properties. -/
theorem assignments_print (props : List Property) (read : CStr → CStr) (hne : props ≠ [])
    (hnames : ∀ prop ∈ props, isIdentifier prop.1 = true)
    (hread : ∀ prop ∈ props, ReadsAs prop.2 (read prop.2)) :
    assignments (.name []) (vdevPropertyPrint props) =
      some (props.map (fun prop => (prop.1, read prop.2)) ++
        [(propertiesName, nameList props)]) := by
  have hlines (rest : CStr) (tail : List Property)
      (hrest : assignments (.name []) rest = some tail) :
      assignments (.name []) (props.flatMap printed ++ rest) =
        some (props.map (fun prop => (prop.1, read prop.2)) ++ tail) := by
    clear hne
    induction props with
    | nil => exact hrest
    | cons prop props ih =>
      have ih := ih (fun other h => hnames other (List.mem_cons_of_mem _ h))
        (fun other h => hread other (List.mem_cons_of_mem _ h))
      rw [List.flatMap_cons, List.append_assoc,
        assignments_printed prop.1 prop.2 (read prop.2) _ (hnames prop List.mem_cons_self)
          (hread prop List.mem_cons_self), ih]
      rfl
  rw [vdevPropertyPrint, if_neg hne, List.append_assoc, List.append_assoc,
    ← List.append_assoc "VDEV_PROPERTIES=\"".toList]
  exact hlines _ _ (assignments_list _ (nameList_plain props hnames))

end Texts

section Variables

variable (sh : Sh ω)

theorem foldl_set_executed (props : List Property) :
    (props.foldl (fun sh prop => sh.set prop.1 prop.2) sh).executed = sh.executed := by
  induction props generalizing sh with
  | nil => rfl
  | cons prop props ih => rw [List.foldl_cons, ih, Sh.set_executed]

/-- Of some assignments to a name the last one counts. -/
theorem foldl_set_vars (props : List Property) (name value : CStr)
    (h : lastValue props name = some value) :
    (props.foldl (fun sh prop => sh.set prop.1 prop.2) sh).vars name = some value := by
  induction props using List.reverseRecOn with
  | nil => cases h
  | append_singleton props prop ih =>
    rw [List.foldl_append, List.foldl_cons, List.foldl_nil]
    rw [lastValue, List.reverse_append, List.reverse_singleton, List.singleton_append,
      List.lookup_cons] at h
    by_cases hname : name = prop.1
    · subst hname
      rw [beq_self_eq_true] at h
      rw [Sh.set_vars_self]
      exact h
    · rw [beq_false_of_ne hname] at h
      rw [Sh.set_vars_of_ne _ _ _ _ hname]
      exact ih h

theorem lastValue_append_of_ne (props : List Property) (last : Property) (name : CStr)
    (h : name ≠ last.1) : lastValue (props ++ [last]) name = lastValue props name := by
  rw [lastValue, List.reverse_append, List.reverse_singleton, List.singleton_append,
    List.lookup_cons, beq_false_of_ne h]
  rfl

theorem lastValue_append_self (props : List Property) (name value : CStr) :
    lastValue (props ++ [(name, value)]) name = some value := by
  rw [lastValue, List.reverse_append, List.reverse_singleton, List.singleton_append,
    List.lookup_cons, beq_self_eq_true]

theorem mem_of_lastValue (props : List Property) (name value : CStr)
    (h : lastValue props name = some value) : name ∈ props.map Prod.fst := by
  obtain ⟨p, q, hsplit, -⟩ := List.lookup_eq_some_iff.mp h
  have hmem : (name, value) ∈ props := by
    rw [← List.mem_reverse, hsplit]
    simp
  exact List.mem_map_of_mem hmem

/-- A name in a list in which all have one value. -/
theorem lastValue_map_const (names : List CStr) (value name : CStr) (h : name ∈ names) :
    lastValue (names.map (·, value)) name = some value := by
  have hmem : name ∈ names.reverse := List.mem_reverse.mpr h
  rw [lastValue, ← List.map_reverse]
  generalize names.reverse = names at hmem
  induction names with
  | nil => exact absurd hmem List.not_mem_nil
  | cons other names ih =>
    rw [List.map_cons, List.lookup_cons]
    by_cases hname : name = other
    · rw [hname, beq_self_eq_true]
    · rw [beq_false_of_ne hname]
      exact ih ((List.mem_cons.mp hmem).resolve_left hname)

end Variables

section Survival

variable (other : CStr → Sh ω → Sh ω) (sh : Sh ω)

/-- The state after the assignments that the shell reads. -/
theorem evalText_print (adds : List Property) (read : CStr → CStr) (hne : adds ≠ [])
    (hnames : ∀ add ∈ adds, isIdentifier add.1 = true)
    (hread : ∀ add ∈ adds, ReadsAs add.2 (read add.2)) :
    evalText other (vdevPropertyPrint (addAll adds)) sh =
      ((adds.map (fun add => (add.1, read add.2))) ++ [(propertiesName, nameList adds)]).foldl
        (fun sh prop => sh.set prop.1 prop.2) sh := by
  rw [addAll_eq, evalText, assignments_print adds read hne hnames hread]

theorem splitBlanks_nameList (adds : List Property)
    (hnames : ∀ add ∈ adds, isIdentifier add.1 = true) :
    splitBlanks (nameList adds) = adds.map Prod.fst := by
  have hmap : nameList adds = (adds.map Prod.fst).flatMap (· ++ [' ']) := by
    rw [nameList, List.flatMap_map]
  rw [hmap, splitBlanks_flatMap]
  intro name hname
  obtain ⟨add, hadd, rfl⟩ := List.mem_map.mp hname
  have hid := hnames add hadd
  exact ⟨ne_nil_of_isIdentifier _ hid, not_mem_of_isIdentifier _ _ hid (by decide)⟩

/-- Values without single quotes survive. -/
theorem survives_of_free (adds : List Property) (hne : adds ≠ [])
    (hnames : ∀ add ∈ adds, isIdentifier add.1 = true) (hfree : ∀ add ∈ adds, '\'' ∉ add.2)
    (hlist : ∀ value, lastValue adds propertiesName = some value → value = nameList adds) :
    Survives other adds sh := by
  have heval := evalText_print other sh adds id hne hnames
    (fun add hadd => readsAs_self add.2 (hfree add hadd))
  have hid : adds.map (fun add => (add.1, id add.2)) = adds := List.map_id _
  rw [hid] at heval
  have hlast := foldl_set_vars sh _ propertiesName (nameList adds)
    (lastValue_append_self adds propertiesName (nameList adds))
  unfold Survives listed
  rw [heval]
  refine ⟨foldl_set_executed sh _, fun name value hvalue => ?_, ?_⟩
  · by_cases hname : name = propertiesName
    · subst hname
      rw [hlist value hvalue]
      exact hlast
    · refine foldl_set_vars sh _ name value ?_
      rw [lastValue_append_of_ne adds _ name hname]
      exact hvalue
  · rw [hlast, Option.getD_some]
    exact splitBlanks_nameList adds hnames

/-- Without properties nothing is printed. -/
theorem survives_nil : Survives other [] sh ↔ listed sh = [] := by
  have heval : evalText other (vdevPropertyPrint (addAll [])) sh = sh := rfl
  rw [Survives, heval]
  constructor
  · exact fun h => h.2.2
  · intro hlisted
    refine ⟨rfl, fun name value hvalue => ?_, hlisted⟩
    cases hvalue

theorem map_fst_const (names : List CStr) (value : CStr) :
    (names.map (·, value)).map Prod.fst = names := by
  rw [List.map_map]
  exact List.map_id names

variable {names : List CStr} (hnames : ∀ name ∈ names, isIdentifier name = true)

include hnames

theorem identifiers_of_map {adds : List Property} (h : adds.map Prod.fst = names) :
    ∀ add ∈ adds, isIdentifier add.1 = true := by
  intro add hadd
  refine hnames add.1 ?_
  rw [← h]
  exact List.mem_map_of_mem hadd

/-- What becomes of a name when all names are given one value. -/
theorem vars_of_const {text read : CStr} (hread : ReadsAs text read) {name : CStr}
    (hname : name ∈ names) (hsurvives : Survives other (names.map (·, text)) sh) :
    some text = if name = propertiesName then some (nameList (names.map (·, text)))
      else some read := by
  have hne : names.map (·, text) ≠ [] := fun hnil => by
    rw [List.map_eq_nil_iff.mp hnil] at hname
    exact List.not_mem_nil hname
  have hids := identifiers_of_map hnames (map_fst_const names text)
  have heval := evalText_print other sh (names.map (·, text)) (fun _ => read) hne hids
    (by simpa using fun _ _ => hread)
  have hvar := hsurvives.2.1 name text (lastValue_map_const names text name hname)
  rw [heval, List.map_map] at hvar
  rw [← hvar]
  split_ifs with hproperties
  · rw [hproperties]
    exact foldl_set_vars sh _ propertiesName _ (lastValue_append_self _ _ _)
  · refine foldl_set_vars sh _ name read ?_
    rw [lastValue_append_of_ne _ _ _ hproperties]
    exact lastValue_map_const names read name hname

/-- Whatever values of some characters the names are given, the properties survive exactly when the
single quote is none of the characters and the list has a name of its own. -/
theorem survives_iff (chars : Set Char) :
    (∀ adds : List Property, adds.map Prod.fst = names → (∀ add ∈ adds, Over chars add.2) →
        Survives other adds sh) ↔
      if names = [] then listed sh = [] else '\'' ∉ chars ∧ propertiesName ∉ names := by
  split_ifs with hnil
  · subst hnil
    rw [← survives_nil other sh]
    constructor
    · exact fun h => h [] rfl (fun _ hadd => absurd hadd List.not_mem_nil)
    · intro h adds hadds _
      rw [List.map_eq_nil_iff.mp hadds]
      exact h
  · constructor
    · intro h
      have hown : propertiesName ∉ names := by
        intro hmem
        have hsurvives := h (names.map (·, [])) (map_fst_const names []) (by simp [Over])
        have hvar := vars_of_const other sh hnames (readsAs_self [] List.not_mem_nil) hmem hsurvives
        rw [if_pos rfl, Option.some.injEq] at hvar
        have hlisted := splitBlanks_nameList (names.map (·, []))
          (identifiers_of_map hnames (map_fst_const names []))
        rw [← hvar, map_fst_const] at hlisted
        exact hnil hlisted.symm
      refine ⟨fun hquote => ?_, hown⟩
      obtain ⟨name, hname⟩ := List.exists_mem_of_ne_nil names hnil
      have hsurvives := h (names.map (·, ['\'', '\''])) (map_fst_const names _)
        (by simp [Over, hquote])
      have hvar := vars_of_const other sh hnames readsAs_quotes hname hsurvives
      have hne : name ≠ propertiesName := by
        rintro rfl
        exact hown hname
      rw [if_neg hne] at hvar
      cases hvar
    · rintro ⟨hquote, hown⟩ adds hadds hover
      refine survives_of_free other sh adds ?_ (identifiers_of_map hnames hadds)
        (fun add hadd hmem => hquote (hover add hadd _ hmem).1) (fun value hvalue => ?_)
      · rintro rfl
        exact hnil hadds.symm
      · refine absurd (mem_of_lastValue adds _ _ hvalue) ?_
        rw [hadds]
        exact hown

end Survival

def emptyShell : Sh Unit := ⟨fun _ => none, [], [], ()⟩

/-- The name of a model with a blank and a dollar sign. -/
theorem survives_iff_model :
    Survives (fun _ sh => sh) [("ID_MODEL".toList, "USB $1".toList)] emptyShell := by
  have hname : ∀ name ∈ ["ID_MODEL".toList], isIdentifier name = true := by decide +kernel
  have hall := (survives_iff (fun _ sh => sh) emptyShell hname {c | c ≠ '\''}).mpr (by
    rw [if_neg (List.cons_ne_nil _ _)]
    exact ⟨fun hquote => hquote rfl, by decide +kernel⟩)
  refine hall [("ID_MODEL".toList, "USB $1".toList)] rfl fun add hadd c hc => ?_
  rw [List.mem_singleton.mp hadd] at hc
  exact (by decide : ∀ c ∈ "USB $1".toList, c ≠ '\'' ∧ c ≠ '\x00') c hc

/-- Two quotes in the name of a model are lost. -/
theorem survives_fails : ¬∀ (other : CStr → Sh Unit → Sh Unit) (sh : Sh Unit)
    (adds : List Property), adds ≠ [] →
    (∀ add ∈ adds, isIdentifier add.1 = true ∧ add.1 ≠ propertiesName ∧ '\x00' ∉ add.2) →
    Survives other adds sh := by
  intro h
  have hname : isIdentifier "ID_MODEL".toList = true := by decide +kernel
  have hadd : "ID_MODEL".toList ≠ propertiesName := by decide +kernel
  have hsurvives := h (fun _ sh => sh) emptyShell [("ID_MODEL".toList, ['\'', '\''])]
    (List.cons_ne_nil _ _) (fun add hmem => by
      rw [List.mem_singleton.mp hmem]
      exact ⟨hname, hadd, by decide⟩)
  have hnames : ∀ name ∈ ["ID_MODEL".toList], isIdentifier name = true := by simpa using hname
  have hvar := vars_of_const (fun _ sh => sh) emptyShell hnames readsAs_quotes List.mem_cons_self
    hsurvives
  rw [if_neg hadd] at hvar
  cases hvar

end Vdev.PropertyPrint
