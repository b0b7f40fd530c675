import Vdev.EchoEscapes
import Vdev.EventText

/-!
The two ends of an event: what is generated for a device and handed on by event-put, and what
libudev makes of it.
-/
namespace Vdev.EventFormat

open CString Parsing SysfsDevice Shell EchoEscapes EventQueue

variable {δ : Type}

/-- An argument that is plain is printed as one line. -/
theorem print_line (echo : Echo) (arg : CStr) (hplain : Plain arg) (hne : arg ≠ [])
    (hhead : arg.head? ≠ some '-' ∨ '@' ∈ arg) :
    echo.print arg = lineText [arg] ∧ IsLine arg := by
  refine ⟨?_, hne, fun h => (hplain _ h).2.1 rfl, fun h => (hplain _ h).2.2 rfl⟩
  rw [echo.print_plain _ (fun h => (hplain _ h).1 rfl), lineText, List.flatMap_singleton]
  rintro rfl
  rcases hhead with h | h
  · exact h (by decide)
  · exact absurd h (by decide)

/-- The keys of the lines that `event_generate_text` prints itself. -/
def fieldKeys : List CStr :=
  ["ACTION=".toList, "DEVPATH=".toList, "SUBSYSTEM=".toList, "SEQNUM=".toList, "DEVNAME=".toList,
    "MAJOR=".toList, "MINOR=".toList, "IFINDEX=".toList, "DRIVER=".toList]

/-- A line of a field is printed as it stands, and names no tag. -/
theorem field_line (echo : Echo) (key : CStr) (v : Value) (h : key ∈ fieldKeys) :
    echo.print (key ++ v.text) = lineText [key ++ v.text] ∧ IsLine (key ++ v.text) ∧
      tagsOf (key ++ v.text) = ∅ := by
  have hkeys : ∀ key ∈ fieldKeys, Plain key ∧ key ≠ [] ∧ key.head? ≠ some '-' ∧
      ¬"TAGS=".toList <+: key ∧ ¬key <+: "TAGS=".toList := by decide
  obtain ⟨hplain, hne, hhead, hnot, hnot'⟩ := hkeys key h
  obtain ⟨hprint, hline⟩ := print_line echo (key ++ v.text) (hplain.append v.plain)
    (List.append_ne_nil_of_left_ne_nil hne _)
    (Or.inl (by rwa [List.head?_append_of_ne_nil key hne]))
  exact ⟨hprint, hline,
    tagsOf_eq_empty _ (not_prefix_of_incomparable (List.prefix_append key v.text) hnot' hnot)⟩

def fieldLine (key : CStr) (var : Value) : List CStr :=
  if var.text = [] then [] else [key ++ var.text]

theorem printNonempty_eq (echo : Echo) (key : CStr) (var : Value) (h : key ∈ fieldKeys) :
    printNonempty echo key var = lineText (fieldLine key var) ∧
      ∀ line ∈ fieldLine key var, IsLine line ∧ tagsOf line = ∅ := by
  unfold printNonempty fieldLine
  split_ifs
  · exact ⟨rfl, by simp⟩
  · obtain ⟨hprint, hline⟩ := field_line echo key var h
    exact ⟨hprint, by simpa using hline⟩

theorem print_header (echo : Echo) (action devpath : Value) :
    echo.print (action.text ++ '@' :: devpath.text) =
        lineText [action.text ++ '@' :: devpath.text] ∧
      IsLine (action.text ++ '@' :: devpath.text) := by
  have hat : '@' ∈ action.text ++ '@' :: devpath.text := by simp
  have hmark : Plain ('@' :: devpath.text) :=
    Plain.append (a := ['@']) (by decide) devpath.plain
  exact print_line echo _ (action.plain.append hmark) (List.ne_nil_of_mem hat) (Or.inr hat)

/-- An event is its header, lines of fields that name no tags, and what the metadata directory
brings in. -/
theorem exists_lines (echo : Echo) (args : Fields) (vars : Variables) (md : Metadata)
    (uptime : Uptime) :
    ∃ header lines, IsLine header ∧ (∀ line ∈ lines, IsLine line ∧ tagsOf line = ∅) ∧
      (∃ line ∈ lines, "DEVPATH=".toList <+: line) ∧
      (∃ line ∈ lines, "SUBSYSTEM=".toList <+: line) ∧
      eventGenerateText echo args vars md uptime = lineText (header :: lines) ++
        (metadataText echo md ++ eventPrintMonotonicUsec uptime) := by
  set action := args.action.orVariable vars.action with haction
  set devpath := args.devpath.orVariable vars.devpath with hdevpath
  set subsystem := args.subsystem.orVariable vars.subsystem with hsubsystem
  set seqnum := args.seqnum.orVariable vars.seqnum with hseqnum
  obtain ⟨hheader, hheaderLine⟩ := print_header echo action devpath
  obtain ⟨h₁, hl₁⟩ := field_line echo "ACTION=".toList action (by decide)
  obtain ⟨h₂, hl₂⟩ := field_line echo "DEVPATH=".toList devpath (by decide)
  obtain ⟨h₃, hl₃⟩ := field_line echo "SUBSYSTEM=".toList subsystem (by decide)
  obtain ⟨h₄, hl₄⟩ := field_line echo "SEQNUM=".toList seqnum (by decide)
  obtain ⟨h₅, hl₅⟩ := printNonempty_eq echo "DEVNAME=".toList vars.path (by decide)
  obtain ⟨h₆, hl₆⟩ := printNonempty_eq echo "MAJOR=".toList vars.major (by decide)
  obtain ⟨h₇, hl₇⟩ := printNonempty_eq echo "MINOR=".toList vars.minor (by decide)
  obtain ⟨h₈, hl₈⟩ := printNonempty_eq echo "IFINDEX=".toList vars.ifindex (by decide)
  obtain ⟨h₉, hl₉⟩ := printNonempty_eq echo "DRIVER=".toList vars.driver (by decide)
  set devname := if vars.path.text = "UNKNOWN".toList then []
    else fieldLine "DEVNAME=".toList vars.path with hdevname
  have hname : (if vars.path.text = "UNKNOWN".toList then []
      else printNonempty echo "DEVNAME=".toList vars.path) = lineText devname := by
    rw [hdevname]
    split_ifs
    · rfl
    · exact h₅
  have hl₅ : ∀ line ∈ devname, IsLine line ∧ tagsOf line = ∅ := by
    rw [hdevname]
    split_ifs
    · simp
    · exact hl₅
  refine ⟨action.text ++ '@' :: devpath.text,
    ["ACTION=".toList ++ action.text, "DEVPATH=".toList ++ devpath.text,
      "SUBSYSTEM=".toList ++ subsystem.text, "SEQNUM=".toList ++ seqnum.text] ++
      (devname ++ (fieldLine "MAJOR=".toList vars.major ++
        (fieldLine "MINOR=".toList vars.minor ++ (fieldLine "IFINDEX=".toList vars.ifindex ++
          fieldLine "DRIVER=".toList vars.driver)))), hheaderLine, ?_, ?_, ?_, ?_⟩
  · simp only [List.forall_mem_append]
    refine ⟨?_, hl₅, hl₆, hl₇, hl₈, hl₉⟩
    simp only [List.forall_mem_cons]
    exact ⟨hl₁, hl₂, hl₃, hl₄, by simp⟩
  · exact ⟨_, List.mem_append_left _ (List.mem_cons_of_mem _ List.mem_cons_self),
      List.prefix_append _ _⟩
  · exact ⟨_, List.mem_append_left _
      (List.mem_cons_of_mem _ (List.mem_cons_of_mem _ List.mem_cons_self)), List.prefix_append _ _⟩
  · unfold eventGenerateText metadataText
    dsimp only
    rw [← haction, ← hdevpath, ← hsubsystem, ← hseqnum, hheader, h₁, h₂, h₃, h₄, hname, h₆, h₇, h₈,
      h₉]
    simp only [← List.append_assoc, ← lineText_append, List.cons_append, List.nil_append]

/-- The tags that arrive are those that the metadata directory names in its text. -/
theorem carries_iff (echo : Echo) (args : Fields) (vars : Variables) (md : Metadata)
    (uptime : Uptime) :
    Carries echo args vars md uptime ↔ namedTags (metadataText echo md) = md.tagSet := by
  obtain ⟨header, lines, hheader, hlines, hdev, hsub, htext⟩ :=
    exists_lines echo args vars md uptime
  obtain ⟨d, hd, htags⟩ := received_lineText header lines
    (metadataText echo md ++ eventPrintMonotonicUsec uptime) hheader hlines hdev hsub
  rw [namedTags_append_usec] at htags
  unfold Carries
  rw [htext, hd, ← htags]
  constructor
  · rintro ⟨d', hsome, htags'⟩
    cases hsome
    exact htags'
  · exact fun htags' => ⟨d, rfl, htags'⟩

/-- The text of the files of a directory: the links, last first, on a line with their key, the
names of the tags on a line without one, each name with its escapes read, and the
properties. -/
def fileText (echo : EscapingEcho) (md : Metadata) : CStr :=
  (md.links.elim [] fun links =>
      namesLine echo "DEVLINKS=".toList ' ' (readLines links).reverse) ++
    (md.tags.elim [] fun names => namesLine echo "::".toList ':' (hereDocument (ls names))) ++
    md.properties.getD []

theorem foldl_links (lines : List CStr) (start : CStr) :
    lines.foldl (fun devlinks line => line ++ ' ' :: devlinks) start =
      lines.reverse.flatMap (· ++ [' ']) ++ start := by
  induction lines generalizing start with
  | nil => rfl
  | cons line lines ih =>
    rw [List.foldl_cons, ih, List.reverse_cons, List.flatMap_append, List.flatMap_singleton,
      List.append_assoc, List.append_assoc]
    rfl

theorem eventPrintSymlinks_eq (echo : EscapingEcho) (md : Metadata) :
    eventPrintSymlinks echo.toEcho md = md.links.elim [] fun links =>
      namesLine echo "DEVLINKS=".toList ' ' (readLines links).reverse := by
  unfold eventPrintSymlinks
  cases md.links with
  | none => rfl
  | some links =>
    dsimp only [Option.elim]
    rw [foldl_links, List.append_nil,
      print_names echo (Or.inl rfl) _ _ (by decide) (by decide) (by decide)]

theorem foldl_tags (names : List CStr) (start : CStr) :
    names.foldl (· ++ ':' :: ·) start ++ [':'] = start ++ ':' :: names.flatMap (· ++ [':']) := by
  induction names generalizing start with
  | nil => rfl
  | cons name names ih =>
    rw [List.foldl_cons, ih, List.flatMap_cons, List.append_assoc]
    simp

theorem eventPrintTags_eq (echo : EscapingEcho) (md : Metadata) :
    eventPrintTags echo.toEcho md = md.tags.elim [] fun names =>
      namesLine echo "::".toList ':' (hereDocument (ls names)) := by
  unfold eventPrintTags
  cases md.tags with
  | none => rfl
  | some names =>
    dsimp only [Option.elim]
    rw [foldl_tags, ← print_names echo (Or.inr rfl) _ _ (by decide) (by decide) (by decide)]
    rfl

theorem metadataText_eq (echo : EscapingEcho) (md : Metadata) :
    metadataText echo.toEcho md = fileText echo md := by
  rw [metadataText, eventPrintSymlinks_eq, eventPrintTags_eq, fileText, eventPrintProperties]

/-- The escapes in the links and in the names of the tags neither end a line nor `echo`. -/
def OneLineNames (echo : EscapingEcho) (md : Metadata) : Prop :=
  (∀ links, md.links = some links → ∀ name ∈ readLines links, OneLine echo name) ∧
    ∀ names, md.tags = some names → ∀ name ∈ names, OneLine echo name.text

/-- Names of one line each make a line that names no tag. -/
theorem namesLine_oneLine (echo : EscapingEcho) {sep : Char} (hsep : IsSeparator sep) (key : CStr)
    (names : List CStr) (hkey : IsLine key) (hincomparable : ¬key <+: "TAGS=".toList)
    (hincomparable' : ¬"TAGS=".toList <+: key) (h : ∀ name ∈ names, OneLine echo name) :
    ∃ line, namesLine echo key sep names = lineText [line] ∧ IsLine line ∧ tagsOf line = ∅ := by
  obtain ⟨hgoes, hnl, hnul⟩ := printed_oneLine echo hsep names h
  refine ⟨key ++ (printed echo sep names).1, ?_, ⟨?_, ?_, ?_⟩, ?_⟩
  · rw [namesLine, if_pos hgoes, lineText, List.flatMap_singleton]
  · exact List.append_ne_nil_of_left_ne_nil hkey.1 _
  · exact fun hmem => (List.mem_append.mp hmem).elim hkey.2.1 hnl
  · exact fun hmem => (List.mem_append.mp hmem).elim hkey.2.2 hnul
  · exact tagsOf_eq_empty _
      (not_prefix_of_incomparable (List.prefix_append key _) hincomparable hincomparable')

/-- The names that `ls` lists are read as they stand; where it lists none, one empty line is
read. -/
theorem mem_hereDocument_ls (names : List TagName) (line : CStr)
    (h : line ∈ hereDocument (ls names)) : line = [] ∨ ∃ name ∈ names, line = name.text := by
  set visible := (names.map TagName.text).filter (·.head? != some '.') with hvisible
  have hmem : ∀ text ∈ visible, ∃ name ∈ names, text = name.text := by
    intro text htext
    obtain ⟨name, hname, rfl⟩ := List.mem_map.mp (List.mem_of_mem_filter htext)
    exact ⟨name, hname, rfl⟩
  have hline : ∀ text ∈ visible, '\n' ∉ text := by
    intro text htext hnl
    obtain ⟨name, -, rfl⟩ := hmem text htext
    exact absurd (name.ok _ hnl).1 (by decide)
  rw [ls, ← hvisible] at h
  rcases List.eq_nil_or_concat visible with hnil | ⟨front, last, hlast⟩
  · rw [hnil] at h
    exact Or.inl (List.mem_singleton.mp h)
  · have hne : last ≠ [] := by
      obtain ⟨name, -, rfl⟩ := hmem last (by simp [hlast])
      exact name.ne_nil
    have hsub : substituted (lineText visible) ++ ['\n'] = lineText visible := by
      have hlong : lineText visible = (lineText front ++ last) ++ ['\n'] := by
        rw [hlast, List.concat_eq_append, lineText_append, List.append_assoc, lineText, lineText,
          List.flatMap_singleton]
      rw [hlong, substituted, List.rdropWhile_concat_pos _ _ _ (by decide),
        List.rdropWhile_eq_self_iff.mpr]
      intro hne' hnl
      rw [List.getLast_append_of_ne_nil _ hne] at hnl
      exact hline last (by simp [hlast]) (beq_iff_eq.mp hnl ▸ List.getLast_mem hne)
    rw [hereDocument, hsub, readLines_lineText visible hline] at h
    exact Or.inr (hmem line h)

/-- Where no escape ends a line, only the file of properties can name tags. -/
theorem namedTags_fileText (echo : EscapingEcho) (md : Metadata) (h : OneLineNames echo md) :
    namedTags (fileText echo md) = namedTags (md.properties.getD []) := by
  have hlinks : ∃ lines, (md.links.elim [] fun links =>
      namesLine echo "DEVLINKS=".toList ' ' (readLines links).reverse) = lineText lines ∧
      ∀ line ∈ lines, IsLine line ∧ tagsOf line = ∅ := by
    cases hmd : md.links with
    | none => exact ⟨[], rfl, by simp⟩
    | some links =>
      obtain ⟨line, hline, hno⟩ := namesLine_oneLine echo (Or.inl rfl) "DEVLINKS=".toList
        (readLines links).reverse (by unfold IsLine; decide) (by decide) (by decide)
        (fun name hname => h.1 links hmd name (List.mem_reverse.mp hname))
      exact ⟨[line], hline, by simpa using hno⟩
  have htags : ∃ lines, (md.tags.elim [] fun names =>
      namesLine echo "::".toList ':' (hereDocument (ls names))) = lineText lines ∧
      ∀ line ∈ lines, IsLine line ∧ tagsOf line = ∅ := by
    cases hmd : md.tags with
    | none => exact ⟨[], rfl, by simp⟩
    | some names =>
      have hone : ∀ name ∈ hereDocument (ls names), OneLine echo name := by
        intro text htext
        rcases mem_hereDocument_ls names text htext with rfl | ⟨name, hname, rfl⟩
        · exact oneLine_of_plain echo [] (by decide)
        · exact h.2 names hmd name hname
      obtain ⟨line, hline, hno⟩ := namesLine_oneLine echo (Or.inr rfl) "::".toList _
        (by unfold IsLine; decide) (by decide) (by decide) hone
      exact ⟨[line], hline, by simpa using hno⟩
  obtain ⟨links, hlinksEq, hlinksLine⟩ := hlinks
  obtain ⟨tags, htagsEq, htagsLine⟩ := htags
  have hlines : ∀ line ∈ links ++ tags, IsLine line ∧ tagsOf line = ∅ :=
    List.forall_mem_append.mpr ⟨hlinksLine, htagsLine⟩
  rw [fileText, hlinksEq, htagsEq, ← lineText_append]
  exact namedTags_lineText (links ++ tags) _ hlines

theorem namedTags_eq_iff (text : CStr) (tags : Finset CStr) :
    namedTags text = tags ↔ ∀ tag, tag ∈ tags ↔ ∃ line ∈ linesOf text, NamesTag line tag := by
  simp only [Finset.ext_iff, mem_namedTags]
  exact forall_congr' fun _ => iff_comm

/-- What event-put takes is not refused exactly when it is below 8192 bytes and has a header; and
the tags that arrive are those of the metadata directory exactly when the lines of its files
name them, which only the file of properties can do unless an escape in a link or in the name
of a tag ends a line. -/
theorem formats_agree_iff (L : Libudev δ) (accepted : Bool) (echo : EscapingEcho) :
    (∀ (n : Option CStr) (input behind event : CStr) (calls : Calls) (seqnum : ℕ),
      eventPut n input behind calls = (0, some (seqnum, event)) →
      (¬Refused (pushEvent L event accepted).1 ↔ input.length < 8192 ∧ HasHeader input)) ∧
    ∀ (args : Fields) (vars : Variables) (md : Metadata) (uptime : Uptime),
      (Carries echo.toEcho args vars md uptime ↔
        ∀ tag, tag ∈ md.tagSet ↔ ∃ line ∈ linesOf (fileText echo md), NamesTag line tag) ∧
      (OneLineNames echo md → (Carries echo.toEcho args vars md uptime ↔
        ∀ tag, tag ∈ md.tagSet ↔ ∃ line ∈ linesOf (md.properties.getD []), NamesTag line tag)) := by
  refine ⟨fun n input behind event calls seqnum h => not_refused_iff L accepted h, ?_⟩
  intro args vars md uptime
  have hcarries : Carries echo.toEcho args vars md uptime ↔
      namedTags (fileText echo md) = md.tagSet := by
    rw [carries_iff, metadataText_eq]
  refine ⟨hcarries.trans (namedTags_eq_iff _ _), fun hone => ?_⟩
  rw [hcarries, namedTags_fileText echo md hone, namedTags_eq_iff]

def fakeLibudev : Libudev Device := ⟨newFromNulstr, fun _ => List.replicate 40 '\x00'⟩

def allSucceed : Calls := ⟨true, true, true, true⟩

def noValue : Value := ⟨[], by decide⟩

def diskFields : Fields where
  action := ⟨"add".toList, by decide⟩
  devpath := ⟨"/sda".toList, by decide⟩
  subsystem := ⟨"block".toList, by decide⟩
  seqnum := ⟨"7".toList, by decide⟩

def diskVariables : Variables := ⟨diskFields, noValue, noValue, noValue, noValue, noValue⟩

def someUptime : Uptime := ⟨"5".toList, "01".toList, by decide⟩

def seatDirectory : Metadata := ⟨none, some [⟨"seat".toList, by decide, by decide⟩], none⟩

def diskEvent : CStr := "add@/sda\nSUBSYSTEM=block\nDEVPATH=/sda\nSEQNUM=7\n".toList

theorem seatDirectory_oneLineNames : OneLineNames posixEcho seatDirectory := by
  refine ⟨fun links h => absurd h (by simp [seatDirectory]), ?_⟩
  rintro names h
  cases h
  unfold OneLine
  decide

/-- The directory of a disk with two tags, which its properties name, and a link with a
backslash that starts no escape. -/
def labelDirectory : Metadata :=
  ⟨some "disk/by-label/a\\x20b\n".toList,
    some [⟨"seat".toList, by decide, by decide⟩, ⟨"uaccess".toList, by decide, by decide⟩],
    some "ID_FS_TYPE=vfat\nTAGS=:seat:uaccess:\n".toList⟩

theorem labelDirectory_oneLineNames : OneLineNames posixEcho labelDirectory := by
  constructor
  · rintro links h
    cases h
    unfold OneLine
    decide
  · rintro names h
    cases h
    unfold OneLine
    decide

/-- A directory without properties. An escape in its link starts a line that names the tag. -/
def brokenDirectory : Metadata :=
  ⟨some "a\\nTAGS=:seat:\n".toList, some [⟨"seat".toList, by decide, by decide⟩], none⟩

/-- An event that is taken and not refused, and two directories whose tags arrive. -/
theorem formats_agree_iff_disk :
    ¬Refused (pushEvent fakeLibudev diskEvent true).1 ∧
    Carries posixEcho.toEcho diskFields diskVariables labelDirectory someUptime ∧
    Carries posixEcho.toEcho diskFields diskVariables brokenDirectory someUptime := by
  have hagree := formats_agree_iff fakeLibudev true posixEcho
  refine ⟨?_, ?_, ?_⟩
  · exact (hagree.1 none diskEvent [] diskEvent allSucceed 7 (by decide)).mpr
      ⟨by decide, by unfold HasHeader; decide⟩
  · apply ((hagree.2 diskFields diskVariables labelDirectory someUptime).2
      labelDirectory_oneLineNames).mpr
    exact (namedTags_eq_iff _ _).mp (by decide)
  · apply (hagree.2 diskFields diskVariables brokenDirectory someUptime).1.mpr
    exact (namedTags_eq_iff _ _).mp (by decide)

/-- An event of fields only, as the help text of event-put asks for. -/
def fieldsOnly : CStr := "SUBSYSTEM=block\nDEVPATH=/sda\n".toList

/-- event-put takes an event without a header, which is refused then; and a tag is lost. -/
theorem formats_differ :
    (eventPut (some "7".toList) fieldsOnly [] allSucceed = (0, some (7, fieldsOnly)) ∧
      Refused (pushEvent fakeLibudev fieldsOnly true).1) ∧
    ¬Carries posixEcho.toEcho diskFields diskVariables seatDirectory someUptime := by
  refine ⟨⟨by decide, by decide⟩, ?_⟩
  rw [carries_iff, metadataText_eq, namedTags_fileText posixEcho _ seatDirectory_oneLineNames]
  decide

end Vdev.EventFormat
