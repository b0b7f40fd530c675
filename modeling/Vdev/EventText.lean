import Vdev.EventPut
import Vdev.Shell
import Mathlib.Data.Finset.Basic

/-!
The text of a device event, as it is generated (vdevd/helpers/LINUX/subr-event.sh) and read
(libudev-compat/libudev-device.c). How `echo` prints a backslash is a matter of the shell, and
a parameter.
-/
namespace Vdev.EventFormat

open CString Parsing SysfsDevice Shell EventQueue

structure Value where
  text : CStr
  plain : Plain text

structure TagName where
  text : CStr
  ne_nil : text ≠ []
  ok : ∀ c ∈ text, c.isWhitespace = false ∧ c ≠ ':' ∧ c ≠ '/' ∧ c ≠ '\x00'

/-- The arguments of `event_generate_text` but the last, and the variables of its caller. -/
structure Fields where
  action : Value
  devpath : Value
  subsystem : Value
  seqnum : Value

structure Variables extends Fields where
  path : Value
  major : Value
  minor : Value
  ifindex : Value
  driver : Value

/-- The metadata directory of a device: the files that are there, and the names in the
directory of tags as `ls` lists them. -/
structure Metadata where
  links : Option CStr
  tags : Option (List TagName)
  properties : Option CStr

def Metadata.tagSet (md : Metadata) : Finset CStr :=
  ((md.tags.getD []).map TagName.text).toFinset

/-- The first number of `/proc/uptime`, before and behind the point. -/
structure Uptime where
  seconds : CStr
  fraction : CStr
  digits : ∀ c ∈ seconds ++ fraction, c.isDigit = true

/-- `event_print_properties`. -/
def eventPrintProperties (md : Metadata) : CStr := md.properties.getD []

/-- `event_print_symlinks`. -/
def eventPrintSymlinks (echo : Echo) (md : Metadata) : CStr :=
  match md.links with
  | none => []
  | some links =>
    let devlinks := (readLines links).foldl (fun devlinks line => line ++ ' ' :: devlinks) []
    echo.print ("DEVLINKS=".toList ++ devlinks)

/-- What `ls` prints: the names that do not start with a dot. -/
def ls (names : List TagName) : CStr :=
  lineText ((names.map TagName.text).filter (·.head? != some '.'))

/-- `event_print_tags`. -/
def eventPrintTags (echo : Echo) (md : Metadata) : CStr :=
  match md.tags with
  | none => []
  | some names =>
    let tags := (hereDocument (ls names)).foldl (· ++ ':' :: ·) [':']
    echo.print (tags ++ [':'])

/-- `event_print_monotonic_usec`. -/
def eventPrintMonotonicUsec (uptime : Uptime) : CStr :=
  "USEC_INITIALIZED=".toList ++ uptime.seconds ++ uptime.fraction ++ "0000".toList ++ ['\n']

/-- `[ -z "$arg" ]`. -/
def Value.orVariable (arg var : Value) : Value := if arg.text = [] then var else arg

/-- A line that is printed when the variable has a value. -/
def printNonempty (echo : Echo) (key : CStr) (var : Value) : CStr :=
  if var.text = [] then [] else echo.print (key ++ var.text)

/-- `event_generate_text`. -/
def eventGenerateText (echo : Echo) (args : Fields) (vars : Variables) (md : Metadata)
    (uptime : Uptime) : CStr :=
  let action := (args.action.orVariable vars.action).text
  let devpath := (args.devpath.orVariable vars.devpath).text
  let subsystem := (args.subsystem.orVariable vars.subsystem).text
  let seqnum := (args.seqnum.orVariable vars.seqnum).text
  echo.print (action ++ '@' :: devpath) ++
    echo.print ("ACTION=".toList ++ action) ++
    echo.print ("DEVPATH=".toList ++ devpath) ++
    echo.print ("SUBSYSTEM=".toList ++ subsystem) ++
    echo.print ("SEQNUM=".toList ++ seqnum) ++
    (if vars.path.text = "UNKNOWN".toList then []
      else printNonempty echo "DEVNAME=".toList vars.path) ++
    printNonempty echo "MAJOR=".toList vars.major ++
    printNonempty echo "MINOR=".toList vars.minor ++
    printNonempty echo "IFINDEX=".toList vars.ifindex ++
    printNonempty echo "DRIVER=".toList vars.driver ++
    eventPrintSymlinks echo md ++ eventPrintTags echo md ++ eventPrintProperties md ++
    eventPrintMonotonicUsec uptime

/-- The part of a udev device that decides whether it is valid, and its tags. -/
structure Device where
  devpath : Option CStr
  subsystem : Option CStr
  tags : Finset CStr
  deriving DecidableEq

/-- `udev_device_add_tag`, with `is_valid_tag`. -/
def addTag (d : Device) (tag : CStr) : Device :=
  if ':' ∈ tag ∨ ' ' ∈ tag then d else { d with tags := insert tag d.tags }

/-- The tags in the value of a property: each ends at a colon, and what stands before the first
colon or behind the last one is no tag. -/
def tagPieces (value : CStr) : List CStr :=
  match (snprintf 1024 value).dropWhile (· != ':') with
  | [] => []
  | _ :: next => (next.splitOn ':').dropLast

/-- `udev_device_add_property_from_string_parse`, for the keys that matter here. -/
def addPropertyFromString (d : Device) (property : CStr) : Device :=
  if "DEVPATH=".toList <+: property then
    { d with devpath := some ((snprintf 1024 ("/sys".toList ++ property.drop 8)).drop 4) }
  else if "SUBSYSTEM=".toList <+: property then { d with subsystem := some (property.drop 10) }
  else if "TAGS=".toList <+: property then (tagPieces (property.drop 5)).foldl addTag d
  else d

/-- The strings of a buffer up to the first empty one. -/
def strings (buf : CStr) : List CStr := (buf.splitOn '\x00').takeWhile (· != [])

/-- `udev_device_new_from_nulstr`. -/
def newFromNulstr (nulstr : CStr) : Option Device :=
  if nulstr = [] then none
  else
    let d := (strings nulstr).foldl addPropertyFromString ⟨none, none, ∅⟩
    if d.devpath = none ∨ d.subsystem = none then none else some d

/-- The device in the text of an event, as `udev_monitor_fs_push_event` makes it. -/
def received (text : CStr) : Option Device :=
  let buf := text.map newlineToNul
  newFromNulstr (buf.drop ((untilNul buf).length + 1))

def tagsOf (property : CStr) : Finset CStr :=
  if "TAGS=".toList <+: property then
    ((tagPieces (property.drop 5)).filter (fun tag => ':' ∉ tag ∧ ' ' ∉ tag)).toFinset
  else ∅

def namedTags (text : CStr) : Finset CStr :=
  (strings (text.map newlineToNul)).foldr (tagsOf · ∪ ·) ∅

def metadataText (echo : Echo) (md : Metadata) : CStr :=
  eventPrintSymlinks echo md ++ eventPrintTags echo md ++ eventPrintProperties md

/-- The device that is read from the generated text has the tags of the directory. -/
def Carries (echo : Echo) (args : Fields) (vars : Variables) (md : Metadata) (uptime : Uptime) :
    Prop :=
  ∃ d, received (eventGenerateText echo args vars md uptime) = some d ∧ d.tags = md.tagSet

theorem tags_foldl_addTag (tags : List CStr) (d : Device) :
    (tags.foldl addTag d).tags =
      d.tags ∪ (tags.filter (fun tag => ':' ∉ tag ∧ ' ' ∉ tag)).toFinset := by
  induction tags generalizing d with
  | nil => simp
  | cons tag tags ih =>
    rw [List.foldl_cons, ih, addTag]
    by_cases hvalid : ':' ∈ tag ∨ ' ' ∈ tag
    · rw [if_pos hvalid, List.filter_cons_of_neg (by simpa [imp_iff_not_or] using hvalid)]
    · rw [if_neg hvalid, List.filter_cons_of_pos (by simpa using hvalid), List.toFinset_cons,
        Finset.insert_union, Finset.union_insert]

theorem foldl_addTag_of_tags (tags : List CStr) (d : Device) :
    (tags.foldl addTag d).devpath = d.devpath ∧ (tags.foldl addTag d).subsystem = d.subsystem := by
  induction tags generalizing d with
  | nil => exact ⟨rfl, rfl⟩
  | cons tag tags ih =>
    rw [List.foldl_cons]
    have hadd : (addTag d tag).devpath = d.devpath ∧ (addTag d tag).subsystem = d.subsystem := by
      unfold addTag
      split_ifs <;> exact ⟨rfl, rfl⟩
    exact ⟨(ih _).1.trans hadd.1, (ih _).2.trans hadd.2⟩

/-- Two keys of different letters do not start the same property. -/
theorem not_prefix_of_incomparable {a b property : CStr} (ha : a <+: property)
    (hab : ¬a <+: b) (hba : ¬b <+: a) : ¬b <+: property := by
  intro hb
  rcases List.prefix_or_prefix_of_prefix ha hb with h | h
  · exact hab h
  · exact hba h

theorem tags_addPropertyFromString (d : Device) (property : CStr) :
    (addPropertyFromString d property).tags = d.tags ∪ tagsOf property := by
  unfold addPropertyFromString tagsOf
  by_cases hdev : "DEVPATH=".toList <+: property
  · rw [if_pos hdev, if_neg (not_prefix_of_incomparable hdev (by decide) (by decide)),
      Finset.union_empty]
  by_cases hsub : "SUBSYSTEM=".toList <+: property
  · rw [if_neg hdev, if_pos hsub, if_neg (not_prefix_of_incomparable hsub (by decide) (by decide)),
      Finset.union_empty]
  rw [if_neg hdev, if_neg hsub]
  split_ifs
  · exact tags_foldl_addTag _ d
  · exact (Finset.union_empty _).symm

theorem tags_foldl_addProperty (properties : List CStr) (d : Device) :
    (properties.foldl addPropertyFromString d).tags =
      d.tags ∪ properties.foldr (tagsOf · ∪ ·) ∅ := by
  induction properties generalizing d with
  | nil => exact (Finset.union_empty _).symm
  | cons property properties ih =>
    rw [List.foldl_cons, ih, tags_addPropertyFromString, List.foldr_cons, Finset.union_assoc]

/-- A property keeps the path that a device has, and `DEVPATH` gives it one. -/
theorem devpath_addPropertyFromString (d : Device) (property : CStr)
    (h : d.devpath.isSome ∨ "DEVPATH=".toList <+: property) :
    (addPropertyFromString d property).devpath.isSome := by
  unfold addPropertyFromString
  split_ifs with hdev
  · rfl
  · exact h.resolve_right hdev
  · rw [(foldl_addTag_of_tags _ d).1]
    exact h.resolve_right hdev
  · exact h.resolve_right hdev

theorem subsystem_addPropertyFromString (d : Device) (property : CStr)
    (h : d.subsystem.isSome ∨ "SUBSYSTEM=".toList <+: property) :
    (addPropertyFromString d property).subsystem.isSome := by
  unfold addPropertyFromString
  split_ifs with hdev hsub
  · exact h.resolve_right (not_prefix_of_incomparable hdev (by decide) (by decide))
  · rfl
  · rw [(foldl_addTag_of_tags _ d).2]
    exact h.resolve_right hsub
  · exact h.resolve_right hsub

/-- A field of a fold that no step loses and some step sets. -/
theorem isSome_foldl {σ α β : Type} (field : σ → Option β) (f : σ → α → σ) (sets : α → Prop)
    (hstep : ∀ s a, (field s).isSome ∨ sets a → (field (f s a)).isSome) (as : List α) (s : σ)
    (h : (field s).isSome ∨ ∃ a ∈ as, sets a) : (field (as.foldl f s)).isSome := by
  induction as generalizing s with
  | nil => exact h.resolve_right (by simp)
  | cons a as ih =>
    rw [List.foldl_cons]
    apply ih
    rcases h with hsome | ⟨b, hb, hsets⟩
    · exact Or.inl (hstep s a (Or.inl hsome))
    · rcases List.mem_cons.mp hb with rfl | hb
      · exact Or.inl (hstep s b (Or.inr hsets))
      · exact Or.inr ⟨b, hb, hsets⟩

def IsLine (line : CStr) : Prop := line ≠ [] ∧ '\n' ∉ line ∧ '\x00' ∉ line

theorem strings_lineText (lines : List CStr) (rest : CStr) (h : ∀ line ∈ lines, IsLine line) :
    strings ((lineText lines ++ rest).map newlineToNul) =
      lines ++ strings (rest.map newlineToNul) := by
  induction lines with
  | nil => rfl
  | cons line lines ih =>
    obtain ⟨hne, hnl, hnul⟩ := h line List.mem_cons_self
    have ih := ih fun other hother => h other (List.mem_cons_of_mem _ hother)
    have hsplit : (lineText (line :: lines) ++ rest).map newlineToNul =
        line ++ '\x00' :: (lineText lines ++ rest).map newlineToNul := by
      rw [lineText, List.flatMap_cons, List.append_assoc, List.append_assoc, List.map_append,
        map_newlineToNul line hnl]
      rfl
    rw [hsplit, strings, List.splitOn_append_cons_self_of_not_mem hnul,
      List.takeWhile_cons_of_pos (by simpa using hne), ← strings, ih, List.cons_append]

theorem firstLine_lineText (header : CStr) (rest : CStr) (h : IsLine header) :
    firstLine (lineText [header] ++ rest) = header := by
  have hsplit : (lineText [header] ++ rest).map newlineToNul =
      header ++ '\x00' :: rest.map newlineToNul := by
    rw [lineText, List.flatMap_singleton, List.append_assoc, List.map_append,
      map_newlineToNul header h.2.1]
    rfl
  rw [firstLine, hsplit, Uevent.untilNul_append_nul _ _ h.2.2]

/-- Lines that name no tags do not count. -/
theorem namedTags_lineText (lines : List CStr) (rest : CStr)
    (h : ∀ line ∈ lines, IsLine line ∧ tagsOf line = ∅) :
    namedTags (lineText lines ++ rest) = namedTags rest := by
  rw [namedTags, strings_lineText lines rest fun line hline => (h line hline).1, List.foldr_append,
    ← namedTags]
  induction lines with
  | nil => rfl
  | cons line lines ih =>
    rw [List.foldr_cons, ih fun other hother => h other (List.mem_cons_of_mem _ hother),
      (h line List.mem_cons_self).2, Finset.empty_union]

/-- The device in a text with a header, lines that name no tags, and more. -/
theorem received_lineText (header : CStr) (lines : List CStr) (rest : CStr)
    (hheader : IsLine header) (hlines : ∀ line ∈ lines, IsLine line ∧ tagsOf line = ∅)
    (hdev : ∃ line ∈ lines, "DEVPATH=".toList <+: line)
    (hsub : ∃ line ∈ lines, "SUBSYSTEM=".toList <+: line) :
    ∃ d, received (lineText (header :: lines) ++ rest) = some d ∧ d.tags = namedTags rest := by
  have htext : lineText (header :: lines) ++ rest =
      lineText [header] ++ (lineText lines ++ rest) := by
    simp [lineText]
  have hbuf : ((lineText (header :: lines) ++ rest).map newlineToNul).drop
      ((untilNul ((lineText (header :: lines) ++ rest).map newlineToNul)).length + 1) =
      (lineText lines ++ rest).map newlineToNul := by
    rw [htext, ← firstLine, firstLine_lineText header _ hheader, lineText, List.flatMap_singleton,
      List.append_assoc, List.map_append, map_newlineToNul header hheader.2.1,
      List.drop_length_add_append]
    rfl
  have hstrings := strings_lineText lines rest fun line hline => (hlines line hline).1
  have hne : (lineText lines ++ rest).map newlineToNul ≠ [] := by
    intro hnil
    rw [hnil] at hstrings
    obtain ⟨line, hmem, -⟩ := hdev
    have hmem : line ∈ strings [] := hstrings ▸ List.mem_append_left _ hmem
    exact absurd hmem (by simp [strings])
  set d := (strings ((lineText lines ++ rest).map newlineToNul)).foldl addPropertyFromString
    ⟨none, none, ∅⟩ with hd
  have hdev' : d.devpath.isSome := by
    obtain ⟨line, hmem, hkey⟩ := hdev
    refine isSome_foldl Device.devpath _ ("DEVPATH=".toList <+: ·)
      devpath_addPropertyFromString _ _ (Or.inr ⟨line, ?_, hkey⟩)
    exact hstrings ▸ List.mem_append_left _ hmem
  have hsub' : d.subsystem.isSome := by
    obtain ⟨line, hmem, hkey⟩ := hsub
    refine isSome_foldl Device.subsystem _ ("SUBSYSTEM=".toList <+: ·)
      subsystem_addPropertyFromString _ _ (Or.inr ⟨line, ?_, hkey⟩)
    exact hstrings ▸ List.mem_append_left _ hmem
  refine ⟨d, ?_, ?_⟩
  · rw [received, hbuf, newFromNulstr, if_neg hne, ← hd, if_neg]
    rintro (hnone | hnone)
    · exact absurd hdev' (by simp [hnone])
    · exact absurd hsub' (by simp [hnone])
  · rw [hd, tags_foldl_addProperty, ← namedTags, namedTags_lineText lines rest hlines,
      Finset.empty_union]

/-- A tag ends at a colon, so that a text without one adds no tag to a value. -/
theorem tagPieces_append (value w : CStr) (hw : ':' ∉ w) :
    tagPieces (value ++ w) = tagPieces value := by
  have htake : snprintf 1024 (value ++ w) =
      snprintf 1024 value ++ w.take (1023 - value.length) := List.take_append
  have hw' : ':' ∉ w.take (1023 - value.length) := fun h => hw (List.mem_of_mem_take h)
  rw [tagPieces, tagPieces, htake, List.dropWhile_append]
  cases hrest : (snprintf 1024 value).dropWhile (· != ':') with
  | nil =>
    have hall : (w.take (1023 - value.length)).dropWhile (· != ':') = [] := by
      rw [List.dropWhile_eq_nil_iff]
      intro c hc
      rw [bne_iff_ne]
      rintro rfl
      exact hw' hc
    rw [List.isEmpty_nil, if_pos rfl, hall]
  | cons c next =>
    obtain ⟨pieces, last, h⟩ := exists_splitOn_append ':' next
    have hnext := h [] List.not_mem_nil
    rw [List.append_nil] at hnext
    rw [List.isEmpty_cons, if_neg (by decide)]
    simp only [List.cons_append, h _ hw', hnext, List.dropLast_concat]

/-- The text of the last property goes on with the line of the uptime. -/
theorem tagsOf_append (property w : CStr) (hw : ':' ∉ w) (hhead : w.head? = some 'U') :
    tagsOf (property ++ w) = tagsOf property := by
  obtain ⟨w', rfl⟩ := List.head?_eq_some_iff.mp hhead
  unfold tagsOf
  by_cases hkey : "TAGS=".toList <+: property
  · obtain ⟨value, rfl⟩ := hkey
    have hdrop (t : CStr) : ("TAGS=".toList ++ t).drop 5 = t := rfl
    rw [List.append_assoc, if_pos (List.prefix_append _ _), if_pos (List.prefix_append _ _),
      hdrop, hdrop, tagPieces_append value _ hw]
  · rw [if_neg hkey, if_neg]
    intro hlong
    have hself := List.prefix_append property ('U' :: w')
    rcases List.prefix_or_prefix_of_prefix hlong hself with h | h
    · exact hkey h
    · obtain ⟨r, hr⟩ := h
      rw [← hr, List.prefix_append_right_inj] at hlong
      cases r with
      | nil => exact hkey (by rw [← hr, List.append_nil])
      | cons c r =>
        have hc : c = 'U' := (List.cons_prefix_cons.mp hlong).1
        have hmem : 'U' ∈ "TAGS=".toList := by
          rw [← hr, hc]
          simp
        exact absurd hmem (by decide)

theorem tagsOf_eq_empty (line : CStr) (h : ¬"TAGS=".toList <+: line) : tagsOf line = ∅ := if_neg h

/-- A line behind a text that is no property with tags does not change the tags. -/
theorem namedTags_append_line (text line : CStr) (hline : IsLine line) (hcolon : ':' ∉ line)
    (hhead : line.head? = some 'U') : namedTags (text ++ (line ++ ['\n'])) = namedTags text := by
  have hmap : (text ++ (line ++ ['\n'])).map newlineToNul =
      (text.map newlineToNul ++ line) ++ '\x00' :: [] := by
    rw [List.map_append, List.map_append, map_newlineToNul line hline.2.1, List.append_assoc]
    rfl
  obtain ⟨pieces, last, h⟩ := exists_splitOn_append '\x00' (text.map newlineToNul)
  have hlong := h line hline.2.2
  have hshort := h [] List.not_mem_nil
  rw [List.append_nil, List.append_nil] at hshort
  have hne : (last ++ line != []) = true := by simpa using fun _ => hline.1
  have hlast := tagsOf_append last line hcolon hhead
  rw [namedTags, namedTags, hmap, strings, strings, List.splitOn_append_cons_self, hlong, hshort,
    List.append_assoc]
  by_cases hall : ∀ piece ∈ pieces, (piece != []) = true
  · rw [List.takeWhile_append_of_pos hall, List.takeWhile_append_of_pos hall, List.foldr_append,
      List.foldr_append]
    congr 1
    have hcons (rest : List CStr) : ((last ++ line) :: rest).takeWhile (· != []) =
        (last ++ line) :: rest.takeWhile (· != []) := List.takeWhile_cons_of_pos hne
    rw [List.singleton_append, hcons, List.foldr_cons, hlast]
    by_cases hnil : last = []
    · subst last
      rfl
    · rw [List.takeWhile_cons_of_pos (by simpa using hnil)]
      rfl
  -- the reader stops at an empty string before
  · have hstop : (pieces.takeWhile (· != [])).length ≠ pieces.length := by
      intro hlen
      refine hall fun piece hpiece => ?_
      have hself := (List.takeWhile_prefix _).eq_of_length hlen
      exact List.mem_takeWhile_imp (p := (· != [])) (hself.symm ▸ hpiece)
    rw [List.takeWhile_append, if_neg hstop, List.takeWhile_append, if_neg hstop]

/-- The line of the uptime names no tag. -/
theorem namedTags_append_usec (text : CStr) (uptime : Uptime) :
    namedTags (text ++ eventPrintMonotonicUsec uptime) = namedTags text := by
  have hkey : ∀ c ∈ "USEC_INITIALIZED=".toList, c ≠ ':' ∧ c ≠ '\n' ∧ c ≠ '\x00' := by decide
  have hzeros : ∀ c ∈ "0000".toList, c ≠ ':' ∧ c ≠ '\n' ∧ c ≠ '\x00' := by decide
  have hdigit (c : Char) (hc : c.isDigit = true) : c ≠ ':' ∧ c ≠ '\n' ∧ c ≠ '\x00' := by
    refine ⟨?_, ?_, ?_⟩
    all_goals
      rintro rfl
      exact absurd hc (by decide)
  have hchar (c : Char) (hc : c ∈ "USEC_INITIALIZED=".toList ++ uptime.seconds ++
      uptime.fraction ++ "0000".toList) : c ≠ ':' ∧ c ≠ '\n' ∧ c ≠ '\x00' := by
    rcases List.mem_append.mp hc with hc | hc
    · rw [List.append_assoc] at hc
      rcases List.mem_append.mp hc with hc | hc
      · exact hkey c hc
      · exact hdigit c (uptime.digits c hc)
    · exact hzeros c hc
  unfold eventPrintMonotonicUsec
  exact namedTags_append_line text _
    ⟨by simp, fun h => (hchar '\n' h).2.1 rfl, fun h => (hchar '\x00' h).2.2 rfl⟩
    (fun h => (hchar ':' h).1 rfl) (by simp)

/-- What stands in front of the first separator does not matter. -/
theorem exists_behind_iff {sep : Char} {front : CStr} (rest y : CStr) (h : sep ∉ front) :
    (∃ before, front ++ sep :: rest = before ++ sep :: y) ↔
      ∃ before, sep :: rest = before ++ sep :: y := by
  constructor
  · rintro ⟨before, heq⟩
    obtain ⟨more, rfl, hmore⟩ | ⟨more, rfl, hmore⟩ := List.append_eq_append_iff.mp heq
    · exact ⟨more, hmore⟩
    · cases more with
      | nil => exact ⟨[], hmore.symm⟩
      | cons c more =>
        have hc : sep = c := (List.cons.inj hmore).1
        exact absurd (List.mem_append_right before (hc ▸ List.mem_cons_self)) h
  · rintro ⟨before, heq⟩
    exact ⟨front ++ before, by rw [List.append_assoc, ← heq]⟩

/-- The pieces that end at a separator are those between two of them. -/
theorem mem_dropLast_splitOn (sep : Char) (s x : CStr) :
    x ∈ (s.splitOn sep).dropLast ↔
      sep ∉ x ∧ ∃ after before, sep :: s = before ++ sep :: (x ++ sep :: after) := by
  induction hlen : s.length using Nat.strongRecOn generalizing s with
  | ind n ih =>
    have hhead (y : CStr) : (∃ before, sep :: s = before ++ sep :: y) ↔
        s = y ∨ ∃ before, s = before ++ sep :: y := by
      constructor
      · rintro ⟨before, heq⟩
        cases before with
        | nil => exact Or.inl (List.cons.inj heq).2
        | cons c before => exact Or.inr ⟨before, (List.cons.inj heq).2⟩
      · rintro (rfl | ⟨before, heq⟩)
        · exact ⟨[], rfl⟩
        · exact ⟨sep :: before, by rw [heq]; rfl⟩
    by_cases hsep : sep ∈ s
    · obtain ⟨first, rest, rfl, hfirst⟩ := List.eq_append_cons_of_mem hsep
      rw [List.splitOn_append_cons_self_of_not_mem hfirst,
        List.dropLast_cons_of_ne_nil (List.splitOn_ne_nil _ _), List.mem_cons,
        ih rest.length (by simp [← hlen]; omega) rest rfl]
      simp only [hhead, exists_behind_iff _ _ hfirst]
      constructor
      · rintro (rfl | ⟨hx, after, before, heq⟩)
        · exact ⟨hfirst, rest, Or.inl rfl⟩
        · exact ⟨hx, after, Or.inr ⟨before, heq⟩⟩
      · rintro ⟨hx, after, heq | hbehind⟩
        · have hsplit := congrArg (List.splitOn sep) heq
          rw [List.splitOn_append_cons_self_of_not_mem hfirst,
            List.splitOn_append_cons_self_of_not_mem hx] at hsplit
          exact Or.inl (List.cons.inj hsplit).1.symm
        · obtain ⟨before, heq⟩ := hbehind
          exact Or.inr ⟨hx, after, before, heq⟩
    · rw [List.splitOn_eq_singleton hsep]
      simp only [hhead]
      refine ⟨fun hnil => absurd hnil List.not_mem_nil, ?_⟩
      rintro ⟨-, after, rfl | ⟨before, rfl⟩⟩
      · exact absurd (List.mem_append_right x List.mem_cons_self) hsep
      · exact absurd (List.mem_append_right before List.mem_cons_self) hsep

/-- A line names a tag: the tag is between two colons of its value, as far as 1023 characters,
and has neither a colon nor a blank. -/
def NamesTag (line tag : CStr) : Prop :=
  ':' ∉ tag ∧ ' ' ∉ tag ∧ ∃ value before after, line = "TAGS=".toList ++ value ∧
    value.take 1023 = before ++ ':' :: (tag ++ ':' :: after)

/-- The lines of a text before its first empty one. A NUL ends a line as a newline does. -/
def linesOf (text : CStr) : List CStr := strings (text.map newlineToNul)

theorem mem_tagPieces (value tag : CStr) : tag ∈ tagPieces value ↔
    ':' ∉ tag ∧ ∃ after before, value.take 1023 = before ++ ':' :: (tag ++ ':' :: after) := by
  have hsplit := List.takeWhile_append_dropWhile (p := (· != ':')) (l := value.take 1023)
  have hfront : ':' ∉ (value.take 1023).takeWhile (· != ':') :=
    fun hmem => absurd (List.mem_takeWhile_imp hmem) (by decide)
  rw [tagPieces, show snprintf 1024 value = value.take 1023 from rfl]
  cases hrest : (value.take 1023).dropWhile (· != ':') with
  | nil =>
    rw [hrest, List.append_nil] at hsplit
    refine ⟨fun hnil => absurd hnil List.not_mem_nil, ?_⟩
    rintro ⟨-, after, before, heq⟩
    rw [hsplit, heq] at hfront
    exact absurd (List.mem_append_right before List.mem_cons_self) hfront
  | cons c next =>
    have hc : c = ':' := by
      have hhead := List.head_dropWhile_not (· != ':') (l := value.take 1023) (by simp [hrest])
      simpa [hrest] using hhead
    subst hc
    rw [hrest] at hsplit
    simp only [mem_dropLast_splitOn, ← exists_behind_iff next _ hfront, hsplit]

theorem mem_tagsOf (line tag : CStr) : tag ∈ tagsOf line ↔ NamesTag line tag := by
  unfold tagsOf NamesTag
  split_ifs with hkey
  · obtain ⟨value, rfl⟩ := hkey
    have hdrop : ("TAGS=".toList ++ value).drop 5 = value := rfl
    rw [List.mem_toFinset, List.mem_filter, mem_tagPieces, hdrop, decide_eq_true_eq]
    constructor
    · rintro ⟨⟨-, after, before, heq⟩, hcolon, hblank⟩
      exact ⟨hcolon, hblank, value, before, after, rfl, heq⟩
    · rintro ⟨hcolon, hblank, value', before, after, hvalue, heq⟩
      rw [← List.append_cancel_left hvalue] at heq
      exact ⟨⟨hcolon, after, before, heq⟩, hcolon, hblank⟩
  · refine ⟨fun hnil => absurd hnil (Finset.notMem_empty _), ?_⟩
    rintro ⟨-, -, value, -, -, rfl, -⟩
    exact absurd (List.prefix_append _ _) hkey

theorem mem_namedTags (text tag : CStr) :
    tag ∈ namedTags text ↔ ∃ line ∈ linesOf text, NamesTag line tag := by
  rw [namedTags, ← linesOf]
  induction linesOf text with
  | nil => simp
  | cons line lines ih =>
    rw [List.foldr_cons, Finset.mem_union, ih, mem_tagsOf, List.exists_mem_cons_iff]

end Vdev.EventFormat
