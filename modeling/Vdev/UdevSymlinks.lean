import Vdev.ShellPatterns

/-!
The `S:` records of a device for libudev (vdevd/helpers/LINUX/udev-compat.sh). Each line of the file
of links is stripped of the mountpoint and, in another variable, of the global metadata directory.
The record is printed when the two results are equal, which happens to no link below an ordinary
mountpoint.
-/
namespace Vdev.UdevSymlinks

open CString Shell ShellPatterns

/-- What surrounds the helper: the shell, whose `echo` prints what stands before the first
backslash, the files that there are, and the variables that it falls back on. -/
structure Env where
  patterns : Patterns
  echo : Echo
  echo_label : ∀ text, "S:".toList <+: echo.print ("S:".toList ++ text)
  files : CStr → Option CStr
  metadata : CStr
  globalMetadata : CStr
  mountpoint : CStr

def orDefault (arg var : CStr) : CStr := if arg = [] then var else arg

def enumerateLine (env : Env) (globalMetadata mountpoint line : CStr) : CStr :=
  let strippedLine := strip env.patterns (mountpoint ++ ['/']) line
  let strippedLine := strip env.patterns ['/'] strippedLine
  -- skip metadata directory
  let strippedLine2 := strip env.patterns (globalMetadata ++ ['/']) line
  if strippedLine ≠ strippedLine2 then []
  else env.echo.print ("S:".toList ++ strippedLine)

/-- `udev_enumerate_symlinks`: what it prints in each iteration. -/
def udevEnumerateSymlinks (env : Env) (metadata globalMetadata mountpoint : CStr) : List CStr :=
  let metadata := orDefault metadata env.metadata
  let globalMetadata := orDefault globalMetadata env.globalMetadata
  let mountpoint := orDefault mountpoint env.mountpoint
  match env.files (metadata ++ "/links".toList) with
  | none => []
  | some links => (readLines links).map (enumerateLine env globalMetadata mountpoint)

/-- The path lies under the directory, whose name is given without a slash at its end. -/
def Under (dir path : CStr) : Prop := dir ++ ['/'] <+: path

instance (dir path : CStr) : Decidable (Under dir path) :=
  inferInstanceAs (Decidable (_ <+: _))

/-- What is to be printed for a link: its path relative to the mountpoint, or nothing when it is one
of the metadata directory. -/
def Recorded (globalMetadata mountpoint link printed : CStr) : Prop :=
  (Under globalMetadata link → printed = []) ∧
    ∀ rel, link = mountpoint ++ '/' :: rel → ¬Under globalMetadata link →
      printed = "S:".toList ++ rel ++ ['\n']

def firstCut (patterns : Patterns) (mountpoint line : CStr) : ℕ :=
  matched patterns (mountpoint ++ ['/']) line +
    matched patterns ['/'] (strip patterns (mountpoint ++ ['/']) line)

def secondCut (patterns : Patterns) (globalMetadata line : CStr) : ℕ :=
  matched patterns (globalMetadata ++ ['/']) line

/-- A text stands for itself where there is no backslash in it, and else for what `echo` makes of
its escapes. -/
def StandsFor (echo : Echo) (text rel : CStr) : Prop :=
  if '\\' ∈ text then echo.print ("S:".toList ++ text) = "S:".toList ++ rel ++ ['\n']
  else text = rel

/-- With directories that are patterns it depends on how much of the line they match: two different
lengths skip the link, and one length leaves its end. -/
def ExportableByPatterns (env : Env) (globalMetadata mountpoint link : CStr) : Prop :=
  if Under globalMetadata link then
    firstCut env.patterns mountpoint link ≠ secondCut env.patterns globalMetadata link
  else
    ∀ rel, link = mountpoint ++ '/' :: rel →
      firstCut env.patterns mountpoint link = secondCut env.patterns globalMetadata link ∧
        StandsFor env.echo (link.drop (secondCut env.patterns globalMetadata link)) rel

/-- When a link gets what it is to get. With ordinary directories a link under the mountpoint has to
be one of the metadata directory. -/
def Exportable (env : Env) (globalMetadata mountpoint link : CStr) : Prop :=
  if PatternFree mountpoint ∧ PatternFree globalMetadata then
    Under mountpoint link → Under globalMetadata link
  else ExportableByPatterns env globalMetadata mountpoint link

theorem print_eq_iff_standsFor (echo : Echo) (text rel : CStr) :
    echo.print ("S:".toList ++ text) = "S:".toList ++ rel ++ ['\n'] ↔ StandsFor echo text rel := by
  unfold StandsFor
  split_ifs with hback
  · exact Iff.rfl
  · have hplain : '\\' ∉ "S:".toList ++ text :=
      fun h => (List.mem_append.mp h).elim (by decide) hback
    rw [echo.print_plain _ hplain (by simp), List.append_left_inj, List.append_right_inj]

section Cuts

variable (patterns : Patterns)

theorem patternFree_slash {dir : CStr} (h : PatternFree dir) : PatternFree (dir ++ ['/']) := by
  intro c hc
  rcases List.mem_append.mp hc with hc | hc
  · exact h c hc
  · rw [List.mem_singleton.mp hc]
    decide

theorem matched_slash_le (text : CStr) : matched patterns ['/'] text ≤ 1 := by
  by_cases hpre : ['/'] <+: text
  · rw [matched_of_isPrefix patterns (by decide) hpre]
    rfl
  · rw [matched_of_not_isPrefix patterns (by decide) hpre]
    exact Nat.zero_le 1

theorem firstCut_le (mountpoint line : CStr) :
    firstCut patterns mountpoint line ≤ line.length := by
  have hcut := matched_le patterns (mountpoint ++ ['/']) line
  have hslash := matched_le patterns ['/'] (strip patterns (mountpoint ++ ['/']) line)
  rw [strip, List.length_drop] at hslash
  rw [firstCut, strip]
  omega

theorem drop_eq_drop_iff (s : CStr) {a b : ℕ} (ha : a ≤ s.length) (hb : b ≤ s.length) :
    s.drop a = s.drop b ↔ a = b := by
  constructor
  · intro h
    have hlen := congrArg List.length h
    rw [List.length_drop, List.length_drop] at hlen
    omega
  · rintro rfl
    rfl

/-- The two variables are equal when as much is gone in both. -/
theorem enumerateLine_eq (env : Env) (globalMetadata mountpoint line : CStr) :
    enumerateLine env globalMetadata mountpoint line =
      if firstCut env.patterns mountpoint line = secondCut env.patterns globalMetadata line then
        env.echo.print
          ("S:".toList ++ line.drop (secondCut env.patterns globalMetadata line))
      else [] := by
  have hfirst : strip env.patterns ['/'] (strip env.patterns (mountpoint ++ ['/']) line) =
      line.drop (firstCut env.patterns mountpoint line) := by
    rw [firstCut, ← List.drop_drop]
    rfl
  have hsecond : strip env.patterns (globalMetadata ++ ['/']) line =
      line.drop (secondCut env.patterns globalMetadata line) := rfl
  have hiff := drop_eq_drop_iff line (firstCut_le env.patterns mountpoint line)
    (matched_le env.patterns (globalMetadata ++ ['/']) line)
  unfold enumerateLine
  dsimp only
  rw [hfirst, hsecond]
  by_cases hcut : firstCut env.patterns mountpoint line =
      secondCut env.patterns globalMetadata line
  · rw [if_pos hcut, hcut, if_neg (not_not.mpr rfl)]
  · have hdiffer : line.drop (firstCut env.patterns mountpoint line) ≠
        line.drop (secondCut env.patterns globalMetadata line) := fun heq => hcut (hiff.mp heq)
    rw [if_neg hcut, if_pos hdiffer]

/-- Without patterns the two variables are never equal for a link under the mountpoint. -/
theorem cuts_ne {mountpoint below link : CStr} (hbelow : below ≠ [])
    (hfree : PatternFree mountpoint) (hfree' : PatternFree (mountpoint ++ '/' :: below))
    (hunder : Under mountpoint link) :
    firstCut patterns mountpoint link ≠ secondCut patterns (mountpoint ++ '/' :: below) link := by
  have hfirst := matched_of_isPrefix patterns (patternFree_slash hfree) hunder
  have hslash := matched_slash_le patterns (strip patterns (mountpoint ++ ['/']) link)
  have hpos := List.length_pos_iff.mpr hbelow
  rw [firstCut, secondCut, hfirst]
  rw [List.length_append, List.length_singleton]
  by_cases hmeta : Under (mountpoint ++ '/' :: below) link
  · rw [matched_of_isPrefix patterns (patternFree_slash hfree') hmeta]
    simp only [List.length_append, List.length_cons, List.length_nil]
    omega
  · rw [matched_of_not_isPrefix patterns (patternFree_slash hfree') hmeta]
    omega

end Cuts

theorem under_of_under {mountpoint below link : CStr}
    (h : Under (mountpoint ++ '/' :: below) link) : Under mountpoint link := by
  refine List.IsPrefix.trans ⟨below ++ ['/'], ?_⟩ h
  simp

theorem print_label_ne_nil (env : Env) (text : CStr) :
    env.echo.print ("S:".toList ++ text) ≠ [] := by
  intro hnil
  have hlabel := env.echo_label text
  rw [hnil] at hlabel
  exact absurd (List.prefix_nil.mp hlabel) (by decide)

/-- One line. -/
theorem recorded_iff (env : Env) (mountpoint below link : CStr) (hbelow : below ≠ []) :
    Recorded (mountpoint ++ '/' :: below) mountpoint link
        (enumerateLine env (mountpoint ++ '/' :: below) mountpoint link) ↔
      Exportable env (mountpoint ++ '/' :: below) mountpoint link := by
  rw [enumerateLine_eq, Exportable, Recorded]
  by_cases hfree : PatternFree mountpoint ∧ PatternFree (mountpoint ++ '/' :: below)
  · rw [if_pos hfree]
    have hne (hunder : Under mountpoint link) := cuts_ne env.patterns hbelow hfree.1 hfree.2 hunder
    constructor
    · rintro ⟨-, hinside⟩ hunder
      by_contra hmeta
      obtain ⟨rel, hrel⟩ := hunder
      have hprinted := hinside rel (by rw [← hrel]; simp) hmeta
      rw [if_neg (hne ⟨rel, hrel⟩)] at hprinted
      cases hprinted
    · intro hall
      refine ⟨fun hmeta => if_neg (hne (under_of_under hmeta)), fun rel hrel hmeta => ?_⟩
      exact absurd (hall ⟨rel, by rw [hrel]; simp⟩) hmeta
  · rw [if_neg hfree, ExportableByPatterns]
    by_cases hmeta : Under (mountpoint ++ '/' :: below) link
    · rw [if_pos hmeta]
      constructor
      · rintro ⟨hnothing, -⟩ hcut
        have hnothing := hnothing hmeta
        rw [if_pos hcut] at hnothing
        exact print_label_ne_nil env _ hnothing
      · intro hcut
        exact ⟨fun _ => if_neg hcut, fun _ _ hnot => absurd hmeta hnot⟩
    · rw [if_neg hmeta]
      constructor
      · rintro ⟨-, hinside⟩ rel hrel
        have hprinted := hinside rel hrel hmeta
        split_ifs at hprinted with hcut
        · exact ⟨hcut, (print_eq_iff_standsFor _ _ _).mp hprinted⟩
        · cases hprinted
      · intro hall
        refine ⟨fun hnot => absurd hnot hmeta, fun rel hrel _ => ?_⟩
        obtain ⟨hcut, hstands⟩ := hall rel hrel
        rw [if_pos hcut, (print_eq_iff_standsFor _ _ _).mpr hstands]

theorem udevEnumerateSymlinks_eq (env : Env) (arg₁ arg₂ arg₃ : CStr) (links : List CStr)
    (hfile : env.files (orDefault arg₁ env.metadata ++ "/links".toList) = some (lineText links))
    (hlines : ∀ link ∈ links, '\n' ∉ link) :
    udevEnumerateSymlinks env arg₁ arg₂ arg₃ =
      links.map (enumerateLine env (orDefault arg₂ env.globalMetadata)
        (orDefault arg₃ env.mountpoint)) := by
  rw [udevEnumerateSymlinks, hfile]
  dsimp only
  rw [readLines_lineText links hlines]

/-- The records are complete exactly when each link can be exported: with ordinary directories, when
no link lies under the mountpoint outside of the metadata directory. -/
theorem enumerate_recorded_iff (env : Env) (arg₁ arg₂ arg₃ mountpoint below : CStr)
    (links : List CStr) (hmount : orDefault arg₃ env.mountpoint = mountpoint)
    (hglobal : orDefault arg₂ env.globalMetadata = mountpoint ++ '/' :: below)
    (hbelow : below ≠ [])
    (hfile : env.files (orDefault arg₁ env.metadata ++ "/links".toList) = some (lineText links))
    (hlines : ∀ link ∈ links, '\n' ∉ link) :
    List.Forall₂ (Recorded (mountpoint ++ '/' :: below) mountpoint) links
        (udevEnumerateSymlinks env arg₁ arg₂ arg₃) ↔
      ∀ link ∈ links, Exportable env (mountpoint ++ '/' :: below) mountpoint link := by
  rw [udevEnumerateSymlinks_eq env arg₁ arg₂ arg₃ links hfile hlines, hmount, hglobal,
    List.forall₂_map_right_iff, List.forall₂_same]
  exact forall₂_congr fun link _ => recorded_iff env mountpoint below link hbelow

/-- With ordinary directories nothing is printed for any link under the mountpoint. -/
theorem enumerateLine_plain (env : Env) {mountpoint below link : CStr} (hbelow : below ≠ [])
    (hfree : PatternFree mountpoint) (hfree' : PatternFree (mountpoint ++ '/' :: below))
    (hunder : Under mountpoint link) :
    enumerateLine env (mountpoint ++ '/' :: below) mountpoint link = [] := by
  rw [enumerateLine_eq, if_neg (cuts_ne env.patterns hbelow hfree hfree' hunder)]

def deviceEnv (links : List CStr) : Env where
  patterns := literal
  echo := Echo.simple
  echo_label := fun text => ⟨text ++ ['\n'], (List.append_assoc _ _ _).symm⟩
  files := fun path => if path = "/dev/metadata/dev/sda/links".toList then some (lineText links)
    else none
  metadata := "/dev/metadata/dev/sda".toList
  globalMetadata := "/dev/metadata".toList
  mountpoint := "/dev".toList

theorem enumerate_recorded_iff_metadata :
    List.Forall₂ (Recorded "/dev/metadata".toList "/dev".toList)
      ["/dev/metadata/sda".toList]
      (udevEnumerateSymlinks (deviceEnv ["/dev/metadata/sda".toList]) [] [] []) :=
  (enumerate_recorded_iff (deviceEnv ["/dev/metadata/sda".toList]) [] [] [] "/dev".toList
    "metadata".toList ["/dev/metadata/sda".toList] rfl rfl (by decide) rfl (by decide)).mpr
    (by
      intro link hlink
      rw [List.mem_singleton.mp hlink, Exportable, if_pos (by decide)]
      exact fun _ => ⟨"sda".toList, rfl⟩)

/-- The link of a disk is not recorded. -/
theorem enumerate_recorded_fails :
    ¬∀ (env : Env) (arg₁ arg₂ arg₃ mountpoint below : CStr) (links : List CStr),
      orDefault arg₃ env.mountpoint = mountpoint →
      orDefault arg₂ env.globalMetadata = mountpoint ++ '/' :: below → below ≠ [] →
      env.files (orDefault arg₁ env.metadata ++ "/links".toList) = some (lineText links) →
      (∀ link ∈ links, '\n' ∉ link ∧ link.head? = some '/') →
      List.Forall₂ (Recorded (mountpoint ++ '/' :: below) mountpoint) links
        (udevEnumerateSymlinks env arg₁ arg₂ arg₃) := by
  intro h
  have hdisk := h (deviceEnv ["/dev/disk/by-id/usb".toList]) [] [] [] "/dev".toList
    "metadata".toList ["/dev/disk/by-id/usb".toList] rfl rfl (by decide) rfl (by decide)
  rw [udevEnumerateSymlinks_eq _ [] [] [] ["/dev/disk/by-id/usb".toList] rfl (by decide)] at hdisk
  obtain ⟨hrecord, -⟩ := List.forall₂_cons.mp hdisk
  have hprinted := hrecord.2 "disk/by-id/usb".toList rfl (by decide)
  have hnothing : enumerateLine (deviceEnv ["/dev/disk/by-id/usb".toList])
      ("/dev".toList ++ '/' :: "metadata".toList) "/dev".toList "/dev/disk/by-id/usb".toList = [] :=
    enumerateLine_plain _ (by decide) (by decide) (by decide) ⟨"disk/by-id/usb".toList, rfl⟩
  exact absurd (hnothing.symm.trans hprinted) (by decide)

end Vdev.UdevSymlinks
