import Vdev.Shell
import Mathlib.Data.Finset.Basic
import Mathlib.Logic.Function.Basic

/-!
The index of links and tags that the helpers keep for libudev (vdevd/helpers/LINUX/subr.sh,
udev-compat.sh). A device writes down the links it makes and its tags in its own metadata
directory; from these files the index directories of the device are computed anew when it is
added and when it is removed. Devices are known by their IDs.
-/
namespace Vdev.UdevIndex

open CString Shell

/-- A name that a file can have: the ID of a device, or a tag. -/
structure FileName where
  text : CStr
  ok : text ≠ [] ∧ '/' ∉ text ∧ '\x00' ∉ text ∧ text ≠ ".".toList ∧ text ≠ "..".toList
  deriving DecidableEq

/-- The files that the helpers work on. `symlinks` has the source of each symbolic link;
`links`, `tags` and `ownTags` are the file of links, the directory of tags (in the order in
which they were added) and the directory `udev/tags` in the metadata directory of a device;
`linkIndex` and `tagIndex` are the directories of IDs under `udev/links` and `udev/tags`. -/
structure State where
  symlinks : CStr → Option CStr
  links : FileName → Option CStr
  tags : FileName → Option (List FileName)
  ownTags : FileName → Option (Finset FileName)
  linkIndex : CStr → Option (Finset FileName)
  tagIndex : CStr → Option (Finset FileName)

/-- What surrounds the helpers: the mountpoint (without pattern characters), `echo` of the shell,
the order of `ls`, the directories that can be made, and what `rm -rf` does with a name that the
shell splits into words or expands. -/
structure Env where
  mountpoint : CStr
  echo : Echo
  sort : List CStr → List CStr
  canMake : CStr → Bool
  rmWords : CStr → State → State

/-- The shell takes the name for one word, and `rm` removes it. -/
def IsWord (name : CStr) : Prop :=
  name ≠ [] ∧ name ≠ ".".toList ∧ name ≠ "..".toList ∧ ∀ c ∈ name, c ∉ " \t\n*?[".toList

instance (name : CStr) : Decidable (IsWord name) := inferInstanceAs (Decidable (_ ∧ _ ∧ _ ∧ _))

/-- `vdev_serialize_path`. -/
def serializePath (echo : Echo) (path : CStr) : CStr :=
  substituted ((echo.print path).flatMap fun c => if c = '/' then "\\x2f".toList else [c])

/-- `${_LINE##$_MOUNTPOINT}`. -/
def stripMountpoint (mountpoint line : CStr) : CStr :=
  if mountpoint <+: line then line.drop mountpoint.length else line

/-- The name of the index directory for a line of the file of links. -/
def linkDir (env : Env) (line : CStr) : CStr :=
  serializePath env.echo (stripMountpoint env.mountpoint line)

/-- `vdev_symlink`, with the status of `ln -sf`. -/
def vdevSymlink (env : Env) (A : FileName) (source target : CStr) (ok : Bool) (s : State) : State :=
  if !ok then s
  else
    { s with
      symlinks := Function.update s.symlinks target (some source)
      links := Function.update s.links A (some ((s.links A).getD [] ++ env.echo.print target)) }

/-- `vdev_rmlinks`. -/
def vdevRmlinks (A : FileName) (s : State) : State :=
  match s.links A with
  | none => s
  | some file =>
    (readLines file).foldl
      (fun s line => { s with symlinks := Function.update s.symlinks line none }) s

/-- `vdev_add_tag`. -/
def vdevAddTag (A tag : FileName) (s : State) : State :=
  let names := (s.tags A).getD []
  if tag ∈ names then s else { s with tags := Function.update s.tags A (some (names ++ [tag])) }

/-- `echo "" > dir/ID`, in a directory of an index that is made when it is not there. -/
def indexIn (index : CStr → Option (Finset FileName)) (dir : CStr) (A : FileName) :
    CStr → Option (Finset FileName) :=
  Function.update index dir (some (insert A ((index dir).getD ∅)))

/-- The loop of `udev_generate_links`. `failed` says whether `_RC` is not zero: it is the caller's
until a directory is made, and is looked at after each entry. -/
def generateLinksLoop (env : Env) (A : FileName) : Bool → List CStr → State → State
  | _, [], s => s
  | failed, line :: lines, s =>
    let dir := linkDir env line
    if dir = [] then generateLinksLoop env A failed lines s
    else if s.linkIndex dir = none ∧ env.canMake dir = false then s
    else
      let failed := failed && s.linkIndex dir != none
      let s := { s with linkIndex := indexIn s.linkIndex dir A }
      if failed then s else generateLinksLoop env A failed lines s

/-- `udev_generate_links`. -/
def udevGenerateLinks (env : Env) (A : FileName) (failed : Bool) (s : State) : State :=
  match s.links A with
  | none => s
  | some file => generateLinksLoop env A failed (readLines file) s

/-- `/bin/rm -rf $_LINK_DIR`. -/
def rmRf (env : Env) (dir : CStr) (s : State) : State :=
  if IsWord dir then { s with linkIndex := Function.update s.linkIndex dir none }
  else env.rmWords dir s

/-- The loop of `udev_remove_links`. -/
def removeLinksLoop (env : Env) : List CStr → State → State
  | [], s => s
  | line :: lines, s =>
    let dir := linkDir env line
    if dir = [] then removeLinksLoop env lines s
    else if s.linkIndex dir = none then removeLinksLoop env lines s
    else removeLinksLoop env lines (rmRf env dir s)

/-- `udev_remove_links`. -/
def udevRemoveLinks (env : Env) (A : FileName) (s : State) : State :=
  match s.links A with
  | none => s
  | some file => removeLinksLoop env (readLines file) s

/-- The lines of `ls` in the directory of tags, as the here-documents hand them on. -/
def tagLines (env : Env) (names : List FileName) : List CStr :=
  let visible := (names.map FileName.text).filter (·.head? != some '.')
  hereDocument (lineText (env.sort visible))

/-- The loop of `udev_generate_tags`. -/
def generateTagsLoop (env : Env) (A : FileName) : List CStr → State → State
  | [], s => s
  | tag :: tags, s =>
    if s.tagIndex tag = none ∧ env.canMake tag = false then s
    else generateTagsLoop env A tags { s with tagIndex := indexIn s.tagIndex tag A }

/-- `udev_generate_tags`. -/
def udevGenerateTags (env : Env) (A : FileName) (s : State) : State :=
  match s.tags A with
  | none => s
  | some names => generateTagsLoop env A (tagLines env names) s

/-- `rm -f` of the ID in a directory, and `rmdir`. -/
def rmTag (A : FileName) (s : State) : State :=
  match s.ownTags A with
  | none => s
  | some ids =>
    let left := ids.erase A
    { s with ownTags := Function.update s.ownTags A (if left = ∅ then none else some left) }

/-- `udev_remove_tags`: for each tag, the directory `udev/tags` of the device's own metadata. -/
def udevRemoveTags (env : Env) (A : FileName) (s : State) : State :=
  match s.tags A with
  | none => s
  | some names => (tagLines env names).foldl (fun s _ => rmTag A s) s

def remove (env : Env) (A : FileName) (s : State) : State :=
  udevRemoveTags env A (udevRemoveLinks env A (vdevRmlinks A s))

inductive Op
  | symlink (A : FileName) (source target : CStr) (ok : Bool)
  | addTag (A tag : FileName)
  | generate (A : FileName) (failed : Bool)
  | remove (A : FileName)

def step (env : Env) (s : State) : Op → State
  | .symlink A source target ok => vdevSymlink env A source target ok s
  | .addTag A tag => vdevAddTag A tag s
  | .generate A failed => udevGenerateTags env A (udevGenerateLinks env A failed s)
  | .remove A => remove env A s

def start : State where
  symlinks := fun _ => none
  links := fun _ => none
  tags := fun _ => none
  ownTags := fun _ => none
  linkIndex := fun _ => none
  tagIndex := fun _ => none

def exec (env : Env) (ops : List Op) : State := ops.foldl (step env) start

def Listed (index : CStr → Option (Finset FileName)) (dir : CStr) (A : FileName) : Prop :=
  ∃ ids, index dir = some ids ∧ A ∈ ids

/-- What the removal of a device from `s` to `s'` is to do, where `resolve` says which device a
symbolic link points to. -/
structure Exact (resolve : CStr → CStr → Option FileName) (A : FileName) (s s' : State) :
    Prop where
  links_gone : ∀ dir, ¬Listed s'.linkIndex dir A
  tags_gone : ∀ dir, ¬Listed s'.tagIndex dir A
  links_kept : ∀ B, B ≠ A → ∀ dir, Listed s'.linkIndex dir B ↔ Listed s.linkIndex dir B
  tags_kept : ∀ B, B ≠ A → ∀ dir, Listed s'.tagIndex dir B ↔ Listed s.tagIndex dir B
  symlinks_kept : ∀ B, B ≠ A → ∀ path source, s.symlinks path = some source →
    resolve path source = some B → s'.symlinks path = some source

def linkLines (s : State) (A : FileName) : List CStr := (s.links A).elim [] readLines

/-- The device has no tag in the index, and shares neither an index directory of links nor a path
of a link with another device. -/
structure Unshared (env : Env) (resolve : CStr → CStr → Option FileName) (A : FileName)
    (s : State) : Prop where
  untagged : ∀ dir, ¬Listed s.tagIndex dir A
  dirs : ∀ line ∈ linkLines s A, ∀ B, B ≠ A → ¬Listed s.linkIndex (linkDir env line) B
  paths : ∀ line ∈ linkLines s A, ∀ source, s.symlinks line = some source →
    ∀ B, B ≠ A → resolve line source ≠ some B

/-- A path of a link that is written down as it is, and whose index directory has a name of one
word. -/
def PlainPath (env : Env) (path : CStr) : Prop :=
  Plain path ∧ path.head? = some '/' ∧ IsWord (linkDir env path)

def PlainOp (env : Env) : Op → Prop
  | .symlink _ _ target _ => PlainPath env target
  | _ => True

theorem rmlinks_loop (lines : List CStr) (s : State) :
    lines.foldl (fun s line => { s with symlinks := Function.update s.symlinks line none }) s =
      { s with symlinks := fun path => if path ∈ lines then none else s.symlinks path } := by
  induction lines generalizing s with
  | nil => simp
  | cons line lines ih =>
    rw [List.foldl_cons, ih]
    congr 1
    funext path
    by_cases hmem : path ∈ lines
    · rw [if_pos hmem, if_pos (List.mem_cons_of_mem _ hmem)]
    · by_cases hpath : path = line
      · subst hpath
        rw [if_neg hmem, if_pos List.mem_cons_self]
        exact Function.update_self path none s.symlinks
      · rw [if_neg hmem, if_neg (by simp [hpath, hmem])]
        exact Function.update_of_ne hpath none s.symlinks

/-- `vdev_rmlinks` removes whatever stands at the paths that were written down. -/
theorem vdevRmlinks_eq (A : FileName) (s : State) :
    vdevRmlinks A s =
      { s with
        symlinks := fun path => if path ∈ linkLines s A then none else s.symlinks path } := by
  unfold vdevRmlinks linkLines
  cases s.links A with
  | none => simp
  | some file => exact rmlinks_loop (readLines file) s

theorem removeTags_loop (A : FileName) (tags : List CStr) (s : State) :
    ∃ own, tags.foldl (fun s _ => rmTag A s) s = { s with ownTags := own } := by
  induction tags generalizing s with
  | nil => exact ⟨s.ownTags, rfl⟩
  | cons tag tags ih =>
    have htag : ∃ own, rmTag A s = { s with ownTags := own } := by
      unfold rmTag
      cases s.ownTags A with
      | none => exact ⟨s.ownTags, rfl⟩
      | some ids => exact ⟨_, rfl⟩
    obtain ⟨own, hown⟩ := htag
    obtain ⟨own', hown'⟩ := ih { s with ownTags := own }
    exact ⟨own', by rw [List.foldl_cons, hown, hown']⟩

/-- `udev_remove_tags` looks into the metadata directory of the device, and the index stays as it
is. -/
theorem udevRemoveTags_eq (env : Env) (A : FileName) (s : State) :
    ∃ own, udevRemoveTags env A s = { s with ownTags := own } := by
  unfold udevRemoveTags
  cases s.tags A with
  | none => exact ⟨s.ownTags, rfl⟩
  | some names => exact removeTags_loop A (tagLines env names) s

theorem generateTags_loop (env : Env) (A : FileName) (tags : List CStr) (s : State) :
    ∃ index, generateTagsLoop env A tags s = { s with tagIndex := index } := by
  induction tags generalizing s with
  | nil => exact ⟨s.tagIndex, rfl⟩
  | cons tag tags ih =>
    rw [generateTagsLoop]
    split_ifs
    · exact ⟨s.tagIndex, rfl⟩
    · obtain ⟨index, h⟩ := ih { s with tagIndex := indexIn s.tagIndex tag A }
      exact ⟨index, h⟩

theorem udevGenerateTags_eq (env : Env) (A : FileName) (s : State) :
    ∃ index, udevGenerateTags env A s = { s with tagIndex := index } := by
  unfold udevGenerateTags
  cases s.tags A with
  | none => exact ⟨s.tagIndex, rfl⟩
  | some names => exact generateTags_loop env A (tagLines env names) s

/-- Directories that are removed list no device. -/
theorem listed_ite (index : CStr → Option (Finset FileName)) (gone : CStr → Prop)
    [DecidablePred gone] (dir : CStr) (A : FileName) :
    Listed (fun dir => if gone dir then none else index dir) dir A ↔
      ¬gone dir ∧ Listed index dir A := by
  unfold Listed
  by_cases hgone : gone dir
  · simp [hgone]
  · simp [hgone]

theorem listed_indexIn (index : CStr → Option (Finset FileName)) (dir dir' : CStr)
    (A B : FileName) (h : Listed (indexIn index dir A) dir' B) :
    Listed index dir' B ∨ (dir' = dir ∧ B = A) := by
  obtain ⟨ids, hids, hmem⟩ := h
  unfold indexIn at hids
  by_cases hdir : dir' = dir
  · subst hdir
    rw [Function.update_self] at hids
    cases hids
    rcases Finset.mem_insert.mp hmem with rfl | hmem
    · exact Or.inr ⟨rfl, rfl⟩
    · cases hold : index dir' with
      | none =>
        rw [hold] at hmem
        exact absurd hmem (Finset.notMem_empty B)
      | some old =>
        rw [hold] at hmem
        exact Or.inl ⟨old, hold, hmem⟩
  · rw [Function.update_of_ne hdir] at hids
    exact Or.inl ⟨ids, hids, hmem⟩

/-- `udev_generate_links` lists no device but its own, and only in the directories of its lines. -/
theorem generateLinks_loop (env : Env) (A : FileName) (failed : Bool) (lines : List CStr)
    (s : State) :
    ∃ index, generateLinksLoop env A failed lines s = { s with linkIndex := index } ∧
      ∀ dir B, Listed index dir B →
        Listed s.linkIndex dir B ∨ (B = A ∧ ∃ line ∈ lines, linkDir env line = dir) := by
  induction lines generalizing failed s with
  | nil => exact ⟨s.linkIndex, rfl, fun dir B h => Or.inl h⟩
  | cons line lines ih =>
    have hlater {dir : CStr} (h : ∃ l ∈ lines, linkDir env l = dir) :
        ∃ l ∈ line :: lines, linkDir env l = dir := by
      obtain ⟨l, hl, hdir⟩ := h
      exact ⟨l, List.mem_cons_of_mem _ hl, hdir⟩
    have hentry (dir : CStr) (B : FileName)
        (h : Listed (indexIn s.linkIndex (linkDir env line) A) dir B) :
        Listed s.linkIndex dir B ∨ (B = A ∧ ∃ l ∈ line :: lines, linkDir env l = dir) := by
      refine (listed_indexIn _ _ _ _ _ h).imp_right ?_
      rintro ⟨rfl, rfl⟩
      exact ⟨rfl, line, List.mem_cons_self, rfl⟩
    simp only [generateLinksLoop]
    split_ifs with hempty hfail hstop
    · obtain ⟨index, heq, hlisted⟩ := ih failed s
      exact ⟨index, heq, fun dir B h => (hlisted dir B h).imp_right (And.imp_right hlater)⟩
    · exact ⟨s.linkIndex, rfl, fun dir B h => Or.inl h⟩
    · exact ⟨_, rfl, hentry⟩
    · obtain ⟨index, heq, hlisted⟩ := ih (failed && s.linkIndex (linkDir env line) != none)
        { s with linkIndex := indexIn s.linkIndex (linkDir env line) A }
      refine ⟨index, heq, fun dir B h => ?_⟩
      rcases hlisted dir B h with hold | hnew
      · exact hentry dir B hold
      · exact Or.inr (hnew.imp_right hlater)

theorem udevGenerateLinks_eq (env : Env) (A : FileName) (failed : Bool) (s : State) :
    ∃ index, udevGenerateLinks env A failed s = { s with linkIndex := index } ∧
      ∀ dir B, Listed index dir B →
        Listed s.linkIndex dir B ∨ (B = A ∧ ∃ line ∈ linkLines s A, linkDir env line = dir) := by
  unfold udevGenerateLinks linkLines
  cases s.links A with
  | none => exact ⟨s.linkIndex, rfl, fun dir B h => Or.inl h⟩
  | some file => exact generateLinks_loop env A failed (readLines file) s

/-- Where all names are words, `udev_remove_links` removes the whole directories of the lines. -/
theorem removeLinks_loop (env : Env) (lines : List CStr) (s : State)
    (hwords : ∀ line ∈ lines, IsWord (linkDir env line)) :
    removeLinksLoop env lines s =
      { s with linkIndex := fun dir => if ∃ line ∈ lines, linkDir env line = dir then none
        else s.linkIndex dir } := by
  induction lines generalizing s with
  | nil => simp [removeLinksLoop]
  | cons line lines ih =>
    have hword := hwords line List.mem_cons_self
    have ih := fun s => ih s fun other hother => hwords other (List.mem_cons_of_mem _ hother)
    rw [removeLinksLoop]
    rw [if_neg hword.1]
    split_ifs with hnone
    · rw [ih]
      congr 1
      funext dir
      by_cases hdir : linkDir env line = dir
      · subst hdir
        simp [hnone]
      · simp [hdir]
    · rw [ih, rmRf, if_pos hword]
      congr 1
      funext dir
      by_cases hdir : linkDir env line = dir
      · subst hdir
        simp
      · simp [hdir, Function.update_of_ne (Ne.symm hdir)]

/-- The files of links hold plain paths, and an entry in the index has a line in the file of its
device. -/
structure Recorded (env : Env) (s : State) : Prop where
  written : ∀ A file, s.links A = some file →
    ∃ paths, file = lineText paths ∧ ∀ path ∈ paths, PlainPath env path
  recorded : ∀ dir A, Listed s.linkIndex dir A → ∃ line ∈ linkLines s A, linkDir env line = dir

theorem recorded_start (env : Env) : Recorded env start := by
  refine ⟨fun A file h => ?_, fun dir A h => ?_⟩
  · cases h
  · obtain ⟨ids, hids, -⟩ := h
    cases hids

/-- A file of plain paths is read as it was written. -/
theorem Recorded.linkLines_eq {env : Env} {s : State} (h : Recorded env s) (A : FileName) :
    ∃ paths, (s.links A).getD [] = lineText paths ∧ linkLines s A = paths ∧
      ∀ path ∈ paths, PlainPath env path := by
  unfold linkLines
  cases hfile : s.links A with
  | none => exact ⟨[], rfl, rfl, by simp⟩
  | some file =>
    obtain ⟨paths, rfl, hplain⟩ := h.written A file hfile
    exact ⟨paths, rfl,
      readLines_lineText paths fun path hpath hnl => ((hplain path hpath).1 _ hnl).2.1 rfl, hplain⟩

theorem Recorded.isWord {env : Env} {s : State} (h : Recorded env s) (A : FileName) :
    ∀ line ∈ linkLines s A, IsWord (linkDir env line) := by
  obtain ⟨paths, -, hlines, hplain⟩ := h.linkLines_eq A
  rw [hlines]
  exact fun line hline => (hplain line hline).2.2

theorem udevRemoveLinks_eq {env : Env} {s : State} (h : Recorded env s) (A : FileName) :
    udevRemoveLinks env A s =
      { s with linkIndex := fun dir => if ∃ line ∈ linkLines s A, linkDir env line = dir then none
        else s.linkIndex dir } := by
  have hwords := h.isWord A
  unfold udevRemoveLinks
  unfold linkLines at hwords ⊢
  cases hfile : s.links A with
  | none => simp
  | some file =>
    rw [hfile] at hwords
    exact removeLinks_loop env (readLines file) s hwords

/-- The removal of a device: the paths that it wrote down are gone, with the directories that
belong to them, and nothing else has changed in the index. -/
theorem remove_eq {env : Env} {s : State} (h : Recorded env s) (A : FileName) :
    ∃ own, remove env A s = { s with
      symlinks := fun path => if path ∈ linkLines s A then none else s.symlinks path
      linkIndex := fun dir => if ∃ line ∈ linkLines s A, linkDir env line = dir then none
        else s.linkIndex dir
      ownTags := own } := by
  have hrec : Recorded env (vdevRmlinks A s) := by
    rw [vdevRmlinks_eq]
    exact ⟨h.written, h.recorded⟩
  obtain ⟨own, hown⟩ := udevRemoveTags_eq env A (udevRemoveLinks env A (vdevRmlinks A s))
  refine ⟨own, ?_⟩
  rw [remove, hown, udevRemoveLinks_eq hrec, vdevRmlinks_eq]
  rfl

theorem recorded_symlink {env : Env} {s : State} (h : Recorded env s) (A : FileName)
    (source target : CStr) (ok : Bool) (htarget : PlainPath env target) :
    Recorded env (vdevSymlink env A source target ok s) := by
  unfold vdevSymlink
  cases ok with
  | false => exact h
  | true =>
    obtain ⟨paths, hfile, hlines, hplain⟩ := h.linkLines_eq A
    have hprint : env.echo.print target = target ++ ['\n'] := by
      refine env.echo.print_of_plain htarget.1 ?_
      rintro rfl
      exact absurd htarget.2.1 (by decide)
    have hnew : (s.links A).getD [] ++ env.echo.print target = lineText (paths ++ [target]) := by
      rw [hfile, hprint, lineText_append, lineText, lineText, List.flatMap_singleton]
    have hplain' : ∀ path ∈ paths ++ [target], PlainPath env path := by
      rw [List.forall_mem_append, List.forall_mem_singleton]
      exact ⟨hplain, htarget⟩
    have hread : readLines (lineText (paths ++ [target])) = paths ++ [target] :=
      readLines_lineText _ fun path hpath hnl => ((hplain' path hpath).1 _ hnl).2.1 rfl
    rw [Bool.not_true, if_neg Bool.false_ne_true, hnew]
    refine ⟨fun B file hB => ?_, fun dir B hlisted => ?_⟩
    · by_cases hBA : B = A
      · subst hBA
        simp only [Function.update_self, Option.some.injEq] at hB
        exact ⟨_, hB.symm, hplain'⟩
      · simp only [Function.update_of_ne hBA] at hB
        exact h.written B file hB
    · obtain ⟨line, hline, hdir⟩ := h.recorded dir B hlisted
      refine ⟨line, ?_, hdir⟩
      unfold linkLines
      by_cases hBA : B = A
      · subst hBA
        simp only [Function.update_self, Option.elim_some, hread]
        exact List.mem_append_left _ (hlines ▸ hline)
      · simp only [Function.update_of_ne hBA]
        exact hline

/-- Every operation keeps what is recorded. -/
theorem recorded_step {env : Env} {s : State} (h : Recorded env s) (op : Op)
    (hop : PlainOp env op) : Recorded env (step env s op) := by
  cases op with
  | symlink A source target ok => exact recorded_symlink h A source target ok hop
  | addTag A tag =>
    simp only [step, vdevAddTag]
    split_ifs
    · exact h
    · exact ⟨h.written, h.recorded⟩
  | generate A failed =>
    obtain ⟨index, hlinks, hlisted⟩ := udevGenerateLinks_eq env A failed s
    obtain ⟨tags, htags⟩ := udevGenerateTags_eq env A (udevGenerateLinks env A failed s)
    rw [step, htags, hlinks]
    refine ⟨h.written, fun dir B hB => ?_⟩
    rcases hlisted dir B hB with hold | ⟨rfl, hnew⟩
    · exact h.recorded dir B hold
    · exact hnew
  | remove A =>
    obtain ⟨own, hremove⟩ := remove_eq h A
    rw [step, hremove]
    exact ⟨h.written, fun dir B hB => h.recorded dir B ((listed_ite _ _ dir B).mp hB).2⟩

theorem recorded_exec (env : Env) (ops : List Op) (hops : ∀ op ∈ ops, PlainOp env op) :
    Recorded env (exec env ops) := by
  have hfrom (s : State) (h : Recorded env s) : Recorded env (ops.foldl (step env) s) := by
    induction ops generalizing s with
    | nil => exact h
    | cons op ops ih =>
      exact ih (fun other hother => hops other (List.mem_cons_of_mem _ hother)) _
        (recorded_step h op (hops op List.mem_cons_self))
  exact hfrom start (recorded_start env)

/-- After any operations, the removal of a device does exactly what it is to do when the device
has no tag in the index and shares nothing. -/
theorem exact_iff_unshared (env : Env) (resolve : CStr → CStr → Option FileName) (ops : List Op)
    (hops : ∀ op ∈ ops, PlainOp env op) (A : FileName) :
    Exact resolve A (exec env ops) (remove env A (exec env ops)) ↔
      Unshared env resolve A (exec env ops) := by
  have hrec := recorded_exec env ops hops
  set s := exec env ops
  obtain ⟨own, hremove⟩ := remove_eq hrec A
  rw [hremove]
  constructor
  · intro h
    refine ⟨h.tags_gone, fun line hline B hB hlisted => ?_,
      fun line hline source hsource B hB hto => ?_⟩
    · have hkept := (h.links_kept B hB (linkDir env line)).mpr hlisted
      exact ((listed_ite _ _ _ _).mp hkept).1 ⟨line, hline, rfl⟩
    · have hkept := h.symlinks_kept B hB line source hsource hto
      simp only [hline, if_true] at hkept
      cases hkept
  · intro h
    refine ⟨fun dir hlisted => ?_, h.untagged, fun B hB dir => ?_, fun B hB dir => Iff.rfl,
      fun B hB path source hsource hto => ?_⟩
    · obtain ⟨hdir, hold⟩ := (listed_ite _ _ dir A).mp hlisted
      exact hdir (hrec.recorded dir A hold)
    · rw [listed_ite, and_iff_right_iff_imp]
      rintro hlisted ⟨line, hline, rfl⟩
      exact h.dirs line hline B hB hlisted
    · have hpath : path ∉ linkLines s A :=
        fun hline => h.paths path hline source hsource B hB hto
      simp only [hpath, if_false]
      exact hsource

def devEnv : Env := ⟨"/dev".toList, Echo.simple, id, fun _ => true, fun _ s => s⟩

def sda : FileName := ⟨"b8:0".toList, by decide⟩
def sdb : FileName := ⟨"b8:16".toList, by decide⟩
def seat : FileName := ⟨"seat".toList, by decide⟩

def dataLink : CStr := "/dev/disk/by-label/data".toList
def bootLink : CStr := "/dev/disk/by-label/boot".toList

def resolveDisk (_path source : CStr) : Option FileName :=
  if source = "../../sda".toList then some sda
  else if source = "../../sdb".toList then some sdb
  else none

def oneDisk : List Op := [.symlink sda "../../sda".toList dataLink true, .generate sda false]

def labelledDisks : List Op :=
  oneDisk ++ [.symlink sdb "../../sdb".toList bootLink true, .generate sdb false]

/-- The removal of the first disk leaves the second one alone. -/
theorem exact_iff_unshared_labelled :
    Exact resolveDisk sda (exec devEnv labelledDisks)
      (remove devEnv sda (exec devEnv labelledDisks)) := by
  have hplain : ∀ op ∈ labelledDisks, PlainOp devEnv op := by
    simp only [labelledDisks, oneDisk, List.cons_append, List.nil_append, List.forall_mem_cons]
    exact ⟨⟨by decide, by decide, by decide⟩, trivial, ⟨by decide, by decide, by decide⟩, trivial,
      by simp⟩
  have hlines : linkLines (exec devEnv labelledDisks) sda = [dataLink] := by decide
  have hids : (exec devEnv labelledDisks).linkIndex (linkDir devEnv dataLink) = some {sda} := by
    decide
  have hsource : (exec devEnv labelledDisks).symlinks dataLink = some "../../sda".toList := by
    decide
  refine (exact_iff_unshared devEnv resolveDisk labelledDisks hplain sda).mpr ⟨?_, ?_, ?_⟩
  · rintro dir ⟨ids, hnone, -⟩
    cases hnone
  · rw [hlines]
    rintro line hline B hB ⟨ids, hsome, hmem⟩
    rw [List.mem_singleton.mp hline, hids] at hsome
    cases hsome
    exact hB (Finset.mem_singleton.mp hmem)
  · rw [hlines]
    intro line hline source hlink B hB hto
    rw [List.mem_singleton.mp hline, hsource] at hlink
    cases hlink
    exact hB (Option.some.inj hto).symm

def taggedDisk : List Op := [.addTag sda seat, .generate sda false]

def twoDisks : List Op :=
  oneDisk ++ [.symlink sdb "../../sdb".toList dataLink true, .generate sdb false]

/-- The entry of a tag stays; and with a disk, the link and the entry of another disk go. -/
theorem not_exact_disks :
    ¬Exact resolveDisk sda (exec devEnv taggedDisk) (remove devEnv sda (exec devEnv taggedDisk)) ∧
    ¬Exact resolveDisk sda (exec devEnv twoDisks) (remove devEnv sda (exec devEnv twoDisks)) := by
  constructor
  · intro h
    refine h.tags_gone seat.text ⟨{sda}, ?_, by decide⟩
    decide
  · intro h
    have hkept := h.symlinks_kept sdb (by decide) dataLink "../../sdb".toList (by decide)
      (by decide)
    exact absurd hkept (by decide)

end Vdev.UdevIndex
