import Mathlib.Data.List.Basic
import Mathlib.Tactic
import Vdev.Locking
import Vdev.Runs

/-!
Readers and replacements of the fields that threads share under a lock. Readers lock, read
the fields and unlock, once on every path. A replacement loads a new version of all fields,
which may fail, installs the version under the lock, and frees the old one without it. Each
reader sees one version, which is not freed while it reads.
-/
namespace Vdev.Replacement

open Locking

variable {F T H : Type}

/-- A program that does not touch the fields any more. -/
inductive Outside : Prog F → Prop
  | done : Outside .done
  | branch {next : ℕ → Prog F} (h : ∀ n, Outside (next n)) : Outside (.branch next)

/-- A program that holds the lock, reads fields, and gives the lock back. -/
inductive Inside : Prog F → Prop
  | read {f : F} {next : Prog F} (h : Inside next) : Inside (.op (.read f) next)
  | branch {next : ℕ → Prog F} (h : ∀ n, Inside (next n)) : Inside (.branch next)
  | unlock {next : Prog F} (h : Outside next) : Inside (.op .unlock next)

/-- A program that reads fields under the lock. -/
def Reader (p : Prog F) : Prop := ∃ next, p = .op .lock next ∧ Inside next

theorem Outside.path_eq_nil {p : Prog F} (h : Outside p) {os : List (Op F)} (hos : Path p os) :
    os = [] := by
  induction h with
  | done =>
    cases hos
    rfl
  | branch _ ih =>
    cases hos with
    | branch n hpath => exact ih n hpath

theorem Inside.path {p : Prog F} (h : Inside p) {os : List (Op F)} (hos : Path p os) :
    ∃ fs : List F, os = fs.map Op.read ++ [.unlock] := by
  induction h generalizing os with
  | read _ ih =>
    cases hos with
    | op hpath =>
      obtain ⟨fs, rfl⟩ := ih hpath
      exact ⟨_ :: fs, rfl⟩
  | branch _ ih =>
    cases hos with
    | branch n hpath => exact ih n hpath
  | unlock h =>
    cases hos with
    | op hpath =>
      rw [h.path_eq_nil hpath]
      exact ⟨[], rfl⟩

/-- On every path a reader locks once, then reads, and then unlocks once. -/
theorem Reader.path {p : Prog F} (h : Reader p) {os : List (Op F)} (hos : Path p os) :
    ∃ fs : List F, os = .lock :: (fs.map Op.read ++ [.unlock]) := by
  obtain ⟨next, rfl, hinside⟩ := h
  cases hos with
  | op hpath =>
    obtain ⟨fs, rfl⟩ := hinside.path hpath
    exact ⟨fs, rfl⟩

theorem Outside.balanced {p : Prog F} (h : Outside p) : Balanced false p := by
  induction h with
  | done => exact .done
  | branch _ ih => exact .branch ih

theorem Inside.balanced {p : Prog F} (h : Inside p) : Balanced true p := by
  induction h with
  | read _ ih => exact .other (by simp) (by simp) ih
  | branch _ ih => exact .branch ih
  | unlock h => exact .unlock h.balanced

theorem Reader.balanced {p : Prog F} (h : Reader p) : Balanced false p := by
  obtain ⟨next, rfl, hinside⟩ := h
  exact .lock hinside.balanced

/-- The rest of a replacement of all fields, from some point under the lock on. A field is
saved before it is installed, it is installed before the lock is given back, and freed
after that. -/
def SwapTail : List (Op F) → Prop
  | [] => True
  | .unlock :: os =>
    (∀ f, .install f ∉ os ∧ .save f ∉ os) ∧ .unlock ∉ os ∧ SwapTail os
  | .install f :: os => .save f ∉ os ∧ .install f ∉ os ∧ .unlock ∈ os ∧ SwapTail os
  | .save f :: os => .install f ∈ os ∧ .unlock ∈ os ∧ SwapTail os
  | .free _ :: os => (∀ f, .install f ∉ os) ∧ .unlock ∉ os ∧ SwapTail os
  | _ :: _ => False

theorem SwapTail.unlock_mem {os : List (Op F)} (h : SwapTail os) {f : F} (hf : .install f ∈ os) :
    .unlock ∈ os := by
  cases os with
  | nil => cases hf
  | cons o os =>
    cases o with
    | lock => exact h.elim
    | unlock => exact List.mem_cons_self
    | load => exact h.elim
    | read g => exact h.elim
    | save g => exact List.mem_cons_of_mem _ h.2.1
    | install g => exact List.mem_cons_of_mem _ h.2.2.1
    | free g =>
      rcases List.mem_cons.mp hf with heq | hf
      · cases heq
      · exact absurd hf (h.1 _)

theorem SwapTail.load_notMem {os : List (Op F)} (h : SwapTail os) : .load ∉ os := by
  induction os with
  | nil => exact List.not_mem_nil
  | cons o os ih =>
    intro hmem
    cases o with
    | lock => exact h.elim
    | load => exact h.elim
    | read f => exact h.elim
    | unlock => exact ih h.2.2 ((List.mem_cons.mp hmem).resolve_left (by simp))
    | save f => exact ih h.2.2 ((List.mem_cons.mp hmem).resolve_left (by simp))
    | install f => exact ih h.2.2.2 ((List.mem_cons.mp hmem).resolve_left (by simp))
    | free f => exact ih h.2.2 ((List.mem_cons.mp hmem).resolve_left (by simp))

theorem SwapTail.balanced_after {os : List (Op F)} (h : SwapTail os) (hunlock : .unlock ∉ os) :
    Balanced false (ofList os) := by
  induction os with
  | nil => exact .done
  | cons o os ih =>
    have hrest : .unlock ∉ os := fun hmem => hunlock (List.mem_cons_of_mem _ hmem)
    cases o with
    | lock => exact h.elim
    | load => exact h.elim
    | read f => exact h.elim
    | unlock => exact absurd List.mem_cons_self hunlock
    | save f => exact absurd h.2.1 hrest
    | install f => exact absurd h.2.2.1 hrest
    | free f => exact .other (by simp) (by simp) (ih h.2.2 hrest)

theorem SwapTail.balanced {os : List (Op F)} (h : SwapTail os) (hunlock : .unlock ∈ os) :
    Balanced true (ofList os) := by
  induction os with
  | nil => cases hunlock
  | cons o os ih =>
    cases o with
    | lock => exact h.elim
    | load => exact h.elim
    | read f => exact h.elim
    | unlock => exact .unlock (h.2.2.balanced_after h.2.1)
    | save f => exact .other (by simp) (by simp) (ih h.2.2 h.2.1)
    | install f => exact .other (by simp) (by simp) (ih h.2.2.2 h.2.2.1)
    | free f => exact absurd ((List.mem_cons.mp hunlock).resolve_left (by simp)) h.2.1

/-- A replacement: the lock is taken, and each field is saved and installed. -/
structure Swap (os : List (Op F)) : Prop where
  tail : SwapTail os
  unlock : .unlock ∈ os
  install : ∀ f, .install f ∈ os
  save : ∀ f, .save f ∈ os

/-- A program that loads a new version, gives up on the way, or goes on with `next`. -/
inductive Loading (next : Prog F) : Prog F → Prop
  | done : Loading next .done
  | branch {p : ℕ → Prog F} (h : ∀ n, Loading next (p n)) : Loading next (.branch p)
  | load : Loading next (.op .load next)

theorem Loading.op_eq {next next' : Prog F} {o : Op F} (h : Loading next (.op o next')) :
    o = .load := by
  cases h
  rfl

/-- A program that replaces the fields by a version that it has loaded. -/
def Writer (os : List (Op F)) (p : Prog F) : Prop := Swap os ∧ Loading (ofList (.lock :: os)) p

theorem Loading.balanced {next p : Prog F} (h : Loading next p) (hnext : Balanced false next) :
    Balanced false p := by
  induction h with
  | done => exact .done
  | branch _ ih => exact .branch ih
  | load => exact .other (by simp) (by simp) hnext

theorem Writer.balanced {os : List (Op F)} {p : Prog F} (h : Writer os p) : Balanced false p :=
  h.2.balanced (.lock (h.1.tail.balanced h.1.unlock))

/-- A replacement either gives up before it does anything, or is done as a whole. -/
theorem Loading.path {os ps : List (Op F)} {p : Prog F} (h : Loading (ofList os) p)
    (hpath : Path p ps) : ps = [] ∨ ps = .load :: os := by
  induction h with
  | done =>
    cases hpath
    exact Or.inl rfl
  | branch _ ih =>
    cases hpath with
    | branch n hpath => exact ih n hpath
  | load =>
    cases hpath with
    | op hpath =>
      rw [path_ofList hpath]
      exact Or.inr rfl

section Standing

variable [DecidableEq F]

/-- A version that is loaded and was never installed in the field. -/
def Fresh (s : State T F) (f : F) (v : ℕ) : Prop :=
  (f, v) ∉ s.past ∧ v ≠ s.shared f ∧ v < s.next

/-- Where a reader stands. While it holds the lock all fields have one version, and that
is the one that it reads. -/
inductive Reading (s : State T F) (t : T) (fr : Frame F) : Prop
  | before (hprog : Reader fr.prog) (howner : s.owner ≠ some t) (hseen : fr.seen = [])
  | inside (v : ℕ) (hprog : Inside fr.prog) (howner : s.owner = some t)
      (hshared : ∀ f, s.shared f = v) (hseen : ∀ x ∈ fr.seen, x.2 = v)
  | after (v : ℕ) (hprog : Outside fr.prog) (howner : s.owner ≠ some t)
      (hseen : ∀ x ∈ fr.seen, x.2 = v)

/-- A replacement with the operations `os` left. -/
structure Swapping (s : State T F) (t : T) (fr : Frame F) (os : List (Op F)) : Prop where
  tail : SwapTail os
  owner : s.owner = some t ↔ .unlock ∈ os
  fresh : ∀ f, .install f ∈ os → Fresh s f fr.new
  saved : ∀ f, .install f ∈ os → .save f ∉ os → fr.old f = s.shared f
  replaced : ∀ f, .free f ∈ os → .install f ∉ os → (f, fr.old f) ∈ s.past
  shared : .unlock ∈ os → ∃ v, ∀ f, s.shared f = if .install f ∈ os then v else fr.new

/-- Where a replacement by `os` stands. -/
inductive Writing (os : List (Op F)) (s : State T F) (t : T) (fr : Frame F) : Prop
  | loading (hprog : Loading (ofList (.lock :: os)) fr.prog) (howner : s.owner ≠ some t)
  | waiting (hprog : fr.prog = ofList (.lock :: os)) (howner : s.owner ≠ some t)
      (hfresh : ∀ f, Fresh s f fr.new)
  | swapping (rest : List (Op F)) (hprog : fr.prog = ofList rest) (h : Swapping s t fr rest)

/-- The version is loaded and yet to be installed. -/
def Pending (fr : Frame F) : Prop :=
  fr.isSignal = true ∧ ∃ rest, fr.prog = ofList rest ∧ .load ∉ rest ∧ ∃ f, .install f ∈ rest

omit [DecidableEq F] in
theorem not_pending_of_loading {next : Prog F} {fr : Frame F} (h : Loading next fr.prog) :
    ¬Pending fr := by
  rintro ⟨_, rest, hprog, hload, f, hf⟩
  rw [hprog] at h
  cases rest with
  | nil => cases hf
  | cons o rest =>
    rw [h.op_eq] at hload
    exact hload List.mem_cons_self

/-- What a running program needs to know of the state. -/
def Stands (os : List (Op F)) (s : State T F) (t : T) (fr : Frame F) : Prop :=
  fr.isSignal = false ∧ Reading s t fr ∨ fr.isSignal = true ∧ Writing os s t fr

variable {os : List (Op F)} {s s₁ : State T F} {t u : T} {fr : Frame F}

omit [DecidableEq F] in
theorem Reading.mono (h : Reading s u fr) (howner : s₁.owner = some u ↔ s.owner = some u)
    (hshared : s.owner = some u → s₁.shared = s.shared) : Reading s₁ u fr := by
  rcases h with ⟨hprog, hown, hseen⟩ | ⟨v, hprog, hown, hall, hseen⟩ | ⟨v, hprog, hown, hseen⟩
  · exact .before hprog (fun h => hown (howner.mp h)) hseen
  · refine .inside v hprog (howner.mpr hown) (fun f => ?_) hseen
    rw [hshared hown]
    exact hall f
  · exact .after v hprog (fun h => hown (howner.mp h)) hseen

theorem Swapping.mono {rest : List (Op F)} (h : Swapping s u fr rest)
    (howner : s₁.owner = some u ↔ s.owner = some u)
    (hshared : s.owner = some u → s₁.shared = s.shared)
    (hfresh : ∀ f, .install f ∈ rest → Fresh s f fr.new → Fresh s₁ f fr.new)
    (hpast : ∀ x ∈ s.past, x ∈ s₁.past) : Swapping s₁ u fr rest := by
  refine ⟨h.tail, howner.trans h.owner, fun f hf => hfresh f hf (h.fresh f hf), fun f hf hsave => ?_,
    fun f hfree hnot => hpast _ (h.replaced f hfree hnot), fun hunlock => ?_⟩
  · rw [hshared (h.owner.mpr (h.tail.unlock_mem hf))]
    exact h.saved f hf hsave
  · rw [hshared (h.owner.mpr hunlock)]
    exact h.shared hunlock

theorem Stands.mono (hswap : Swap os) (h : Stands os s u fr)
    (howner : s₁.owner = some u ↔ s.owner = some u)
    (hshared : s.owner = some u → s₁.shared = s.shared)
    (hfresh : Pending fr → ∀ f, Fresh s f fr.new → Fresh s₁ f fr.new)
    (hpast : ∀ x ∈ s.past, x ∈ s₁.past) : Stands os s₁ u fr := by
  rcases h with ⟨hreader, h⟩ | ⟨hsignal, h⟩
  · exact Or.inl ⟨hreader, h.mono howner hshared⟩
  · refine Or.inr ⟨hsignal, ?_⟩
    rcases h with ⟨hprog, hown⟩ | ⟨hprog, hown, hall⟩ | ⟨rest, hprog, h⟩
    · exact .loading hprog (fun h => hown (howner.mp h))
    · refine .waiting hprog (fun h => hown (howner.mp h)) (fun f => hfresh ?_ f (hall f))
      refine ⟨hsignal, _, hprog, fun hload => ?_, f, List.mem_cons_of_mem _ (hswap.install f)⟩
      exact hswap.tail.load_notMem ((List.mem_cons.mp hload).resolve_left (by simp))
    · refine .swapping rest hprog (h.mono howner hshared (fun f hf => hfresh ?_ f) hpast)
      exact ⟨hsignal, rest, hprog, h.tail.load_notMem, f, hf⟩

/-- A version that is yet to be installed is known. -/
theorem Stands.new_lt (h : Stands os s u fr) (hpending : Pending fr) : fr.new < s.next := by
  have hpending' := hpending
  obtain ⟨hsignal, rest, hprog, hload, f, hf⟩ := hpending'
  rcases h with ⟨hreader, _⟩ | ⟨_, h⟩
  · rw [hsignal] at hreader
    cases hreader
  · rcases h with ⟨hloading, _⟩ | ⟨_, _, hall⟩ | ⟨rest', hprog', h⟩
    · exact absurd hpending (not_pending_of_loading hloading)
    · exact (hall f).2.2
    · have hrest := ofList_injective (hprog.symm.trans hprog')
      subst hrest
      exact (h.fresh f hf).2.2

end Standing

section Running

variable [DecidableEq F] [DecidableEq T]

/-- Each thread runs at most one program, which is a reader or a replacement by `os`. -/
structure Inv (os : List (Op F)) (s : State T F) : Prop where
  shape : ∀ t, s.stack t = [] ∨ ∃ fr, s.stack t = [fr] ∧ Stands os s t fr
  idle : ∀ t, s.stack t = [] → s.owner ≠ some t
  free : s.owner = none → ∃ v, ∀ f, s.shared f = v
  current : ∀ f, (f, s.shared f) ∉ s.past
  known : ∀ f v, (f, v) ∈ s.past → v < s.next
  shared : ∀ f, s.shared f < s.next
  freed : ∀ x ∈ s.freed, x ∈ s.past
  distinct : ∀ t u fr gr, t ≠ u → s.stack t = [fr] → s.stack u = [gr] → Pending fr →
    Pending gr → fr.new ≠ gr.new

variable {os : List (Op F)} {s s₁ : State T F} {t : T} {fr : Frame F}

/-- A thread acts on its own program. The others stand where they stood, and the thread
itself stands as `frames` say. -/
theorem Inv.act (hswap : Swap os) (h : Inv os s) (s₁ : State T F) (t : T)
    (frames : List (Frame F)) (hstack : s₁.stack = s.stack)
    (hframes : frames = [] ∧ s₁.owner ≠ some t ∨ ∃ fr, frames = [fr] ∧ Stands os s₁ t fr)
    (howner : ∀ u, u ≠ t → (s₁.owner = some u ↔ s.owner = some u))
    (hshared : ∀ u, u ≠ t → s.owner = some u → s₁.shared = s.shared)
    (hfresh : ∀ u fr, u ≠ t → s.stack u = [fr] → Pending fr →
      ∀ f, Fresh s f fr.new → Fresh s₁ f fr.new)
    (hpast : ∀ x ∈ s.past, x ∈ s₁.past)
    (hdistinct : ∀ u fr gr, u ≠ t → frames = [fr] → s.stack u = [gr] → Pending fr → Pending gr →
      fr.new ≠ gr.new)
    (hfree : s₁.owner = none → ∃ v, ∀ f, s₁.shared f = v)
    (hcurrent : ∀ f, (f, s₁.shared f) ∉ s₁.past) (hknown : ∀ f v, (f, v) ∈ s₁.past → v < s₁.next)
    (hnext : ∀ f, s₁.shared f < s₁.next) (hfreed : ∀ x ∈ s₁.freed, x ∈ s₁.past) :
    Inv os (s₁.setStack t frames) := by
  have hself : (s₁.setStack t frames).stack t = frames := setStack_stack _ _ _
  have hother : ∀ u, u ≠ t → (s₁.setStack t frames).stack u = s.stack u := by
    intro u hu
    rw [← hstack]
    exact Function.update_of_ne hu _ _
  have hmono : ∀ u fr, u ≠ t → s.stack u = [fr] → Stands os s u fr →
      Stands os (s₁.setStack t frames) u fr := by
    intro u fr hu hstack hstands
    exact hstands.mono hswap (howner u hu) (hshared u hu) (hfresh u fr hu hstack) hpast
  refine ⟨fun u => ?_, fun u hu => ?_, hfree, hcurrent, hknown, hnext, hfreed, ?_⟩
  · by_cases hut : u = t
    · subst hut
      rw [hself]
      obtain ⟨hnil, _⟩ | ⟨fr, hfr, hstands⟩ := hframes
      · exact Or.inl hnil
      · exact Or.inr ⟨fr, hfr, hstands.mono hswap Iff.rfl (fun _ => rfl) (fun _ _ h => h)
          (fun _ h => h)⟩
    · rw [hother u hut]
      obtain hnil | ⟨fr, hfr, hstands⟩ := h.shape u
      · exact Or.inl hnil
      · exact Or.inr ⟨fr, hfr, hmono u fr hut hfr hstands⟩
  · by_cases hut : u = t
    · subst hut
      rw [hself] at hu
      obtain ⟨_, hown⟩ | ⟨fr, hfr, _⟩ := hframes
      · exact hown
      · rw [hu] at hfr
        cases hfr
    · rw [hother u hut] at hu
      exact fun hown => h.idle u hu ((howner u hut).mp hown)
  · intro a b fr gr hab ha hb hfr hgr
    by_cases hat : a = t
    · subst hat
      rw [hself] at ha
      rw [hother b hab.symm] at hb
      exact hdistinct b fr gr hab.symm ha hb hfr hgr
    · rw [hother a hat] at ha
      by_cases hbt : b = t
      · subst hbt
        rw [hself] at hb
        exact (hdistinct a gr fr hat hb ha hgr hfr).symm
      · rw [hother b hbt] at hb
        exact h.distinct a b fr gr hab ha hb hfr hgr

/-- A step that changes nothing but the program of the thread. -/
theorem Inv.stay (hswap : Swap os) (h : Inv os s) (t : T) (frames : List (Frame F))
    (hframes : frames = [] ∧ s.owner ≠ some t ∨ ∃ fr, frames = [fr] ∧ Stands os s t fr)
    (hdistinct : ∀ u fr gr, u ≠ t → frames = [fr] → s.stack u = [gr] → Pending fr → Pending gr →
      fr.new ≠ gr.new) : Inv os (s.setStack t frames) :=
  h.act hswap s t frames rfl hframes (fun _ _ => Iff.rfl) (fun _ _ _ => rfl)
    (fun _ _ _ _ _ _ h => h) (fun _ h => h) hdistinct h.free h.current h.known h.shared h.freed

omit [DecidableEq F] [DecidableEq T] in
theorem not_pending_of_reader (h : fr.isSignal = false) : ¬Pending fr := by
  intro hpending
  rw [hpending.1] at h
  cases h

/-- Taking the lock. -/
theorem Inv.take (hswap : Swap os) (h : Inv os s) (hfree : s.owner = none) {gr : Frame F}
    (hstack : s.stack t = [fr]) (hstands : Stands os { s with owner := some t } t gr)
    (hnew : gr.new = fr.new) (hpending : Pending gr → Pending fr) :
    Inv os (({ s with owner := some t } : State T F).setStack t [gr]) := by
  refine h.act hswap _ t [gr] rfl (Or.inr ⟨gr, rfl, hstands⟩) (fun u hu => ?_) (fun _ _ _ => rfl)
    (fun _ _ _ _ _ _ h => h) (fun _ h => h) ?_ (fun hnone => ?_) h.current h.known h.shared h.freed
  · rw [hfree]
    exact ⟨fun heq => absurd (Option.some.inj heq).symm hu, fun heq => by cases heq⟩
  · intro u a b hu ha hb hpa hpb
    cases ha
    rw [hnew]
    exact h.distinct t u fr b hu.symm hstack hb (hpending hpa) hpb
  · cases hnone

/-- Giving the lock back. -/
theorem Inv.giveBack (hswap : Swap os) (h : Inv os s) (howner : s.owner = some t) {gr : Frame F}
    (hstands : Stands os { s with owner := none } t gr) (hpending : ¬Pending gr)
    (hshared : ∃ v, ∀ f, s.shared f = v) :
    Inv os (({ s with owner := none } : State T F).setStack t [gr]) := by
  refine h.act hswap _ t [gr] rfl (Or.inr ⟨gr, rfl, hstands⟩) (fun u hu => ?_) (fun _ _ _ => rfl)
    (fun _ _ _ _ _ _ h => h) (fun _ h => h) ?_ (fun _ => hshared) h.current h.known h.shared h.freed
  · rw [howner]
    exact ⟨fun heq => (by cases heq), fun heq => absurd (Option.some.inj heq).symm hu⟩
  · intro u a b hu ha hb hpa hpb
    cases ha
    exact absurd hpa hpending

/-- A reader takes a step. -/
theorem Inv.reader_step (hswap : Swap os) (h : Inv os s) {flow : H → Prog F} {handler : Prog F}
    {n : ℕ} {s' : State T F} (hstack : s.stack t = [fr]) (hreader : fr.isSignal = false)
    (hreading : Reading s t fr) (hstep : step flow handler (.run t n) s = some s') : Inv os s' := by
  have hstay : ∀ gr : Frame F, gr.isSignal = false → Reading s t gr →
      Inv os (s.setStack t [gr]) := by
    intro gr hgr hreading
    refine h.stay hswap t [gr] (Or.inr ⟨gr, rfl, Or.inl ⟨hgr, hreading⟩⟩) ?_
    intro u a b _ ha _ hpa
    cases ha
    exact absurd hpa (not_pending_of_reader hgr)
  unfold step at hstep
  simp only [hstack] at hstep
  rcases hreading with ⟨⟨next, hprog, hinside⟩, hown, hseen⟩ | ⟨v, hprog, hown, hall, hseen⟩ |
    ⟨v, hprog, hown, hseen⟩
  · -- it waits for the lock
    rw [hprog] at hstep
    simp only [exec] at hstep
    split at hstep
    · cases hstep
    · rename_i fr' s₁ hexec
      split at hexec
      · rename_i hfree
        cases hexec
        cases hstep
        obtain ⟨v, hv⟩ := h.free hfree
        refine h.take hswap hfree hstack (Or.inl ⟨hreader, ?_⟩) rfl ?_
        · exact .inside v hinside rfl hv (fun x hx => by rw [hseen] at hx; cases hx)
        · exact fun hpending => absurd hpending (not_pending_of_reader hreader)
      · cases hexec
  · -- it holds the lock
    cases hcase : fr.prog with
    | done =>
      rw [hcase] at hprog
      cases hprog
    | branch next =>
      rw [hcase] at hprog hstep
      cases hstep
      cases hprog with
      | branch hnext => exact hstay _ hreader (.inside v (hnext n) hown hall hseen)
    | op o next =>
      rw [hcase] at hprog hstep
      cases hprog with
      | read hnext =>
        rename_i f
        cases hstep
        refine hstay _ hreader (.inside v hnext hown hall (fun x hx => ?_))
        rcases List.mem_append.mp hx with hx | hx
        · exact hseen x hx
        · rw [List.mem_singleton.mp hx]
          exact hall f
      | unlock hnext =>
        cases hstep
        refine h.giveBack hswap hown (Or.inl ⟨hreader, .after v hnext ?_ hseen⟩) ?_ ⟨v, hall⟩
        · exact fun heq => by cases heq
        · exact not_pending_of_reader hreader
  · -- it has given the lock back
    cases hprog' : fr.prog with
    | done =>
      rw [hprog'] at hstep
      cases hstep
      exact h.stay hswap t [] (Or.inl ⟨rfl, hown⟩) (fun _ _ _ _ ha => by cases ha)
    | branch next =>
      rw [hprog'] at hprog hstep
      cases hstep
      cases hprog with
      | branch hnext => exact hstay _ hreader (.after v (hnext n) hown hseen)
    | op o next =>
      rw [hprog'] at hprog
      cases hprog

omit [DecidableEq F] [DecidableEq T] in
/-- The program of a replacement is pending when a field is left to be installed. -/
theorem pending_of_mem {rest : List (Op F)} {f : F} (hsignal : fr.isSignal = true)
    (hprog : fr.prog = ofList rest) (htail : SwapTail rest) (hf : .install f ∈ rest) :
    Pending fr :=
  ⟨hsignal, rest, hprog, htail.load_notMem, f, hf⟩

omit [DecidableEq F] [DecidableEq T] in
theorem mem_of_pending {rest : List (Op F)} (hprog : fr.prog = ofList rest) (h : Pending fr) :
    ∃ f, .install f ∈ rest := by
  obtain ⟨_, rest', hprog', _, f, hf⟩ := h
  rw [ofList_injective (hprog.symm.trans hprog')]
  exact ⟨f, hf⟩

omit [DecidableEq T] in
/-- What is left to be done was left before. -/
theorem Inv.distinct_tail (h : Inv os s) {gr : Frame F} {o : Op F} {rest : List (Op F)}
    (hstack : s.stack t = [fr]) (hsignal : fr.isSignal = true) (hprog : fr.prog = ofList (o :: rest))
    (htail : SwapTail (o :: rest)) (hgr : gr.prog = ofList rest) (hnew : gr.new = fr.new) (u : T)
    (a b : Frame F) (hu : u ≠ t) (ha : [gr] = [a]) (hb : s.stack u = [b]) (hpa : Pending a)
    (hpb : Pending b) : a.new ≠ b.new := by
  cases ha
  obtain ⟨f, hf⟩ := mem_of_pending hgr hpa
  rw [hnew]
  refine h.distinct t u fr b hu.symm hstack hb ?_ hpb
  exact pending_of_mem hsignal hprog htail (List.mem_cons_of_mem _ hf)

theorem Inv.save_step (hswap : Swap os) (h : Inv os s) {f : F} {rest : List (Op F)}
    (hstack : s.stack t = [fr]) (hsignal : fr.isSignal = true)
    (hprog : fr.prog = ofList (.save f :: rest)) (hsw : Swapping s t fr (.save f :: rest)) :
    Inv os (s.setStack t [{ fr with
      old := Function.update fr.old f (s.shared f), prog := ofList rest }]) := by
  obtain ⟨hinstall, hunlock, htail⟩ := hsw.tail
  have hmem : ∀ {o : Op F}, o ∈ rest → o ∈ Op.save f :: rest := List.mem_cons_of_mem _
  have hback : ∀ {g : F}, Op.install g ∈ Op.save f :: rest → Op.install g ∈ rest :=
    fun hg => (List.mem_cons.mp hg).resolve_left (by simp)
  refine h.stay hswap t _ (Or.inr ⟨_, rfl, Or.inr ⟨hsignal, .swapping rest rfl ?_⟩⟩)
    (h.distinct_tail hstack hsignal hprog hsw.tail rfl rfl)
  refine ⟨htail, ?_, fun g hg => hsw.fresh g (hmem hg), fun g hg hsave => ?_,
    fun g hfree hnot => ?_, fun _ => ?_⟩
  · rw [hsw.owner]
    exact iff_of_true (hmem hunlock) hunlock
  · by_cases hgf : g = f
    · subst hgf
      exact Function.update_self _ _ _
    · refine (Function.update_of_ne hgf _ _).trans (hsw.saved g (hmem hg) (fun hmem => ?_))
      rcases List.mem_cons.mp hmem with heq | hmem
      · exact hgf (Op.save.inj heq)
      · exact hsave hmem
  · have hgf : g ≠ f := fun heq => hnot (heq ▸ hinstall)
    have hold : Function.update fr.old f (s.shared f) g = fr.old g :=
      Function.update_of_ne hgf _ _
    have hpair : (g, Function.update fr.old f (s.shared f) g) ∈ s.past := by
      rw [hold]
      exact hsw.replaced g (hmem hfree) (fun hg => hnot (hback hg))
    exact hpair
  · obtain ⟨v, hv⟩ := hsw.shared (hmem hunlock)
    refine ⟨v, fun g => ?_⟩
    have hiff : Op.install g ∈ Op.save f :: rest ↔ Op.install g ∈ rest := ⟨hback, hmem⟩
    rw [hv g]
    simp only [hiff]

theorem Inv.install_step (hswap : Swap os) (h : Inv os s) {f : F} {rest : List (Op F)}
    (hstack : s.stack t = [fr]) (hsignal : fr.isSignal = true)
    (hprog : fr.prog = ofList (.install f :: rest)) (hsw : Swapping s t fr (.install f :: rest)) :
    Inv os (({ s with
      shared := Function.update s.shared f fr.new
      past := s.past ++ [(f, s.shared f)] } : State T F).setStack t
        [{ fr with prog := ofList rest }]) := by
  obtain ⟨hsave, hinstall, hunlock, htail⟩ := hsw.tail
  have hmem : ∀ {o : Op F}, o ∈ rest → o ∈ Op.install f :: rest := List.mem_cons_of_mem _
  have hhead : Op.install f ∈ Op.install f :: rest := List.mem_cons_self
  have howner : s.owner = some t := hsw.owner.mpr (hmem hunlock)
  obtain ⟨hnotPast, hnotShared, hlt⟩ := hsw.fresh f hhead
  have hself : Function.update s.shared f fr.new f = fr.new := Function.update_self _ _ _
  have hne : ∀ {g : F}, g ≠ f → Function.update s.shared f fr.new g = s.shared g :=
    fun hg => Function.update_of_ne hg _ _
  -- a version that is fresh for another field, or is not the new one, stays fresh
  have hfresh : ∀ (g : F) (v : ℕ), (g = f → v ≠ fr.new) → Fresh s g v →
      Fresh ({ s with
        shared := Function.update s.shared f fr.new
        past := s.past ++ [(f, s.shared f)] } : State T F) g v := by
    rintro g v hv ⟨hp, hs, hl⟩
    refine ⟨fun hmem => ?_, ?_, hl⟩
    · rcases List.mem_append.mp hmem with hmem | hmem
      · exact hp hmem
      · obtain ⟨rfl, rfl⟩ := Prod.mk.inj (List.mem_singleton.mp hmem)
        exact hs rfl
    · by_cases hg : g = f
      · subst hg
        exact fun heq => hv rfl (heq.trans hself)
      · exact fun heq => hs (heq.trans (hne hg))
  have hpending : Pending fr := pending_of_mem hsignal hprog hsw.tail hhead
  refine h.act hswap _ t _ rfl (Or.inr ⟨_, rfl, Or.inr ⟨hsignal, .swapping rest rfl ?_⟩⟩)
    (fun _ _ => Iff.rfl) (fun u hu heq => ?_) (fun u b hu hb hpb g => ?_)
    (fun x hx => List.mem_append_left _ hx)
    (h.distinct_tail hstack hsignal hprog hsw.tail rfl rfl) (fun hnone => ?_) (fun g hg => ?_)
    (fun g v hg => ?_) (fun g => ?_) (fun x hx => List.mem_append_left _ (h.freed x hx))
  · refine ⟨htail, ?_, fun g hg => ?_, fun g hg hnot => ?_, fun g hfree hnot => ?_, fun _ => ?_⟩
    · exact iff_of_true howner hunlock
    · exact hfresh g _ (fun heq => absurd (heq ▸ hg) hinstall) (hsw.fresh g (hmem hg))
    · have hgf : g ≠ f := fun heq => hinstall (heq ▸ hg)
      refine (hsw.saved g (hmem hg) (fun hmem => ?_)).trans (hne hgf).symm
      exact hnot ((List.mem_cons.mp hmem).resolve_left (by simp))
    · by_cases hgf : g = f
      · subst hgf
        refine List.mem_append_right _ (List.mem_singleton.mpr ?_)
        have hold : fr.old g = s.shared g :=
          hsw.saved g hhead (fun hmem => hsave ((List.mem_cons.mp hmem).resolve_left (by simp)))
        exact Prod.ext rfl hold
      · refine List.mem_append_left _ (hsw.replaced g (hmem hfree) (fun hmem => ?_))
        rcases List.mem_cons.mp hmem with heq | hmem
        · exact hgf (Op.install.inj heq)
        · exact hnot hmem
    · obtain ⟨v, hv⟩ := hsw.shared (hmem hunlock)
      refine ⟨v, fun g => ?_⟩
      by_cases hgf : g = f
      · subst hgf
        rw [if_neg hinstall]
        exact hself
      · have hiff : Op.install g ∈ Op.install f :: rest ↔ Op.install g ∈ rest := by
          simp [hgf]
        refine (hne hgf).trans ((hv g).trans ?_)
        simp only [hiff]
  · rw [howner] at heq
    exact absurd (Option.some.inj heq).symm hu
  · exact hfresh g _ (fun _ => (h.distinct t u fr b hu.symm hstack hb hpending hpb).symm)
  · exact absurd (howner.symm.trans hnone) (by simp)
  · have hpair : (g, Function.update s.shared f fr.new g) ∈ s.past ++ [(f, s.shared f)] := hg
    rcases List.mem_append.mp hpair with hmem | hmem
    · by_cases hgf : g = f
      · subst hgf
        rw [hself] at hmem
        exact hnotPast hmem
      · rw [hne hgf] at hmem
        exact h.current g hmem
    · obtain ⟨hgf, heq⟩ := Prod.mk.inj (List.mem_singleton.mp hmem)
      subst hgf
      exact hnotShared (hself.symm.trans heq)
  · rcases List.mem_append.mp hg with hg | hg
    · exact h.known g v hg
    · rw [(Prod.mk.inj (List.mem_singleton.mp hg)).2]
      exact h.shared f
  · by_cases hgf : g = f
    · subst hgf
      exact (congrArg (· < s.next) hself).mpr hlt
    · exact (congrArg (· < s.next) (hne hgf)).mpr (h.shared g)

theorem Inv.free_step (hswap : Swap os) (h : Inv os s) {f : F} {rest : List (Op F)}
    (hstack : s.stack t = [fr]) (hsignal : fr.isSignal = true)
    (hprog : fr.prog = ofList (.free f :: rest)) (hsw : Swapping s t fr (.free f :: rest)) :
    Inv os (({ s with freed := s.freed ++ [(f, fr.old f)] } : State T F).setStack t
      [{ fr with prog := ofList rest }]) := by
  obtain ⟨hinstall, hunlock, htail⟩ := hsw.tail
  have hmem : ∀ {o : Op F}, o ∈ rest → o ∈ Op.free f :: rest := List.mem_cons_of_mem _
  have hnot : Op.install f ∉ Op.free f :: rest := fun hmem =>
    hinstall f ((List.mem_cons.mp hmem).resolve_left (by simp))
  have howner : s.owner ≠ some t := fun heq =>
    hunlock ((List.mem_cons.mp (hsw.owner.mp heq)).resolve_left (by simp))
  refine h.act hswap _ t _ rfl (Or.inr ⟨_, rfl, Or.inr ⟨hsignal, .swapping rest rfl ?_⟩⟩)
    (fun _ _ => Iff.rfl) (fun _ _ _ => rfl) (fun _ _ _ _ _ _ h => h) (fun _ h => h)
    (h.distinct_tail hstack hsignal hprog hsw.tail rfl rfl) h.free h.current h.known h.shared
    (fun x hx => ?_)
  · refine ⟨htail, iff_of_false howner hunlock, fun g hg => absurd hg (hinstall g),
      fun g hg => absurd hg (hinstall g), fun g hfree _ => ?_, fun hmem => absurd hmem hunlock⟩
    refine hsw.replaced g (hmem hfree) (fun hg => ?_)
    exact hinstall g ((List.mem_cons.mp hg).resolve_left (by simp))
  · rcases List.mem_append.mp hx with hx | hx
    · exact h.freed x hx
    · rw [List.mem_singleton.mp hx]
      exact hsw.replaced f List.mem_cons_self hnot

/-- A replacement gives the lock back when all fields have its version. -/
theorem Inv.unlock_step (hswap : Swap os) (h : Inv os s) {rest : List (Op F)}
    (hsignal : fr.isSignal = true) (hsw : Swapping s t fr (.unlock :: rest)) :
    Inv os (({ s with owner := none } : State T F).setStack t
      [{ fr with prog := ofList rest }]) := by
  obtain ⟨hnone, hunlock, htail⟩ := hsw.tail
  have hnot : ∀ g, Op.install g ∉ Op.unlock :: rest := fun g hmem =>
    (hnone g).1 ((List.mem_cons.mp hmem).resolve_left (by simp))
  obtain ⟨v, hv⟩ := hsw.shared List.mem_cons_self
  have howner : s.owner = some t := hsw.owner.mpr List.mem_cons_self
  refine h.giveBack hswap howner (Or.inr ⟨hsignal, .swapping rest rfl ?_⟩) ?_ ⟨fr.new, fun g => ?_⟩
  · refine ⟨htail, iff_of_false (fun heq => by cases heq) hunlock, fun g hg =>
      absurd hg (hnone g).1, fun g hg => absurd hg (hnone g).1, fun g hfree _ => ?_,
      fun hmem => absurd hmem hunlock⟩
    exact hsw.replaced g (List.mem_cons_of_mem _ hfree) (hnot g)
  · intro hpending
    obtain ⟨g, hg⟩ := mem_of_pending rfl hpending
    exact (hnone g).1 hg
  · rw [hv g, if_neg (hnot g)]

/-- A replacement gets the lock. -/
theorem Inv.lock_step (hswap : Swap os) (h : Inv os s) (hfree : s.owner = none)
    (hstack : s.stack t = [fr]) (hsignal : fr.isSignal = true)
    (hprog : fr.prog = ofList (.lock :: os)) (hfresh : ∀ f, Fresh s f fr.new) :
    Inv os (({ s with owner := some t } : State T F).setStack t
      [{ fr with prog := ofList os }]) := by
  obtain ⟨v, hv⟩ := h.free hfree
  refine h.take hswap hfree hstack (Or.inr ⟨hsignal, .swapping os rfl ?_⟩) rfl ?_
  · refine ⟨hswap.tail, iff_of_true rfl hswap.unlock, fun f _ => hfresh f,
      fun f _ hnot => absurd (hswap.save f) hnot, fun f _ hnot => absurd (hswap.install f) hnot,
      fun _ => ⟨v, fun f => ?_⟩⟩
    rw [if_pos (hswap.install f)]
    exact hv f
  · intro hpending
    obtain ⟨f, hf⟩ := mem_of_pending rfl hpending
    refine ⟨hsignal, _, hprog, fun hload => ?_, f, List.mem_cons_of_mem _ hf⟩
    exact hswap.tail.load_notMem ((List.mem_cons.mp hload).resolve_left (by simp))

omit [DecidableEq T] in
/-- A version that is loaded only now is fresh for all fields. -/
theorem Inv.fresh_next (h : Inv os s) (f : F) :
    Fresh ({ s with next := s.next + 1 } : State T F) f s.next := by
  refine ⟨fun hmem => ?_, fun heq => ?_, Nat.lt_succ_self _⟩
  · have hlt := h.known f s.next hmem
    omega
  · have hlt := h.shared f
    have heq' : s.next = s.shared f := heq
    omega

/-- A replacement loads a new version. -/
theorem Inv.load_step (hswap : Swap os) (h : Inv os s) (hsignal : fr.isSignal = true)
    (howner : s.owner ≠ some t) :
    Inv os (({ s with next := s.next + 1 } : State T F).setStack t
      [{ fr with new := s.next, prog := ofList (.lock :: os) }]) := by
  refine h.act hswap _ t _ rfl
    (Or.inr ⟨_, rfl, Or.inr ⟨hsignal, .waiting rfl howner (fun f => h.fresh_next f)⟩⟩)
    (fun _ _ => Iff.rfl) (fun _ _ _ => rfl) ?_ (fun _ h => h) ?_ h.free h.current ?_ ?_ h.freed
  · intro u b _ _ _ g hfresh
    exact ⟨hfresh.1, hfresh.2.1, Nat.lt_succ_of_lt hfresh.2.2⟩
  · intro u a b hu ha hb _ hpb
    cases ha
    rcases h.shape u with hnil | ⟨gr, hgr, hstands⟩
    · rw [hnil] at hb
      cases hb
    · rw [hgr] at hb
      cases hb
      exact (hstands.new_lt hpb).ne'
  · intro f v hmem
    exact Nat.lt_succ_of_lt (h.known f v hmem)
  · intro f
    exact Nat.lt_succ_of_lt (h.shared f)

/-- A replacement takes a step. -/
theorem Inv.writer_step (hswap : Swap os) (h : Inv os s) {flow : H → Prog F} {handler : Prog F}
    {n : ℕ} {s' : State T F} (hstack : s.stack t = [fr]) (hsignal : fr.isSignal = true)
    (hwriting : Writing os s t fr) (hstep : step flow handler (.run t n) s = some s') :
    Inv os s' := by
  unfold step at hstep
  simp only [hstack] at hstep
  rcases hwriting with ⟨hprog, hown⟩ | ⟨hprog, hown, hfresh⟩ | ⟨rest, hprog, hsw⟩
  · cases hcase : fr.prog with
    | done =>
      rw [hcase] at hstep
      cases hstep
      exact h.stay hswap t [] (Or.inl ⟨rfl, hown⟩) (fun _ _ _ _ ha => by cases ha)
    | branch p =>
      rw [hcase] at hprog hstep
      cases hstep
      cases hprog with
      | branch hnext =>
        refine h.stay hswap t _ (Or.inr ⟨_, rfl, Or.inr ⟨hsignal, .loading (hnext n) hown⟩⟩) ?_
        intro u a b _ ha _ hpa
        cases ha
        have hloading : Loading (ofList (.lock :: os)) (p n) := hnext n
        exact absurd hpa (not_pending_of_loading hloading)
    | op o next =>
      rw [hcase] at hprog hstep
      cases hprog with
      | load =>
        cases hstep
        exact h.load_step hswap hsignal hown
  · rw [hprog] at hstep
    simp only [ofList, exec] at hstep
    split at hstep
    · cases hstep
    · rename_i fr' s₁ hexec
      split at hexec
      · rename_i hfree
        cases hexec
        cases hstep
        exact h.lock_step hswap hfree hstack hsignal hprog hfresh
      · cases hexec
  · cases rest with
    | nil =>
      rw [hprog] at hstep
      cases hstep
      refine h.stay hswap t [] (Or.inl ⟨rfl, fun heq => ?_⟩) (fun _ _ _ _ ha => by cases ha)
      exact absurd (hsw.owner.mp heq) List.not_mem_nil
    | cons o rest =>
      rw [hprog] at hstep
      cases o with
      | lock => exact hsw.tail.elim
      | load => exact hsw.tail.elim
      | read f => exact hsw.tail.elim
      | unlock =>
        cases hstep
        exact h.unlock_step hswap hsignal hsw
      | save f =>
        cases hstep
        exact h.save_step hswap hstack hsignal hprog hsw
      | install f =>
        cases hstep
        exact h.install_step hswap hstack hsignal hprog hsw
      | free f =>
        cases hstep
        exact h.free_step hswap hstack hsignal hprog hsw

/-- A signal interrupts no request. -/
def SparesRequests : Label T H → State T F → Prop
  | .signal t, s => ∀ fr ∈ s.stack t, fr.isSignal = true
  | _, _ => True

instance : (l : Label T H) → (s : State T F) → Decidable (SparesRequests l s)
  | .signal t, s => inferInstanceAs (Decidable (∀ fr ∈ s.stack t, fr.isSignal = true))
  | .request _ _, _ => inferInstanceAs (Decidable True)
  | .run _ _, _ => inferInstanceAs (Decidable True)

theorem Inv.step {flow : H → Prog F} {handler : Prog F} (hflow : ∀ h, Reader (flow h))
    (hhandler : Writer os handler) (l : Label T H) (s s' : State T F) (hok : SparesRequests l s)
    (h : Inv os s) (hstep : step flow handler l s = some s') : Inv os s' := by
  obtain ⟨hswap, hloading⟩ := hhandler
  cases l with
  | request t r =>
    unfold Locking.step at hstep
    simp only at hstep
    split at hstep
    · rename_i hempty
      cases hstep
      have hown := h.idle t (List.isEmpty_iff.mp hempty)
      refine h.stay hswap t _ (Or.inr ⟨_, rfl, Or.inl ⟨rfl, .before (hflow r) hown rfl⟩⟩) ?_
      intro u a b _ ha _ hpa
      cases ha
      exact absurd hpa (not_pending_of_reader rfl)
    · cases hstep
  | signal t =>
    unfold Locking.step at hstep
    simp only at hstep
    split at hstep
    · rename_i hall
      cases hstep
      -- there is no request below it, and it is not delivered on top of itself
      have hnil : s.stack t = [] := by
        rcases h.shape t with hnil | ⟨fr, hfr, _⟩
        · exact hnil
        · have hsignal : fr.isSignal = true := hok fr (by rw [hfr]; exact List.mem_cons_self)
          simp [hfr, hsignal] at hall
      rw [hnil]
      have hown := h.idle t hnil
      refine h.stay hswap t _ (Or.inr ⟨_, rfl, Or.inr ⟨rfl, .loading hloading hown⟩⟩) ?_
      intro u a b _ ha _ hpa
      cases ha
      exact absurd hpa (not_pending_of_loading hloading)
    · cases hstep
  | run t n =>
    rcases h.shape t with hnil | ⟨fr, hfr, hstands⟩
    · unfold Locking.step at hstep
      simp only [hnil] at hstep
      cases hstep
    · rcases hstands with ⟨hreader, hreading⟩ | ⟨hsignal, hwriting⟩
      · exact h.reader_step hswap hfr hreader hreading hstep
      · exact h.writer_step hswap hfr hsignal hwriting hstep

omit [DecidableEq T] in
theorem inv_quiet : Inv os (quiet : State T F) :=
  ⟨fun _ => Or.inl rfl, fun _ _ heq => (by cases heq), fun _ => ⟨0, fun _ => rfl⟩,
    fun _ => List.not_mem_nil, fun _ _ hmem => absurd hmem List.not_mem_nil,
    fun _ => Nat.zero_lt_one, fun _ hmem => absurd hmem List.not_mem_nil,
    fun _ _ _ _ _ ha => (by cases ha)⟩

/-- A request sees one version of all fields. While it holds the lock this is the version
that all fields have, and it is not freed. -/
structure OneVersion (s : State T F) (t : T) (fr : Frame F) (v : ℕ) : Prop where
  seen : ∀ x ∈ fr.seen, x.2 = v
  shared : s.owner = some t → ∀ f, s.shared f = v
  live : s.owner = some t → ∀ f, (f, v) ∉ s.freed

omit [DecidableEq T] in
theorem Inv.oneVersion (h : Inv os s) (hmem : fr ∈ s.stack t) (hreader : fr.isSignal = false) :
    ∃ v, OneVersion s t fr v := by
  have hreading : Reading s t fr := by
    rcases h.shape t with hnil | ⟨gr, hgr, hstands⟩
    · rw [hnil] at hmem
      cases hmem
    · rw [hgr] at hmem
      rw [← List.mem_singleton.mp hmem] at hstands
      rcases hstands with ⟨_, hreading⟩ | ⟨hsignal, _⟩
      · exact hreading
      · rw [hreader] at hsignal
        cases hsignal
  rcases hreading with ⟨_, hown, hseen⟩ | ⟨v, _, _, hall, hseen⟩ | ⟨v, _, hown, hseen⟩
  · refine ⟨0, fun x hx => ?_, fun heq => absurd heq hown, fun heq => absurd heq hown⟩
    rw [hseen] at hx
    cases hx
  · refine ⟨v, hseen, fun _ => hall, fun _ f hfreed => h.current f ?_⟩
    rw [hall f]
    exact h.freed _ hfreed
  · exact ⟨v, hseen, fun heq => absurd heq hown, fun heq => absurd heq hown⟩

/-- In a run whose signals interrupt no request, each request sees one version. -/
theorem oneVersion_of_run {flow : H → Prog F} {handler : Prog F} (hflow : ∀ h, Reader (flow h))
    (hhandler : Writer os handler) {ls : List (Label T H)}
    (hok : Runs.Guarded (step flow handler) SparesRequests ls quiet)
    (hrun : Runs.run (step flow handler) ls quiet = some s) (hmem : fr ∈ s.stack t)
    (hreader : fr.isSignal = false) : ∃ v, OneVersion s t fr v := by
  have hinv : Inv os s :=
    Runs.guarded_invariant _ (Inv os) (Inv.step hflow hhandler) hok inv_quiet hrun
  exact hinv.oneVersion hmem hreader

end Running

end Vdev.Replacement
