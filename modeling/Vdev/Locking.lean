import Mathlib.Data.List.Basic
import Mathlib.Tactic
import Vdev.Runs

/-!
Threads that share some fields under one lock. A program is a tree of operations, whose
branches stand for the outcomes of what it does. A thread runs one program, and a signal
makes it run another one on top of it, until that one is done. The lock is not recursive:
a program that asks for the lock that its own thread holds waits for ever.
-/
namespace Vdev.Locking

variable {F T H : Type}

inductive Op (F : Type)
  | lock
  | unlock
  | load
  | read (f : F)
  | save (f : F)
  | install (f : F)
  | free (f : F)
  deriving DecidableEq

inductive Prog (F : Type)
  | done
  | op (o : Op F) (next : Prog F)
  | branch (next : ℕ → Prog F)

def ofList : List (Op F) → Prog F
  | [] => .done
  | o :: os => .op o (ofList os)

inductive Path : Prog F → List (Op F) → Prop
  | done : Path .done []
  | op {o : Op F} {next : Prog F} {os : List (Op F)} (h : Path next os) : Path (.op o next) (o :: os)
  | branch {next : ℕ → Prog F} {os : List (Op F)} (n : ℕ) (h : Path (next n) os) :
      Path (.branch next) os

theorem ofList_injective : Function.Injective (ofList (F := F)) := by
  intro os ps h
  induction os generalizing ps with
  | nil =>
    cases ps with
    | nil => rfl
    | cons p ps => cases h
  | cons o os ih =>
    cases ps with
    | nil => cases h
    | cons p ps =>
      rw [ofList, ofList, Prog.op.injEq] at h
      rw [h.1, ih h.2]

theorem path_ofList_self (os : List (Op F)) : Path (ofList os) os := by
  induction os with
  | nil => exact .done
  | cons o os ih => exact .op ih

theorem path_ofList {os ps : List (Op F)} (h : Path (ofList os) ps) : ps = os := by
  induction os generalizing ps with
  | nil =>
    cases h
    rfl
  | cons o os ih =>
    cases h with
    | op h => rw [ih h]

section Threads

variable [DecidableEq F] [DecidableEq T]

/-- One run of a program: what is left of it, the version it has loaded, the old versions
that it has saved, and the versions of the fields that it has read. -/
structure Frame (F : Type) where
  prog : Prog F
  isSignal : Bool
  new : ℕ := 0
  old : F → ℕ := fun _ => 0
  seen : List (F × ℕ) := []

/-- The state of the threads. `past` is a ghost: the versions that were replaced. -/
structure State (T F : Type) where
  owner : Option T
  shared : F → ℕ
  freed : List (F × ℕ)
  past : List (F × ℕ)
  next : ℕ
  stack : T → List (Frame F)

inductive Label (T H : Type)
  | request (t : T) (h : H)
  | signal (t : T)
  | run (t : T) (n : ℕ)

/-- The effect of an operation of thread `t`. Locking waits for the lock to be free. -/
def exec (t : T) (o : Op F) (fr : Frame F) (s : State T F) : Option (Frame F × State T F) :=
  match o with
  | .lock => if s.owner = none then some (fr, { s with owner := some t }) else none
  | .unlock => some (fr, { s with owner := none })
  | .load => some ({ fr with new := s.next }, { s with next := s.next + 1 })
  | .read f => some ({ fr with seen := fr.seen ++ [(f, s.shared f)] }, s)
  | .save f => some ({ fr with old := Function.update fr.old f (s.shared f) }, s)
  | .install f => some (fr, { s with
      shared := Function.update s.shared f fr.new
      past := s.past ++ [(f, s.shared f)] })
  | .free f => some (fr, { s with freed := s.freed ++ [(f, fr.old f)] })

def State.setStack (s : State T F) (t : T) (frames : List (Frame F)) : State T F :=
  { s with stack := Function.update s.stack t frames }

/-- A thread that runs nothing begins a request. A signal is not delivered on top of
itself. The program on top of a thread takes a step. -/
def step (flow : H → Prog F) (handler : Prog F) (l : Label T H) (s : State T F) :
    Option (State T F) :=
  match l with
  | .request t h =>
    if (s.stack t).isEmpty then some (s.setStack t [⟨flow h, false, 0, fun _ => 0, []⟩]) else none
  | .signal t =>
    if (s.stack t).all (fun fr => !fr.isSignal) then
      some (s.setStack t (⟨handler, true, 0, fun _ => 0, []⟩ :: s.stack t))
    else none
  | .run t n =>
    match s.stack t with
    | [] => none
    | fr :: rest =>
      match fr.prog with
      | .done => some (s.setStack t rest)
      | .branch next => some (s.setStack t ({ fr with prog := next n } :: rest))
      | .op o next =>
        match exec t o fr s with
        | none => none
        | some (fr, s) => some (s.setStack t ({ fr with prog := next } :: rest))

/-- All fields have the same version, and nothing runs. -/
def quiet : State T F := ⟨none, fun _ => 0, [], [], 1, fun _ => []⟩

end Threads

section Stacks

variable [DecidableEq F] [DecidableEq T]

omit [DecidableEq F] in
theorem setStack_stack (s : State T F) (t : T) (frames : List (Frame F)) :
    (s.setStack t frames).stack t = frames := Function.update_self _ _ _

omit [DecidableEq F] in
theorem setStack_setStack (s : State T F) (t : T) (frames gs : List (Frame F)) :
    (s.setStack t frames).setStack t gs = s.setStack t gs := by
  simp [State.setStack]

/-- The outcome of a branch is chosen. -/
theorem step_branch {flow : H → Prog F} {handler : Prog F} (s : State T F) (t : T) (n : ℕ)
    (next : ℕ → Prog F) (fr : Frame F) (rest : List (Frame F)) :
    step flow handler (.run t n) (s.setStack t ({ fr with prog := .branch next } :: rest)) =
      some (s.setStack t ({ fr with prog := next n } :: rest)) := by
  simp only [step, setStack_stack, setStack_setStack]

end Stacks

section Balance

/-- A program that takes the lock only when it does not hold it, and gives back only the lock
that it holds. It holds the lock at first if `held` is set, and in the end it does not. -/
inductive Balanced : Bool → Prog F → Prop
  | done : Balanced false .done
  | branch {held : Bool} {next : ℕ → Prog F} (h : ∀ n, Balanced held (next n)) :
      Balanced held (.branch next)
  | lock {next : Prog F} (h : Balanced true next) : Balanced false (.op .lock next)
  | unlock {next : Prog F} (h : Balanced false next) : Balanced true (.op .unlock next)
  | other {held : Bool} {o : Op F} {next : Prog F} (hlock : o ≠ .lock) (hunlock : o ≠ .unlock)
      (h : Balanced held next) : Balanced held (.op o next)

variable [DecidableEq F] [DecidableEq T]

/-- The program on top of a thread asks for the lock that the thread holds. -/
def Deadlocked (t : T) (s : State T F) : Prop :=
  s.owner = some t ∧ ∃ fr rest next, s.stack t = fr :: rest ∧ fr.prog = .op .lock next

/-- The program on top of a thread holds the lock if the thread does. Those that it
interrupts do not hold it. -/
def Ordered (s : State T F) (t : T) : List (Frame F) → Prop
  | [] => s.owner ≠ some t
  | fr :: rest =>
    (∃ held, Balanced held fr.prog ∧ (s.owner = some t ↔ held = true)) ∧
      ∀ gr ∈ rest, Balanced false gr.prog

/-- A signal does not interrupt the holder of the lock. -/
def SparesHolder : Label T H → State T F → Prop
  | .signal t, s => s.owner ≠ some t
  | _, _ => True

instance : (l : Label T H) → (s : State T F) → Decidable (SparesHolder l s)
  | .signal t, s => inferInstanceAs (Decidable (s.owner ≠ some t))
  | .request _ _, _ => inferInstanceAs (Decidable True)
  | .run _ _, _ => inferInstanceAs (Decidable True)

variable {s s₁ : State T F} {t u : T}

omit [DecidableEq F] [DecidableEq T] in
theorem Ordered.mono {frames : List (Frame F)} (h : Ordered s u frames)
    (howner : s₁.owner = some u ↔ s.owner = some u) : Ordered s₁ u frames := by
  cases frames with
  | nil => exact fun heq => h (howner.mp heq)
  | cons fr rest =>
    obtain ⟨⟨held, hfr, hheld⟩, hrest⟩ := h
    exact ⟨⟨held, hfr, howner.trans hheld⟩, hrest⟩

omit [DecidableEq F] in
/-- A thread acts on its own programs. The others stay in order, and the thread itself is in
order if `frames` are. -/
theorem ordered_setStack (h : ∀ u, Ordered s u (s.stack u)) (s₁ : State T F) (t : T)
    (frames : List (Frame F)) (hstack : s₁.stack = s.stack) (hframes : Ordered s₁ t frames)
    (howner : ∀ u, u ≠ t → (s₁.owner = some u ↔ s.owner = some u)) (u : T) :
    Ordered (s₁.setStack t frames) u ((s₁.setStack t frames).stack u) := by
  by_cases hut : u = t
  · subst hut
    rw [setStack_stack]
    exact hframes.mono Iff.rfl
  · have hother : (s₁.setStack t frames).stack u = s.stack u := by
      rw [← hstack]
      exact Function.update_of_ne hut _ _
    rw [hother]
    exact (h u).mono (howner u hut)

omit [DecidableEq F] [DecidableEq T] in
theorem Ordered.cons {held : Bool} {fr : Frame F} {rest : List (Frame F)}
    (h : Balanced held fr.prog) (hheld : s.owner = some t ↔ held = true)
    (hrest : ∀ gr ∈ rest, Balanced false gr.prog) : Ordered s t (fr :: rest) :=
  ⟨⟨held, h, hheld⟩, hrest⟩

omit [DecidableEq F] [DecidableEq T] in
theorem ordered_top (h : ∀ u, Ordered s u (s.stack u)) {fr : Frame F} {rest : List (Frame F)}
    {prog : Prog F} (hstack : s.stack t = fr :: rest) (hprog : fr.prog = prog) :
    (∃ held, Balanced held prog ∧ (s.owner = some t ↔ held = true)) ∧
      ∀ gr ∈ rest, Balanced false gr.prog := by
  have ht := h t
  rw [hstack] at ht
  rw [← hprog]
  exact ht

/-- The lock passes to the program that takes it, and leaves the one that gives it back. -/
theorem ordered_exec (h : ∀ u, Ordered s u (s.stack u)) {fr fr' : Frame F}
    {rest : List (Frame F)} {o : Op F} {next : Prog F} (hstack : s.stack t = fr :: rest)
    (hprog : fr.prog = .op o next) (hexec : exec t o fr s = some (fr', s₁)) (u : T) :
    Ordered (s₁.setStack t ({ fr' with prog := next } :: rest)) u
      ((s₁.setStack t ({ fr' with prog := next } :: rest)).stack u) := by
  obtain ⟨⟨held, hbalanced, hheld⟩, hrest⟩ := ordered_top h hstack hprog
  cases hbalanced with
  | lock hnext =>
    unfold exec at hexec
    simp only at hexec
    split at hexec
    · rename_i hfree
      cases hexec
      refine ordered_setStack h { s with owner := some t } t _ rfl ?_ (fun v hv => ?_) u
      · exact .cons hnext (iff_of_true rfl rfl) hrest
      · rw [hfree]
        exact ⟨fun heq => absurd (Option.some.inj heq).symm hv, fun heq => by cases heq⟩
    · cases hexec
  | unlock hnext =>
    cases hexec
    have howner : s.owner = some t := hheld.mpr rfl
    refine ordered_setStack h { s with owner := none } t _ rfl ?_ (fun v hv => ?_) u
    · exact .cons hnext (iff_of_false (fun heq => by cases heq) (by simp)) hrest
    · rw [howner]
      exact ⟨fun heq => (by cases heq), fun heq => absurd (Option.some.inj heq).symm hv⟩
  | other hlock hunlock hnext =>
    cases o with
    | lock => exact absurd rfl hlock
    | unlock => exact absurd rfl hunlock
    | load =>
      cases hexec
      exact ordered_setStack h _ t _ rfl (.cons hnext hheld hrest) (fun _ _ => Iff.rfl) u
    | read f =>
      cases hexec
      exact ordered_setStack h _ t _ rfl (.cons hnext hheld hrest) (fun _ _ => Iff.rfl) u
    | save f =>
      cases hexec
      exact ordered_setStack h _ t _ rfl (.cons hnext hheld hrest) (fun _ _ => Iff.rfl) u
    | install f =>
      cases hexec
      exact ordered_setStack h _ t _ rfl (.cons hnext hheld hrest) (fun _ _ => Iff.rfl) u
    | free f =>
      cases hexec
      exact ordered_setStack h _ t _ rfl (.cons hnext hheld hrest) (fun _ _ => Iff.rfl) u

omit [DecidableEq F] in
/-- The program below the one that is done does not hold the lock either. -/
theorem ordered_pop (h : ∀ u, Ordered s u (s.stack u)) {fr : Frame F} {rest : List (Frame F)}
    (hstack : s.stack t = fr :: rest) (hprog : fr.prog = .done) (u : T) :
    Ordered (s.setStack t rest) u ((s.setStack t rest).stack u) := by
  obtain ⟨⟨held, hbalanced, hheld⟩, hrest⟩ := ordered_top h hstack hprog
  cases hbalanced with
  | done =>
    refine ordered_setStack h s t rest rfl ?_ (fun _ _ => Iff.rfl) u
    cases rest with
    | nil => exact fun heq => by simpa using hheld.mp heq
    | cons gr rest =>
      exact .cons (hrest gr List.mem_cons_self) hheld
        (fun fr hfr => hrest fr (List.mem_cons_of_mem _ hfr))

variable {flow : H → Prog F} {handler : Prog F}

theorem ordered_step (hflow : ∀ h, Balanced false (flow h)) (hhandler : Balanced false handler)
    (l : Label T H) (s s' : State T F) (hok : SparesHolder l s) (h : ∀ u, Ordered s u (s.stack u))
    (hstep : step flow handler l s = some s') (u : T) : Ordered s' u (s'.stack u) := by
  unfold step at hstep
  cases l with
  | request t r =>
    simp only at hstep
    split at hstep
    · rename_i hempty
      cases hstep
      have ht := h t
      rw [List.isEmpty_iff.mp hempty] at ht
      refine ordered_setStack h s t _ rfl (.cons (hflow r) (iff_of_false ht (by simp)) ?_)
        (fun _ _ => Iff.rfl) u
      exact fun _ hgr => by cases hgr
    · cases hstep
  | signal t =>
    simp only at hstep
    split at hstep
    · cases hstep
      have howner : s.owner ≠ some t := hok
      refine ordered_setStack h s t _ rfl
        (.cons hhandler (iff_of_false howner (by simp)) (fun gr hgr => ?_)) (fun _ _ => Iff.rfl) u
      have ht := h t
      cases hstack : s.stack t with
      | nil =>
        rw [hstack] at hgr
        cases hgr
      | cons fr rest =>
        rw [hstack] at hgr ht
        obtain ⟨⟨held, hbalanced, hheld⟩, hrest⟩ := ht
        rcases List.mem_cons.mp hgr with rfl | hgr
        · have hfalse : held = false := by
            cases held with
            | false => rfl
            | true => exact absurd (hheld.mpr rfl) howner
          rw [hfalse] at hbalanced
          exact hbalanced
        · exact hrest gr hgr
    · cases hstep
  | run t n =>
    simp only at hstep
    split at hstep
    · cases hstep
    · rename_i fr rest hstack
      split at hstep
      · rename_i hprog
        cases hstep
        exact ordered_pop h hstack hprog u
      · rename_i next hprog
        cases hstep
        obtain ⟨⟨held, hbalanced, hheld⟩, hrest⟩ := ordered_top h hstack hprog
        cases hbalanced with
        | branch hnext =>
          exact ordered_setStack h s t _ rfl (.cons (hnext n) hheld hrest) (fun _ _ => Iff.rfl) u
      · rename_i o next hprog
        split at hstep
        · cases hstep
        · rename_i fr' s₁ hexec
          cases hstep
          exact ordered_exec h hstack hprog hexec u

/-- A run in which no signal interrupts the holder of the lock does not deadlock. -/
theorem not_deadlocked (hflow : ∀ h, Balanced false (flow h)) (hhandler : Balanced false handler)
    {ls : List (Label T H)} {s : State T F}
    (hok : Runs.Guarded (step flow handler) SparesHolder ls quiet)
    (hrun : Runs.run (step flow handler) ls quiet = some s) (t : T) : ¬Deadlocked t s := by
  have hordered : ∀ u, Ordered s u (s.stack u) := by
    refine Runs.guarded_invariant _ (fun s : State T F => ∀ u, Ordered s u (s.stack u))
      (ordered_step hflow hhandler) hok ?_ hrun
    exact fun u heq => by cases heq
  rintro ⟨howner, fr, rest, next, hstack, hprog⟩
  have ht := hordered t
  rw [hstack] at ht
  obtain ⟨⟨held, hbalanced, hheld⟩, _⟩ := ht
  rw [hheld.mp howner, hprog] at hbalanced
  cases hbalanced with
  | other hlock _ _ => exact hlock rfl

end Balance

end Vdev.Locking
