import Vdev.Subprocess
import Mathlib.Logic.Relation

/-!
`vdev_subprocess` and its child as two parties of a pipe. The child writes its output,
in pieces of any size, and blocks while the pipe is full; the parent reads until it
has as many bytes as it wants or the pipe is at its end, and then waits for the child
with its read end still open. When the child has more to write than the parent reads
and the pipe holds, both wait for each other.
-/
namespace Vdev.SubprocessPipe

open CString Subprocess

def readLimit (output : Output) (maxOutput : ℕ) : ℕ :=
  if (output.memory maxOutput).isSome then maxOutput else 0

structure Setup where
  capacity : ℕ
  capacity_pos : 0 < capacity
  output : Output
  maxOutput : ℕ
  length : ℕ

/-- Where the parent is: in `vdev_read_uninterrupted` with room for so many bytes, in `waitpid`, or
past the `close` of its read end. -/
inductive Parent
  | reading (room : ℕ)
  | waiting
  | closed
  deriving DecidableEq

structure State where
  parent : Parent
  left : ℕ
  fill : ℕ
  exited : Bool

/-- After `fork`. Nothing is read without a buffer or with room for no byte. -/
def start (p : Setup) : State where
  parent := if readLimit p.output p.maxOutput = 0 then .waiting
    else .reading (readLimit p.output p.maxOutput)
  left := p.length
  fill := 0
  exited := false

/-- One step of the child or of the parent. An interrupted system call is no step. -/
inductive Step (p : Setup) : State → State → Prop
  | write (s : State) (k : ℕ) (hk : 0 < k) (hleft : k ≤ s.left) (hroom : s.fill + k ≤ p.capacity)
      (hopen : s.parent ≠ .closed) :
      Step p s { s with left := s.left - k, fill := s.fill + k }
  | exit (s : State) (hleft : s.left = 0) : Step p s { s with exited := true }
  | sigpipe (s : State) (hleft : 0 < s.left) (hclosed : s.parent = .closed) :
      Step p s { s with left := 0, exited := true }
  | read (s : State) (k room : ℕ) (hparent : s.parent = .reading room) (hk : 0 < k)
      (hroom : k ≤ room) (hfill : k ≤ s.fill) :
      Step p s { s with parent := .reading (room - k), fill := s.fill - k }
  | full (s : State) (hparent : s.parent = .reading 0) : Step p s { s with parent := .waiting }
  | eof (s : State) (room : ℕ) (hparent : s.parent = .reading room) (hfill : s.fill = 0)
      (hexited : s.exited = true) : Step p s { s with parent := .waiting }
  | readError (s : State) (room : ℕ) (hparent : s.parent = .reading room) :
      Step p s { s with parent := .closed }
  | waitError (s : State) (hparent : s.parent = .waiting) : Step p s { s with parent := .closed }
  | joined (s : State) (hparent : s.parent = .waiting) (hexited : s.exited = true) :
      Step p s { s with parent := .closed }

def Reachable (p : Setup) (s : State) : Prop := Relation.ReflTransGen (Step p) (start p) s

/-- The parent is blocked in `waitpid`, and the child in a write to the full pipe. -/
def Deadlocked (p : Setup) (s : State) : Prop :=
  s.parent = .waiting ∧ s.exited = false ∧ 0 < s.left ∧ s.fill = p.capacity

/-- Every byte of the output is still to be written, in the pipe, or read. A parent that waits has
read all that it wanted, unless the child has exited. -/
structure Inv (p : Setup) (s : State) : Prop where
  exited : s.exited = true → s.left = 0
  reading : ∀ room, s.parent = .reading room →
    room + p.length = s.left + s.fill + readLimit p.output p.maxOutput
  waiting : s.parent = .waiting → s.exited = false →
    s.left + s.fill + readLimit p.output p.maxOutput = p.length

theorem inv_start (p : Setup) : Inv p (start p) := by
  unfold start
  refine ⟨fun h => absurd h Bool.false_ne_true, fun room hparent => ?_, fun hparent _ => ?_⟩
  · dsimp only at hparent ⊢
    split_ifs at hparent
    cases hparent
    omega
  · dsimp only at hparent ⊢
    split_ifs at hparent with hzero
    omega

theorem inv_step {p : Setup} {s s' : State} (h : Step p s s') (hs : Inv p s) : Inv p s' := by
  obtain ⟨hexited, hreading, hwaiting⟩ := hs
  cases h with
  | write k hk hleft hroom hopen =>
    refine ⟨fun h => ?_, fun room hparent => ?_, fun hparent halive => ?_⟩
    · have := hexited h
      dsimp only
      omega
    · have := hreading room hparent
      dsimp only
      omega
    · have := hwaiting hparent halive
      dsimp only
      omega
  | exit hleft =>
    exact ⟨fun _ => hleft, hreading, fun _ h => by cases h⟩
  | sigpipe hleft hclosed =>
    refine ⟨fun _ => rfl, fun room hparent => ?_, fun _ h => by cases h⟩
    dsimp only at hparent
    rw [hclosed] at hparent
    cases hparent
  | read k room hparent hk hroom hfill =>
    refine ⟨hexited, fun room' hparent' => ?_, fun h => by cases h⟩
    have := hreading room hparent
    cases hparent'
    dsimp only
    omega
  | full hparent =>
    refine ⟨hexited, fun _ h => (by cases h), fun _ _ => ?_⟩
    have := hreading 0 hparent
    dsimp only
    omega
  | eof room hparent hfill hgone =>
    refine ⟨hexited, fun _ h => (by cases h), fun _ halive => ?_⟩
    rw [hgone] at halive
    cases halive
  | readError room hparent => exact ⟨hexited, fun _ h => (by cases h), fun h => by cases h⟩
  | waitError hparent => exact ⟨hexited, fun _ h => (by cases h), fun h => by cases h⟩
  | joined hparent hgone => exact ⟨hexited, fun _ h => (by cases h), fun h => by cases h⟩

theorem Reachable.inv {p : Setup} {s : State} (h : Reachable p s) : Inv p s := by
  induction h with
  | refl => exact inv_start p
  | tail _ hstep ih => exact inv_step hstep ih

/-- Nobody gets out of a deadlock, unless `waitpid` fails. -/
theorem step_of_deadlocked {p : Setup} {s s' : State} (hs : Deadlocked p s) (h : Step p s s') :
    s' = { s with parent := .closed } := by
  obtain ⟨hwaiting, halive, hleft, hfull⟩ := hs
  cases h with
  | write k hk hleft' hroom hopen => omega
  | exit hnone => omega
  | sigpipe hleft' hclosed =>
    rw [hwaiting] at hclosed
    cases hclosed
  | read k room hparent =>
    rw [hwaiting] at hparent
    cases hparent
  | full hparent =>
    rw [hwaiting] at hparent
    cases hparent
  | eof room hparent =>
    rw [hwaiting] at hparent
    cases hparent
  | readError room hparent => rfl
  | waitError => rfl
  | joined => rfl

/-- The child writes byte by byte and the parent reads each of them. -/
theorem reachable_reading (p : Setup) (j : ℕ) (hj : j ≤ readLimit p.output p.maxOutput)
    (hlimit : readLimit p.output p.maxOutput ≠ 0) (hlength : j ≤ p.length) :
    Reachable p ⟨.reading (readLimit p.output p.maxOutput - j), p.length - j, 0, false⟩ := by
  induction j with
  | zero =>
    have hstart : start p = ⟨.reading (readLimit p.output p.maxOutput), p.length, 0, false⟩ := by
      rw [start, if_neg hlimit]
    rw [Nat.sub_zero, Nat.sub_zero, ← hstart]
    exact Relation.ReflTransGen.refl
  | succ j ih =>
    have hpos := p.capacity_pos
    have hprev := ih (by omega) (by omega)
    have hwrite := Step.write (p := p)
      ⟨.reading (readLimit p.output p.maxOutput - j), p.length - j, 0, false⟩ 1 (by omega)
      (by dsimp only; omega) (by dsimp only; omega) (by simp)
    have hread := Step.read (p := p)
      ⟨.reading (readLimit p.output p.maxOutput - j), p.length - j - 1, 0 + 1, false⟩ 1
      (readLimit p.output p.maxOutput - j) rfl (by omega) (by omega) (by dsimp only; omega)
    have hnext := (hprev.tail hwrite).tail hread
    rw [← Nat.sub_sub, ← Nat.sub_sub]
    exact hnext

/-- The parent waits with all that it wanted to read, and the rest is still to be written. -/
theorem reachable_waiting (p : Setup) (hlength : readLimit p.output p.maxOutput ≤ p.length) :
    Reachable p ⟨.waiting, p.length - readLimit p.output p.maxOutput, 0, false⟩ := by
  by_cases hlimit : readLimit p.output p.maxOutput = 0
  · have hstart : start p = ⟨.waiting, p.length, 0, false⟩ := by
      rw [start, if_pos hlimit]
    rw [hlimit, Nat.sub_zero, ← hstart]
    exact Relation.ReflTransGen.refl
  · have hreading := reachable_reading p _ le_rfl hlimit hlength
    rw [Nat.sub_self] at hreading
    exact hreading.tail (.full _ rfl)

/-- The exact condition: the output fits into what the parent reads and what the pipe holds. -/
theorem no_deadlock_iff (p : Setup) :
    (∀ s, Reachable p s → ¬Deadlocked p s) ↔
      p.length ≤ p.capacity + readLimit p.output p.maxOutput := by
  constructor
  · intro h
    by_contra hlong
    have hwaiting := reachable_waiting p (by omega)
    refine h _ (hwaiting.tail (.write _ p.capacity p.capacity_pos ?_ ?_ ?_)) ⟨rfl, rfl, ?_, ?_⟩
    · dsimp only
      omega
    · dsimp only
      omega
    · simp
    · dsimp only
      omega
    · dsimp only
      omega
  · rintro hshort s hs ⟨hparent, halive, hleft, hfull⟩
    have hall := hs.inv.waiting hparent halive
    omega

/-- A helper that is run without a buffer for its output, as `vdev_action_run_commands` does, and
writes one byte more than the pipe holds. -/
theorem deadlock_chatty :
    let p : Setup := ⟨65536, by decide, .null, 0, 65537⟩
    ∃ s, Reachable p s ∧ Deadlocked p s := by
  intro p
  have hstart : start p = ⟨.waiting, 65537, 0, false⟩ := rfl
  refine ⟨⟨.waiting, 1, 65536, false⟩, ?_, rfl, rfl, by decide, rfl⟩
  rw [Reachable, hstart]
  exact .single (.write _ 65536 (by decide) (by decide) (by decide) (by decide))

end Vdev.SubprocessPipe
