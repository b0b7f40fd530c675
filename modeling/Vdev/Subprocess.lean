import Vdev.Reading

/-!
Capturing the output of a helper (`vdev_subprocess`, libvdev/util.c). The parent
reads at most `max_output` bytes into a buffer that it allocates with that size, or
that the caller brings along, and returns 0 whatever it has read. Only the bytes that
are left over in the buffer can end the string, and the code 1 for an output that was
cut off, which the comment promises, is never returned.
-/
namespace Vdev.Subprocess

open CString Reading

/-- The argument `output`: NULL, a pointer to NULL, or a pointer to memory. -/
inductive Output
  | null
  | unallocated
  | buffer (memory : CStr)
  deriving DecidableEq

/-- The memory that `*output` points to when the parent begins to read. -/
def Output.memory (output : Output) (maxOutput : ℕ) : Option CStr :=
  match output with
  | .null => none
  | .unallocated => if 0 < maxOutput then some (List.replicate maxOutput '\x00') else none
  | .buffer memory => some memory

/-- What `waitpid` reports. -/
inductive WaitStatus
  | exited (code : ℕ)
  | signaled (status : ℕ)
  | other
  deriving DecidableEq

/-- The value of `*exit_status`. -/
def exitStatusOf : WaitStatus → Int
  | .exited code => code
  | .signaled status => status
  | .other => Errno.eperm.rc

/-- A call that did not fail: its return value, the memory of `*output` and the exit status. -/
structure Returned where
  rc : Int
  output : Option CStr
  exitStatus : Int

/-- The end of `vdev_subprocess`, where it has waited for the child. -/
def joined (waited : Except Errno WaitStatus) (output : Option CStr) : Except Errno Returned :=
  match waited with
  | .error e => .error e
  | .ok status => .ok ⟨0, output, exitStatusOf status⟩

/-- The parent's side of `vdev_subprocess`. `spawned` is the outcome of `pipe` and `fork`, and
`allocated` that of `calloc`. -/
def subprocess {σ : Type} (read : ℕ → σ → Except Errno CStr × σ) (spawned : Except Errno Unit)
    (allocated : Bool) (waited : Except Errno WaitStatus) (output : Output) (maxOutput fuel : ℕ)
    (w : σ) : Option (Except Errno Returned) :=
  match spawned with
  | .error e => some (.error e)
  | .ok () =>
    if output = .unallocated ∧ 0 < maxOutput ∧ allocated = false then some (.error .enomem)
    else
      match output.memory maxOutput with
      | none => some (joined waited none)
      | some memory =>
        if 0 < maxOutput then
          match readUninterrupted read maxOutput fuel [] w with
          | none => none
          | some (.error e, _) => some (.error e)
          | some (.ok bytes, _) =>
            some (joined waited (some (bytes ++ memory.drop bytes.length)))
        else some (joined waited (some memory))

/-- The output `w` of a child is captured exactly, or it is flagged as cut off and what is captured
is a string nevertheless. -/
structure Captured (maxOutput : ℕ) (w memory : CStr) (rc : Int) : Prop where
  terminated : '\x00' ∈ memory
  exact : w.length < maxOutput → rc = 0 ∧ untilNul memory = w
  flagged : maxOutput ≤ w.length →
    rc = 1 ∧ untilNul memory <+: w ∧ (untilNul memory).length ≤ maxOutput - 1

/-- The child's output is shorter than the limit, and the buffer holds a NUL behind it. -/
def Fits (output : Output) (maxOutput : ℕ) (w : CStr) : Prop :=
  w.length < maxOutput ∧ ∃ memory, output.memory maxOutput = some memory ∧
    memory[w.length]? = some '\x00'

/-- Every schedule of reads fills the buffer with the first bytes of the output. -/
theorem subprocess_eq (schedule : List (Option ℕ)) (status : WaitStatus) (output : Output)
    (maxOutput fuel : ℕ) (w memory : CStr) (hmax : 0 < maxOutput)
    (hmemory : output.memory maxOutput = some memory) (hfuel : schedule.length + 2 ≤ fuel) :
    subprocess Stream.read (.ok ()) true (.ok status) output maxOutput fuel ⟨schedule, w⟩ =
      some (.ok ⟨0, some (w.take maxOutput ++ memory.drop (w.take maxOutput).length),
        exitStatusOf status⟩) := by
  obtain ⟨schedule', hread⟩ := readUninterrupted_stream maxOutput schedule w [] fuel
    (Nat.zero_le _) hfuel
  rw [subprocess, if_neg (by simp), hmemory]
  dsimp only
  rw [if_pos hmax, hread]
  rfl

theorem untilNul_append {w rest : CStr} (hnul : '\x00' ∉ w) :
    untilNul (w ++ rest) = w ++ untilNul rest := by
  unfold untilNul
  refine List.takeWhile_append_of_pos (fun c hc => ?_)
  simp only [decide_eq_true_eq]
  rintro rfl
  exact hnul hc

/-- A string that stands in front of other memory ends where it should if a NUL is next. -/
theorem terminated_iff {w rest : CStr} (hnul : '\x00' ∉ w) :
    ('\x00' ∈ w ++ rest ∧ untilNul (w ++ rest) = w) ↔ rest.head? = some '\x00' := by
  rw [untilNul_append hnul, List.append_right_eq_self, List.mem_append]
  cases rest with
  | nil => simp [hnul]
  | cons c rest =>
    by_cases hc : c = '\x00'
    · simp [hc, untilNul]
    · simp [hc, untilNul]

/-- The exact condition, for any schedule of reads. -/
theorem captured_iff (schedule : List (Option ℕ)) (status : WaitStatus) (output : Output)
    (maxOutput fuel : ℕ) (w : CStr) (hnul : '\x00' ∉ w) (hmax : 0 < maxOutput)
    (houtput : output ≠ .null) (hfuel : schedule.length + 2 ≤ fuel) :
    (∃ r memory, subprocess Stream.read (.ok ()) true (.ok status) output maxOutput fuel
        ⟨schedule, w⟩ = some (.ok r) ∧ r.output = some memory ∧
        Captured maxOutput w memory r.rc) ↔ Fits output maxOutput w := by
  obtain ⟨initial, hinitial⟩ : ∃ initial, output.memory maxOutput = some initial := by
    cases output with
    | null => exact absurd rfl houtput
    | unallocated => exact ⟨_, if_pos hmax⟩
    | buffer memory => exact ⟨memory, rfl⟩
  rw [subprocess_eq schedule status output maxOutput fuel w initial hmax hinitial hfuel, Fits,
    hinitial]
  by_cases hlen : w.length < maxOutput
  · rw [List.take_of_length_le hlen.le]
    have hhead : (initial.drop w.length).head? = initial[w.length]? := List.head?_drop
    constructor
    · rintro ⟨r, memory, hr, hmemory, hcaptured⟩
      cases hr
      cases hmemory
      refine ⟨hlen, initial, rfl, ?_⟩
      rw [← hhead, ← terminated_iff hnul]
      exact ⟨hcaptured.terminated, (hcaptured.exact hlen).2⟩
    · rintro ⟨_, memory, hmemory, hnext⟩
      cases hmemory
      rw [← hhead, ← terminated_iff hnul] at hnext
      exact ⟨_, _, rfl, rfl, hnext.1, fun _ => ⟨rfl, hnext.2⟩, fun h => absurd h (by omega)⟩
  · refine iff_of_false ?_ (fun h => hlen h.1)
    rintro ⟨r, memory, hr, _, hcaptured⟩
    cases hr
    exact absurd (hcaptured.flagged (not_lt.mp hlen)).1 Int.zero_ne_one

/-- One byte less than the limit, into a buffer of the function's own. -/
theorem captured_iff_short :
    ∃ r memory, subprocess Stream.read (.ok ()) true (.ok (.exited 0)) .unallocated 4 4
        ⟨[none, some 0], "sda".toList⟩ = some (.ok r) ∧ r.output = some memory ∧
        Captured 4 "sda".toList memory r.rc :=
  (captured_iff [none, some 0] (.exited 0) .unallocated 4 4 "sda".toList (by decide) (by decide)
    (by decide) (by decide)).mpr ⟨by decide, _, rfl, by decide⟩

/-- An output as long as the limit: the buffer has no end, and the code is 0. -/
theorem not_captured_full :
    subprocess Stream.read (.ok ()) true (.ok (.exited 0)) .unallocated 3 3 ⟨[], "sda".toList⟩ =
        some (.ok ⟨0, some "sda".toList, 0⟩) ∧
      ¬Captured 3 "sda".toList "sda".toList 0 := by
  exact ⟨rfl, fun h => absurd h.terminated (by decide)⟩

end Vdev.Subprocess
