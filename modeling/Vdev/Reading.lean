import Vdev.CString

/-!
`vdev_read_uninterrupted` (libvdev/util.c). The system call may be interrupted, and
may deliver fewer bytes than it was asked for; a schedule says what the next calls
do, and once it is used up the calls deliver what there is. Whatever the schedule
is, the bytes that come out are the first ones of the stream.
-/
namespace Vdev.Reading

open CString

/-- The loop of `vdev_read_uninterrupted`, over a `read` that acts on an arbitrary world. -/
def readUninterrupted {σ : Type} (read : ℕ → σ → Except Errno CStr × σ) (len : ℕ) :
    ℕ → CStr → σ → Option (Except Errno CStr × σ)
  | 0, _, _ => none
  | fuel + 1, buf, w =>
    if buf.length < len then
      match read (len - buf.length) w with
      | (.error e, w) =>
        if e = .eintr then readUninterrupted read len fuel buf w else some (.error e, w)
      | (.ok [], w) => some (.ok buf, w)
      | (.ok (c :: chunk), w) => readUninterrupted read len fuel (buf ++ c :: chunk) w
    else some (.ok buf, w)

/-- The bytes of a descriptor up to its end. A call of `read` is interrupted (`none`), or it
delivers up to `k + 1` bytes. -/
structure Stream where
  schedule : List (Option ℕ)
  bytes : CStr

def Stream.read (len : ℕ) (s : Stream) : Except Errno CStr × Stream :=
  match s.schedule with
  | [] => (.ok (s.bytes.take len), ⟨[], s.bytes.drop len⟩)
  | none :: schedule => (.error .eintr, ⟨schedule, s.bytes⟩)
  | some k :: schedule =>
    (.ok (s.bytes.take (min len (k + 1))), ⟨schedule, s.bytes.drop (min len (k + 1))⟩)

theorem readUninterrupted_full {σ : Type} (read : ℕ → σ → Except Errno CStr × σ) (len fuel : ℕ)
    (buf : CStr) (w : σ) (h : len ≤ buf.length) :
    readUninterrupted read len (fuel + 1) buf w = some (.ok buf, w) := by
  rw [readUninterrupted, if_neg (by omega)]

/-- A chunk is taken off the stream and the reading goes on, or the stream is at its end. -/
theorem readUninterrupted_chunk (len fuel n : ℕ) (buf : CStr) (s s' : Stream)
    (hlt : buf.length < len) (hn : 0 < n)
    (hread : s.read (len - buf.length) = (.ok (s.bytes.take n), s')) :
    readUninterrupted Stream.read len (fuel + 1) buf s =
      if s.bytes = [] then some (.ok buf, s')
      else readUninterrupted Stream.read len fuel (buf ++ s.bytes.take n) s' := by
  rw [readUninterrupted, if_pos hlt, hread]
  cases hbytes : s.bytes with
  | nil => simp
  | cons c rest =>
    obtain ⟨m, rfl⟩ := Nat.exists_eq_succ_of_ne_zero (Nat.pos_iff_ne_zero.mp hn)
    rw [if_neg (List.cons_ne_nil c rest), List.take_succ_cons]

theorem take_append_take_drop (bytes : CStr) (m n : ℕ) (h : n ≤ m) :
    bytes.take n ++ (bytes.drop n).take (m - (bytes.take n).length) = bytes.take m ∧
      (bytes.drop n).drop (m - (bytes.take n).length) = bytes.drop m := by
  by_cases hn : n ≤ bytes.length
  · have hm : m = n + (m - n) := by omega
    rw [List.length_take_of_le hn, ← List.take_add, List.drop_drop, ← hm]
    exact ⟨rfl, rfl⟩
  · rw [List.take_of_length_le (by omega), List.drop_of_length_le (by omega : bytes.length ≤ n),
      List.take_of_length_le (by omega : bytes.length ≤ m),
      List.drop_of_length_le (by omega : bytes.length ≤ m)]
    simp

/-- Under any schedule the loop returns, with the first bytes of the stream and the others left. -/
theorem readUninterrupted_stream (len : ℕ) (schedule : List (Option ℕ)) (bytes buf : CStr)
    (fuel : ℕ) (hbuf : buf.length ≤ len) (hfuel : schedule.length + 2 ≤ fuel) :
    ∃ schedule', readUninterrupted Stream.read len fuel buf ⟨schedule, bytes⟩ =
      some (.ok (buf ++ bytes.take (len - buf.length)),
        ⟨schedule', bytes.drop (len - buf.length)⟩) := by
  induction schedule generalizing fuel buf bytes with
  | nil =>
    obtain ⟨fuel, rfl⟩ : ∃ f, fuel = f + 2 := ⟨fuel - 2, by simp at hfuel; omega⟩
    refine ⟨[], ?_⟩
    by_cases hlt : buf.length < len
    · rw [readUninterrupted_chunk len _ (len - buf.length) buf ⟨[], bytes⟩
        ⟨[], bytes.drop (len - buf.length)⟩ hlt (by omega) rfl]
      dsimp only
      split_ifs with hnil
      · simp [hnil]
      · by_cases hfull : len ≤ (buf ++ bytes.take (len - buf.length)).length
        · rw [readUninterrupted_full _ _ _ _ _ hfull]
        · have hshort : bytes.length < len - buf.length := by
            simp only [List.length_append, List.length_take] at hfull
            omega
          rw [readUninterrupted, if_pos (by omega)]
          simp [Stream.read, List.drop_of_length_le hshort.le]
    · rw [readUninterrupted_full _ _ _ _ _ (by omega), Nat.sub_eq_zero_of_le (by omega)]
      simp
  | cons slice schedule ih =>
    simp only [List.length_cons] at hfuel
    obtain ⟨fuel, rfl⟩ : ∃ f, fuel = f + 1 := ⟨fuel - 1, by omega⟩
    by_cases hlt : buf.length < len
    · cases slice with
      | none =>
        obtain ⟨schedule', h⟩ := ih bytes buf fuel hbuf (by omega)
        refine ⟨schedule', ?_⟩
        rw [readUninterrupted, if_pos hlt]
        exact h
      | some k =>
        have hle : min (len - buf.length) (k + 1) ≤ len - buf.length := min_le_left _ _
        rw [readUninterrupted_chunk len _ (min (len - buf.length) (k + 1)) buf
          ⟨some k :: schedule, bytes⟩ ⟨schedule, bytes.drop (min (len - buf.length) (k + 1))⟩ hlt
          (by omega) rfl]
        dsimp only
        split_ifs with hnil
        · exact ⟨schedule, by simp [hnil]⟩
        · generalize min (len - buf.length) (k + 1) = n at hle ⊢
          obtain ⟨schedule', h⟩ := ih (bytes.drop n) (buf ++ bytes.take n) fuel
            (by simp only [List.length_append, List.length_take]; omega) (by omega)
          obtain ⟨htake, hdrop⟩ := take_append_take_drop bytes (len - buf.length) n hle
          refine ⟨schedule', ?_⟩
          rw [h, List.length_append, ← Nat.sub_sub, List.append_assoc, htake, hdrop]
    · refine ⟨slice :: schedule, ?_⟩
      rw [readUninterrupted_full _ _ _ _ _ (by omega), Nat.sub_eq_zero_of_le (by omega)]
      simp

/-- `vdev_read_uninterrupted` for one byte. The loop has enough fuel to return. -/
def readByte (s : Stream) : Except Errno (Option Char) × Stream :=
  match readUninterrupted Stream.read 1 (s.schedule.length + 2) [] s with
  | some (.ok buf, s) => (.ok buf.head?, s)
  | some (.error e, s) => (.error e, s)
  | none => (.error .eintr, s)

theorem readByte_eq (schedule : List (Option ℕ)) (bytes : CStr) :
    ∃ schedule', readByte ⟨schedule, bytes⟩ = (.ok bytes.head?, ⟨schedule', bytes.tail⟩) := by
  obtain ⟨schedule', h⟩ := readUninterrupted_stream 1 schedule bytes [] (schedule.length + 2)
    (by decide) le_rfl
  refine ⟨schedule', ?_⟩
  rw [readByte, h]
  cases bytes <;> rfl

end Vdev.Reading
