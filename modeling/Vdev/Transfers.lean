import Vdev.CString

/-!
Reading and writing with interruptions (libvdev/util.c, libudev-compat/libudev-fs.c). A system call
may be interrupted, fail, or move fewer bytes than it was asked for, in any order. The loops around
`read` and `write` have one form; what holds of a whole transfer is put together from what each
call does.
-/
namespace Vdev.Transfers

open CString

/-- The numbers of `errno.h`. -/
abbrev ErrorNumber := {e : ℕ // 0 < e}

def eintr : ErrorNumber := ⟨4, by decide⟩

section Loop

variable {σ : Type} (call : ℕ → ℕ → σ → Except ErrorNumber ℕ × σ) (len : ℕ)

/-- The loop of `vdev_read_uninterrupted` and `vdev_write_uninterrupted`, when `num` bytes have been
moved. The system call is given an offset and a number of bytes. The number that the loop counts
is cut to an `unsigned` in its test. -/
def transfer : ℕ → ℕ → σ → Option (Int × σ)
  | 0, _, _ => none
  | fuel + 1, num, w =>
    if num % 2 ^ 32 < len then
      match call num (len - num) w with
      | (.error e, w) => if e = eintr then transfer fuel num w else some (-e.val, w)
      | (.ok 0, w) => some (num, w)
      | (.ok (k + 1), w) => transfer fuel (num + (k + 1)) w
    else some (num, w)

variable {call len}

/-- A transfer that has not failed: `P` is kept by the calls that move bytes and by those that are
interrupted, and `Q` holds when a call has moved nothing, or when no byte is left to be moved. -/
theorem transfer_rule (hlen : len < 2 ^ 32) {P Q : ℕ → σ → Prop}
    (hle : ∀ num w, P num w → num ≤ len)
    (hmoved : ∀ num w k w', P num w → num < len →
      call num (len - num) w = (.ok (k + 1), w') → P (num + (k + 1)) w')
    (hintr : ∀ num w w', P num w → num < len →
      call num (len - num) w = (.error eintr, w') → P num w')
    (hended : ∀ num w w', P num w → num < len → call num (len - num) w = (.ok 0, w') → Q num w')
    (hfull : ∀ w, P len w → Q len w) {fuel num : ℕ} {w w' : σ} {n : Int} (h : P num w)
    (hrun : transfer call len fuel num w = some (n, w')) (hn : 0 ≤ n) :
    ∃ k : ℕ, n = k ∧ Q k w' := by
  induction fuel generalizing num w with
  | zero => cases hrun
  | succ fuel ih =>
    have hnum := hle num w h
    rw [transfer, Nat.mod_eq_of_lt (by omega)] at hrun
    split_ifs at hrun with hlt
    · cases hcall : call num (len - num) w with
      | mk answer v =>
        rw [hcall] at hrun
        cases answer with
        | error e =>
          dsimp only at hrun
          split_ifs at hrun with he
          · subst e
            exact ih (hintr num w v h hlt hcall) hrun
          · cases Option.some.inj hrun
            have hpos := e.property
            omega
        | ok m =>
          cases m with
          | zero =>
            cases Option.some.inj hrun
            exact ⟨num, rfl, hended num w w' h hlt hcall⟩
          | succ k => exact ih (hmoved num w k v h hlt hcall) hrun
    · cases Option.some.inj hrun
      have heq : num = len := by omega
      subst heq
      exact ⟨num, rfl, hfull w' h⟩

/-- The loop ends when, from every point on, some call is not interrupted: `P` says so of the
calls that are still to come, and `d` is how many of them are interrupted first. -/
theorem transfer_ends (hlen : len < 2 ^ 32) {P : ℕ → σ → ℕ → Prop}
    (hle : ∀ num w d, P num w d → num ≤ len)
    (hmoved : ∀ num w d k w', P num w d → num < len →
      call num (len - num) w = (.ok (k + 1), w') → ∃ d', P (num + (k + 1)) w' d')
    (hintr : ∀ num w d w', P num w d → num < len →
      call num (len - num) w = (.error eintr, w') → ∃ d' < d, P num w' d')
    {num d : ℕ} {w : σ} (h : P num w d) : ∃ fuel r, transfer call len fuel num w = some r := by
  -- The bytes that are left go down, or else the interruptions that come before the next byte.
  induction hm : len - num using Nat.strong_induction_on generalizing num d w with
  | h m ihm =>
    induction d using Nat.strong_induction_on generalizing w with
    | h d ihd =>
      have hnum := hle num w d h
      by_cases hlt : num < len
      · have hone : ∀ fuel, transfer call len (fuel + 1) num w =
            match call num (len - num) w with
            | (.error e, w) => if e = eintr then transfer call len fuel num w else some (-e.val, w)
            | (.ok 0, w) => some (num, w)
            | (.ok (k + 1), w) => transfer call len fuel (num + (k + 1)) w := by
          intro fuel
          rw [transfer, if_pos (by rwa [Nat.mod_eq_of_lt (by omega)])]
        cases hcall : call num (len - num) w with
        | mk answer v =>
          rw [hcall] at hone
          cases answer with
          | error e =>
            by_cases he : e = eintr
            · subst e
              obtain ⟨d', hd', hP⟩ := hintr num w d v h hlt hcall
              obtain ⟨fuel, r, hrun⟩ := ihd d' hd' hP
              refine ⟨fuel + 1, r, ?_⟩
              rw [hone]
              exact (if_pos rfl).trans hrun
            · exact ⟨1, _, (hone 0).trans (if_neg he)⟩
          | ok n =>
            cases n with
            | zero => exact ⟨1, _, hone 0⟩
            | succ k =>
              obtain ⟨d', hP⟩ := hmoved num w d k v h hlt hcall
              obtain ⟨fuel, r, hrun⟩ := ihm (len - (num + (k + 1))) (by omega) hP rfl
              exact ⟨fuel + 1, r, (hone fuel).trans hrun⟩
      · refine ⟨1, (num, w), ?_⟩
        rw [transfer, if_neg (by rwa [Nat.mod_eq_of_lt (by omega)])]

end Loop

section Calls

/-- What a call does: it fails, it moves some of the bytes that it was asked for but no more than
`k + 1`, or it moves nothing. -/
inductive Answer
  | fails (e : ErrorNumber)
  | moves (k : ℕ)
  | nothing
  deriving DecidableEq

structure Call where
  offset : ℕ
  request : ℕ
  result : Int
  deriving DecidableEq

/-- The buffer that is filled, the bytes that the descriptor still has, and the calls so far. -/
structure Reader where
  buf : CStr
  stream : CStr
  calls : List Call

/-- The buffer that is written, the bytes that went out, and the calls so far. -/
structure Writer where
  buf : CStr
  sink : CStr
  calls : List Call

def overwrite (off : ℕ) (chunk buf : CStr) : CStr :=
  buf.take off ++ chunk ++ buf.drop (off + chunk.length)

variable (answers : ℕ → Answer)

/-- `read`. At the end of the stream there is nothing to be read. -/
def read (off n : ℕ) (r : Reader) : Except ErrorNumber ℕ × Reader :=
  let done := fun result : Int => r.calls ++ [⟨off, n, result⟩]
  match answers r.calls.length with
  | .fails e => (.error e, { r with calls := done (-e.val) })
  | .nothing => (.ok 0, { r with calls := done 0 })
  | .moves k =>
    let chunk := r.stream.take (min n (k + 1))
    (.ok chunk.length, ⟨overwrite off chunk r.buf, r.stream.drop chunk.length, done chunk.length⟩)

/-- `write`. -/
def write (off n : ℕ) (w : Writer) : Except ErrorNumber ℕ × Writer :=
  let done := fun result : Int => w.calls ++ [⟨off, n, result⟩]
  match answers w.calls.length with
  | .fails e => (.error e, { w with calls := done (-e.val) })
  | .nothing => (.ok 0, { w with calls := done 0 })
  | .moves k =>
    let chunk := (w.buf.drop off).take (min n (k + 1))
    (.ok chunk.length, { w with sink := w.sink ++ chunk, calls := done chunk.length })

def readUninterrupted (fuel : ℕ) (stream : CStr) (buf : Option CStr) (len : ℕ) :
    Option (Int × Reader) :=
  match buf with
  | none => some (Errno.einval.rc, ⟨[], stream, []⟩)
  | some buf => transfer (read answers) len fuel 0 ⟨buf, stream, []⟩

def writeUninterrupted (fuel : ℕ) (buf : Option CStr) (len : ℕ) : Option (Int × Writer) :=
  match buf with
  | none => some (Errno.einval.rc, ⟨[], [], []⟩)
  | some buf => transfer (write answers) len fuel 0 ⟨buf, [], []⟩

/-- `vdev_read_uninterrupted`. -/
def vdevReadUninterrupted := readUninterrupted answers

/-- `udev_read_uninterrupted`. -/
def udevReadUninterrupted := readUninterrupted answers

/-- `vdev_write_uninterrupted`. -/
def vdevWriteUninterrupted := writeUninterrupted answers

/-- `udev_write_uninterrupted`. -/
def udevWriteUninterrupted := writeUninterrupted answers

theorem overwrite_nil (off : ℕ) (buf : CStr) : overwrite off [] buf = buf := by
  simp [overwrite]

/-- The bytes that come next in the stream are put where the buffer has not been filled yet. -/
theorem overwrite_take {buf stream : CStr} {num m : ℕ} (hnum : num ≤ stream.length)
    (hm : m ≤ (stream.drop num).length) :
    overwrite num ((stream.drop num).take m) (stream.take num ++ buf.drop num) =
      stream.take (num + m) ++ buf.drop (num + m) := by
  have hfront : (stream.take num).length = num := List.length_take_of_le hnum
  have hback : (stream.take num ++ buf.drop num).drop (num + m) = buf.drop (num + m) := by
    rw [List.drop_append, hfront, List.drop_of_length_le (by omega), List.nil_append,
      List.drop_drop, Nat.add_sub_cancel_left]
  rw [overwrite, List.length_take_of_le hm, List.take_left' hfront, hback, List.take_add]

/-- What one call of `read` does. -/
theorem read_spec (off n : ℕ) (r : Reader) :
    (∃ e, answers r.calls.length = .fails e ∧ read answers off n r =
      (.error e, { r with calls := r.calls ++ [⟨off, n, -e.val⟩] })) ∨
    ∃ m, m ≤ n ∧ m ≤ r.stream.length ∧
      read answers off n r = (.ok m,
        ⟨overwrite off (r.stream.take m) r.buf, r.stream.drop m, r.calls ++ [⟨off, n, m⟩]⟩) := by
  unfold read
  cases answers r.calls.length with
  | fails e => exact Or.inl ⟨e, rfl, rfl⟩
  | nothing =>
    refine Or.inr ⟨0, Nat.zero_le _, Nat.zero_le _, ?_⟩
    rw [List.take_zero, overwrite_nil, List.drop_zero]
    rfl
  | moves k =>
    have hlen : (r.stream.take (min n (k + 1))).length ≤ r.stream.length := by
      rw [List.length_take]
      exact min_le_right _ _
    refine Or.inr ⟨(r.stream.take (min n (k + 1))).length, ?_, hlen, ?_⟩
    · rw [List.length_take]
      omega
    · dsimp only
      have hchunk : r.stream.take (r.stream.take (min n (k + 1))).length =
          r.stream.take (min n (k + 1)) := by
        rw [List.length_take, List.take_eq_take_iff]
        omega
      rw [hchunk]

/-- What one call of `write` does. -/
theorem write_spec (off n : ℕ) (w : Writer) (h : off + n ≤ w.buf.length) :
    (∃ e, answers w.calls.length = .fails e ∧ write answers off n w =
      (.error e, { w with calls := w.calls ++ [⟨off, n, -e.val⟩] })) ∨
    ∃ m, m ≤ n ∧
      write answers off n w = (.ok m, { w with
        sink := w.sink ++ (w.buf.drop off).take m
        calls := w.calls ++ [⟨off, n, m⟩] }) := by
  unfold write
  cases answers w.calls.length with
  | fails e => exact Or.inl ⟨e, rfl, rfl⟩
  | nothing =>
    refine Or.inr ⟨0, Nat.zero_le _, ?_⟩
    rw [List.take_zero, List.append_nil]
    rfl
  | moves k =>
    have hlen : ((w.buf.drop off).take (min n (k + 1))).length = min n (k + 1) := by
      rw [List.length_take_of_le]
      rw [List.length_drop]
      omega
    refine Or.inr ⟨min n (k + 1), min_le_left _ _, ?_⟩
    dsimp only
    rw [hlen]

end Calls

section Transferred

/-- Each call is made when there are bytes left, and asks for all of them. -/
def CallsLeft (len : ℕ) (calls : List Call) : Prop :=
  ∀ c ∈ calls, c.offset < len ∧ c.request = len - c.offset

/-- The last call has moved nothing. -/
def EndsAtZero (calls : List Call) : Prop := ∃ c, calls.getLast? = some c ∧ c.result = 0

theorem CallsLeft.snoc {len off : ℕ} {calls : List Call} (h : CallsLeft len calls)
    (hoff : off < len) (result : Int) : CallsLeft len (calls ++ [⟨off, len - off, result⟩]) := by
  intro c hc
  rcases List.mem_append.mp hc with hc | hc
  · exact h c hc
  · rw [List.mem_singleton.mp hc]
    exact ⟨hoff, rfl⟩

theorem endsAtZero_snoc (calls : List Call) (off n : ℕ) : EndsAtZero (calls ++ [⟨off, n, 0⟩]) :=
  ⟨⟨off, n, 0⟩, List.getLast?_concat, rfl⟩

/-- After a read of `n` bytes: the buffer begins with the first bytes of the stream, and these have
been taken off it. -/
structure Read (buf stream : CStr) (len n : ℕ) (r : Reader) : Prop where
  le : n ≤ len
  available : n ≤ stream.length
  filled : r.buf = stream.take n ++ buf.drop n
  left : r.stream = stream.drop n
  calls : CallsLeft len r.calls

/-- After a write of `n` bytes: these have gone out, the first ones of the buffer. -/
structure Written (buf : CStr) (len n : ℕ) (w : Writer) : Prop where
  le : n ≤ len
  kept : w.buf = buf
  sent : w.sink = buf.take n
  calls : CallsLeft len w.calls

variable {buf stream : CStr} {len : ℕ}

theorem Read.start : Read buf stream len 0 ⟨buf, stream, []⟩ where
  le := Nat.zero_le _
  available := Nat.zero_le _
  filled := rfl
  left := rfl
  calls := fun c hc => by cases hc

theorem Written.start : Written buf len 0 ⟨buf, [], []⟩ where
  le := Nat.zero_le _
  kept := rfl
  sent := rfl
  calls := fun c hc => by cases hc

theorem Read.failed {num : ℕ} {r : Reader} (h : Read buf stream len num r) (hlt : num < len)
    (result : Int) :
    Read buf stream len num { r with calls := r.calls ++ [⟨num, len - num, result⟩] } where
  le := h.le
  available := h.available
  filled := h.filled
  left := h.left
  calls := h.calls.snoc hlt result

theorem Written.failed {num : ℕ} {w : Writer} (h : Written buf len num w) (hlt : num < len)
    (result : Int) :
    Written buf len num { w with calls := w.calls ++ [⟨num, len - num, result⟩] } where
  le := h.le
  kept := h.kept
  sent := h.sent
  calls := h.calls.snoc hlt result

/-- The next bytes of the stream are put behind those that were read before. -/
theorem Read.moved {num m : ℕ} {r : Reader} (h : Read buf stream len num r) (hlt : num < len)
    (hm : m ≤ len - num) (havail : m ≤ r.stream.length) (result : Int) :
    Read buf stream len (num + m) ⟨overwrite num (r.stream.take m) r.buf, r.stream.drop m,
      r.calls ++ [⟨num, len - num, result⟩]⟩ where
  le := by omega
  available := by
    have hleft := h.left
    rw [hleft, List.length_drop] at havail
    have hle := h.available
    omega
  filled := by
    rw [h.left] at havail
    dsimp only
    rw [h.filled, h.left, overwrite_take h.available havail]
  left := by
    dsimp only
    rw [h.left, List.drop_drop]
  calls := h.calls.snoc hlt result

theorem Written.moved {num m : ℕ} {w : Writer} (h : Written buf len num w) (hlt : num < len)
    (hm : m ≤ len - num) (result : Int) :
    Written buf len (num + m) { w with
      sink := w.sink ++ (w.buf.drop num).take m
      calls := w.calls ++ [⟨num, len - num, result⟩] } where
  le := by omega
  kept := h.kept
  sent := by
    dsimp only
    rw [h.sent, h.kept, List.take_add]
  calls := h.calls.snoc hlt result

variable {answers : ℕ → Answer}

/-- What a call of `read` leads to during a transfer. -/
theorem Read.call {num : ℕ} {r r' : Reader} {a : Except ErrorNumber ℕ}
    (h : Read buf stream len num r) (hlt : num < len)
    (hcall : read answers num (len - num) r = (a, r')) :
    r'.calls.length = r.calls.length + 1 ∧
      (∀ e, a = .error e → answers r.calls.length = .fails e ∧ Read buf stream len num r') ∧
      ∀ m, a = .ok m → Read buf stream len (num + m) r' ∧ (m = 0 → EndsAtZero r'.calls) := by
  rcases read_spec answers num (len - num) r with
    ⟨e, hanswer, hspec⟩ | ⟨m, hm, havail, hspec⟩
  · cases hspec.symm.trans hcall
    refine ⟨List.length_append, fun e' he => ?_, fun m hm => (by cases hm)⟩
    cases he
    exact ⟨hanswer, h.failed hlt _⟩
  · cases hspec.symm.trans hcall
    refine ⟨List.length_append, fun e he => (by cases he), fun m' hm' => ?_⟩
    cases hm'
    refine ⟨h.moved hlt hm havail _, fun hzero => ?_⟩
    rw [hzero]
    exact endsAtZero_snoc ..

/-- What a call of `write` leads to during a transfer. -/
theorem Written.call {num : ℕ} {w w' : Writer} {a : Except ErrorNumber ℕ}
    (h : Written buf len num w) (hbuf : len ≤ buf.length) (hlt : num < len)
    (hcall : write answers num (len - num) w = (a, w')) :
    w'.calls.length = w.calls.length + 1 ∧
      (∀ e, a = .error e → answers w.calls.length = .fails e ∧ Written buf len num w') ∧
      ∀ m, a = .ok m → Written buf len (num + m) w' ∧ (m = 0 → EndsAtZero w'.calls) := by
  have hroom : num + (len - num) ≤ w.buf.length := by
    rw [h.kept]
    omega
  rcases write_spec answers num (len - num) w hroom with
    ⟨e, hanswer, hspec⟩ | ⟨m, hm, hspec⟩
  · cases hspec.symm.trans hcall
    refine ⟨List.length_append, fun e' he => ?_, fun m hm => (by cases hm)⟩
    cases he
    exact ⟨hanswer, h.failed hlt _⟩
  · cases hspec.symm.trans hcall
    refine ⟨List.length_append, fun e he => (by cases he), fun m' hm' => ?_⟩
    cases hm'
    refine ⟨h.moved hlt hm _, fun hzero => ?_⟩
    rw [hzero]
    exact endsAtZero_snoc ..

/-- From every call on, some call is not interrupted. -/
def Resumes (answers : ℕ → Answer) : Prop := ∀ t, ∃ d, answers (t + d) ≠ .fails eintr

theorem readUninterrupted_done (hlen : len < 2 ^ 32) {fuel : ℕ} {n : Int} {r : Reader}
    (hrun : readUninterrupted answers fuel stream (some buf) len = some (n, r)) (hn : 0 ≤ n) :
    ∃ k : ℕ, n = k ∧ Read buf stream len k r ∧ (k < len → EndsAtZero r.calls) := by
  refine transfer_rule hlen (P := Read buf stream len)
    (Q := fun k r => Read buf stream len k r ∧ (k < len → EndsAtZero r.calls))
    (fun num r h => h.le) (fun num r k r' h hlt hcall => ?_) (fun num r r' h hlt hcall => ?_)
    (fun num r r' h hlt hcall => ?_) (fun r h => ⟨h, fun hlt => absurd hlt (lt_irrefl _)⟩)
    Read.start hrun hn
  · exact ((h.call hlt hcall).2.2 _ rfl).1
  · exact ((h.call hlt hcall).2.1 _ rfl).2
  · obtain ⟨hread, hzero⟩ := (h.call hlt hcall).2.2 _ rfl
    exact ⟨hread, fun _ => hzero rfl⟩

theorem writeUninterrupted_done (hlen : len < 2 ^ 32) (hbuf : len ≤ buf.length) {fuel : ℕ}
    {n : Int} {w : Writer}
    (hrun : writeUninterrupted answers fuel (some buf) len = some (n, w)) (hn : 0 ≤ n) :
    ∃ k : ℕ, n = k ∧ Written buf len k w ∧ (k < len → EndsAtZero w.calls) := by
  refine transfer_rule hlen (P := Written buf len)
    (Q := fun k w => Written buf len k w ∧ (k < len → EndsAtZero w.calls))
    (fun num w h => h.le) (fun num w k w' h hlt hcall => ?_) (fun num w w' h hlt hcall => ?_)
    (fun num w w' h hlt hcall => ?_) (fun w h => ⟨h, fun hlt => absurd hlt (lt_irrefl _)⟩)
    Written.start hrun hn
  · exact ((h.call hbuf hlt hcall).2.2 _ rfl).1
  · exact ((h.call hbuf hlt hcall).2.1 _ rfl).2
  · obtain ⟨hwritten, hzero⟩ := (h.call hbuf hlt hcall).2.2 _ rfl
    exact ⟨hwritten, fun _ => hzero rfl⟩

/-- The next call that is not interrupted is nearer after an interruption. -/
theorem next_answer {t d : ℕ} (hintr : answers t = .fails eintr)
    (hnext : answers (t + d) ≠ .fails eintr) :
    ∃ d' < d, answers (t + 1 + d') ≠ .fails eintr := by
  cases d with
  | zero => exact absurd hintr hnext
  | succ d =>
    refine ⟨d, Nat.lt_succ_self d, ?_⟩
    rwa [Nat.add_assoc, Nat.add_comm 1 d]

theorem readUninterrupted_ends (hlen : len < 2 ^ 32) (h : Resumes answers) :
    ∃ fuel x, readUninterrupted answers fuel stream (some buf) len = some x := by
  obtain ⟨d, hd⟩ := h 0
  refine transfer_ends hlen
    (P := fun num r d => Read buf stream len num r ∧ answers (r.calls.length + d) ≠ .fails eintr)
    (fun num r d h => h.1.le) (fun num r d k r' hr hlt hcall => ?_)
    (fun num r d r' hr hlt hcall => ?_) (d := d) ⟨Read.start, hd⟩
  · obtain ⟨d', hd'⟩ := h r'.calls.length
    exact ⟨d', ((hr.1.call hlt hcall).2.2 _ rfl).1, hd'⟩
  · obtain ⟨hcalls, hfails, -⟩ := hr.1.call hlt hcall
    obtain ⟨hanswer, hread⟩ := hfails _ rfl
    obtain ⟨d', hlt', hd'⟩ := next_answer hanswer hr.2
    exact ⟨d', hlt', hread, by rwa [hcalls]⟩

theorem writeUninterrupted_ends (hlen : len < 2 ^ 32) (hbuf : len ≤ buf.length)
    (h : Resumes answers) :
    ∃ fuel x, writeUninterrupted answers fuel (some buf) len = some x := by
  obtain ⟨d, hd⟩ := h 0
  refine transfer_ends hlen
    (P := fun num w d => Written buf len num w ∧ answers (w.calls.length + d) ≠ .fails eintr)
    (fun num w d h => h.1.le) (fun num w d k w' hw hlt hcall => ?_)
    (fun num w d w' hw hlt hcall => ?_) (d := d) ⟨Written.start, hd⟩
  · obtain ⟨d', hd'⟩ := h w'.calls.length
    exact ⟨d', ((hw.1.call hbuf hlt hcall).2.2 _ rfl).1, hd'⟩
  · obtain ⟨hcalls, hfails, -⟩ := hw.1.call hbuf hlt hcall
    obtain ⟨hanswer, hwritten⟩ := hfails _ rfl
    obtain ⟨d', hlt', hd'⟩ := next_answer hanswer hw.2
    exact ⟨d', hlt', hwritten, by rwa [hcalls]⟩

/-- No byte is lost or moved twice, whatever the calls do, and the loops end unless the calls are
interrupted for ever. -/
theorem transfer_exact (answers : ℕ → Answer) (buf : CStr) (len : ℕ) (hlen : len < 2 ^ 31)
    (hbuf : len ≤ buf.length) :
    (∀ f ∈ [vdevReadUninterrupted answers, udevReadUninterrupted answers], ∀ stream,
      (∀ fuel n r, f fuel stream (some buf) len = some (n, r) → 0 ≤ n →
        ∃ k : ℕ, n = k ∧ Read buf stream len k r ∧ (k < len → EndsAtZero r.calls)) ∧
      (Resumes answers → ∃ fuel x, f fuel stream (some buf) len = some x)) ∧
    ∀ f ∈ [vdevWriteUninterrupted answers, udevWriteUninterrupted answers],
      (∀ fuel n w, f fuel (some buf) len = some (n, w) → 0 ≤ n →
        ∃ k : ℕ, n = k ∧ Written buf len k w ∧ (k < len → EndsAtZero w.calls)) ∧
      (Resumes answers → ∃ fuel x, f fuel (some buf) len = some x) := by
  have hcut : len < 2 ^ 32 := by omega
  constructor
  · intro f hf stream
    have heq : f = readUninterrupted answers := by
      simpa [vdevReadUninterrupted, udevReadUninterrupted] using hf
    subst heq
    exact ⟨fun fuel n r hrun hn => readUninterrupted_done hcut hrun hn,
      readUninterrupted_ends hcut⟩
  · intro f hf
    have heq : f = writeUninterrupted answers := by
      simpa [vdevWriteUninterrupted, udevWriteUninterrupted] using hf
    subst heq
    exact ⟨fun fuel n w hrun hn => writeUninterrupted_done hcut hbuf hrun hn,
      writeUninterrupted_ends hcut hbuf⟩

/-- The first call is interrupted, and the others move one byte each. -/
def oneByOne (t : ℕ) : Answer := if t = 0 then .fails eintr else .moves 0

theorem transfer_exact_oneByOne :
    ∃ k : ℕ, (2 : Int) = k ∧
      Read "??".toList "abc".toList 2 k
        ⟨"ab".toList, "c".toList, [⟨0, 2, -4⟩, ⟨0, 2, 1⟩, ⟨1, 1, 1⟩]⟩ ∧
      (k < 2 → EndsAtZero [⟨0, 2, -4⟩, ⟨0, 2, 1⟩, ⟨1, 1, 1⟩]) :=
  ((transfer_exact oneByOne "??".toList 2 (by decide) (by decide)).1 (vdevReadUninterrupted oneByOne)
    List.mem_cons_self "abc".toList).1 4 2
    ⟨"ab".toList, "c".toList, [⟨0, 2, -4⟩, ⟨0, 2, 1⟩, ⟨1, 1, 1⟩]⟩ rfl (by decide)

end Transferred

end Vdev.Transfers
