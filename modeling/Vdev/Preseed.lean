import Vdev.Data
import Vdev.Parsing

/-!
Preseeding (vdevd/vdev.c). The output of the preseed command is a list of lines
`type name major minor PARAM=VALUE...`, and each line becomes an ADD request. The
loop over the lines keeps its place twice: by a pointer, and by a counter that
after each line grows by the length of all the text that is left. It stops when
the counter reaches the length of the buffer. After a line without a newline it
takes the length of a NULL pointer.
-/
namespace Vdev.Preseed

open CString Data Parsing

def blanks : CStr := [' ', '\t']

/-- The loop of `vdev_parse_device_request` over the OS parameters. -/
def parseParams : ℕ → CStr → Params → Except Errno Params
  | 0, _, params => .ok params
  | fuel + 1, s, params =>
    match strtok blanks s with
    | none => .ok params
    | some (tok, s) =>
      if 4096 < tok.length then .error .einval
      else
        match keyvalueNext tok with
        | none => .error .einval
        | some (key, value) =>
          match params.add key value with
          | .error e => .error e
          | .ok params => parseParams fuel s params

/-- A major or minor device number, up to the end of its token. -/
def parseDeviceNumber (tok : CStr) : Except Errno ℕ :=
  if (strtoul 10 tok).2 = tok ∨ (strtoul 10 tok).2 ≠ [] then .error .einval
  else .ok (strtoul 10 tok).1

/-- `vdev_parse_device_request`. `lstat` tells which paths exist. -/
def parseDeviceRequest (lstat : CStr → Bool) (mountpoint line : CStr) : Except Errno Request := do
  let some (type, s) := strtok blanks line | .error .enoent
  if type ≠ ['c'] ∧ type ≠ ['b'] ∧ type ≠ ['u'] then .error .einval
  let mode := if type = ['c'] then S_IFCHR else if type = ['b'] then S_IFBLK else 0
  let some (name, s) := strtok blanks s | .error .enoent
  let some (majorTok, s) := strtok blanks s | .error .enoent
  let major ← parseDeviceNumber majorTok
  let some (minorTok, s) := strtok blanks s | .error .enoent
  let minor ← parseDeviceNumber minorTok
  let params ← parseParams (s.length + 1) s Params.empty
  return {
    type := .add
    path := some name
    mode := mode
    dev := makedev major minor
    params := params
    existsFlag := lstat (snprintf 4096 (mountpoint ++ '/' :: name)) }

/-- `vdev_device_request_sanity_check`. -/
def requestSanityCheck (req : Request) : Int :=
  if req.path = none then Errno.einval.rc
  else if req.type = .invalid then Errno.einval.rc
  else 0

/-- `vdev_device_request_enqueue` on a queue with room. -/
def requestEnqueue (req : Request) (queue : List Request) : Int × List Request :=
  if requestSanityCheck req ≠ 0 then (Errno.einval.rc, queue)
  else if req.type = .any then (Errno.einval.rc, queue)
  else (0, queue ++ [req])

/-- How `vdev_load_device_requests` ends: it returns, or it uses a NULL pointer or
writes past the end of `line_buf`. -/
inductive Outcome
  | returned (rc : Int) (queue : List Request)
  | crashed

def skipNewlines (textBuflen : ℕ) : CStr → ℕ → CStr × ℕ
  | '\n' :: curLine, consumed =>
    if consumed < textBuflen then skipNewlines textBuflen curLine (consumed + 1)
    else ('\n' :: curLine, consumed)
  | curLine, consumed => (curLine, consumed)

/-- Parse a line and enqueue the request, then go on with `next`. -/
def loadLine (parse : CStr → Except Errno Request) (line : CStr) (queue : List Request)
    (next : List Request → Outcome) : Outcome :=
  match parse line with
  | .error e => .returned e.rc queue
  | .ok req =>
    let (rc, queue) := requestEnqueue req queue
    if rc ≠ 0 then .returned rc queue else next queue

/-- The loop of `vdev_load_device_requests`, at the text `curLine`. -/
def loadLoop (parse : CStr → Except Errno Request) (textBuflen : ℕ) :
    ℕ → CStr → ℕ → List Request → Outcome
  | 0, _, _, queue => .returned 0 queue
  | fuel + 1, curLine, consumed, queue =>
    if consumed < textBuflen then
      if '\n' ∈ curLine then
        let line := curLine.takeWhile (· ≠ '\n')
        let nextLine := curLine.dropWhile (· ≠ '\n')
        if 4096 < line.length then .crashed
        else
          loadLine parse line queue (fun queue =>
            let (curLine, consumed) :=
              skipNewlines textBuflen nextLine (consumed + nextLine.length)
            loadLoop parse textBuflen fuel curLine consumed queue)
      else if curLine = [] then .returned 0 queue
      else if curLine.length < 4096 then loadLine parse curLine queue (fun _ => .crashed)
      else .returned Errno.erange.rc queue
    else .returned 0 queue

/-- `vdev_load_device_requests`. Each round takes at least one character. -/
def loadDeviceRequests (lstat : CStr → Bool) (mountpoint text : CStr) (textBuflen : ℕ) : Outcome :=
  loadLoop (parseDeviceRequest lstat mountpoint) textBuflen (text.length + 1) text 0 []

/-- The text of lines that are each followed by a number of newlines. -/
def preseedText (segments : List (CStr × ℕ)) : CStr :=
  segments.flatMap (fun x => x.1 ++ List.replicate x.2 '\n')

/-- The counter when the last line comes up: each line before it adds the length
of the text behind the line and the number of newlines that are skipped. -/
def counterAtLast : List (CStr × ℕ) → ℕ
  | x :: y :: rest =>
    x.2 + (preseedText (y :: rest)).length + x.2 + counterAtLast (y :: rest)
  | _ => 0

def EndsInNewline (segments : List (CStr × ℕ)) : Prop :=
  ∃ x, segments.getLast? = some x ∧ 0 < x.2

/-- A line that is short enough for the buffer, and the request it stands for. -/
structure LineOf (lstat : CStr → Bool) (mountpoint : CStr) (x : CStr × ℕ) (req : Request) : Prop where
  one_line : '\n' ∉ x.1
  short : x.1.length < 4096
  parses : parseDeviceRequest lstat mountpoint x.1 = .ok req

theorem parseDeviceRequest_nil (lstat : CStr → Bool) (mountpoint : CStr) :
    parseDeviceRequest lstat mountpoint [] = .error .enoent := rfl

/-- A parsed request is complete, so it is enqueued. -/
theorem requestEnqueue_parsed (lstat : CStr → Bool) (mountpoint line : CStr) (req : Request)
    (h : parseDeviceRequest lstat mountpoint line = .ok req) (queue : List Request) :
    requestEnqueue req queue = (0, queue ++ [req]) := by
  have hreq : req.type = .add ∧ req.path ≠ none := by
    unfold parseDeviceRequest at h
    simp only [bind, Except.bind, pure, Except.pure] at h
    split at h
    · split at h
      · cases h
      · split at h
        · split at h
          · split at h
            · cases h
            · split at h
              · split at h
                · cases h
                · split at h
                  · cases h
                  · cases h
                    exact ⟨rfl, Option.some_ne_none _⟩
              · cases h
          · cases h
        · cases h
    · cases h
  rw [requestEnqueue, requestSanityCheck, if_neg hreq.2, hreq.1]
  simp

theorem skipNewlines_of_head (n consumed : ℕ) (t : CStr) (ht : t.head? ≠ some '\n') :
    skipNewlines n t consumed = (t, consumed) := by
  cases t with
  | nil => rfl
  | cons c t =>
    rw [skipNewlines]
    rintro rest heq
    cases heq
    exact ht rfl

theorem skipNewlines_all (n k consumed : ℕ) (t : CStr) (ht : t.head? ≠ some '\n')
    (h : consumed + k ≤ n) :
    skipNewlines n (List.replicate k '\n' ++ t) consumed = (t, consumed + k) := by
  induction k generalizing consumed with
  | zero => exact skipNewlines_of_head n consumed t ht
  | succ k ih =>
    rw [List.replicate_succ, List.cons_append, skipNewlines, if_pos (by omega),
      ih (consumed + 1) (by omega)]
    congr 1
    omega

/-- The counter reaches the end while newlines are skipped. -/
theorem skipNewlines_stop (n k consumed : ℕ) (t : CStr) (ht : t.head? ≠ some '\n')
    (h : n ≤ consumed + k) : n ≤ (skipNewlines n (List.replicate k '\n' ++ t) consumed).2 := by
  induction k generalizing consumed with
  | zero =>
    rw [List.replicate_zero, List.nil_append, skipNewlines_of_head n consumed t ht]
    exact h
  | succ k ih =>
    rw [List.replicate_succ, List.cons_append, skipNewlines]
    split_ifs with hlt
    · exact ih (consumed + 1) (by omega)
    · exact not_lt.mp hlt

theorem LineOf.ne_nil {lstat : CStr → Bool} {mountpoint : CStr} {x : CStr × ℕ} {req : Request}
    (h : LineOf lstat mountpoint x req) : x.1 ≠ [] := by
  intro hnil
  have hp := h.parses
  rw [hnil, parseDeviceRequest_nil] at hp
  cases hp

/-- The text goes on with a line, and a line does not start with a newline. -/
theorem head_preseedText (lstat : CStr → Bool) (mountpoint : CStr) (segments : List (CStr × ℕ))
    (requests : List Request) (h : List.Forall₂ (LineOf lstat mountpoint) segments requests) :
    (preseedText segments).head? ≠ some '\n' := by
  cases h with
  | nil => simp [preseedText]
  | @cons x req rest reqs hx hrest =>
    obtain ⟨c, l, hl⟩ := List.exists_cons_of_ne_nil hx.ne_nil
    rw [preseedText, List.flatMap_cons, hl, List.cons_append, List.cons_append, List.head?_cons]
    intro heq
    exact hx.one_line (by rw [hl, Option.some.inj heq]; exact List.mem_cons_self)

/-- One round of the loop on a line that is followed by newlines. -/
theorem loadLoop_line (lstat : CStr → Bool) (mountpoint : CStr) (n fuel consumed : ℕ)
    (x : CStr × ℕ) (req : Request) (hx : LineOf lstat mountpoint x req) (hk : 0 < x.2) (t : CStr)
    (hlt : consumed < n) (queue : List Request) :
    loadLoop (parseDeviceRequest lstat mountpoint) n (fuel + 1)
        (x.1 ++ List.replicate x.2 '\n' ++ t) consumed queue =
      let r := skipNewlines n (List.replicate x.2 '\n' ++ t) (consumed + (x.2 + t.length))
      loadLoop (parseDeviceRequest lstat mountpoint) n fuel r.1 r.2 (queue ++ [req]) := by
  obtain ⟨k, hk'⟩ := Nat.exists_eq_succ_of_ne_zero hk.ne'
  have htext : x.1 ++ List.replicate x.2 '\n' ++ t =
      x.1 ++ '\n' :: (List.replicate k '\n' ++ t) := by
    rw [hk', List.replicate_succ, List.append_assoc, List.cons_append]
  have hstop := takeWhile_append_stop (fun c => decide (c ≠ '\n')) x.1
    (List.replicate k '\n' ++ t) '\n'
    (fun c hc => by
      rw [decide_eq_true_eq]
      rintro rfl
      exact hx.one_line hc) (by decide)
  have hnext : '\n' :: (List.replicate k '\n' ++ t) = List.replicate x.2 '\n' ++ t := by
    rw [hk', List.replicate_succ, List.cons_append]
  have hshort := hx.short
  rw [loadLoop, if_pos hlt, htext, if_pos (by simp), hstop.1, hstop.2, hnext, if_neg (by omega),
    loadLine, hx.parses]
  dsimp only
  rw [requestEnqueue_parsed lstat mountpoint x.1 req hx.parses]
  simp

/-- The last line has no newline: its request is enqueued, and then the length of
a NULL pointer is taken. -/
theorem loadLoop_last (lstat : CStr → Bool) (mountpoint : CStr) (n fuel consumed : ℕ)
    (x : CStr × ℕ) (req : Request) (hx : LineOf lstat mountpoint x req) (hlt : consumed < n)
    (queue : List Request) :
    loadLoop (parseDeviceRequest lstat mountpoint) n (fuel + 1) x.1 consumed queue = .crashed := by
  rw [loadLoop, if_pos hlt, if_neg hx.one_line, if_neg hx.ne_nil, if_pos hx.short, loadLine, hx.parses]
  dsimp only
  rw [requestEnqueue_parsed lstat mountpoint x.1 req hx.parses]
  simp

theorem loadLoop_full (parse : CStr → Except Errno Request) (n fuel consumed : ℕ) (curLine : CStr)
    (queue : List Request) (h : n ≤ consumed) :
    loadLoop parse n fuel curLine consumed queue = .returned 0 queue := by
  cases fuel with
  | zero => rfl
  | succ fuel => rw [loadLoop, if_neg (not_lt.mpr h)]

/-- From a line on, all requests are enqueued exactly when the text ends in a
newline and the counter stays below the length of the buffer up to the last line. -/
theorem loadLoop_iff (lstat : CStr → Bool) (mountpoint : CStr) (n fuel consumed : ℕ)
    (segments : List (CStr × ℕ)) (requests queue : List Request)
    (hall : List.Forall₂ (LineOf lstat mountpoint) segments requests)
    (hsep : ∀ x ∈ segments.dropLast, 0 < x.2) (hlt : consumed < n)
    (hfuel : segments.length < fuel) :
    loadLoop (parseDeviceRequest lstat mountpoint) n fuel (preseedText segments) consumed queue =
        .returned 0 (queue ++ requests) ↔
      segments = [] ∨ (EndsInNewline segments ∧ consumed + counterAtLast segments < n) := by
  obtain ⟨fuel, rfl⟩ := Nat.exists_eq_succ_of_ne_zero (Nat.ne_of_gt (Nat.zero_lt_of_lt hfuel))
  induction hall generalizing fuel consumed queue with
  | nil =>
    rw [preseedText, List.flatMap_nil, loadLoop, if_pos hlt]
    simp
  | @cons x req rest reqs hx hrest ih =>
    have hhead := head_preseedText lstat mountpoint rest reqs hrest
    have htext : preseedText (x :: rest) = x.1 ++ List.replicate x.2 '\n' ++ preseedText rest := rfl
    by_cases hk : 0 < x.2
    · rw [htext, Nat.succ_eq_add_one, loadLoop_line lstat mountpoint n fuel consumed x req hx hk _ hlt]
      dsimp only
      have hsep' : ∀ y ∈ rest.dropLast, 0 < y.2 := by
        intro y hy
        cases rest with
        | nil => cases hy
        | cons z rest => exact hsep y (List.mem_cons_of_mem _ hy)
      by_cases hfit : consumed + (x.2 + (preseedText rest).length) + x.2 < n
      · -- All newlines are skipped, and the loop goes on with the next line.
        rw [skipNewlines_all n x.2 _ _ hhead (by omega)]
        obtain ⟨fuel, rfl⟩ := Nat.exists_eq_succ_of_ne_zero
          (show fuel ≠ 0 by rw [List.length_cons] at hfuel; omega)
        have hih := ih _ (queue ++ [req]) hsep' hfit fuel
          (by rw [List.length_cons] at hfuel; omega)
        rw [List.append_assoc, List.singleton_append] at hih
        rw [hih]
        cases rest with
        | nil => simp [EndsInNewline, counterAtLast, hk, hlt]
        | cons y rest =>
          simp only [EndsInNewline, List.getLast?_cons_cons, counterAtLast, reduceCtorEq, false_or]
          rw [show consumed + (x.2 + (preseedText (y :: rest)).length) + x.2 +
            counterAtLast (y :: rest) = consumed + (x.2 + (preseedText (y :: rest)).length + x.2 +
              counterAtLast (y :: rest)) by omega]
      · -- The counter has reached the end, and the loop stops here.
        have hstop := skipNewlines_stop n x.2 (consumed + (x.2 + (preseedText rest).length))
          (preseedText rest) hhead (by omega)
        rw [loadLoop_full _ n fuel _ _ _ hstop]
        cases hrest with
        | nil => simp [EndsInNewline, counterAtLast, hk, hlt]
        | @cons y req' rest reqs hy hrest =>
          have hfull : ¬consumed + counterAtLast (x :: y :: rest) < n := by
            rw [counterAtLast]
            omega
          simp [hfull]
    · have hlast : rest = [] := by
        by_contra hne
        exact hk (hsep x (by rw [List.dropLast_cons_of_ne_nil hne]; exact List.mem_cons_self))
      have hzero : x.2 = 0 := by omega
      rw [htext, hlast, hzero]
      simp only [List.replicate_zero, List.append_nil, preseedText, List.flatMap_nil]
      rw [Nat.succ_eq_add_one, loadLoop_last lstat mountpoint n fuel consumed x req hx hlt]
      simp [EndsInNewline, hzero]

theorem segments_length_le (lstat : CStr → Bool) (mountpoint : CStr) (segments : List (CStr × ℕ))
    (requests : List Request) (h : List.Forall₂ (LineOf lstat mountpoint) segments requests) :
    segments.length ≤ (preseedText segments).length := by
  induction h with
  | nil => exact Nat.zero_le _
  | @cons x req rest reqs hx hrest ih =>
    have hpos := List.length_pos_of_ne_nil hx.ne_nil
    rw [preseedText, List.flatMap_cons, List.length_append, List.length_append, List.length_cons]
    change rest.length ≤ (rest.flatMap _).length at ih
    omega

/-- `vdev_load_device_requests` turns every line into one request, in order, and
returns 0 exactly when there is no line, or the last line ends in a newline and
the counter is below the length of the buffer when the last line comes up. -/
theorem load_every_line_iff (lstat : CStr → Bool) (mountpoint : CStr) (segments : List (CStr × ℕ))
    (requests : List Request)
    (hall : List.Forall₂ (LineOf lstat mountpoint) segments requests)
    (hsep : ∀ x ∈ segments.dropLast, 0 < x.2) (textBuflen : ℕ)
    (hbuf : (preseedText segments).length ≤ textBuflen) :
    loadDeviceRequests lstat mountpoint (preseedText segments) textBuflen = .returned 0 requests ↔
      segments = [] ∨ (EndsInNewline segments ∧ counterAtLast segments < textBuflen) := by
  have hlen := segments_length_le lstat mountpoint segments requests hall
  rcases Nat.eq_zero_or_pos textBuflen with hzero | hpos
  · have hnil : segments = [] := List.length_eq_zero_iff.mp (by omega)
    subst hnil
    cases hall
    rw [loadDeviceRequests, loadLoop_full _ textBuflen _ 0 _ _ hzero.le]
    simp
  · have hiff := loadLoop_iff lstat mountpoint textBuflen ((preseedText segments).length + 1) 0
      segments requests [] hall hsep hpos (by omega)
    simpa [loadDeviceRequests] using hiff

def nullLine : CStr := "c null 1 3".toList

def nullRequest : Request :=
  { type := .add, path := some "null".toList, dev := 259, mode := S_IFCHR }

theorem nullLine_parses :
    parseDeviceRequest (fun _ => false) "/dev".toList nullLine = .ok nullRequest := rfl

theorem nullLine_lineOf (k : ℕ) :
    LineOf (fun _ => false) "/dev".toList (nullLine, k) nullRequest where
  one_line := show '\n' ∉ nullLine by decide
  short := show nullLine.length < 4096 by decide
  parses := nullLine_parses

/-- Two lines with an empty line between them, in the buffer of `vdev_preseed_run`. -/
theorem load_every_line_two :
    loadDeviceRequests (fun _ => false) "/dev".toList (preseedText [(nullLine, 2), (nullLine, 1)])
      (1024 * 1024) = .returned 0 [nullRequest, nullRequest] := by
  refine (load_every_line_iff _ _ _ _ (.cons (nullLine_lineOf 2) (.cons (nullLine_lineOf 1) .nil))
    ?_ _ ?_).mpr (Or.inr ⟨⟨(nullLine, 1), rfl, Nat.one_pos⟩, ?_⟩)
  · simp
  · decide
  · decide

/-- A last line without a newline is fatal, and in a buffer that just holds the
text the third of three lines is dropped. -/
theorem load_loses_lines :
    loadDeviceRequests (fun _ => false) "/dev".toList nullLine (1024 * 1024) ≠
      .returned 0 [nullRequest] ∧
    loadDeviceRequests (fun _ => false) "/dev".toList
      (preseedText [(nullLine, 1), (nullLine, 1), (nullLine, 1)]) 34 ≠
        .returned 0 [nullRequest, nullRequest, nullRequest] := by
  constructor
  · rw [show loadDeviceRequests (fun _ => false) "/dev".toList nullLine (1024 * 1024) =
      .crashed from rfl]
    exact Outcome.noConfusion
  · rw [show loadDeviceRequests (fun _ => false) "/dev".toList
      (preseedText [(nullLine, 1), (nullLine, 1), (nullLine, 1)]) 34 =
        .returned 0 [nullRequest, nullRequest] from rfl]
    simp

end Vdev.Preseed
