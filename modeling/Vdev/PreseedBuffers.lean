import Vdev.Preseed
import Mathlib.Data.List.TakeWhile

/-!
The arrays of the preseed parser (vdevd/vdev.c). `vdev_load_device_requests` and
`vdev_parse_device_request` copy lines and tokens into arrays of 4097 bytes. The length of the
last line is compared with 4096, and that of a line with a newline is not. After the last line
the length of the text that is left is taken of a NULL pointer.
-/
namespace Vdev.PreseedBuffers

open CString Data Parsing Preseed

inductive Buf
  | lineBuf | lineBufDbg | name | keyvalueBuf
  deriving DecidableEq

def bufSize : ℕ := 4097

/-- What the functions do: a byte is written at an index, a string function is called with a
pointer to a line that is NULL or not. The lines that the loop comes to and those that are
parsed are noted as well. -/
inductive Event
  | write (b : Buf) (index : ℕ)
  | string (null : Bool)
  | line (s : CStr)
  | parsed (s : CStr)
  deriving DecidableEq

/-- What is done, and the result, unless the behaviour is undefined. -/
structure Traced (α : Type) where
  events : List Event
  result : Option α

namespace Traced

variable {α β : Type}

protected def pure (a : α) : Traced α := ⟨[], some a⟩

def bind (x : Traced α) (f : α → Traced β) : Traced β :=
  match x.result with
  | none => ⟨x.events, none⟩
  | some a => ⟨x.events ++ (f a).events, (f a).result⟩

def emit (e : Event) (x : Traced α) : Traced α := { x with events := e :: x.events }

end Traced

/-- `memcpy` of a string into an array, and of the NUL behind it where `nul` is set. -/
def copy (b : Buf) (s : CStr) (nul : Bool) : Traced Unit :=
  ⟨(List.range (s.length + nul.toNat)).map (.write b),
    if s.length + nul.toNat ≤ bufSize then some () else none⟩

/-- `strcpy`. -/
def strcpy (b : Buf) (s : CStr) : Traced Unit := copy b s true

def store (b : Buf) (i : ℕ) : Traced Unit := ⟨[.write b i], if i < bufSize then some () else none⟩

def nullString {α : Type} : Traced α := ⟨[.string true], none⟩

/-- The loop of `vdev_parse_device_request` over the OS parameters. -/
def parseParams : ℕ → CStr → Params → Traced (Except Errno Params)
  | 0, _, params => .pure (.ok params)
  | fuel + 1, s, params =>
    match strtok blanks s with
    | none => .pure (.ok params)
    | some (tok, s) =>
      if 4096 < tok.length then .pure (.error .einval)
      else
        (strcpy .keyvalueBuf tok).bind (fun _ =>
          match keyvalueNext tok with
          | none => .pure (.error .einval)
          | some (key, value) =>
            match params.add key value with
            | .error e => .pure (.error e)
            | .ok params => parseParams fuel s params)

/-- `vdev_parse_device_request` behind the name. -/
def parseNumbers (lstat : CStr → Bool) (mountpoint type name s : CStr) :
    Traced (Except Errno Request) :=
  match strtok blanks s with
  | none => .pure (.error .enoent)
  | some (majorTok, s) =>
    match parseDeviceNumber majorTok with
    | .error e => .pure (.error e)
    | .ok major =>
      match strtok blanks s with
      | none => .pure (.error .enoent)
      | some (minorTok, s) =>
        match parseDeviceNumber minorTok with
        | .error e => .pure (.error e)
        | .ok minor =>
          (parseParams (s.length + 1) s Params.empty).bind (fun params =>
            .pure (params.map (fun params =>
              { type := .add
                path := some name
                mode := if type = ['c'] then S_IFCHR else if type = ['b'] then S_IFBLK else 0
                dev := makedev major minor
                params := params
                existsFlag := lstat (snprintf 4096 (mountpoint ++ '/' :: name)) })))

/-- `vdev_parse_device_request`. -/
def parseDeviceRequest (lstat : CStr → Bool) (mountpoint line : CStr) :
    Traced (Except Errno Request) :=
  match strtok blanks line with
  | none => .pure (.error .enoent)
  | some (type, s) =>
    if type ≠ ['c'] ∧ type ≠ ['b'] ∧ type ≠ ['u'] then .pure (.error .einval)
    else
      match strtok blanks s with
      | none => .pure (.error .enoent)
      | some (name, s) =>
        (strcpy .name name).bind (fun _ => parseNumbers lstat mountpoint type name s)

/-- A line in `line_buf` is copied, parsed and enqueued, and then the loop goes on. -/
def loadLine (lstat : CStr → Bool) (mountpoint line : CStr) (queue : List Request)
    (next : List Request → Traced (Int × List Request)) : Traced (Int × List Request) :=
  (strcpy .lineBufDbg line).bind (fun _ =>
    .emit (.parsed line) ((parseDeviceRequest lstat mountpoint line).bind (fun r =>
      match r with
      | .error e => .pure (e.rc, queue)
      | .ok req =>
        let (rc, queue) := requestEnqueue req queue
        if rc ≠ 0 then .pure (rc, queue) else next queue)))

/-- The loop of `vdev_load_device_requests`. -/
def loadLoop (lstat : CStr → Bool) (mountpoint : CStr) (textBuflen : ℕ) :
    ℕ → CStr → ℕ → List Request → Traced (Int × List Request)
  | 0, _, _, queue => .pure (0, queue)
  | fuel + 1, curLine, consumed, queue =>
    if consumed < textBuflen then
      .emit (.string false)
        (if '\n' ∈ curLine then
          let line := curLine.takeWhile (· ≠ '\n')
          let nextLine := curLine.dropWhile (· ≠ '\n')
          .emit (.line line) ((copy .lineBuf line false).bind (fun _ =>
            (store .lineBuf line.length).bind (fun _ =>
              loadLine lstat mountpoint line queue (fun queue =>
                .emit (.string false)
                  (let (curLine, consumed) :=
                    skipNewlines textBuflen nextLine (consumed + nextLine.length)
                  loadLoop lstat mountpoint textBuflen fuel curLine consumed queue)))))
        else
          .emit (.string false)
            (if curLine = [] then .pure (0, queue)
            else
              .emit (.line curLine)
                (if curLine.length < 4096 then
                  .emit (.string false) ((strcpy .lineBuf curLine).bind (fun _ =>
                    loadLine lstat mountpoint curLine queue (fun _ => nullString)))
                else .pure (Errno.erange.rc, queue))))
    else .pure (0, queue)

/-- `vdev_load_device_requests`. -/
def loadDeviceRequests (lstat : CStr → Bool) (mountpoint text : CStr) (textBuflen : ℕ) :
    Traced (Int × List Request) :=
  loadLoop lstat mountpoint textBuflen (text.length + 1) text 0 []

section Spec

/-- All writes are inside of the arrays, no string function is called with NULL, and a line of
4096 or more characters is not parsed, but ends the function with its error. -/
structure Inside (x : Traced (Int × List Request)) : Prop where
  writes : ∀ b i, Event.write b i ∈ x.events → i < bufSize
  strings : Event.string true ∉ x.events
  long : ∀ s, Event.line s ∈ x.events → 4096 ≤ s.length →
    Event.parsed s ∉ x.events ∧ ∃ queue, x.result = some (Errno.erange.rc, queue)

variable (lstat : CStr → Bool) (mountpoint : CStr) (n : ℕ)

/-- The counter after some lines, when `t` is left: each line adds the length of the text behind
it and the number of newlines that are skipped. -/
def counterAfter (t : CStr) : List (CStr × ℕ) → ℕ
  | [] => 0
  | x :: segments => x.2 + (preseedText segments ++ t).length + x.2 + counterAfter t segments

/-- The loop comes to the text `t`, after lines that parse. -/
structure ComesTo (consumed : ℕ) (text : CStr) (segments : List (CStr × ℕ)) (t : CStr) : Prop where
  text_eq : text = preseedText segments ++ t
  lines : ∀ x ∈ segments, '\n' ∉ x.1 ∧ 0 < x.2 ∧
    ∃ req, Preseed.parseDeviceRequest lstat mountpoint x.1 = .ok req
  ne_nil : t ≠ []
  head : t.head? ≠ some '\n'
  counter : consumed + counterAfter t segments < n

/-- The first line of a text is short if it has a newline, and else too long or not to be
parsed. -/
def LineOk (t : CStr) : Prop :=
  if '\n' ∈ t then (t.takeWhile (· ≠ '\n')).length < 4096
  else 4096 ≤ t.length ∨ ∀ req, Preseed.parseDeviceRequest lstat mountpoint t ≠ .ok req

/-- All lines that the loop comes to are so. -/
def LinesOk (consumed : ℕ) (text : CStr) : Prop :=
  ∀ segments t, ComesTo lstat mountpoint n consumed text segments t → LineOk lstat mountpoint t

end Spec

section Plain

/-- Nothing is wrong with an event, and the line that it is about is short. -/
def Event.Plain : Event → Prop
  | .write _ i => i < bufSize
  | .string null => null = false
  | .line s => s.length < 4096
  | .parsed s => s.length < 4096

theorem plain_string : (Event.string false).Plain := rfl

theorem plain_line {s : CStr} (h : s.length < 4096) : (Event.line s).Plain := h

theorem plain_parsed {s : CStr} (h : s.length < 4096) : (Event.parsed s).Plain := h

/-- There is a result, and nothing is wrong with the way to it. -/
structure Returns {α : Type} (x : Traced α) (a : α) : Prop where
  result : x.result = some a
  plain : ∀ e ∈ x.events, e.Plain

variable {α β : Type}

theorem returns_pure (a : α) : Returns (.pure a) a := ⟨rfl, nofun⟩

theorem Returns.bind {x : Traced α} {a : α} {f : α → Traced β} {b : β} (hx : Returns x a)
    (hf : Returns (f a) b) : Returns (x.bind f) b := by
  rw [Traced.bind, hx.result]
  exact ⟨hf.result, List.forall_mem_append.mpr ⟨hx.plain, hf.plain⟩⟩

theorem Returns.emit {x : Traced α} {a : α} {e : Event} (he : e.Plain) (hx : Returns x a) :
    Returns (.emit e x) a :=
  ⟨hx.result, List.forall_mem_cons.mpr ⟨he, hx.plain⟩⟩

theorem returns_copy {b : Buf} {s : CStr} {nul : Bool} (h : s.length + nul.toNat ≤ bufSize) :
    Returns (copy b s nul) () := by
  refine ⟨if_pos h, fun e he => ?_⟩
  obtain ⟨i, hi, rfl⟩ := List.mem_map.mp he
  exact lt_of_lt_of_le (List.mem_range.mp hi) h

theorem returns_store {b : Buf} {i : ℕ} (h : i < bufSize) : Returns (store b i) () :=
  ⟨if_pos h, fun e he => by rw [List.mem_singleton.mp he]; exact h⟩

/-- What goes before without a fault does not matter. -/
theorem inside_append {pre events : List Event} {result : Option (Int × List Request)}
    (hpre : ∀ e ∈ pre, e.Plain) : Inside ⟨pre ++ events, result⟩ ↔ Inside ⟨events, result⟩ := by
  have hsub : ∀ {e}, e ∈ events → e ∈ pre ++ events := fun he => List.mem_append_right pre he
  constructor
  · intro h
    refine ⟨fun b i hmem => h.writes b i (hsub hmem), fun hmem => h.strings (hsub hmem), ?_⟩
    intro s hs hlong
    obtain ⟨hparsed, hresult⟩ := h.long s (hsub hs) hlong
    exact ⟨fun hmem => hparsed (hsub hmem), hresult⟩
  · intro h
    refine ⟨fun b i hmem => ?_, fun hmem => ?_, fun s hs hlong => ?_⟩
    · rcases List.mem_append.mp hmem with hmem | hmem
      · exact hpre _ hmem
      · exact h.writes b i hmem
    · rcases List.mem_append.mp hmem with hmem | hmem
      · exact Bool.noConfusion (hpre _ hmem)
      · exact h.strings hmem
    · rcases List.mem_append.mp hs with hs | hs
      · exact absurd (hpre _ hs) (not_lt.mpr hlong)
      · obtain ⟨hparsed, hresult⟩ := h.long s hs hlong
        refine ⟨fun hmem => ?_, hresult⟩
        rcases List.mem_append.mp hmem with hmem | hmem
        · exact absurd (hpre _ hmem) (not_lt.mpr hlong)
        · exact hparsed hmem

theorem inside_emit {e : Event} {x : Traced (Int × List Request)} (he : e.Plain) :
    Inside (.emit e x) ↔ Inside x := by
  have hpre : ∀ d ∈ [e], d.Plain := by simpa using he
  exact inside_append hpre

theorem inside_bind {x : Traced α} {a : α} {f : α → Traced (Int × List Request)}
    (hx : Returns x a) : Inside (x.bind f) ↔ Inside (f a) := by
  rw [Traced.bind, hx.result]
  exact inside_append hx.plain

theorem Returns.inside {x : Traced (Int × List Request)} {r : Int × List Request}
    (h : Returns x r) : Inside x := by
  refine ⟨fun b i hmem => h.plain _ hmem, fun hmem => Bool.noConfusion (h.plain _ hmem), ?_⟩
  exact fun s hs hlong => absurd (h.plain _ hs) (not_lt.mpr hlong)

end Plain

section Parse

theorem strtok_length {delims s tok rest : CStr} (h : strtok delims s = some (tok, rest)) :
    tok.length ≤ s.length ∧ rest.length ≤ s.length := by
  unfold strtok at h
  dsimp only at h
  split_ifs at h
  cases h
  have hdrop := (List.dropWhile_suffix (l := s) (· ∈ delims)).length_le
  refine ⟨(List.takeWhile_prefix _).length_le.trans hdrop, ?_⟩
  rw [List.length_tail]
  have hrest := (List.dropWhile_suffix (l := s.dropWhile (· ∈ delims)) (· ∉ delims)).length_le
  omega

/-- A text of 4096 bytes fits in an array, and a NUL behind it too. -/
theorem fits {s : CStr} (nul : Bool) (h : s.length ≤ 4096) : s.length + nul.toNat ≤ bufSize := by
  have hnul := nul.toNat_le
  rw [bufSize]
  omega

/-- The tokens fit in `keyvalue_buf`. -/
theorem returns_parseParams (fuel : ℕ) (s : CStr) (params : Params) :
    Returns (parseParams fuel s params) (Preseed.parseParams fuel s params) := by
  induction fuel generalizing s params with
  | zero => exact returns_pure _
  | succ fuel ih =>
    rw [parseParams, Preseed.parseParams]
    rcases strtok blanks s with _ | ⟨tok, s⟩
    · exact returns_pure _
    · dsimp only
      split_ifs with hlong
      · exact returns_pure _
      · refine (returns_copy (fits true (by omega))).bind ?_
        rcases keyvalueNext tok with _ | ⟨key, value⟩
        · exact returns_pure _
        · dsimp only
          rcases params.add key value with e | params
          · exact returns_pure _
          · exact ih s params

/-- A line that fits in `line_buf` is parsed inside of the arrays, with the same result. -/
theorem returns_parseDeviceRequest (lstat : CStr → Bool) (mountpoint line : CStr)
    (h : line.length ≤ 4096) :
    Returns (parseDeviceRequest lstat mountpoint line)
      (Preseed.parseDeviceRequest lstat mountpoint line) := by
  unfold parseDeviceRequest Preseed.parseDeviceRequest
  simp only [bind, Except.bind, pure, Except.pure]
  cases htype : strtok blanks line with
  | none => exact returns_pure _
  | some x =>
    obtain ⟨type, s⟩ := x
    dsimp only
    by_cases hbad : type ≠ ['c'] ∧ type ≠ ['b'] ∧ type ≠ ['u']
    · rw [if_pos hbad, if_pos hbad]
      exact returns_pure _
    rw [if_neg hbad, if_neg hbad]
    cases hname : strtok blanks s with
    | none => exact returns_pure _
    | some x =>
      obtain ⟨name, s⟩ := x
      have hlen := (strtok_length htype).2
      have hlen' := (strtok_length hname).1
      refine (returns_copy (fits true (by omega))).bind ?_
      rw [parseNumbers]
      dsimp only
      cases strtok blanks s with
      | none => exact returns_pure _
      | some x =>
        obtain ⟨majorTok, s⟩ := x
        dsimp only
        cases parseDeviceNumber majorTok with
        | error e => exact returns_pure _
        | ok major =>
          dsimp only
          cases strtok blanks s with
          | none => exact returns_pure _
          | some x =>
            obtain ⟨minorTok, s⟩ := x
            dsimp only
            cases parseDeviceNumber minorTok with
            | error e => exact returns_pure _
            | ok minor =>
              dsimp only
              refine (returns_parseParams _ _ _).bind ?_
              cases Preseed.parseParams (s.length + 1) s Params.empty with
              | error e => exact returns_pure _
              | ok params => exact returns_pure _

end Parse

section Lines

theorem ne_nil_of_parses {lstat : CStr → Bool} {mountpoint line : CStr} {req : Request}
    (h : Preseed.parseDeviceRequest lstat mountpoint line = .ok req) : line ≠ [] := by
  rintro rfl
  rw [parseDeviceRequest_nil] at h
  cases h

theorem head_ne_of_not_mem {s : CStr} (t : CStr) (h : '\n' ∉ s) (hne : s ≠ []) :
    (s ++ t).head? ≠ some '\n' := by
  rw [List.head?_append_of_ne_nil _ hne]
  exact fun heq => h (List.mem_of_head? heq)

theorem replicate_append_inj {u v : CStr} {a b : ℕ} (hu : u.head? ≠ some '\n')
    (hv : v.head? ≠ some '\n')
    (h : List.replicate a '\n' ++ u = List.replicate b '\n' ++ v) : a = b ∧ u = v := by
  induction a generalizing b with
  | zero =>
    cases b with
    | zero => exact ⟨rfl, h⟩
    | succ b =>
      rw [List.replicate_zero, List.nil_append] at h
      exact absurd (by rw [h]; rfl) hu
  | succ a ih =>
    cases b with
    | zero =>
      rw [List.replicate_zero, List.nil_append] at h
      exact absurd (by rw [← h]; rfl) hv
    | succ b =>
      obtain ⟨rfl, huv⟩ := ih (List.cons.inj h).2
      exact ⟨rfl, huv⟩

/-- The first line of a text. -/
theorem takeWhile_line {line t : CStr} {k : ℕ} (hno : '\n' ∉ line) (hk : 0 < k) :
    (line ++ List.replicate k '\n' ++ t).takeWhile (· ≠ '\n') = line := by
  obtain ⟨k, rfl⟩ := Nat.exists_eq_succ_of_ne_zero hk.ne'
  rw [List.append_assoc, List.replicate_succ, List.cons_append]
  refine (takeWhile_append_stop _ line _ '\n' (fun d hd => ?_) (by decide)).1
  rw [decide_eq_true_eq]
  rintro rfl
  exact hno hd

/-- A text is cut in one way into its first line, the newlines behind it and the rest. -/
theorem cut_unique {x y u v : CStr} {a b : ℕ} (hx : '\n' ∉ x) (hy : '\n' ∉ y) (ha : 0 < a)
    (hb : 0 < b) (hu : u.head? ≠ some '\n') (hv : v.head? ≠ some '\n')
    (h : x ++ List.replicate a '\n' ++ u = y ++ List.replicate b '\n' ++ v) :
    x = y ∧ a = b ∧ u = v := by
  have hxy : x = y := by
    have hx' : (x ++ List.replicate a '\n' ++ u).takeWhile (· ≠ '\n') = x := takeWhile_line hx ha
    rw [← hx', h, takeWhile_line hy hb]
  subst hxy
  rw [List.append_assoc, List.append_assoc, List.append_cancel_left_eq] at h
  exact ⟨rfl, replicate_append_inj hu hv h⟩

/-- With a newline in it, a text can be cut so. -/
theorem exists_cut {s : CStr} (h : '\n' ∈ s) : ∃ k t, 0 < k ∧ t.head? ≠ some '\n' ∧
    s.dropWhile (· ≠ '\n') = List.replicate k '\n' ++ t := by
  have hall : ∀ u : CStr, ∃ k t, t.head? ≠ some '\n' ∧ u = List.replicate k '\n' ++ t := by
    intro u
    induction u with
    | nil => exact ⟨0, [], nofun, rfl⟩
    | cons c u ih =>
      by_cases hc : c = '\n'
      · obtain ⟨k, t, ht, hu⟩ := ih
        exact ⟨k + 1, t, ht, by rw [hc, hu]; rfl⟩
      · exact ⟨0, c :: u, fun heq => hc (Option.some.inj heq), rfl⟩
  obtain ⟨k, t, ht, hdrop⟩ := hall (s.dropWhile (· ≠ '\n'))
  refine ⟨k, t, Nat.pos_of_ne_zero ?_, ht, hdrop⟩
  rintro rfl
  have hhead := List.head?_dropWhile_not (· ≠ '\n') s
  rw [hdrop, List.replicate_zero, List.nil_append] at hhead
  cases t with
  | nil =>
    -- without a newline left, there is none
    have hnone := List.dropWhile_eq_nil_iff.mp hdrop '\n' h
    simp at hnone
  | cons c t =>
    simp only [List.head?_cons] at hhead ht
    simp at hhead ht
    exact ht hhead

variable {lstat : CStr → Bool} {mountpoint : CStr} {n consumed : ℕ}

/-- The rest behind the newlines starts with a line, or with the text that the loop comes to. -/
theorem head_rest {segments : List (CStr × ℕ)} {t : CStr} (hlines : ∀ x ∈ segments, '\n' ∉ x.1 ∧
      0 < x.2 ∧ ∃ req, Preseed.parseDeviceRequest lstat mountpoint x.1 = .ok req)
    (ht : t.head? ≠ some '\n') : (preseedText segments ++ t).head? ≠ some '\n' := by
  cases segments with
  | nil => exact ht
  | cons x segments =>
    obtain ⟨hno, -, req, hreq⟩ := hlines x List.mem_cons_self
    rw [preseedText, List.flatMap_cons, List.append_assoc, List.append_assoc]
    exact head_ne_of_not_mem _ hno (ne_nil_of_parses hreq)

theorem linesOk_last {t : CStr} (hno : '\n' ∉ t) (hne : t ≠ []) (hlt : consumed < n) :
    LinesOk lstat mountpoint n consumed t ↔ LineOk lstat mountpoint t := by
  constructor
  · intro h
    refine h [] t ⟨rfl, nofun, hne, ?_, hlt⟩
    exact fun heq => hno (List.mem_of_head? heq)
  · intro h segments t' hcomes
    cases segments with
    | nil =>
      rw [← show t = t' from hcomes.text_eq]
      exact h
    | cons x segments =>
      refine absurd ?_ hno
      obtain ⟨-, hpos, -⟩ := hcomes.lines x List.mem_cons_self
      rw [hcomes.text_eq, preseedText, List.flatMap_cons]
      simp [hpos.ne']

/-- After a line, the condition is about the line and what comes behind it. -/
theorem linesOk_line {line t : CStr} {k : ℕ} (hno : '\n' ∉ line) (hk : 0 < k)
    (ht : t.head? ≠ some '\n') (hlt : consumed < n) :
    LinesOk lstat mountpoint n consumed (line ++ List.replicate k '\n' ++ t) ↔
      line.length < 4096 ∧
        ∀ req, Preseed.parseDeviceRequest lstat mountpoint line = .ok req →
          LinesOk lstat mountpoint n (consumed + (k + t.length) + k) t := by
  have hmem : '\n' ∈ line ++ List.replicate k '\n' ++ t := by simp [hk.ne']
  have hok : LineOk lstat mountpoint (line ++ List.replicate k '\n' ++ t) ↔ line.length < 4096 := by
    rw [LineOk, if_pos hmem, takeWhile_line hno hk]
  constructor
  · intro h
    constructor
    · by_cases hnil : line = []
      · rw [hnil]
        decide
      · refine hok.mp (h [] _ ⟨rfl, nofun, List.ne_nil_of_mem hmem, ?_, hlt⟩)
        rw [List.append_assoc]
        exact head_ne_of_not_mem _ hno hnil
    · intro req hreq segments t' hcomes
      refine h ((line, k) :: segments) t' ⟨?_, ?_, hcomes.ne_nil, hcomes.head, ?_⟩
      · rw [hcomes.text_eq, preseedText, preseedText, List.flatMap_cons, ← List.append_assoc]
      · exact List.forall_mem_cons.mpr ⟨⟨hno, hk, req, hreq⟩, hcomes.lines⟩
      · have hcounter := hcomes.counter
        rw [counterAfter, ← hcomes.text_eq]
        dsimp only
        omega
  · rintro ⟨hshort, hrest⟩ segments t' hcomes
    cases segments with
    | nil =>
      rw [← show _ = t' from hcomes.text_eq]
      exact hok.mpr hshort
    | cons x segments =>
      obtain ⟨hx, hlines⟩ := List.forall_mem_cons.mp hcomes.lines
      obtain ⟨hnox, hpos, req, hreq⟩ := hx
      have htext := hcomes.text_eq
      rw [preseedText, List.flatMap_cons, List.append_assoc _ _ t'] at htext
      obtain ⟨hline, hcount, htail⟩ := cut_unique hno hnox hk hpos ht
        (head_rest hlines hcomes.head) htext
      have hcounter := hcomes.counter
      change t = preseedText segments ++ t' at htail
      rw [counterAfter, ← hcount, ← htail] at hcounter
      refine hrest req (hline ▸ hreq) segments t' ⟨htail, hlines, hcomes.ne_nil, hcomes.head, ?_⟩
      omega

theorem linesOk_full {text : CStr} (h : n ≤ consumed) :
    LinesOk lstat mountpoint n consumed text := by
  intro segments t hcomes
  have hcounter := hcomes.counter
  omega

end Lines

section Loop

variable {lstat : CStr → Bool} {mountpoint : CStr} {n : ℕ}

theorem inside_pure (r : Int × List Request) : Inside (.pure r) := (returns_pure r).inside

/-- A short line is parsed inside of the arrays, and then the loop goes on. -/
theorem inside_loadLine {line : CStr} (h : line.length < 4096) (queue : List Request)
    (next : List Request → Traced (Int × List Request)) :
    Inside (loadLine lstat mountpoint line queue next) ↔
      ∀ req, Preseed.parseDeviceRequest lstat mountpoint line = .ok req →
        Inside (next (queue ++ [req])) := by
  rw [loadLine, strcpy, inside_bind (returns_copy (fits true h.le)), inside_emit (plain_parsed h),
    inside_bind (returns_parseDeviceRequest lstat mountpoint line h.le)]
  cases hparse : Preseed.parseDeviceRequest lstat mountpoint line with
  | error e => exact iff_of_true (inside_pure _) nofun
  | ok req =>
    dsimp only
    rw [requestEnqueue_parsed lstat mountpoint line req hparse]
    dsimp only
    rw [if_neg (not_not.mpr rfl)]
    constructor
    · intro hin req' hreq
      cases hreq
      exact hin
    · exact fun hall => hall req rfl

/-- A line that fills `line_buf` is parsed. -/
theorem parsed_mem_loadLine {line : CStr} (h : line.length ≤ 4096) (queue : List Request)
    (next : List Request → Traced (Int × List Request)) :
    Event.parsed line ∈ (loadLine lstat mountpoint line queue next).events := by
  rw [loadLine, strcpy, Traced.bind, (returns_copy (fits true h)).result]
  exact List.mem_append_right _ List.mem_cons_self

theorem mem_events_bind {α β : Type} {x : Traced α} {f : α → Traced β} {e : Event}
    (h : e ∈ x.events) : e ∈ (x.bind f).events := by
  unfold Traced.bind
  split
  · exact h
  · exact List.mem_append_left _ h

/-- A line with a newline that is too long is written behind the end of `line_buf`, or parsed
when just the NUL behind it fits. -/
theorem not_inside_long {line : CStr} (h : 4096 ≤ line.length) (queue : List Request)
    (next : List Request → Traced (Int × List Request)) :
    ¬Inside (.emit (.line line) ((copy .lineBuf line false).bind (fun _ =>
      (store .lineBuf line.length).bind (fun _ =>
        loadLine lstat mountpoint line queue next)))) := by
  intro hin
  by_cases hfull : line.length ≤ 4096
  · refine (hin.long line List.mem_cons_self h).1 (List.mem_cons_of_mem _ ?_)
    rw [Traced.bind, (returns_copy (fits false hfull)).result]
    refine List.mem_append_right _ ?_
    rw [Traced.bind, (returns_store (fits true hfull)).result]
    exact List.mem_append_right _ (parsed_mem_loadLine hfull queue next)
  · have hwrite : ∃ i, bufSize ≤ i ∧ Event.write .lineBuf i ∈
        ((copy .lineBuf line false).bind (fun _ => (store .lineBuf line.length).bind (fun _ =>
          loadLine lstat mountpoint line queue next))).events := by
      by_cases hcopy : line.length + false.toNat ≤ bufSize
      · refine ⟨line.length, by rw [bufSize]; omega, ?_⟩
        rw [Traced.bind, (returns_copy hcopy).result]
        exact List.mem_append_right _ (mem_events_bind (List.mem_singleton_self _))
      · refine ⟨bufSize, le_rfl, mem_events_bind (List.mem_map_of_mem ?_)⟩
        exact List.mem_range.mpr (not_le.mp hcopy)
    obtain ⟨i, hi, hmem⟩ := hwrite
    exact absurd (hin.writes .lineBuf i (List.mem_cons_of_mem _ hmem)) (not_lt.mpr hi)

theorem loadLoop_full (fuel consumed : ℕ) (curLine : CStr) (queue : List Request)
    (h : n ≤ consumed) :
    loadLoop lstat mountpoint n fuel curLine consumed queue = .pure (0, queue) := by
  cases fuel with
  | zero => rfl
  | succ fuel => rw [loadLoop, if_neg (not_lt.mpr h)]

/-- The loop stays inside of the arrays exactly if all lines that it comes to are so. -/
theorem inside_loadLoop (fuel : ℕ) (curLine : CStr) (consumed : ℕ) (queue : List Request)
    (hfuel : curLine.length < fuel) :
    Inside (loadLoop lstat mountpoint n fuel curLine consumed queue) ↔
      LinesOk lstat mountpoint n consumed curLine := by
  induction fuel generalizing curLine consumed queue with
  | zero => omega
  | succ fuel ih =>
    by_cases hlt : consumed < n
    · rw [loadLoop, if_pos hlt, inside_emit plain_string]
      by_cases hnl : '\n' ∈ curLine
      · rw [if_pos hnl]
        dsimp only
        obtain ⟨k, t, hk, ht, hdrop⟩ := exists_cut hnl
        have hsplit := List.takeWhile_append_dropWhile (p := (· ≠ '\n')) (l := curLine)
        have hno : '\n' ∉ curLine.takeWhile (· ≠ '\n') := fun hmem => by
          simpa using List.mem_takeWhile_imp hmem
        rw [hdrop, ← List.append_assoc] at hsplit
        rw [hdrop]
        generalize curLine.takeWhile (· ≠ '\n') = line at hsplit hno ⊢
        rw [← hsplit, linesOk_line hno hk ht hlt]
        by_cases hshort : line.length < 4096
        · rw [inside_emit (plain_line hshort), inside_bind (returns_copy (fits false hshort.le)),
            inside_bind (returns_store (fits true hshort.le)), inside_loadLine hshort,
            and_iff_right hshort]
          refine forall_congr' (fun req => forall_congr' (fun hreq => ?_))
          rw [inside_emit plain_string, List.length_append, List.length_replicate]
          by_cases hfit : consumed + (k + t.length) + k < n
          · rw [skipNewlines_all n k _ t ht hfit.le]
            refine ih t _ _ ?_
            have hlen := congrArg List.length hsplit
            simp only [List.length_append, List.length_replicate] at hlen
            omega
          · have hstop := skipNewlines_stop n k (consumed + (k + t.length)) t ht (not_lt.mp hfit)
            rw [loadLoop_full fuel _ _ _ hstop]
            exact iff_of_true (inside_pure _) (linesOk_full (not_lt.mp hfit))
        · exact iff_of_false (not_inside_long (not_lt.mp hshort) queue _)
            (fun hand => hshort hand.1)
      · rw [if_neg hnl, inside_emit plain_string]
        by_cases hnil : curLine = []
        · rw [if_pos hnil]
          refine iff_of_true (inside_pure _) (fun segments t hcomes => ?_)
          have htext := hcomes.text_eq
          rw [hnil] at htext
          exact absurd (List.append_eq_nil_iff.mp htext.symm).2 hcomes.ne_nil
        · rw [if_neg hnil, linesOk_last hnl hnil hlt, LineOk, if_neg hnl]
          by_cases hshort : curLine.length < 4096
          · rw [inside_emit (plain_line hshort), if_pos hshort, inside_emit plain_string, strcpy,
              inside_bind (returns_copy (fits true hshort.le)), inside_loadLine hshort,
              or_iff_right (not_le.mpr hshort)]
            refine forall_congr' (fun req => ?_)
            refine imp_congr_right (fun _ => iff_false_intro (fun hin => ?_))
            exact hin.strings (List.mem_singleton_self _)
          · rw [if_neg hshort]
            refine iff_of_true ⟨?_, ?_, ?_⟩ (Or.inl (not_lt.mp hshort))
            · intro b i hmem
              cases List.mem_singleton.mp hmem
            · intro hmem
              cases List.mem_singleton.mp hmem
            · intro s _ _
              refine ⟨fun hmem => ?_, queue, rfl⟩
              cases List.mem_singleton.mp hmem
    · rw [loadLoop_full _ _ _ _ (not_lt.mp hlt)]
      exact iff_of_true (inside_pure _) (linesOk_full (not_lt.mp hlt))

/-- In every text, the functions stay inside of the arrays exactly if each line that the loop
comes to is short and has a newline, or is too long or not to be parsed and has none. -/
theorem inside_iff (lstat : CStr → Bool) (mountpoint text : CStr) (n : ℕ) :
    Inside (loadDeviceRequests lstat mountpoint text n) ↔ LinesOk lstat mountpoint n 0 text :=
  inside_loadLoop (text.length + 1) text 0 [] (Nat.lt_succ_self _)

end Loop

section Erasure

/-- What is left of an outcome when the behaviour is undefined. -/
def outcomeOf : Outcome → Option (Int × List Request)
  | .returned rc queue => some (rc, queue)
  | .crashed => none

variable {lstat : CStr → Bool} {mountpoint : CStr} {n : ℕ}

theorem result_loadLine {line : CStr} (h : line.length ≤ 4096) (queue : List Request)
    (next : List Request → Traced (Int × List Request)) (next' : List Request → Outcome)
    (hnext : ∀ queue, (next queue).result = outcomeOf (next' queue)) :
    (loadLine lstat mountpoint line queue next).result =
      outcomeOf (Preseed.loadLine (Preseed.parseDeviceRequest lstat mountpoint) line queue next') := by
  rw [loadLine, strcpy, Traced.bind, (returns_copy (fits true h)).result]
  dsimp only [Traced.emit]
  rw [Traced.bind, (returns_parseDeviceRequest lstat mountpoint line h).result, Preseed.loadLine]
  cases Preseed.parseDeviceRequest lstat mountpoint line with
  | error e => rfl
  | ok req =>
    dsimp only
    split_ifs
    · rfl
    · exact hnext _

/-- Without the events, the loop is that of the model without arrays. -/
theorem result_loadLoop (fuel : ℕ) (curLine : CStr) (consumed : ℕ) (queue : List Request) :
    (loadLoop lstat mountpoint n fuel curLine consumed queue).result =
      outcomeOf (Preseed.loadLoop (Preseed.parseDeviceRequest lstat mountpoint) n fuel curLine
        consumed queue) := by
  induction fuel generalizing curLine consumed queue with
  | zero => rfl
  | succ fuel ih =>
    rw [loadLoop, Preseed.loadLoop]
    by_cases hlt : consumed < n
    · rw [if_pos hlt, if_pos hlt]
      dsimp only [Traced.emit]
      by_cases hnl : '\n' ∈ curLine
      · rw [if_pos hnl, if_pos hnl]
        generalize curLine.takeWhile (· ≠ '\n') = line
        by_cases hlong : 4096 < line.length
        · rw [if_pos hlong, outcomeOf, Traced.bind]
          by_cases hcopy : line.length + false.toNat ≤ bufSize
          · have hstore : ¬line.length < bufSize := by
              rw [bufSize]
              omega
            rw [(returns_copy hcopy).result]
            dsimp only
            rw [Traced.bind, store, if_neg hstore]
          · rw [copy, if_neg hcopy]
        · have hcopy : line.length + false.toNat ≤ bufSize := by
            rw [Bool.toNat_false, bufSize]
            omega
          have hstore : line.length < bufSize := by
            rw [bufSize]
            omega
          rw [if_neg hlong, Traced.bind, (returns_copy hcopy).result]
          dsimp only
          rw [Traced.bind, (returns_store hstore).result]
          exact result_loadLine (not_lt.mp hlong) queue _ _ (fun queue => ih _ _ queue)
      · rw [if_neg hnl, if_neg hnl]
        by_cases hnil : curLine = []
        · rw [if_pos hnil, if_pos hnil]
          rfl
        · rw [if_neg hnil, if_neg hnil]
          by_cases hshort : curLine.length < 4096
          · have hcopy : curLine.length + true.toNat ≤ bufSize := by
              rw [Bool.toNat_true, bufSize]
              omega
            rw [if_pos hshort, if_pos hshort]
            dsimp only
            rw [strcpy, Traced.bind, (returns_copy hcopy).result]
            exact result_loadLine hshort.le queue _ _ (fun queue => rfl)
          · rw [if_neg hshort, if_neg hshort]
            rfl
    · rw [if_neg hlt, if_neg hlt]
      rfl

theorem result_loadDeviceRequests (text : CStr) :
    (loadDeviceRequests lstat mountpoint text n).result =
      outcomeOf (Preseed.loadDeviceRequests lstat mountpoint text n) :=
  result_loadLoop (text.length + 1) text 0 []

end Erasure

/-- A line for the device `null`. -/
def nullLine : CStr := "c null 1 3".toList

/-- Without a newline at the end of the text, the length of a NULL pointer is taken. -/
theorem nullLine_not_inside :
    Event.string true ∈
        (loadDeviceRequests (fun _ => false) "/dev".toList nullLine 100).events ∧
      ¬Inside (loadDeviceRequests (fun _ => false) "/dev".toList nullLine 100) := by
  have hmem : Event.string true ∈
      (loadDeviceRequests (fun _ => false) "/dev".toList nullLine 100).events := by
    decide +kernel
  exact ⟨hmem, fun h => h.strings hmem⟩

end Vdev.PreseedBuffers
