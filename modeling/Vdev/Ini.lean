import Vdev.Parsing
import Mathlib.Data.List.DropRight

/-!
The parser for configuration files that vdev bundles (libvdev/ini.c), with the
options it is built with: lines of at most 4095 characters, no continuation lines,
and a stop at the first error. What the parser does with a handler depends on the
file only through the entries in it.
-/
namespace Vdev.Ini

open CString Parsing

/-- `fgets` into a buffer of `size` bytes. -/
def fgets (size : ℕ) (file : CStr) : Option (CStr × CStr) :=
  if file = [] then none
  else
    let n := min (size - 1) ((file.takeWhile (· ≠ '\n')).length + 1)
    some (file.take n, file.drop n)

def rstrip (s : CStr) : CStr := s.rdropWhile isspace

def lskip (s : CStr) : CStr := s.dropWhile isspace

/-- `find_char_or_comment`: the string before the character or comment, and the
string from there on. -/
def findCharOrComment (c : Char) : Bool → CStr → CStr × CStr
  | _, [] => ([], [])
  | wasWhitespace, x :: s =>
    if x = c ∨ (wasWhitespace ∧ x = ';') then ([], x :: s)
    else
      let (before, rest) := findCharOrComment c (isspace x) s
      (x :: before, rest)

inductive LineKind
  | blank
  | header (name : CStr)
  | pair (name value : CStr)
  | bad
  deriving DecidableEq

/-- The body of the loop of `ini_parse_file`, up to the call of the handler. -/
def parseLine (lineno : ℕ) (line : CStr) : LineKind :=
  let start := if lineno = 1 ∧ ['\xef', '\xbb', '\xbf'] <+: line then line.drop 3 else line
  let start := lskip (rstrip start)
  match start with
  | [] => .blank
  | c :: rest =>
    if c = ';' ∨ c = '#' then .blank
    else if c = '[' then
      let (name, stop) := findCharOrComment ']' false rest
      if stop.head? = some ']' then .header (name.take 49) else .bad
    else
      let (name, stop) := findCharOrComment '=' false start
      let (name, stop) :=
        if stop.head? ≠ some '=' then findCharOrComment ':' false start else (name, stop)
      if stop.head? = some '=' ∨ stop.head? = some ':' then
        let (value, _) := findCharOrComment '\x00' false (lskip stop.tail)
        .pair (rstrip name) (rstrip value)
      else .bad

structure Entry where
  sect : CStr
  name : CStr
  value : CStr
  deriving DecidableEq

section Handler

variable {σ : Type} (handler : Entry → σ → Option σ)

/-- The loop of `ini_parse_file`. A handler has no result when it returns 0. -/
def iniLoop : ℕ → ℕ → CStr → CStr → σ → Except ℕ σ
  | 0, _, _, _, user => .ok user
  | fuel + 1, lineno, sect, file, user =>
    match fgets 4096 file with
    | none => .ok user
    | some (line, file) =>
      match parseLine lineno (untilNul line) with
      | .blank => iniLoop fuel (lineno + 1) sect file user
      | .header name => iniLoop fuel (lineno + 1) name file user
      | .pair name value =>
        match handler ⟨sect, name, value⟩ user with
        | none => .error lineno
        | some user => iniLoop fuel (lineno + 1) sect file user
      | .bad => .error lineno

/-- `ini_parse_file`: the number of the first line with an error, or what the handler
has made. Each round takes at least one character. -/
def iniParseFile (file : CStr) (user : σ) : Except ℕ σ :=
  iniLoop handler (file.length + 1) 1 [] file user

end Handler

def entriesLoop : ℕ → ℕ → CStr → CStr → Option (List Entry)
  | 0, _, _, _ => some []
  | fuel + 1, lineno, sect, file =>
    match fgets 4096 file with
    | none => some []
    | some (line, file) =>
      match parseLine lineno (untilNul line) with
      | .blank => entriesLoop fuel (lineno + 1) sect file
      | .header name => entriesLoop fuel (lineno + 1) name file
      | .pair name value =>
        (entriesLoop fuel (lineno + 1) sect file).map (⟨sect, name, value⟩ :: ·)
      | .bad => none

def entries (file : CStr) : Option (List Entry) := entriesLoop (file.length + 1) 1 [] file

/-- The parser calls the handler on the entries, in order, and succeeds when the
handler accepts them all. -/
theorem iniLoop_eq_ok {σ : Type} (handler : Entry → σ → Option σ) (fuel lineno : ℕ)
    (sect file : CStr) (user user' : σ) :
    iniLoop handler fuel lineno sect file user = .ok user' ↔
      ∃ es, entriesLoop fuel lineno sect file = some es ∧
        es.foldlM (fun user e => handler e user) user = some user' := by
  induction fuel generalizing lineno sect file user with
  | zero => simp [iniLoop, entriesLoop]
  | succ fuel ih =>
    rw [iniLoop, entriesLoop]
    cases fgets 4096 file with
    | none => simp
    | some next =>
      obtain ⟨line, file⟩ := next
      dsimp only
      cases parseLine lineno (untilNul line) with
      | blank => exact ih _ _ _ _
      | header name => exact ih _ _ _ _
      | bad => simp
      | pair name value =>
        dsimp only
        cases hh : handler ⟨sect, name, value⟩ user with
        | none =>
          refine iff_of_false nofun ?_
          rintro ⟨es, hes, hfold⟩
          obtain ⟨rest, _, rfl⟩ := Option.map_eq_some_iff.mp hes
          rw [List.foldlM_cons, hh] at hfold
          cases hfold
        | some next =>
          dsimp only
          rw [ih]
          constructor
          · rintro ⟨es, hes, hfold⟩
            refine ⟨_, by rw [hes]; rfl, ?_⟩
            rw [List.foldlM_cons, hh]
            exact hfold
          · rintro ⟨es, hes, hfold⟩
            obtain ⟨rest, hrest, rfl⟩ := Option.map_eq_some_iff.mp hes
            rw [List.foldlM_cons, hh] at hfold
            exact ⟨rest, hrest, hfold⟩

theorem iniParseFile_eq_ok {σ : Type} (handler : Entry → σ → Option σ) (file : CStr)
    (user user' : σ) :
    iniParseFile handler file user = .ok user' ↔
      ∃ es, entries file = some es ∧
        es.foldlM (fun user e => handler e user) user = some user' :=
  iniLoop_eq_ok handler _ 1 [] file user user'

/-- What the handler keeps true of the entries it has seen holds at the end. -/
theorem iniParseFile_induct {σ : Type} (handler : Entry → σ → Option σ)
    (P : List Entry → σ → Prop) (user : σ) (hnil : P [] user)
    (hstep : ∀ es e u u', P es u → handler e u = some u' → P (es ++ [e]) u') (file : CStr)
    (es : List Entry) (hes : entries file = some es) (user' : σ)
    (h : iniParseFile handler file user = .ok user') : P es user' := by
  obtain ⟨es', hes', hfold⟩ := (iniParseFile_eq_ok handler file user user').mp h
  cases hes.symm.trans hes'
  clear hes hes' h
  induction es using List.reverseRecOn generalizing user' with
  | nil =>
    cases hfold
    exact hnil
  | append_singleton es e ih =>
    rw [List.foldlM_append] at hfold
    obtain ⟨u, hu, hlast⟩ := Option.bind_eq_some_iff.mp hfold
    rw [List.foldlM_cons] at hlast
    exact hstep es e u user' (ih u hu) ((bind_pure (handler e u)).symm.trans hlast)

theorem iniLoop_error_ge {σ : Type} {handler : Entry → σ → Option σ} {fuel lineno n : ℕ}
    {sect file : CStr} {user : σ} (h : iniLoop handler fuel lineno sect file user = .error n) :
    lineno ≤ n := by
  induction fuel generalizing lineno sect file user with
  | zero => cases h
  | succ fuel ih =>
    rw [iniLoop] at h
    split at h
    · cases h
    split at h
    · exact (Nat.le_succ _).trans (ih h)
    · exact (Nat.le_succ _).trans (ih h)
    · split at h
      · cases h
        exact le_refl _
      · exact (Nat.le_succ _).trans (ih h)
    · cases h
      exact le_refl _

/-- The numbers of lines start at 1. -/
theorem iniParseFile_error_ne_zero {σ : Type} {handler : Entry → σ → Option σ} {file : CStr}
    {user : σ} {n : ℕ} (h : iniParseFile handler file user = .error n) : n ≠ 0 := by
  have hge : 1 ≤ n := iniLoop_error_ge h
  omega

/-- A result of a handler, if there is one, has a property. -/
def Ensures {σ : Type} (P : σ → Prop) (result : Option σ) : Prop :=
  ∀ user, result = some user → P user

theorem Ensures.some {σ : Type} {P : σ → Prop} {user : σ} (h : P user) : Ensures P (.some user) := by
  intro user' heq
  cases heq
  exact h

theorem Ensures.none {σ : Type} {P : σ → Prop} : Ensures P .none := by
  intro user h
  cases h

theorem Ensures.ite {σ : Type} {P : σ → Prop} {c : Prop} [Decidable c] {a b : Option σ}
    (ha : c → Ensures P a) (hb : ¬c → Ensures P b) : Ensures P (if c then a else b) := by
  by_cases hc : c
  · rw [if_pos hc]
    exact ha hc
  · rw [if_neg hc]
    exact hb hc

theorem Ensures.map {σ α : Type} {P : σ → Prop} (o : Option α) (f : α → σ)
    (h : ∀ x, o = .some x → P (f x)) : Ensures P (o.map f) := by
  cases o with
  | none => exact Ensures.none
  | some x => exact Ensures.some (h x rfl)

section Left

variable {σ : Type} (handler : Entry → σ → Option σ)

/-- The loop of `ini_parse_file`: the number of the first line with an error or 0, and
the data as the handler leaves it, after an error too. -/
def iniLoopLeft : ℕ → ℕ → CStr → CStr → σ → ℕ × σ
  | 0, _, _, _, user => (0, user)
  | fuel + 1, lineno, sect, file, user =>
    match fgets 4096 file with
    | none => (0, user)
    | some (line, file) =>
      match parseLine lineno (untilNul line) with
      | .blank => iniLoopLeft fuel (lineno + 1) sect file user
      | .header name => iniLoopLeft fuel (lineno + 1) name file user
      | .pair name value =>
        match handler ⟨sect, name, value⟩ user with
        | none => (lineno, user)
        | some user => iniLoopLeft fuel (lineno + 1) sect file user
      | .bad => (lineno, user)

def iniParseFileLeft (file : CStr) (user : σ) : ℕ × σ :=
  iniLoopLeft handler (file.length + 1) 1 [] file user

/-- The entries that a handler accepts before the first one that it rejects, and what it
makes of them. -/
def feed : List Entry → σ → List Entry × σ
  | [], user => ([], user)
  | e :: es, user =>
    match handler e user with
    | none => ([], user)
    | some next => (e :: (feed es next).1, (feed es next).2)

/-- The entries that a handler is called with: those that it accepts, and the one that
it rejects. -/
def handed (es : List Entry) (user : σ) : List Entry :=
  es.take ((feed handler es user).1.length + 1)

end Left

def readLoop : ℕ → ℕ → CStr → CStr → List Entry × Bool
  | 0, _, _, _ => ([], true)
  | fuel + 1, lineno, sect, file =>
    match fgets 4096 file with
    | none => ([], true)
    | some (line, file) =>
      match parseLine lineno (untilNul line) with
      | .blank => readLoop fuel (lineno + 1) sect file
      | .header name => readLoop fuel (lineno + 1) name file
      | .pair name value =>
        (⟨sect, name, value⟩ :: (readLoop fuel (lineno + 1) sect file).1,
          (readLoop fuel (lineno + 1) sect file).2)
      | .bad => ([], false)

/-- The entries of a file before the first syntax error, and whether there is none. -/
def readEntries (file : CStr) : List Entry × Bool := readLoop (file.length + 1) 1 [] file

/-- An error leaves what the handler has made of the entries before it. -/
theorem iniLoopLeft_eq {σ : Type} (handler : Entry → σ → Option σ) (fuel lineno : ℕ)
    (hline : 0 < lineno) (sect file : CStr) (user : σ) :
    (iniLoopLeft handler fuel lineno sect file user).2 =
        (feed handler (readLoop fuel lineno sect file).1 user).2 ∧
      ((iniLoopLeft handler fuel lineno sect file user).1 = 0 ↔
        (readLoop fuel lineno sect file).2 = true ∧
        (feed handler (readLoop fuel lineno sect file).1 user).1 =
          (readLoop fuel lineno sect file).1) := by
  induction fuel generalizing lineno sect file user with
  | zero => exact ⟨rfl, iff_of_true rfl ⟨rfl, rfl⟩⟩
  | succ fuel ih =>
    rw [iniLoopLeft, readLoop]
    cases fgets 4096 file with
    | none => exact ⟨rfl, iff_of_true rfl ⟨rfl, rfl⟩⟩
    | some next =>
      obtain ⟨line, file⟩ := next
      dsimp only
      cases parseLine lineno (untilNul line) with
      | blank => exact ih (lineno + 1) (Nat.succ_pos _) sect file user
      | header name => exact ih (lineno + 1) (Nat.succ_pos _) name file user
      | bad => exact ⟨rfl, iff_of_false (Nat.pos_iff_ne_zero.mp hline) (fun h => nomatch h.1)⟩
      | pair name value =>
        dsimp only
        rw [feed]
        cases handler ⟨sect, name, value⟩ user with
        | none =>
          exact ⟨rfl, iff_of_false (Nat.pos_iff_ne_zero.mp hline) (fun h => nomatch h.2)⟩
        | some next =>
          obtain ⟨hleft, hzero⟩ := ih (lineno + 1) (Nat.succ_pos _) sect file next
          refine ⟨hleft, hzero.trans ?_⟩
          dsimp only
          rw [List.cons.injEq]
          exact and_congr_right' (and_iff_right rfl).symm

/-- Without an error the data left behind are the result. -/
def leftResult {σ : Type} (left : ℕ × σ) : Except ℕ σ :=
  if left.1 = 0 then .ok left.2 else .error left.1

theorem leftResult_error {σ : Type} {lineno : ℕ} (hline : 0 < lineno) (user : σ) :
    leftResult (lineno, user) = .error lineno := if_neg (Nat.pos_iff_ne_zero.mp hline)

theorem iniLoop_eq_left {σ : Type} (handler : Entry → σ → Option σ) (fuel lineno : ℕ)
    (hline : 0 < lineno) (sect file : CStr) (user : σ) :
    iniLoop handler fuel lineno sect file user =
      leftResult (iniLoopLeft handler fuel lineno sect file user) := by
  induction fuel generalizing lineno sect file user with
  | zero => rfl
  | succ fuel ih =>
    rw [iniLoopLeft, iniLoop]
    cases fgets 4096 file with
    | none => rfl
    | some next =>
      obtain ⟨line, file⟩ := next
      dsimp only
      cases parseLine lineno (untilNul line) with
      | blank => exact ih (lineno + 1) (Nat.succ_pos _) sect file user
      | header name => exact ih (lineno + 1) (Nat.succ_pos _) name file user
      | bad => exact (leftResult_error hline user).symm
      | pair name value =>
        dsimp only
        cases handler ⟨sect, name, value⟩ user with
        | none => exact (leftResult_error hline user).symm
        | some next => exact ih (lineno + 1) (Nat.succ_pos _) sect file next

/-- What the handler keeps true of the entries that it has accepted holds of the data
that it leaves. -/
theorem feed_induct {σ : Type} (handler : Entry → σ → Option σ) (P : List Entry → σ → Prop)
    (hstep : ∀ es e u u', P es u → handler e u = some u' → P (es ++ [e]) u')
    (es : List Entry) (before : List Entry) (user : σ) (h : P before user) :
    P (before ++ (feed handler es user).1) (feed handler es user).2 := by
  induction es generalizing before user with
  | nil =>
    rw [feed, List.append_nil]
    exact h
  | cons e es ih =>
    rw [feed]
    cases hnext : handler e user with
    | none =>
      rw [List.append_nil]
      exact h
    | some next =>
      have hrest := ih (before ++ [e]) next (hstep before e user next h hnext)
      rw [List.append_assoc] at hrest
      exact hrest

end Vdev.Ini
