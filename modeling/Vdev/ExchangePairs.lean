import Vdev.Exchange

/-!
A synchronous daemonlet answers each stanza with one status line. Between two requests the
reply pipe is empty, and the status that is delivered for a request is the one that was
echoed after its stanza. This needs stanzas that the runner reads as one stanza, whose lines
are evaluated without printing or reading anything.
-/
namespace Vdev.Exchange

open CString Data Environment Daemonlet Shell DaemonletRunner Decimal

variable {ω : Type}

section Numbers

theorem value_append (ds : CStr) (c : Char) : value (ds ++ [c]) = value ds * 10 + digit c := by
  unfold value digit
  rw [Nat.ofDigitChars_append, Nat.ofDigitChars_cons, Nat.ofDigitChars_nil, Nat.mul_comm]

theorem decimal_length_le (status : ℕ) (h : status ≤ 255) : (decimal status).length ≤ 3 := by
  have hmax : (decimal 255).length ≤ 3 := by decide
  exact (length_decimal_mono h).trans hmax

theorem toInt64_of_lt (n : ℕ) (h : n < 10 ^ 4) : toInt64 (n : Int) = n := by
  unfold toInt64
  rw [Int.bmod_eq_of_le]
  · omega
  · omega

theorem value_lt_of_length (got : CStr) (hgot : ∀ d ∈ got, d.isDigit = true)
    (hlength : got.length ≤ 3) : value got < 10 ^ 3 := by
  have hvalue := value_lt got hgot
  have hpow : 10 ^ got.length ≤ 10 ^ 3 := Nat.pow_le_pow_right (by omega) hlength
  omega

/-- A digit of a status is added to the number. -/
theorem readChar_digit (got : CStr) (c : Char) (hgot : ∀ d ∈ got, d.isDigit = true)
    (hc : c.isDigit = true) (hlength : got.length ≤ 2) :
    readChar (value got) 1 got.length c =
      .inl ((value (got ++ [c]) : Int), 1, (got ++ [c]).length) := by
  have hvalue := value_lt_of_length got hgot (by omega)
  have hdigit := digit_le c hc
  have hrange := Char.isDigit_iff_toNat.mp hc
  have h0 : '0'.toNat = 48 := rfl
  have h9 : '9'.toNat = 57 := rfl
  have hnewline : c ≠ '\n' := by
    intro heq
    rw [heq] at hc
    exact absurd hc (by decide)
  have hminus : c ≠ '-' := by
    intro heq
    rw [heq] at hc
    exact absurd hc (by decide)
  have hnot : ¬(c < '0' ∨ c > '9') := by
    have hlt : ∀ a b : Char, a < b ↔ a.toNat < b.toNat := fun _ _ => Iff.rfl
    rw [gt_iff_lt, hlt, hlt]
    omega
  have hnext : toInt64 (toInt64 ((value got : Int) * 10) + ((c.toNat : Int) - '0'.toNat)) =
      (value (got ++ [c]) : Int) := by
    have hten : toInt64 ((value got : Int) * 10) = ((value got * 10 : ℕ) : Int) := by
      rw [Nat.cast_mul]
      exact toInt64_of_lt (value got * 10) (by omega)
    have hsum : ((value got * 10 : ℕ) : Int) + ((c.toNat : Int) - '0'.toNat) =
        ((value (got ++ [c]) : ℕ) : Int) := by
      rw [value_append]
      unfold digit
      omega
    rw [hten, hsum]
    apply toInt64_of_lt
    rw [value_append]
    omega
  unfold readChar
  rw [hnext, if_neg hnewline, if_neg (fun h => hminus h.2), if_neg hnot, List.length_append,
    List.length_singleton]

theorem readChar_newline (got : CStr) (hgot : ∀ d ∈ got, d.isDigit = true)
    (hlength : got.length ≤ 3) :
    readChar (value got) 1 got.length '\n' = .inr (value got : Int) := by
  have hvalue := value_lt_of_length got hgot hlength
  unfold readChar
  rw [if_pos rfl, Int.mul_one, toInt64_of_lt (value got) (by omega)]

end Numbers

section Hearing

variable (D : Setup ω)

structure IsLine (line : CStr) : Prop where
  newline : '\n' ∉ line
  nonempty : line ≠ []
  notDone : line ≠ "done".toList

def linesText (lines : List CStr) : CStr := lines.flatMap (· ++ ['\n']) ++ doneLine

/-- Clearing the variables prints nothing, and leaves the input alone. -/
def Clears (sh sh' : Sh ω) : Prop :=
  ∃ alive, ∀ input, D.console.clear (sh.withInput input) = ([], alive) ∧
    clearEnviron D.host (sh.withInput input) = sh'.withInput input

/-- `main` prints nothing and returns an exit status, and clearing is silent after it. -/
structure Replies (sh : Sh ω) : Prop where
  silent : (D.console.main (sh.withInput [])).1 = []
  status : (D.host.main (sh.withInput [])).1 ≤ 255
  clears : ∃ sh', Clears D (D.host.main (sh.withInput [])).2 sh'

/-- What the runner does with the rest of a stanza. The evals of the lines print nothing and
leave the input alone. They may end the runner. -/
def Heard : List CStr → ℕ → CStr → Sh ω → Prop
  | [], count, allEnv, sh => count ≠ 0 → Replies D (sh.set curEnviron allEnv)
  | line :: lines, count, allEnv, sh =>
    (∀ input, importVar D.host line (sh.withInput input) = none) ∨
    ∃ name sh' alive, (∀ input,
      importVar D.host line (sh.withInput input) = some (name, sh'.withInput input) ∧
        D.console.line line (sh.withInput input) = ([], alive)) ∧
      (alive = true → Heard lines (count + 1) (name ++ ' ' :: allEnv) sh')

/-- A text is the rest of a stanza for a runner that has read the start `line` of a line. -/
def Hears (line : CStr) (count : ℕ) (allEnv : CStr) (sh : Sh ω) (text : CStr) : Prop :=
  '\n' ∉ line ∧ ∃ lines, line ++ text = linesText lines ∧ (∀ line ∈ lines, IsLine line) ∧
    Heard D lines count allEnv sh

def nextShell (s : State ω) : Sh ω :=
  if s.phase = .clear then defaultEnviron (clearEnviron D.host (s.sh.withInput [])) else s.sh

/-- A request is answerable if its text is one stanza for the runner: its last line, and no
other one, ends the stanza, and the lines are evaluated without printing or reading. -/
def Answerable : Label → State ω → Prop
  | .request st req, s => Hears D [] 0 [] (nextShell D s) (stanza st D.act req)
  | _, _ => True

variable {D}

/-- The input of the shell does not matter. -/
theorem heard_withInput {lines : List CStr} {count : ℕ} {allEnv : CStr} {sh : Sh ω}
    (input : CStr) : Heard D lines count allEnv (sh.withInput input) ↔
      Heard D lines count allEnv sh := by
  cases lines with
  | nil =>
    refine imp_congr_right (fun _ => ⟨fun h => ?_, fun h => ?_⟩)
    · exact ⟨h.silent, h.status, h.clears⟩
    · exact ⟨h.silent, h.status, h.clears⟩
  | cons line lines => exact Iff.rfl

/-- Two texts that are cut at their first newlines. -/
theorem newline_append_inj {line line' rest rest' : CStr} (hline : '\n' ∉ line)
    (hline' : '\n' ∉ line') (h : line ++ '\n' :: rest = line' ++ '\n' :: rest') :
    line = line' ∧ rest = rest' := by
  have hread := readLine_append line rest hline
  rw [h, readLine_append line' rest' hline'] at hread
  cases hread
  exact ⟨rfl, rfl⟩

/-- A character that is no newline belongs to the line. -/
theorem Hears.char {line text allEnv : CStr} {count : ℕ} {sh : Sh ω} {c : Char} (hc : c ≠ '\n')
    (h : Hears D line count allEnv sh (c :: text)) :
    Hears D (line ++ [c]) count allEnv sh text := by
  obtain ⟨hline, lines, htext, hlines, hheard⟩ := h
  refine ⟨?_, lines, ?_, hlines, hheard⟩
  · rw [List.mem_append, List.mem_singleton, not_or]
    exact ⟨hline, fun heq => hc heq.symm⟩
  · rw [← htext, List.append_assoc]
    rfl

/-- What is left when a line is complete. -/
theorem Hears.newline {line text allEnv : CStr} {count : ℕ} {sh : Sh ω}
    (h : Hears D line count allEnv sh ('\n' :: text)) :
    (line = "done".toList ∧ text = [] ∧ (count ≠ 0 → Replies D (sh.set curEnviron allEnv))) ∨
    (IsLine line ∧ ((∀ input, importVar D.host line (sh.withInput input) = none) ∨
      ∃ name sh' alive, (∀ input,
        importVar D.host line (sh.withInput input) = some (name, sh'.withInput input) ∧
          D.console.line line (sh.withInput input) = ([], alive)) ∧
        (alive = true → Hears D [] (count + 1) (name ++ ' ' :: allEnv) sh' text))) := by
  obtain ⟨hline, lines, htext, hlines, hheard⟩ := h
  cases lines with
  | nil =>
    have hdone : linesText [] = "done".toList ++ '\n' :: [] := rfl
    rw [hdone] at htext
    obtain ⟨rfl, rfl⟩ := newline_append_inj hline (by decide) htext
    exact Or.inl ⟨rfl, rfl, hheard⟩
  | cons first lines =>
    have hfirst := hlines first List.mem_cons_self
    have hcons : linesText (first :: lines) = first ++ '\n' :: linesText lines := by
      unfold linesText
      rw [List.flatMap_cons, List.append_assoc, List.append_assoc]
      rfl
    rw [hcons] at htext
    obtain ⟨rfl, rfl⟩ := newline_append_inj hline hfirst.newline htext
    refine Or.inr ⟨hfirst, ?_⟩
    rcases hheard with hnone | ⟨name, sh', alive, hall, hrest⟩
    · exact Or.inl hnone
    · refine Or.inr ⟨name, sh', alive, hall, fun halive => ?_⟩
      exact ⟨List.not_mem_nil, lines, rfl,
        fun line hmem => hlines line (List.mem_cons_of_mem _ hmem), hrest halive⟩

end Hearing

section Pairing

variable (D : Setup ω)

structure Settled (s : State ω) : Prop where
  delivered : s.delivered = s.echoed.map (fun e => (e.2 : Int))
  received : s.received = '\n' :: s.echoed.flatMap (fun e => statusLine e.2)

structure Silent (s : State ω) : Prop where
  stdout : s.stdout = []
  out : s.out = []

inductive Resting (s : State ω) : Prop
  | ready (hphase : s.phase = .read [] 0 []) (hstdin : s.stdin = []) (htaken : s.taken = [])
  | clearing (sh' : Sh ω) (hphase : s.phase = .clear) (hstdin : s.stdin = [])
      (htaken : s.taken = []) (hclears : Clears D s.sh sh')
  | gone (hphase : s.phase = .exited)

/-- The runner while the stanza `text` is on its way, of which `rest` is not written yet. -/
inductive Listening (text rest : CStr) (s : State ω) : Prop
  | clearing (sh' : Sh ω) (hphase : s.phase = .clear) (htaken : s.taken = [])
      (htext : s.stdin ++ rest = text) (hclears : Clears D s.sh sh')
      (hears : Hears D [] 0 [] (defaultEnviron sh') (s.stdin ++ rest))
  | reading (line : CStr) (count : ℕ) (allEnv : CStr) (hphase : s.phase = .read line count allEnv)
      (htext : s.taken ++ (s.stdin ++ rest) = text)
      (hears : Hears D line count allEnv s.sh (s.stdin ++ rest))
  | running (hphase : s.phase = .run) (htaken : s.taken = text) (htext : s.stdin ++ rest = [])
      (hreplies : Replies D s.sh)
  | gone (hphase : s.phase = .exited)

inductive Inv (s : State ω) : Prop
  | starting (hcaller : s.caller = .starting) (hrest : Resting D s)
      (hphase : s.phase = .read [] 0 []) (hbytes : s.stdout ++ s.out = ['\n'])
      (hfresh : s.sent = [] ∧ s.echoed = [] ∧ s.delivered = [] ∧ s.received = [])
  | idle (hcaller : s.caller = .idle) (hsilent : Silent s) (hsettled : Settled s)
      (hsent : s.sent = s.echoed.map Prod.fst) (hrest : Resting D s)
  | sending (text rest : CStr)
      (hcaller : s.caller = .writing rest ∨ rest = [] ∧ s.caller = .reading 0 1 0)
      (hsilent : Silent s) (hsettled : Settled s)
      (hsent : s.sent = s.echoed.map Prod.fst ++ [text]) (hlisten : Listening D text rest s)
  | answering (before : List (CStr × ℕ)) (text : CStr) (status : ℕ) (got : CStr)
      (hcaller : s.caller = .reading (value got) 1 got.length ∨ got = [] ∧ s.caller = .writing [])
      (hechoed : s.echoed = before ++ [(text, status)]) (hstatus : status ≤ 255)
      (hsent : s.sent = s.echoed.map Prod.fst)
      (hdelivered : s.delivered = before.map (fun e => (e.2 : Int)))
      (hreceived : s.received = '\n' :: before.flatMap (fun e => statusLine e.2) ++ got)
      (hbytes : got ++ (s.stdout ++ s.out) = statusLine status) (hleft : s.stdout ++ s.out ≠ [])
      (hrest : Resting D s) (hout : s.out ≠ [] → s.phase = .clear)
  | failed (text : CStr) (hcaller : s.caller = .failed) (hsilent : Silent s)
      (hsettled : Settled s) (hsent : s.sent = s.echoed.map Prod.fst ++ [text])
      (hphase : s.phase = .exited)

variable {D} {s s' : State ω} {k : ℕ}

/-- The runner acts, and says nothing. -/
structure Aside (s s' : State ω) : Prop where
  caller : s'.caller = s.caller
  out : s'.out = []
  stdout : s'.stdout = s.stdout
  sent : s'.sent = s.sent
  echoed : s'.echoed = s.echoed
  received : s'.received = s.received
  delivered : s'.delivered = s.delivered

theorem Aside.silent (h : Aside s s') (hsilent : Silent s) : Silent s' :=
  ⟨h.stdout.trans hsilent.stdout, h.out⟩

theorem Aside.settled (h : Aside s s') (hsettled : Settled s) : Settled s' :=
  ⟨by rw [h.delivered, h.echoed, hsettled.delivered],
    by rw [h.received, h.echoed, hsettled.received]⟩

/-- Clearing the variables leads to the next round, or ends the runner. -/
theorem runClear_eq (sh' : Sh ω) (h : Clears D s.sh sh') :
    ∃ alive : Bool, runClear D s =
      { s with
        out := []
        phase := if alive then .read [] 0 [] else .exited
        sh := defaultEnviron (sh'.withInput s.stdin) } := by
  obtain ⟨alive, hall⟩ := h
  obtain ⟨hconsole, hclear⟩ := hall s.stdin
  refine ⟨alive, ?_⟩
  simp only [runClear, hconsole, hclear, Sh.withInput_input]

theorem Resting.step (h : Resting D s) (hout : s.out = [])
    (hstep : runnerStep D k s = some s') :
    Aside s s' ∧ Resting D s' ∧ (s.phase = .read [] 0 [] → s'.phase = .read [] 0 []) := by
  rcases h with ⟨hphase, hstdin, htaken⟩ | ⟨sh', hphase, hstdin, htaken, hclears⟩ | hphase
  · rcases runnerStep_read hout hphase hstep with rfl | ⟨c, rest, hcons, _⟩
    · exact ⟨⟨rfl, hout, rfl, rfl, rfl, rfl, rfl⟩, .ready hphase hstdin htaken, id⟩
    · rw [hstdin] at hcons
      cases hcons
  · rw [runnerStep_clear hout hphase] at hstep
    cases hstep
    obtain ⟨alive, hclear⟩ := runClear_eq sh' hclears
    rw [hclear]
    refine ⟨⟨rfl, rfl, rfl, rfl, rfl, rfl, rfl⟩, ?_, fun heq => by rw [hphase] at heq; cases heq⟩
    cases alive with
    | true => exact .ready rfl hstdin htaken
    | false => exact .gone rfl
  · rw [runnerStep_exited hout hphase] at hstep
    cases hstep

/-- The runner has called `main`, and is about to write the status. -/
structure Replied (text : CStr) (status : ℕ) (s s' : State ω) : Prop where
  caller : s'.caller = s.caller
  out : s'.out = statusLine status
  stdout : s'.stdout = s.stdout
  sent : s'.sent = s.sent
  echoed : s'.echoed = s.echoed ++ [(text, status)]
  received : s'.received = s.received
  delivered : s'.delivered = s.delivered
  phase : s'.phase = .clear
  status_le : status ≤ 255

/-- A line is complete. -/
theorem Listening.endLine {text rest stdin line allEnv : CStr} {count : ℕ}
    (hears : Hears D line count allEnv s.sh ('\n' :: (stdin ++ rest))) (hout : s.out = [])
    (htext : s.taken ++ ('\n' :: (stdin ++ rest)) = text) :
    let s₁ : State ω := { s with stdin := stdin, taken := s.taken ++ ['\n'] }
    Aside s (endLine D line count allEnv s₁) ∧
      Listening D text rest (endLine D line count allEnv s₁) := by
  intro s₁
  rcases hears.newline with ⟨rfl, hempty, hreplies⟩ | ⟨hline, hheard⟩
  · have hdone : "done".toList ≠ [] := by decide
    unfold Exchange.endLine
    rw [if_neg hdone, if_pos rfl]
    by_cases hcount : count = 0
    · rw [if_pos hcount]
      exact ⟨⟨rfl, hout, rfl, rfl, rfl, rfl, rfl⟩, .gone rfl⟩
    · rw [if_neg hcount]
      refine ⟨⟨rfl, hout, rfl, rfl, rfl, rfl, rfl⟩, .running rfl ?_ hempty (hreplies hcount)⟩
      rw [hempty] at htext
      exact htext
  · unfold Exchange.endLine
    rw [if_neg hline.nonempty, if_neg hline.notDone]
    rcases hheard with hnone | ⟨name, sh', alive, hall, hrest⟩
    · have himport : importVar D.host line (s₁.sh.withInput s₁.stdin) = none := hnone stdin
      simp only [himport]
      exact ⟨⟨rfl, hout, rfl, rfl, rfl, rfl, rfl⟩, .gone rfl⟩
    · have himport : importVar D.host line (s₁.sh.withInput s₁.stdin) =
          some (name, sh'.withInput stdin) := (hall stdin).1
      have hconsole : D.console.line line (s₁.sh.withInput s₁.stdin) = ([], alive) :=
        (hall stdin).2
      simp only [himport, hconsole, Sh.withInput_input]
      refine ⟨⟨rfl, rfl, rfl, rfl, rfl, rfl, rfl⟩, ?_⟩
      cases alive with
      | true =>
        refine .reading [] (count + 1) (name ++ ' ' :: allEnv) rfl ?_ ?_
        · show (s.taken ++ ['\n']) ++ (stdin ++ rest) = text
          rw [List.append_assoc]
          exact htext
        · obtain ⟨hnil, lines, hlines, hok, hlast⟩ := hrest rfl
          exact ⟨hnil, lines, hlines, hok, (heard_withInput _).mpr hlast⟩
      | false => exact .gone rfl

/-- A stanza is complete, and `main` is called. -/
theorem Replies.runMain {text : CStr} (h : Replies D s.sh) (hstdin : s.stdin = [])
    (htaken : s.taken = text) :
    (Aside s (runMain D s) ∧ (runMain D s).phase = .exited) ∨
      (Resting D (runMain D s) ∧ ∃ status, Replied text status s (runMain D s)) := by
  obtain ⟨hsilent', hstatus, sh', hclears⟩ := h
  have hsilent : (D.console.main (s.sh.withInput s.stdin)).1 = [] := by
    rw [hstdin]
    exact hsilent'
  rw [← hstdin] at hstatus hclears
  subst htaken
  unfold Exchange.runMain
  dsimp only
  split
  · refine Or.inr ⟨.clearing sh' rfl hstdin rfl hclears,
      (D.host.main (s.sh.withInput s.stdin)).1, rfl, ?_, rfl, rfl, rfl, rfl, rfl, rfl, hstatus⟩
    show (D.console.main (s.sh.withInput s.stdin)).1 ++ _ = _
    rw [hsilent]
    rfl
  · exact Or.inl ⟨⟨rfl, hsilent, rfl, rfl, rfl, rfl, rfl⟩, rfl⟩

theorem Listening.step {text rest : CStr} (h : Listening D text rest s) (hout : s.out = [])
    (hstep : runnerStep D k s = some s') :
    (Aside s s' ∧ Listening D text rest s') ∨
      (rest = [] ∧ Resting D s' ∧ ∃ status, Replied text status s s') := by
  rcases h with ⟨sh', hphase, htaken, htext, hclears, hears⟩ |
    ⟨line, count, allEnv, hphase, htext, hears⟩ | ⟨hphase, htaken, htext, hreplies⟩ | hphase
  · rw [runnerStep_clear hout hphase] at hstep
    cases hstep
    obtain ⟨alive, hclear⟩ := runClear_eq sh' hclears
    rw [hclear]
    refine Or.inl ⟨⟨rfl, rfl, rfl, rfl, rfl, rfl, rfl⟩, ?_⟩
    cases alive with
    | true =>
      refine .reading [] 0 [] rfl ?_ ?_
      · show s.taken ++ (s.stdin ++ rest) = text
        rw [htaken]
        exact htext
      · obtain ⟨hline, lines, hlines, hall, hheard⟩ := hears
        refine ⟨hline, lines, hlines, hall, ?_⟩
        show Heard D lines 0 [] (defaultEnviron (sh'.withInput s.stdin))
        unfold defaultEnviron
        rw [assignAll_withInput]
        exact (heard_withInput _).mpr hheard
    | false => exact .gone rfl
  · rcases runnerStep_read hout hphase hstep with rfl | ⟨c, stdin, hstdin, rfl⟩
    · exact Or.inl ⟨⟨rfl, hout, rfl, rfl, rfl, rfl, rfl⟩,
        .reading line count allEnv hphase htext hears⟩
    · rw [hstdin, List.cons_append] at htext hears
      unfold readByte
      by_cases hc : c = '\n'
      · subst hc
        rw [if_pos rfl]
        exact Or.inl (Listening.endLine hears hout htext)
      · rw [if_neg hc]
        refine Or.inl ⟨⟨rfl, hout, rfl, rfl, rfl, rfl, rfl⟩,
          .reading (line ++ [c]) count allEnv rfl ?_ (hears.char hc)⟩
        show (s.taken ++ [c]) ++ (stdin ++ rest) = text
        rw [List.append_assoc]
        exact htext
  · rw [runnerStep_run hout hphase] at hstep
    cases hstep
    obtain ⟨hstdin, hrest⟩ := List.append_eq_nil_iff.mp htext
    rcases hreplies.runMain hstdin htaken with ⟨haside, hexited⟩ | hreplied
    · exact Or.inl ⟨haside, .gone hexited⟩
    · exact Or.inr ⟨hrest, hreplied⟩
  · rw [runnerStep_exited hout hphase] at hstep
    cases hstep

/-- What is said does not matter to the runner between two stanzas. -/
theorem Resting.congr (h : Resting D s) (hphase : s'.phase = s.phase) (hstdin : s'.stdin = s.stdin)
    (htaken : s'.taken = s.taken) (hsh : s'.sh = s.sh) : Resting D s' := by
  rcases h with ⟨hready, hempty, hnone⟩ | ⟨sh', hclear, hempty, hnone, hclears⟩ | hexited
  · exact .ready (hphase.trans hready) (hstdin.trans hempty) (htaken.trans hnone)
  · rw [← hsh] at hclears
    exact .clearing sh' (hphase.trans hclear) (hstdin.trans hempty) (htaken.trans hnone) hclears
  · exact .gone (hphase.trans hexited)

theorem Inv.runner_step (h : Inv D s) (hstep : runnerStep D k s = some s') : Inv D s' := by
  rcases h with ⟨hcaller, hrest, hphase, hbytes, hfresh⟩ |
    ⟨hcaller, hsilent, hsettled, hsent, hrest⟩ |
    ⟨text, rest, hcaller, hsilent, hsettled, hsent, hlisten⟩ |
    ⟨before, text, status, got, hcaller, hechoed, hstatus, hsent, hdelivered, hreceived, hbytes,
      hleft, hrest, hout⟩ | ⟨text, hcaller, hsilent, hsettled, hsent, hphase⟩
  · by_cases hempty : s.out = []
    · obtain ⟨haside, hrest', hread⟩ := hrest.step hempty hstep
      refine .starting (haside.caller.trans hcaller) hrest' (hread hphase) ?_ ?_
      · rw [hempty] at hbytes
        rw [haside.stdout, haside.out]
        exact hbytes
      · rw [haside.sent, haside.echoed, haside.delivered, haside.received]
        exact hfresh
    · obtain ⟨out, stdout, htransfer, rfl⟩ := runnerStep_out hempty hstep
      exact .starting hcaller (hrest.congr rfl rfl rfl rfl) hphase
        ((transfer_append htransfer).trans hbytes) hfresh
  · obtain ⟨haside, hrest', _⟩ := hrest.step hsilent.out hstep
    refine .idle (haside.caller.trans hcaller) (haside.silent hsilent) (haside.settled hsettled) ?_
      hrest'
    rw [haside.sent, haside.echoed]
    exact hsent
  · rcases hlisten.step hsilent.out hstep with ⟨haside, hlisten'⟩ | ⟨rfl, hrest, status, hreplied⟩
    · refine .sending text rest ?_ (haside.silent hsilent) (haside.settled hsettled) ?_ hlisten'
      · rw [haside.caller]
        exact hcaller
      · rw [haside.sent, haside.echoed]
        exact hsent
    · refine .answering s.echoed text status [] ?_ hreplied.echoed hreplied.status_le ?_ ?_ ?_ ?_
        ?_ hrest (fun _ => hreplied.phase)
      · rw [hreplied.caller]
        rcases hcaller with hwriting | ⟨_, hreading⟩
        · exact Or.inr ⟨rfl, hwriting⟩
        · exact Or.inl hreading
      · rw [hreplied.sent, hreplied.echoed, List.map_append]
        exact hsent
      · rw [hreplied.delivered]
        exact hsettled.delivered
      · rw [hreplied.received, List.append_nil]
        exact hsettled.received
      · rw [hreplied.stdout, hsilent.stdout, hreplied.out]
        rfl
      · rw [hreplied.out]
        simp [statusLine]
  · by_cases hempty : s.out = []
    · obtain ⟨haside, hrest', _⟩ := hrest.step hempty hstep
      refine .answering before text status got ?_ (haside.echoed.trans hechoed) hstatus ?_
        (haside.delivered.trans hdelivered) (haside.received.trans hreceived) ?_ ?_ hrest'
        (fun hne => absurd haside.out hne)
      · rw [haside.caller]
        exact hcaller
      · rw [haside.sent, haside.echoed]
        exact hsent
      · rw [hempty] at hbytes
        rw [haside.stdout, haside.out]
        exact hbytes
      · rw [hempty] at hleft
        rw [haside.stdout, haside.out]
        exact hleft
    · obtain ⟨out, stdout, htransfer, rfl⟩ := runnerStep_out hempty hstep
      have happend : stdout ++ out = s.stdout ++ s.out := transfer_append htransfer
      rw [← happend] at hbytes hleft
      exact .answering before text status got hcaller hechoed hstatus hsent hdelivered hreceived
        hbytes hleft (hrest.congr rfl rfl rfl rfl) (fun _ => hout hempty)
  · rw [runnerStep_exited hsilent.out hphase] at hstep
    cases hstep

/-- Bytes of a stanza move into the pipe. -/
theorem Listening.write {text rest rest' stdin : CStr} (h : Listening D text rest s)
    (happend : stdin ++ rest' = s.stdin ++ rest) (caller : Caller) :
    Listening D text rest' { s with caller := caller, stdin := stdin } := by
  rcases h with ⟨sh', hphase, htaken, htext, hclears, hears⟩ |
    ⟨line, count, allEnv, hphase, htext, hears⟩ | ⟨hphase, htaken, htext, hreplies⟩ | hphase
  · rw [← happend] at htext hears
    exact .clearing sh' hphase htaken htext hclears hears
  · rw [← happend] at htext hears
    exact .reading line count allEnv hphase htext hears
  · rw [← happend] at htext
    exact .running hphase htaken htext hreplies
  · exact .gone hphase

/-- vdevd reads the end of a status line. -/
theorem Inv.endReply {before : List (CStr × ℕ)} {text : CStr} {status : ℕ}
    (hechoed : s.echoed = before ++ [(text, status)]) (hstatus : status ≤ 255)
    (hsent : s.sent = s.echoed.map Prod.fst)
    (hdelivered : s.delivered = before.map (fun e => (e.2 : Int)))
    (hreceived : s.received = '\n' :: before.flatMap (fun e => statusLine e.2) ++ decimal status)
    (hempty : s.out = []) (hrest : Resting D s) :
    Inv D (hearChar (value (decimal status)) 1 (decimal status).length '\n' [] s) := by
  have hread : readChar (value (decimal status)) 1 (decimal status).length '\n' =
      .inr (status : Int) := by
    rw [readChar_newline _ (isDigit_of_mem_decimal status) (decimal_length_le status hstatus),
      value_decimal]
  have hrange : ¬((status : Int) < 0 ∨ (status : Int) > 255) := by omega
  unfold Exchange.hearChar
  simp only [hread, deliver, if_neg hrange]
  refine .idle rfl ⟨rfl, hempty⟩ ⟨?_, ?_⟩ hsent (hrest.congr rfl rfl rfl rfl)
  · show s.delivered ++ [(status : Int)] = s.echoed.map _
    rw [hechoed, List.map_append, hdelivered]
    rfl
  · show s.received ++ ['\n'] = '\n' :: s.echoed.flatMap _
    rw [hechoed, List.flatMap_append, hreceived]
    simp [statusLine]

/-- vdevd reads the next character of a status line. -/
theorem Inv.hearChar {before : List (CStr × ℕ)} {text got rest : CStr} {status : ℕ} {c : Char}
    (hstdout : s.stdout = c :: rest)
    (hechoed : s.echoed = before ++ [(text, status)]) (hstatus : status ≤ 255)
    (hsent : s.sent = s.echoed.map Prod.fst)
    (hdelivered : s.delivered = before.map (fun e => (e.2 : Int)))
    (hreceived : s.received = '\n' :: before.flatMap (fun e => statusLine e.2) ++ got)
    (hbytes : got ++ (s.stdout ++ s.out) = statusLine status) (hrest : Resting D s)
    (hout : s.out ≠ [] → s.phase = .clear) :
    Inv D (hearChar (value got) 1 got.length c rest s) := by
  rw [hstdout, List.cons_append] at hbytes
  have hdigits := isDigit_of_mem_decimal status
  have hlength := decimal_length_le status hstatus
  -- nothing follows the newline
  have hend : ∀ b : CStr, got = decimal status ++ b → ['\n'] = b ++ c :: (rest ++ s.out) →
      Inv D (Exchange.hearChar (value got) 1 got.length c rest s) := by
    intro b hgot htail
    cases b with
    | nil =>
      rw [List.append_nil] at hgot
      rw [List.nil_append, List.cons.injEq, eq_comm (a := []), List.append_eq_nil_iff] at htail
      obtain ⟨rfl, rfl, hempty⟩ := htail
      subst hgot
      exact Inv.endReply hechoed hstatus hsent hdelivered hreceived hempty hrest
    | cons d b =>
      rw [List.cons_append, List.cons.injEq] at htail
      cases b with
      | nil => cases htail.2
      | cons e b => cases htail.2
  obtain ⟨a, hdecimal, htail⟩ | ⟨b, hgot, htail⟩ := List.append_eq_append_iff.mp hbytes
  · cases a with
    | nil =>
      rw [List.append_nil] at hdecimal
      exact hend [] (by rw [hdecimal, List.append_nil]) htail.symm
    | cons d a =>
      -- one more digit
      rw [List.cons_append, List.cons.injEq] at htail
      obtain ⟨rfl, hleft⟩ := htail
      have hlength' : got.length + (a.length + 1) ≤ 3 := by
        rw [hdecimal, List.length_append, List.length_cons] at hlength
        exact hlength
      have hread := readChar_digit got c
        (fun d hd => hdigits d (by rw [hdecimal]; exact List.mem_append_left _ hd))
        (hdigits c (by rw [hdecimal]; exact List.mem_append_right _ List.mem_cons_self)) (by omega)
      unfold Exchange.hearChar
      simp only [hread]
      refine .answering before text status (got ++ [c]) (Or.inl rfl) hechoed hstatus hsent
        hdelivered ?_ ?_ ?_ (hrest.congr rfl rfl rfl rfl) hout
      · show s.received ++ [c] = _
        rw [hreceived]
        simp
      · show (got ++ [c]) ++ (rest ++ s.out) = statusLine status
        rw [List.append_assoc]
        exact hbytes
      · show rest ++ s.out ≠ []
        rw [hleft]
        simp
  · exact hend b hgot htail

theorem Inv.caller_step (hsync : D.act.async = false) (h : Inv D s)
    (hstep : callerStep D k s = some s') : Inv D s' := by
  rcases h with ⟨hcaller, hrest, hphase, hbytes, hfresh⟩ |
    ⟨hcaller, hsilent, hsettled, hsent, hrest⟩ |
    ⟨text, rest, hcaller, hsilent, hsettled, hsent, hlisten⟩ |
    ⟨before, text, status, got, hcaller, hechoed, hstatus, hsent, hdelivered, hreceived, hbytes,
      hleft, hrest, hout⟩ | ⟨text, hcaller, hsilent, hsettled, hsent, hphase⟩
  · rcases callerStep_starting hcaller hstep with rfl | ⟨_, hgone, _⟩ | ⟨c, rest, hstdout, rfl⟩
    · exact .starting hcaller hrest hphase hbytes hfresh
    · rw [gone_iff, hphase] at hgone
      cases hgone.1
    · obtain ⟨hnoSent, hnoEchoed, hnoDelivered, hnoReceived⟩ := hfresh
      rw [hstdout, List.cons_append, List.cons.injEq, List.append_eq_nil_iff] at hbytes
      obtain ⟨rfl, hrest', hout⟩ := hbytes
      refine .idle rfl ⟨hrest', hout⟩ ⟨?_, ?_⟩ ?_ ?_
      · show s.delivered = s.echoed.map _
        rw [hnoDelivered, hnoEchoed]
        rfl
      · show s.received ++ ['\n'] = '\n' :: s.echoed.flatMap _
        rw [hnoReceived, hnoEchoed]
        rfl
      · show s.sent = s.echoed.map _
        rw [hnoSent, hnoEchoed]
        rfl
      · rcases hrest with ⟨hphase, hstdin, htaken⟩ | ⟨_, hclear, _, _, _⟩ | hexited
        · exact .ready hphase hstdin htaken
        · rw [hphase] at hclear
          cases hclear
        · exact .gone hexited
  · unfold callerStep at hstep
    simp only [hcaller] at hstep
    cases hstep
  · rcases hcaller with hwriting | ⟨rfl, hreading⟩
    · cases rest with
      | nil =>
        rw [callerStep_written hwriting, if_neg (by simp [hsync])] at hstep
        cases hstep
        exact .sending text [] (Or.inr ⟨rfl, rfl⟩) ⟨hsilent.stdout, hsilent.out⟩
          ⟨hsettled.delivered, hsettled.received⟩ hsent (hlisten.write rfl (.reading 0 1 0))
      | cons c rest =>
        rcases callerStep_writing hwriting hstep with ⟨hgone, rfl⟩ | ⟨rest', stdin, htransfer, rfl⟩
        · exact .failed text rfl ⟨hsilent.stdout, hsilent.out⟩
            ⟨hsettled.delivered, hsettled.received⟩ hsent (gone_iff.mp hgone).1
        · exact .sending text rest' (Or.inl rfl) ⟨hsilent.stdout, hsilent.out⟩
            ⟨hsettled.delivered, hsettled.received⟩ hsent
            (hlisten.write (transfer_append htransfer) (.writing rest'))
    · rcases callerStep_reading hreading hstep with rfl | ⟨_, hgone, rfl⟩ | ⟨c, rest, hcons, _⟩
      · exact .sending text [] (Or.inr ⟨rfl, hreading⟩) hsilent hsettled hsent hlisten
      · exact .failed text rfl ⟨hsilent.stdout, hsilent.out⟩
          ⟨hsettled.delivered, hsettled.received⟩ hsent (gone_iff.mp hgone).1
      · rw [hsilent.stdout] at hcons
        cases hcons
  · rcases hcaller with hreading | ⟨rfl, hwriting⟩
    · rcases callerStep_reading hreading hstep with rfl | ⟨hempty, hgone, _⟩ | ⟨c, rest, hcons, rfl⟩
      · exact .answering before text status got (Or.inl hreading) hechoed hstatus hsent hdelivered
          hreceived hbytes hleft hrest hout
      · rw [hempty, (gone_iff.mp hgone).2] at hleft
        exact absurd rfl hleft
      · exact Inv.hearChar hcons hechoed hstatus hsent hdelivered hreceived hbytes hrest hout
    · rw [callerStep_written hwriting, if_neg (by simp [hsync])] at hstep
      cases hstep
      exact .answering before text status [] (Or.inl rfl) hechoed hstatus hsent hdelivered
        hreceived hbytes hleft (hrest.congr rfl rfl rfl rfl) hout
  · unfold callerStep at hstep
    simp only [hcaller] at hstep
    cases hstep

/-- vdevd begins an answerable request. -/
theorem Inv.request {st : VdevState} {req : Request} (h : Inv D s)
    (hanswerable : Hears D [] 0 [] (nextShell D s) (stanza st D.act req))
    (hstep : step D (.request st req) s = some s') : Inv D s' := by
  unfold step at hstep
  simp only at hstep
  split at hstep
  · rename_i hcaller
    cases hstep
    generalize stanza st D.act req = text at hanswerable ⊢
    rcases h with ⟨hstarting, _⟩ | ⟨_, hsilent, hsettled, hsent, hrest⟩ | ⟨_, _, hsending, _⟩ |
      ⟨_, _, _, _, hanswering, _⟩ | ⟨_, hfailed, _⟩
    · rw [hstarting] at hcaller
      cases hcaller
    · refine .sending _ _ (Or.inl rfl) ⟨hsilent.stdout, hsilent.out⟩
        ⟨hsettled.delivered, hsettled.received⟩ (congrArg (· ++ _) hsent) ?_
      rcases hrest with ⟨hphase, hstdin, htaken⟩ | ⟨sh', hphase, hstdin, htaken, hclears⟩ | hexited
      · have hnext : nextShell D s = s.sh := if_neg (fun heq => by rw [hphase] at heq; cases heq)
        rw [hnext] at hanswerable
        refine .reading [] 0 [] hphase ?_ ?_
        · show s.taken ++ (s.stdin ++ _) = _
          rw [htaken, hstdin]
          rfl
        · show Hears D [] 0 [] s.sh (s.stdin ++ _)
          rw [hstdin]
          exact hanswerable
      · have hnext : nextShell D s = (defaultEnviron sh').withInput [] := by
          obtain ⟨alive, hall⟩ := hclears
          unfold nextShell defaultEnviron
          rw [if_pos hphase, (hall []).2, assignAll_withInput]
        rw [hnext] at hanswerable
        obtain ⟨hline, lines, hlines, hok, hheard⟩ := hanswerable
        refine .clearing sh' hphase htaken ?_ hclears ⟨hline, lines, ?_, hok,
          (heard_withInput _).mp hheard⟩
        · show s.stdin ++ _ = _
          rw [hstdin]
          rfl
        · show [] ++ (s.stdin ++ _) = _
          rw [hstdin]
          exact hlines
      · exact .gone hexited
    · rcases hsending with hwriting | ⟨_, hreading⟩
      · rw [hwriting] at hcaller
        cases hcaller
      · rw [hreading] at hcaller
        cases hcaller
    · rcases hanswering with hreading | ⟨_, hwriting⟩
      · rw [hreading] at hcaller
        cases hcaller
      · rw [hwriting] at hcaller
        cases hcaller
    · rw [hfailed] at hcaller
      cases hcaller
  · cases hstep

theorem Inv.step (hsync : D.act.async = false) (l : Label) (s s' : State ω)
    (hok : Answerable D l s) (h : Inv D s) (hstep : step D l s = some s') : Inv D s' := by
  cases l with
  | request st req => exact h.request hok hstep
  | caller k => exact h.caller_step hsync hstep
  | runner k => exact h.runner_step hstep

theorem inv_started (hsync : D.act.async = false) (sh : Sh ω) : Inv D (started D sh) := by
  refine .starting ?_ (.ready rfl rfl rfl) rfl rfl ⟨rfl, rfl, rfl, rfl⟩
  exact if_neg (by simp [hsync])

/-- The delivered statuses are the echoed ones, in order, and these follow the stanzas in
order. Between two requests there is nothing in the reply pipe nor about to be written, and
vdevd has read the byte that says that the runner is ready and one line for each request. -/
structure Paired (s : State ω) : Prop where
  inOrder : s.delivered <+: s.echoed.map (fun e => (e.2 : Int))
  stanzas : s.echoed.map Prod.fst <+: s.sent
  idle : s.caller = .idle → s.stdout = [] ∧ s.out = [] ∧ s.echoed.map Prod.fst = s.sent ∧
    s.delivered = s.echoed.map (fun e => (e.2 : Int)) ∧
    s.received = '\n' :: s.echoed.flatMap (fun e => statusLine e.2)

theorem Inv.paired (h : Inv D s) : Paired s := by
  rcases h with ⟨hcaller, hrest, hphase, hbytes, hsent, hechoed, hdelivered, _⟩ |
    ⟨hcaller, hsilent, hsettled, hsent, hrest⟩ |
    ⟨text, rest, hcaller, hsilent, hsettled, hsent, hlisten⟩ |
    ⟨before, text, status, got, hcaller, hechoed, hstatus, hsent, hdelivered, _⟩ |
    ⟨text, hcaller, hsilent, hsettled, hsent, hphase⟩
  · refine ⟨?_, ?_, fun hidle => ?_⟩
    · rw [hdelivered]
      exact List.nil_prefix
    · rw [hechoed]
      exact List.nil_prefix
    · rw [hcaller] at hidle
      cases hidle
  · refine ⟨?_, ?_, fun _ => ⟨hsilent.stdout, hsilent.out, hsent.symm, hsettled.delivered,
      hsettled.received⟩⟩
    · rw [hsettled.delivered]
    · rw [hsent]
  · refine ⟨?_, ?_, fun hidle => ?_⟩
    · rw [hsettled.delivered]
    · rw [hsent]
      exact List.prefix_append _ _
    · rcases hcaller with hwriting | ⟨_, hreading⟩
      · rw [hwriting] at hidle
        cases hidle
      · rw [hreading] at hidle
        cases hidle
  · refine ⟨?_, ?_, fun hidle => ?_⟩
    · rw [hdelivered, hechoed, List.map_append]
      exact List.prefix_append _ _
    · rw [hsent]
    · rcases hcaller with hreading | ⟨_, hwriting⟩
      · rw [hreading] at hidle
        cases hidle
      · rw [hwriting] at hidle
        cases hidle
  · refine ⟨?_, ?_, fun hidle => ?_⟩
    · rw [hsettled.delivered]
    · rw [hsent]
      exact List.prefix_append _ _
    · rw [hcaller] at hidle
      cases hidle

/-- At most one status line is unread, and nobody is stuck. -/
theorem Inv.unread (h : Inv D s) : s.stdout.length ≤ 4 ∧ ¬Stuck D s := by
  rcases h with ⟨hcaller, hrest, hphase, hbytes, _⟩ |
    ⟨hcaller, hsilent, _⟩ | ⟨text, rest, hcaller, hsilent, _⟩ |
    ⟨before, text, status, got, hcaller, hechoed, hstatus, hsent, hdelivered, hreceived, hbytes, _⟩ |
    ⟨text, hcaller, hsilent, _⟩
  · refine ⟨?_, fun ⟨⟨c, rest, hwriting⟩, _⟩ => ?_⟩
    · have hlength := congrArg List.length hbytes
      rw [List.length_append, List.length_singleton] at hlength
      omega
    · rw [hcaller] at hwriting
      cases hwriting
  · exact ⟨by simp [hsilent.stdout], fun ⟨_, _, hout, _⟩ => hout hsilent.out⟩
  · exact ⟨by simp [hsilent.stdout], fun ⟨_, _, hout, _⟩ => hout hsilent.out⟩
  · refine ⟨?_, fun ⟨⟨c, rest, hwriting⟩, _⟩ => ?_⟩
    · have hlength := congrArg List.length hbytes
      have hdecimal := decimal_length_le status hstatus
      rw [statusLine, List.length_append, List.length_append, List.length_append,
        List.length_singleton] at hlength
      omega
    · rcases hcaller with hreading | ⟨_, hwritten⟩
      · rw [hreading] at hwriting
        cases hwriting
      · rw [hwritten] at hwriting
        cases hwriting
  · exact ⟨by simp [hsilent.stdout], fun ⟨_, _, hout, _⟩ => hout hsilent.out⟩

variable (D)

theorem inv_of_run (hsync : D.act.async = false) (sh : Sh ω) (ls : List Label)
    (hok : Runs.Guarded (Exchange.step D) (Answerable D) ls (started D sh))
    (hrun : Runs.run (Exchange.step D) ls (started D sh) = some s) : Inv D s :=
  Runs.guarded_invariant _ (Inv D) (Inv.step hsync) hok (inv_started hsync sh) hrun

/-- Replies stay paired with requests in every run of answerable requests. -/
theorem paired_of_answerable (hsync : D.act.async = false) (sh : Sh ω) (ls : List Label)
    (s : State ω) (hok : Runs.Guarded (Exchange.step D) (Answerable D) ls (started D sh))
    (hrun : Runs.run (Exchange.step D) ls (started D sh) = some s) : Paired s :=
  (inv_of_run D hsync sh ls hok hrun).paired

/-- The replies of a synchronous daemonlet do not pile up in a run of answerable requests. -/
theorem unread_of_answerable (hsync : D.act.async = false) (sh : Sh ω) (ls : List Label)
    (s : State ω) (hok : Runs.Guarded (Exchange.step D) (Answerable D) ls (started D sh))
    (hrun : Runs.run (Exchange.step D) ls (started D sh) = some s) :
    s.stdout.length ≤ 4 ∧ ¬Stuck D s :=
  (inv_of_run D hsync sh ls hok hrun).unread

end Pairing

section Readable

open DaemonletService

variable {D : Setup ω}

/-- The evals print nothing and do not end the runner, and `main` prints nothing and returns
an exit status. -/
structure Quiet (D : Setup ω) : Prop where
  line : ∀ line sh, D.console.line line sh = ([], true)
  main : ∀ sh, D.console.main sh = ([], true)
  clear : ∀ sh, D.console.clear sh = ([], true)
  status : ∀ sh, (D.host.main sh).1 ≤ 255

theorem clears_collected (hquiet : Quiet D) (env : List (CStr × CStr)) (sh : Sh ω)
    (hcur : sh.vars curEnviron = some (collected env))
    (hnames : ∀ name ∈ env.map Prod.fst, isIdentifier name = true) :
    ∃ sh', Clears D sh sh' := by
  refine ⟨(assignAll ((env.map Prod.fst).reverse.map (fun name => (name, []))) sh).set curEnviron [],
    true, fun input => ⟨hquiet.clear _, ?_⟩⟩
  rw [clearEnviron_eq D.host env (sh.withInput input) hcur hnames, assignAll_withInput]
  rfl

theorem heard_readable (hquiet : Quiet D) (env : List (CStr × CStr)) (before : List (CStr × CStr))
    (count : ℕ) (sh : Sh ω) (hnames : ∀ e ∈ before ++ env, isIdentifier e.1 = true)
    (hvalues : ∀ e ∈ env, Readable D.host sh.world e.1 e.2) :
    Heard D (env.map makeEnvStr) count (collected before) sh := by
  induction env generalizing before count sh with
  | nil =>
    intro _
    refine ⟨by rw [hquiet.main], hquiet.status _, clears_collected hquiet before _ ?_ ?_⟩
    · rw [D.host.main_curEnviron, Sh.withInput_vars]
      exact Sh.set_vars_self _ _ _
    · intro name hname
      obtain ⟨e, he, rfl⟩ := List.mem_map.mp hname
      exact hnames e (by rw [List.append_nil]; exact he)
  | cons e env ih =>
    have hname := hnames e (List.mem_append_right _ List.mem_cons_self)
    have hvalue := hvalues e List.mem_cons_self
    refine Or.inr ⟨e.1, sh.set e.1 e.2, true, fun input => ⟨?_, hquiet.line _ _⟩, fun _ => ?_⟩
    · exact importVar_readable D.host e.1 e.2 (sh.withInput input) hname hvalue
    · have hcollected : e.1 ++ ' ' :: collected before = collected (before ++ [e]) := by
        unfold collected
        rw [List.map_append, List.reverse_append]
        simp
      rw [hcollected]
      refine ih (before ++ [e]) (count + 1) (sh.set e.1 e.2) ?_
        (fun other hother => hvalues other (List.mem_cons_of_mem _ hother))
      intro other hother
      rw [List.append_assoc] at hother
      exact hnames other hother

/-- The readable requests are answerable. -/
theorem hears_readable (hquiet : Quiet D) (st : VdevState) (req : Request) (sh : Sh ω)
    (hreq : IdentifierKeys req.params) (hvars : IdentifierKeys D.act.helperVars)
    (hvalues : ReadableRequest D.host st D.act req sh) :
    Hears D [] 0 [] sh (stanza st D.act req) := by
  have hnames : ∀ e ∈ sentEnv st D.act req, isIdentifier e.1 = true :=
    fun e he => sentEnv_identifier st D.act req hreq hvars e.1 (List.mem_map_of_mem he)
  refine ⟨List.not_mem_nil, (sentEnv st D.act req).map makeEnvStr, ?_, ?_, ?_⟩
  · rw [List.nil_append, stanza_eq, linesText, List.flatMap_map]
    refine congrArg (· ++ doneLine) (List.flatMap_congr (fun e he => ?_))
    exact envLine_eq e (hvalues e he).fits
  · intro line hline
    obtain ⟨e, he, rfl⟩ := List.mem_map.mp hline
    exact ⟨newline_not_mem_makeEnvStr D.host sh.world e (hnames e he) (hvalues e he),
      makeEnvStr_ne e [] List.not_mem_nil, makeEnvStr_ne e _ (by decide)⟩
  · exact heard_readable hquiet (sentEnv st D.act req) [] 0 sh hnames hvalues

end Readable

section Examples

open DaemonletService

/-- A daemonlet whose helper prints nothing and succeeds. -/
def plainDaemonlet (async : Bool) (capacity : ℕ) : Setup Unit where
  host := plainHost
  console := ⟨fun _ _ => ([], true), fun _ => ([], true), fun _ => ([], true)⟩
  act := { trigger := .add, isDaemonlet := true, async := async }
  capacity := capacity

theorem quiet_plainDaemonlet (async : Bool) (capacity : ℕ) :
    Quiet (plainDaemonlet async capacity) :=
  ⟨fun _ _ => rfl, fun _ => rfl, fun _ => rfl, fun _ => Nat.zero_le _⟩

def serialDisk : Request := diskRequest "WD-42".toList

def otherDisk : Request := diskRequest "WD-43".toList

theorem hears_diskRequest (async : Bool) (capacity : ℕ) (sh : Sh Unit) (serial : CStr)
    (h : serial = "WD-42".toList ∨ serial = "WD-43".toList) :
    Hears (plainDaemonlet async capacity) [] 0 [] sh
      (stanza bareState (plainDaemonlet async capacity).act (diskRequest serial)) :=
  hears_readable (quiet_plainDaemonlet async capacity) bareState (diskRequest serial) sh
    (identifierKeys_diskRequest _) (fun _ he => absurd he List.not_mem_nil)
    (readableRequest_diskRequest sh serial h)

def startedPlain : State Unit := started (plainDaemonlet false 65536) (freshRunner [])

def exchange (req : Request) : List Label :=
  [.request bareState req, .caller 4096, .caller 1] ++ List.replicate 345 (.runner 4) ++
    [.caller 1, .caller 1]

/-- The daemonlet says that it is ready, and two requests are answered. -/
def twoExchanges : List Label :=
  [.runner 1, .caller 1] ++ exchange serialDisk ++ exchange otherDisk

theorem guarded_twoExchanges : Runs.Guarded (step (plainDaemonlet false 65536))
    (Answerable (plainDaemonlet false 65536)) twoExchanges startedPlain := by
  have hexchange (st : VdevState) (req req' : Request) (h : .request st req ∈ exchange req') :
      st = bareState ∧ req = req' := by
    rcases List.mem_append.mp h with h | h
    · rcases List.mem_append.mp h with h | h
      · simpa using h
      · cases List.eq_of_mem_replicate h
    · simp at h
  apply Runs.guarded_of_forall
  intro l hl s
  cases l with
  | request st req =>
    rcases List.mem_append.mp hl with hl | hl
    · rcases List.mem_append.mp hl with hl | hl
      · simp at hl
      · obtain ⟨rfl, rfl⟩ := hexchange st req serialDisk hl
        exact hears_diskRequest false 65536 _ _ (Or.inl rfl)
    · obtain ⟨rfl, rfl⟩ := hexchange st req otherDisk hl
      exact hears_diskRequest false 65536 _ _ (Or.inr rfl)
  | caller k => trivial
  | runner k => trivial

theorem run_twoExchanges : ∃ s,
    Runs.run (step (plainDaemonlet false 65536)) twoExchanges startedPlain = some s ∧
      s.caller = .idle ∧ s.delivered = [0, 0] := by
  have hrun : (Runs.run (step (plainDaemonlet false 65536)) twoExchanges startedPlain).map
      (fun s => (s.caller, s.delivered)) = some (.idle, [0, 0]) := by
    decide +kernel
  obtain ⟨s, hs, heq⟩ := Option.map_eq_some_iff.mp hrun
  exact ⟨s, hs, (Prod.mk.inj heq).1, (Prod.mk.inj heq).2⟩

theorem paired_twoExchanges :
    ∃ s, Runs.run (step (plainDaemonlet false 65536)) twoExchanges startedPlain = some s ∧
      s.delivered = [0, 0] ∧ s.stdout = [] := by
  obtain ⟨s, hrun, hidle, hdelivered⟩ := run_twoExchanges
  have hpaired := paired_of_answerable (plainDaemonlet false 65536) rfl (freshRunner [])
    twoExchanges s guarded_twoExchanges hrun
  exact ⟨s, hrun, hdelivered, (hpaired.idle hidle).1⟩

theorem unread_twoExchanges :
    ∃ s, Runs.run (step (plainDaemonlet false 65536)) twoExchanges startedPlain = some s ∧
      s.stdout.length ≤ 4 ∧ ¬Stuck (plainDaemonlet false 65536) s := by
  obtain ⟨s, hrun, _⟩ := run_twoExchanges
  exact ⟨s, hrun, unread_of_answerable (plainDaemonlet false 65536) rfl (freshRunner [])
    twoExchanges s guarded_twoExchanges hrun⟩

/-- A parameter with a line `done` in its value makes two stanzas of one. -/
def twoStanzas : Request where
  type := .add
  path := some "sda".toList
  dev := 2048
  mode := S_IFBLK
  params := ⟨[("A".toList, "x\ndone".toList), ("B".toList, "y".toList)], by decide⟩

/-- The request after it is answered with the second of its two replies. -/
def staleReply : List Label :=
  [.runner 1, .caller 1, .request bareState twoStanzas, .caller 4096, .caller 1] ++
    List.replicate 356 (.runner 4) ++ [.caller 1, .caller 1, .request bareState serialDisk] ++
    List.replicate 4 (.caller 4096)

theorem not_paired_staleReply :
    ∃ s, Runs.run (step (plainDaemonlet false 65536)) staleReply startedPlain = some s ∧
      s.delivered.length = 2 ∧ s.stdin = stanza bareState (plainDaemonlet false 65536).act serialDisk ∧
      ¬Paired s := by
  have hrun : (Runs.run (step (plainDaemonlet false 65536)) staleReply startedPlain).map
      (fun s => (s.caller, s.delivered.length, s.stdin, decide (s.echoed.map Prod.fst = s.sent))) =
      some (.idle, 2, stanza bareState (plainDaemonlet false 65536).act serialDisk, false) := by
    decide +kernel
  obtain ⟨s, hs, heq⟩ := Option.map_eq_some_iff.mp hrun
  simp only [Prod.mk.injEq, decide_eq_false_iff_not] at heq
  obtain ⟨hidle, hlength, hstdin, hsent⟩ := heq
  exact ⟨s, hs, hlength, hstdin, fun hpaired => hsent (hpaired.idle hidle).2.2.1⟩

end Examples

end Vdev.Exchange
