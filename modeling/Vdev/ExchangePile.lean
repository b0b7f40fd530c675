import Vdev.ExchangePairs

/-!
An asynchronous daemonlet writes a status line for each request, as a synchronous one does,
and its output is a pipe, too. vdevd never reads from it, so the lines pile up until the
pipe is full. Then the runner does not read the next stanzas, and in the end vdevd is stuck.
-/
namespace Vdev.Exchange

open CString Data Environment Daemonlet Shell DaemonletRunner Decimal Runs

variable {ω : Type} {D : Setup ω} {s s' : State ω}

/-- vdevd neither waits for an asynchronous daemonlet nor reads from it. -/
structure Deaf (s : State ω) : Prop where
  starting : s.caller ≠ .starting
  reading : ∀ value sign cnt, s.caller ≠ .reading value sign cnt
  received : s.received = []

theorem endLine_frame (line allEnv : CStr) (count : ℕ) (s : State ω) :
    (endLine D line count allEnv s).caller = s.caller ∧
      (endLine D line count allEnv s).received = s.received := by
  unfold endLine
  split_ifs
  · exact ⟨rfl, rfl⟩
  · exact ⟨rfl, rfl⟩
  · exact ⟨rfl, rfl⟩
  · dsimp only
    split
    · exact ⟨rfl, rfl⟩
    · exact ⟨rfl, rfl⟩

/-- The runner touches nothing of vdevd. -/
theorem runnerStep_frame {k : ℕ} (h : runnerStep D k s = some s') :
    s'.caller = s.caller ∧ s'.received = s.received := by
  by_cases hout : s.out = []
  · cases hphase : s.phase with
    | read line count allEnv =>
      rcases runnerStep_read hout hphase h with rfl | ⟨c, rest, _, rfl⟩
      · exact ⟨rfl, rfl⟩
      · unfold readByte
        dsimp only
        split
        · exact endLine_frame line allEnv count _
        · exact ⟨rfl, rfl⟩
    | run =>
      rw [runnerStep_run hout hphase] at h
      cases h
      unfold runMain
      dsimp only
      split
      · exact ⟨rfl, rfl⟩
      · exact ⟨rfl, rfl⟩
    | clear =>
      rw [runnerStep_clear hout hphase] at h
      cases h
      exact ⟨rfl, rfl⟩
    | exited =>
      rw [runnerStep_exited hout hphase] at h
      cases h
  · obtain ⟨out, stdout, _, rfl⟩ := runnerStep_out hout h
    exact ⟨rfl, rfl⟩

theorem Deaf.step (hasync : D.act.async = true) (l : Label) (s s' : State ω) (h : Deaf s)
    (hstep : step D l s = some s') : Deaf s' := by
  cases l with
  | request st req =>
    unfold Exchange.step at hstep
    simp only at hstep
    split at hstep
    · cases hstep
      exact ⟨by simp, by simp, h.received⟩
    · cases hstep
  | runner k =>
    obtain ⟨hcaller, hreceived⟩ := runnerStep_frame hstep
    exact ⟨by rw [hcaller]; exact h.starting, by rw [hcaller]; exact h.reading,
      hreceived.trans h.received⟩
  | caller k =>
    have hstep : callerStep D k s = some s' := hstep
    cases hcaller : s.caller with
    | starting => exact absurd hcaller h.starting
    | reading value sign cnt => exact absurd hcaller (h.reading value sign cnt)
    | idle => simp [callerStep, hcaller] at hstep
    | failed => simp [callerStep, hcaller] at hstep
    | writing rest =>
      cases rest with
      | nil =>
        rw [callerStep_written hcaller, if_pos hasync] at hstep
        cases hstep
        exact ⟨by simp [deliver], by simp [deliver], h.received⟩
      | cons c rest =>
        rcases callerStep_writing hcaller hstep with ⟨_, rfl⟩ | ⟨rest', stdin, _, rfl⟩
        · exact ⟨by simp, by simp, h.received⟩
        · exact ⟨by simp, by simp, h.received⟩

/-- vdevd reads nothing from an asynchronous daemonlet. -/
theorem received_of_async (hasync : D.act.async = true) (sh : Sh ω) (ls : List Label)
    (hrun : run (step D) ls (started D sh) = some s) : s.received = [] := by
  have hstart : Deaf (started D sh) := by
    have hcaller : (started D sh).caller = .idle := if_pos hasync
    refine ⟨?_, ?_, rfl⟩
    · rw [hcaller]
      simp
    · rw [hcaller]
      simp
  exact (run_invariant (step D) Deaf (Deaf.step hasync) hstart hrun).received

section Piling

structure Lively (D : Setup ω) : Prop extends Quiet D where
  importVar : ∀ line sh, line ≠ [] → importVar D.host line sh ≠ none
  async : D.act.async = true
  capacity : 0 < D.capacity

/-- The runner has nothing to say and waits for a stanza, and so does vdevd. -/
structure Calm (s : State ω) : Prop where
  caller : s.caller = .idle
  phase : s.phase = .read [] 0 []
  out : s.out = []
  stdin : s.stdin = []

theorem callerStep_write {c : Char} {text : CStr} {k : ℕ} (hcaller : s.caller = .writing (c :: text))
    (hgone : s.gone = false) :
    callerStep D k s = (transfer D.capacity k (c :: text) s.stdin).map fun r =>
      { s with caller := .writing r.1, stdin := r.2 } := by
  simp [callerStep, hcaller, hgone]

theorem runnerStep_byte {line allEnv rest : CStr} {count k : ℕ} {c : Char} (hk : k ≠ 0)
    (hout : s.out = []) (hphase : s.phase = .read line count allEnv) (hstdin : s.stdin = c :: rest) :
    runnerStep D k s = some (readByte D line count allEnv c rest s) := by
  simp only [runnerStep, hout, hphase, hstdin, if_neg hk]

theorem runnerStep_write {k : ℕ} (hout : s.out ≠ []) :
    runnerStep D k s = (transfer D.capacity k s.out s.stdout).map fun r =>
      { s with out := r.1, stdout := r.2 } := by
  cases hcons : s.out with
  | nil => exact absurd hcons hout
  | cons c rest => simp [runnerStep, hcons]

/-- With room for `k` bytes, `k` bytes are written. -/
theorem transfer_eq {capacity k : ℕ} (rest pipe : CStr) (h : k + pipe.length ≤ capacity)
    (hk : 0 < k) : transfer capacity k rest pipe = some (rest.drop k, pipe ++ rest.take k) := by
  have hmin : min k (capacity - pipe.length) = k := by omega
  unfold transfer
  rw [if_neg (by omega), hmin]

theorem endLine_import {line allEnv name : CStr} {count : ℕ} {sh' : Sh ω} (hline : IsLine line)
    (himport : importVar D.host line (s.sh.withInput s.stdin) = some (name, sh'))
    (hconsole : D.console.line line (s.sh.withInput s.stdin) = ([], true)) :
    endLine D line count allEnv s =
      { s with
        out := []
        phase := .read [] (count + 1) (name ++ ' ' :: allEnv)
        sh := sh'
        stdin := sh'.input } := by
  unfold endLine
  rw [if_neg hline.nonempty, if_neg hline.notDone]
  simp only [himport, hconsole, if_true]

theorem runMain_quiet (hquiet : Quiet D) (s : State ω) :
    runMain D s =
      { s with
        out := statusLine (D.host.main (s.sh.withInput s.stdin)).1
        phase := .clear
        sh := (D.host.main (s.sh.withInput s.stdin)).2
        taken := []
        echoed := s.echoed ++ [(s.taken, (D.host.main (s.sh.withInput s.stdin)).1)] } := by
  simp only [runMain, hquiet.main, if_true, List.nil_append]

theorem runClear_quiet (hquiet : Quiet D) {sh' : Sh ω} (hclears : Clears D s.sh sh') :
    runClear D s =
      { s with
        out := []
        phase := .read [] 0 []
        sh := defaultEnviron (sh'.withInput s.stdin) } := by
  obtain ⟨alive, hall⟩ := hclears
  simp only [runClear, hquiet.clear, (hall s.stdin).2, Sh.withInput_input, if_true]

theorem stanza_length (st : VdevState) (act : Action) (req : Request) :
    doneLine.length < (stanza st act req).length := by
  obtain ⟨e, env, henv⟩ := List.exists_cons_of_ne_nil
    (requestEnv_ne_nil st req act.helperVars true)
  have hpos := envLine_length_pos (makeEnvStr e)
  rw [stanza_eq, henv, List.flatMap_cons, List.length_append, List.length_append]
  omega

theorem stanza_ne_nil (st : VdevState) (act : Action) (req : Request) : stanza st act req ≠ [] :=
  List.ne_nil_of_length_pos (lt_of_le_of_lt (Nat.zero_le _) (stanza_length st act req))

theorem hears_ne_nil {line allEnv : CStr} {count : ℕ} {sh : Sh ω} {text : CStr}
    (h : Hears D line count allEnv sh text) : text ≠ [] := by
  rintro rfl
  obtain ⟨hline, lines, htext, _⟩ := h
  rw [List.append_nil] at htext
  apply hline
  rw [htext]
  exact List.mem_append_right _ (by decide)

section Lively

variable (hD : Lively D)
include hD

/-- One byte of a stanza goes through the pipe. -/
theorem reaches_readByte {line allEnv text : CStr} {count : ℕ} {c : Char}
    (hcaller : s.caller = .writing (c :: text)) (hphase : s.phase = .read line count allEnv)
    (hout : s.out = []) (hstdin : s.stdin = []) :
    Reaches (step D) s (readByte D line count allEnv c [] { s with caller := .writing text }) := by
  have hgone : s.gone = false := by
    rw [Bool.eq_false_iff, ne_eq, gone_iff, hphase]
    exact fun h => by cases h.1
  have hcapacity := hD.capacity
  have hwrite : step D (.caller 1) s = some { s with caller := .writing text, stdin := [c] } := by
    show callerStep D 1 s = _
    rw [callerStep_write hcaller hgone, hstdin,
      transfer_eq _ _ (by rw [List.length_nil]; omega) Nat.one_pos]
    rfl
  refine .head (.caller 1) hwrite (.head (.runner 1) ?_ (.refl _))
  show runnerStep D 1 _ = _
  exact runnerStep_byte one_ne_zero hout hphase rfl

/-- A stanza that the runner hears goes through the pipe, and `main` is called. -/
theorem reaches_run {line allEnv text : CStr} {count : ℕ} (hcaller : s.caller = .writing text)
    (hphase : s.phase = .read line count allEnv) (hout : s.out = []) (hstdin : s.stdin = [])
    (hears : Hears D line count allEnv s.sh text) (hne : count = 0 → line ++ text ≠ doneLine) :
    ∃ s', Reaches (step D) s s' ∧ s'.caller = .writing [] ∧ s'.phase = .run ∧ s'.out = [] ∧
      s'.stdin = [] ∧ s'.stdout = s.stdout ∧ Replies D s'.sh := by
  induction text generalizing s line allEnv count with
  | nil => exact absurd rfl (hears_ne_nil hears)
  | cons c text ih =>
    have hbyte := reaches_readByte hD hcaller hphase hout hstdin
    by_cases hc : c = '\n'
    · subst hc
      unfold readByte at hbyte
      rw [if_pos rfl] at hbyte
      rcases hears.newline with ⟨rfl, rfl, hreplies⟩ | ⟨hline, hheard⟩
      · have hcount : count ≠ 0 := fun heq => hne heq rfl
        have hdone : "done".toList ≠ [] := by decide
        unfold endLine at hbyte
        rw [if_neg hdone, if_pos rfl, if_neg hcount] at hbyte
        exact ⟨_, hbyte, rfl, rfl, hout, rfl, rfl, hreplies hcount⟩
      · rcases hheard with hnone | ⟨name, sh', alive, hall, hrest⟩
        · exact absurd (hnone []) (hD.importVar line _ hline.nonempty)
        · obtain ⟨himport, hconsole⟩ := hall []
          rw [hD.line] at hconsole
          obtain ⟨hnil, lines, hlines, hok, hlast⟩ := hrest (Prod.mk.inj hconsole).2.symm
          rw [endLine_import hline himport (hD.line _ _)] at hbyte
          obtain ⟨s₁, hbyte, hcaller₁, hphase₁, hout₁, hstdin₁, hstdout₁, hsh₁⟩ : ∃ s₁,
              Reaches (step D) s s₁ ∧ s₁.caller = .writing text ∧
              s₁.phase = .read [] (count + 1) (name ++ ' ' :: allEnv) ∧ s₁.out = [] ∧
              s₁.stdin = [] ∧ s₁.stdout = s.stdout ∧ s₁.sh = sh'.withInput [] :=
            ⟨_, hbyte, rfl, rfl, rfl, rfl, rfl, rfl⟩
          have hears₁ : Hears D [] (count + 1) (name ++ ' ' :: allEnv) s₁.sh text := by
            rw [hsh₁]
            exact ⟨hnil, lines, hlines, hok, (heard_withInput []).mpr hlast⟩
          obtain ⟨s', hreaches, hcaller', hphase', hout', hstdin', hstdout', hreplies⟩ :=
            ih hcaller₁ hphase₁ hout₁ hstdin₁ hears₁
              (fun heq => absurd heq (Nat.succ_ne_zero count))
          exact ⟨s', hbyte.trans hreaches, hcaller', hphase', hout', hstdin',
            hstdout'.trans hstdout₁, hreplies⟩
    · unfold readByte at hbyte
      rw [if_neg hc] at hbyte
      obtain ⟨s₁, hbyte, hcaller₁, hphase₁, hout₁, hstdin₁, hstdout₁, hsh₁⟩ : ∃ s₁,
          Reaches (step D) s s₁ ∧ s₁.caller = .writing text ∧
          s₁.phase = .read (line ++ [c]) count allEnv ∧ s₁.out = [] ∧ s₁.stdin = [] ∧
          s₁.stdout = s.stdout ∧ s₁.sh = s.sh :=
        ⟨_, hbyte, rfl, rfl, hout, rfl, rfl, rfl⟩
      have hears₁ : Hears D (line ++ [c]) count allEnv s₁.sh text := by
        rw [hsh₁]
        exact hears.char hc
      obtain ⟨s', hreaches, hcaller', hphase', hout', hstdin', hstdout', hreplies⟩ :=
        ih hcaller₁ hphase₁ hout₁ hstdin₁ hears₁
          (fun heq => by rw [List.append_assoc]; exact hne heq)
      exact ⟨s', hbyte.trans hreaches, hcaller', hphase', hout', hstdin',
        hstdout'.trans hstdout₁, hreplies⟩

/-- A stanza is answered: vdevd goes on, and the runner is about to write the status. -/
theorem reaches_reply (st : VdevState) (req : Request)
    (hears : ∀ sh, Hears D [] 0 [] sh (stanza st D.act req)) (hcalm : Calm s) :
    ∃ s' status, Reaches (step D) s s' ∧ s'.caller = .idle ∧ s'.phase = .clear ∧
      s'.out = statusLine status ∧ s'.stdin = [] ∧ s'.stdout = s.stdout ∧
      ∃ sh', Clears D s'.sh sh' := by
  have hrequest : step D (.request st req) s = some { s with
      caller := .writing (stanza st D.act req), sent := s.sent ++ [stanza st D.act req] } := by
    simp only [step, hcalm.caller]
  have hlong : stanza st D.act req ≠ doneLine := by
    intro heq
    have hlength := stanza_length st D.act req
    rw [heq] at hlength
    omega
  obtain ⟨s₁, hrun, hcaller, hphase, hout, hstdin, hstdout, hreplies⟩ :=
    reaches_run hD (s := { s with
      caller := .writing (stanza st D.act req), sent := s.sent ++ [stanza st D.act req] })
      rfl hcalm.phase hcalm.out hcalm.stdin (hears s.sh) (fun _ => hlong)
  obtain ⟨s₂, hwritten, hcaller₂, hphase₂, hout₂, hstdin₂, hstdout₂, hsh₂⟩ : ∃ s₂,
      step D (.caller 1) s₁ = some s₂ ∧ s₂.caller = .idle ∧ s₂.phase = .run ∧ s₂.out = [] ∧
      s₂.stdin = [] ∧ s₂.stdout = s.stdout ∧ s₂.sh = s₁.sh := by
    refine ⟨{ s₁ with caller := .idle, delivered := s₁.delivered ++ [0] }, ?_, rfl, hphase, hout,
      hstdin, hstdout, rfl⟩
    show callerStep D 1 s₁ = _
    rw [callerStep_written hcaller, if_pos hD.async]
    rfl
  have hmain : step D (.runner 1) s₂ = some _ :=
    (runnerStep_run hout₂ hphase₂).trans (congrArg some (runMain_quiet hD.toQuiet s₂))
  obtain ⟨sh', hclears⟩ := hreplies.clears
  rw [← hstdin₂, ← hsh₂] at hclears
  exact ⟨_, _, .head _ hrequest (hrun.trans (.head _ hwritten (.head _ hmain (.refl _)))), hcaller₂,
    rfl, rfl, hstdin₂, hstdout₂, sh', hclears⟩

/-- The reply is written, and the runner waits for the next stanza. -/
theorem reaches_calm {status : ℕ} {sh' : Sh ω} (hcaller : s.caller = .idle)
    (hphase : s.phase = .clear) (hout : s.out = statusLine status) (hstdin : s.stdin = [])
    (hclears : Clears D s.sh sh') (hroom : s.out.length + s.stdout.length ≤ D.capacity) :
    ∃ s', Reaches (step D) s s' ∧ Calm s' ∧ s'.stdout = s.stdout ++ statusLine status := by
  have hne : s.out ≠ [] := by
    rw [hout]
    simp [statusLine]
  obtain ⟨s₁, hwrite, hcaller₁, hphase₁, hout₁, hstdin₁, hstdout₁, hsh₁⟩ : ∃ s₁,
      step D (.runner s.out.length) s = some s₁ ∧ s₁.caller = .idle ∧ s₁.phase = .clear ∧
      s₁.out = [] ∧ s₁.stdin = [] ∧ s₁.stdout = s.stdout ++ s.out ∧ s₁.sh = s.sh := by
    refine ⟨{ s with out := [], stdout := s.stdout ++ s.out }, ?_, hcaller, hphase, rfl, hstdin,
      rfl, rfl⟩
    show runnerStep D _ s = _
    rw [runnerStep_write hne, transfer_eq _ _ hroom (List.length_pos_of_ne_nil hne),
      List.drop_length, List.take_length]
    rfl
  rw [← hsh₁] at hclears
  have hclear : step D (.runner 1) s₁ = some _ :=
    (runnerStep_clear hout₁ hphase₁).trans (congrArg some (runClear_quiet hD.toQuiet hclears))
  rw [hout] at hstdout₁
  exact ⟨_, .head _ hwrite (.head _ hclear (.refl _)), ⟨hcaller₁, rfl, rfl, hstdin₁⟩, hstdout₁⟩

/-- A runner that has no room for its reply does not read, and vdevd goes on until the other
pipe is full, too. -/
theorem reaches_stuck (st : VdevState) (req : Request) (hcaller : s.caller = .idle)
    (hout : s.out ≠ []) (hfull : D.capacity ≤ s.stdout.length) :
    ∃ s', Reaches (step D) s s' ∧ Stuck D s' := by
  induction hroom : D.capacity - s.stdin.length using Nat.strong_induction_on generalizing s with
  | h room ih =>
    obtain ⟨c, text, htext⟩ := List.exists_cons_of_ne_nil (stanza_ne_nil st D.act req)
    obtain ⟨s₁, hrequest, hcaller₁, hout₁, hstdin₁, hstdout₁⟩ : ∃ s₁,
        step D (.request st req) s = some s₁ ∧ s₁.caller = .writing (c :: text) ∧ s₁.out = s.out ∧
        s₁.stdin = s.stdin ∧ s₁.stdout = s.stdout := by
      refine ⟨{ s with caller := .writing (c :: text), sent := s.sent ++ [c :: text] }, ?_, rfl,
        rfl, rfl, rfl⟩
      simp only [step, hcaller, htext]
    rw [← hout₁] at hout
    rw [← hstdout₁] at hfull
    rw [← hstdin₁] at hroom
    by_cases hblocked : D.capacity ≤ s₁.stdin.length
    · exact ⟨s₁, .head _ hrequest (.refl _), ⟨c, text, hcaller₁⟩, hblocked, hout, hfull⟩
    · have hgone : s₁.gone = false := by
        rw [Bool.eq_false_iff, ne_eq, gone_iff]
        exact fun h => hout h.2
      by_cases hfits : (c :: text).length + s₁.stdin.length ≤ D.capacity
      · -- the whole stanza fits into the pipe
        obtain ⟨s₂, hwrite, hcaller₂, hout₂, hstdin₂, hstdout₂⟩ : ∃ s₂,
            step D (.caller (c :: text).length) s₁ = some s₂ ∧ s₂.caller = .writing [] ∧
            s₂.out = s₁.out ∧ s₂.stdin = s₁.stdin ++ (c :: text) ∧ s₂.stdout = s₁.stdout := by
          refine ⟨{ s₁ with caller := .writing [], stdin := s₁.stdin ++ (c :: text) }, ?_, rfl, rfl,
            rfl, rfl⟩
          show callerStep D _ s₁ = _
          rw [callerStep_write hcaller₁ hgone, transfer_eq _ _ hfits (by simp), List.drop_length,
            List.take_length]
          rfl
        obtain ⟨s₃, hwritten, hcaller₃, hout₃, hstdin₃, hstdout₃⟩ : ∃ s₃,
            step D (.caller 1) s₂ = some s₃ ∧ s₃.caller = .idle ∧ s₃.out = s₂.out ∧
            s₃.stdin = s₂.stdin ∧ s₃.stdout = s₂.stdout := by
          refine ⟨{ s₂ with caller := .idle, delivered := s₂.delivered ++ [0] }, ?_, rfl, rfl, rfl,
            rfl⟩
          show callerStep D 1 s₂ = _
          rw [callerStep_written hcaller₂, if_pos hD.async]
          rfl
        have hlength : s₃.stdin.length = s₁.stdin.length + (text.length + 1) := by
          rw [hstdin₃, hstdin₂, List.length_append, List.length_cons]
        obtain ⟨s', hreaches, hstuck⟩ := ih (D.capacity - s₃.stdin.length) (by omega) hcaller₃
          (by rw [hout₃, hout₂]; exact hout) (by rw [hstdout₃, hstdout₂]; exact hfull) rfl
        exact ⟨s', .head _ hrequest (.head _ hwrite (.head _ hwritten hreaches)), hstuck⟩
      · -- a part of it is left over
        have hwrite : step D (.caller (D.capacity - s₁.stdin.length)) s₁ = some { s₁ with
            caller := .writing ((c :: text).drop (D.capacity - s₁.stdin.length))
            stdin := s₁.stdin ++ (c :: text).take (D.capacity - s₁.stdin.length) } := by
          show callerStep D _ s₁ = _
          rw [callerStep_write hcaller₁ hgone, transfer_eq _ _ (by omega) (by omega)]
          rfl
        have hleft : (c :: text).drop (D.capacity - s₁.stdin.length) ≠ [] := by
          rw [ne_eq, List.drop_eq_nil_iff]
          omega
        obtain ⟨d, rest, hrest⟩ := List.exists_cons_of_ne_nil hleft
        refine ⟨_, .head _ hrequest (.head _ hwrite (.refl _)), ⟨d, rest, congrArg _ hrest⟩, ?_, hout,
          hfull⟩
        show D.capacity ≤ (s₁.stdin ++ _).length
        rw [List.length_append, List.length_take]
        omega

/-- The replies pile up until both sides are stuck. -/
theorem reaches_stuck_of_calm (st : VdevState) (req : Request)
    (hears : ∀ sh, Hears D [] 0 [] sh (stanza st D.act req)) (hcalm : Calm s) :
    ∃ s', Reaches (step D) s s' ∧ Stuck D s' := by
  induction hroom : D.capacity - s.stdout.length using Nat.strong_induction_on generalizing s with
  | h room ih =>
    obtain ⟨s₁, status, hreply, hcaller, hphase, hout, hstdin, hstdout, sh', hclears⟩ :=
      reaches_reply hD st req hears hcalm
    have hpos : 0 < s₁.out.length := by
      rw [hout, statusLine, List.length_append, List.length_singleton]
      omega
    rw [← hstdout] at hroom
    by_cases hfits : s₁.out.length + s₁.stdout.length ≤ D.capacity
    · obtain ⟨s₂, hwrite, hcalm₂, hstdout₂⟩ :=
        reaches_calm hD hcaller hphase hout hstdin hclears hfits
      have hlength : s₂.stdout.length = s₁.stdout.length + s₁.out.length := by
        rw [hstdout₂, hout, List.length_append]
      obtain ⟨s', hreaches, hstuck⟩ := ih (D.capacity - s₂.stdout.length) (by omega) hcalm₂ rfl
      exact ⟨s', hreply.trans (hwrite.trans hreaches), hstuck⟩
    · by_cases hfull : D.capacity ≤ s₁.stdout.length
      · obtain ⟨s', hreaches, hstuck⟩ := reaches_stuck hD st req hcaller
          (List.ne_nil_of_length_pos hpos) hfull
        exact ⟨s', hreply.trans hreaches, hstuck⟩
      · obtain ⟨s₂, hwrite, hcaller₂, hout₂, hstdout₂⟩ : ∃ s₂,
            step D (.runner (D.capacity - s₁.stdout.length)) s₁ = some s₂ ∧ s₂.caller = .idle ∧
            s₂.out = s₁.out.drop (D.capacity - s₁.stdout.length) ∧
            s₂.stdout = s₁.stdout ++ s₁.out.take (D.capacity - s₁.stdout.length) := by
          refine ⟨{ s₁ with
            out := s₁.out.drop (D.capacity - s₁.stdout.length)
            stdout := s₁.stdout ++ s₁.out.take (D.capacity - s₁.stdout.length) }, ?_, hcaller, rfl,
            rfl⟩
          show runnerStep D _ s₁ = _
          rw [runnerStep_write (List.ne_nil_of_length_pos hpos),
            transfer_eq _ _ (by omega) (by omega)]
          rfl
        have hleft : s₂.out ≠ [] := by
          rw [hout₂, ne_eq, List.drop_eq_nil_iff]
          omega
        have hfull₂ : D.capacity ≤ s₂.stdout.length := by
          rw [hstdout₂, List.length_append, List.length_take]
          omega
        obtain ⟨s', hreaches, hstuck⟩ := reaches_stuck hD st req hcaller₂ hleft hfull₂
        exact ⟨s', hreply.trans (.head _ hwrite hreaches), hstuck⟩

/-- An asynchronous daemonlet that answers its requests can come to hang vdevd. -/
theorem stuck_of_async (st : VdevState) (req : Request)
    (hears : ∀ sh, Hears D [] 0 [] sh (stanza st D.act req)) (sh : Sh ω) :
    ∃ ls s, run (step D) ls (started D sh) = some s ∧ Stuck D s := by
  have hcapacity := hD.capacity
  obtain ⟨s₁, hready, hcalm⟩ : ∃ s₁, step D (.runner 1) (started D sh) = some s₁ ∧ Calm s₁ := by
    refine ⟨{ started D sh with out := [], stdout := ['\n'] }, ?_, if_pos hD.async, rfl, rfl, rfl⟩
    show runnerStep D 1 (started D sh) = _
    rw [runnerStep_write (by simp [started]),
      transfer_eq _ _ (by simp only [started, List.length_nil]; omega) Nat.one_pos]
    rfl
  obtain ⟨s, hreaches, hstuck⟩ := reaches_stuck_of_calm hD st req hears hcalm
  obtain ⟨ls, hrun⟩ := hreaches.head (.runner 1) hready
  exact ⟨ls, s, hrun, hstuck⟩

end Lively

end Piling

open DaemonletService

theorem importVar_plainHost (line : CStr) (sh : Sh Unit) (hline : line ≠ []) :
    importVar plainHost line sh ≠ none := by
  have hfields : splitFields '=' line ≠ [] := by
    intro hnil
    have hsplit : line.splitOn '=' = [[]] ∨ line.splitOn '=' = [] := by
      unfold splitFields at hnil
      split at hnil
      · rename_i hlast
        obtain ⟨init, hinit⟩ := List.getLast?_eq_some_iff.mp hlast
        rw [hinit, List.dropLast_concat] at hnil
        rw [hinit, hnil]
        exact Or.inl rfl
      · exact Or.inr hnil
    have hjoin : ['='].intercalate (line.splitOn '=') = line := List.intercalate_splitOn '='
    rcases hsplit with hsplit | hsplit
    · rw [hsplit] at hjoin
      exact hline hjoin.symm
    · exact List.splitOn_ne_nil '=' line hsplit
  have hwords : (splitFields '=' line).flatMap (plainHost.glob sh.world) = splitFields '=' line :=
    flatMap_glob plainHost sh.world _ (fun _ _ => rfl)
  unfold importVar
  rw [hwords]
  split
  · rename_i hnil
    exact absurd hnil hfields
  · simp
  · simp

/-- An asynchronous daemonlet with pipes of 64 KiB hangs vdevd. -/
theorem stuck_serialDisk :
    ∃ ls s, run (step (plainDaemonlet true 65536)) ls
      (started (plainDaemonlet true 65536) (freshRunner [])) = some s ∧
      Stuck (plainDaemonlet true 65536) s := by
  have hlively : Lively (plainDaemonlet true 65536) :=
    ⟨quiet_plainDaemonlet true 65536, importVar_plainHost, rfl, by decide⟩
  exact stuck_of_async hlively bareState serialDisk
    (fun sh => hears_diskRequest true 65536 sh _ (Or.inl rfl)) (freshRunner [])

end Vdev.Exchange
