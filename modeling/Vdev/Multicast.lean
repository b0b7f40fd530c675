import Vdev.EventQueue

/-!
How an event reaches its listeners (vdevd/helpers/LINUX/event-put.c). The event file stands in
the global queue; `multicast_event` links it into each of the other directories beside that
one. Its loop over `readdir_r` tests for the end of the directory only after it has handled
the entry in the buffer. Listeners take files out of their directories at any time, and
come and go.
-/
namespace Vdev.Multicast

open CString EventQueue

/-- The loops that walk back in a path as long as its characters have a property. -/
def backWhile (p : Char → Bool) (path : CStr) : ℕ → ℕ
  | 0 => 0
  | i + 1 => if path[i + 1]?.any p then backWhile p path i else i + 1

/-- The first part of `multicast_event`: the directory of the event queues and the name of the
global queue, from the path of the event. -/
def queueNames (eventPath : CStr) : Option (CStr × CStr) :=
  if eventPath = [] then none
  else
    -- the path should not end in a slash; then the name of the event, and the slashes before it
    let i := backWhile (· == '/') eventPath (eventPath.length - 1)
    let i := backWhile (· != '/') eventPath i
    let i := backWhile (· == '/') eventPath i
    if i = 0 then some (['/'], ['.'])
    else
      let parentEnd := i
      let i := backWhile (· != '/') eventPath i
      some (eventPath.take (i + 1), (eventPath.drop (i + 1)).take (parentEnd - i))

/-- What `readdir_r` fills in: the name, and whether the type is `DT_DIR`. -/
structure Entry where
  name : CStr
  isDir : Bool
  deriving DecidableEq

/-- The buffer of `readdir_r` holds the last entry, or what it held before. -/
theorem getLast?_cons_or (e : Entry) (rest : List Entry) (entry : Option Entry) :
    (e :: rest).getLast?.or entry = rest.getLast?.or (some e) := by
  rw [List.getLast?_cons]
  cases rest.getLast? <;> rfl

/-- Where `multicast_event` stands. -/
inductive Pc
  | reading | handling
  | finished (rc : Int)
  deriving DecidableEq

/-- The event queues and a run of `multicast_event`. `dirs` has the files in each listener
directory, `stream` is what `readdir_r` has not yet returned, `entry` is the buffer. How
often the event came to be in each directory is a ghost. -/
structure State where
  dirs : CStr → Option (List CStr)
  stream : List Entry
  entry : Option Entry
  atEnd : Bool
  pc : Pc
  appeared : CStr → ℕ

inductive Label
  | multicast (failure : Option Errno)
  | consume (d file : CStr)
  | join (d : CStr)
  | leave (d : CStr)
  deriving DecidableEq

def skips (globalName : CStr) (e : Entry) : Bool :=
  e.name == ".".toList || e.name == "..".toList || !e.isDir || globalName == e.name

/-- `link` into the directory of a listener. Its errors are logged and forgotten. -/
def linkInto (s : State) (d file : CStr) : State :=
  match s.dirs d with
  | none => s
  | some files =>
    if file ∈ files then s
    else
      { s with
        dirs := Function.update s.dirs d (some (files ++ [file]))
        appeared := Function.update s.appeared d (s.appeared d + 1) }

/-- What the loop does with the entry in the buffer. The directory of the queues has at least the
global queue, so that the buffer has been filled when it is looked at. -/
def handleEntry (globalName file : CStr) (s : State) : State :=
  match s.entry with
  | none => s
  | some e => if skips globalName e then s else linkInto s e.name file

/-- One step of the loop: a call of `readdir_r`, or what is done with the buffer. -/
def multicastStep (globalName file : CStr) (failure : Option Errno) (s : State) : Option State :=
  match s.pc with
  | .reading =>
    match failure, s.stream with
    | some e, _ => some { s with pc := .finished (-e.rc) }
    | none, [] => some { s with atEnd := true, pc := .handling }
    | none, e :: rest => some { s with entry := some e, stream := rest, pc := .handling }
  | .handling =>
    some { handleEntry globalName file s with pc := if s.atEnd then .finished 0 else .reading }
  | .finished _ => none

def step (globalName file : CStr) (l : Label) (s : State) : Option State :=
  match l with
  | .multicast failure => multicastStep globalName file failure s
  | .consume d file' =>
    (s.dirs d).map fun files =>
      { s with dirs := Function.update s.dirs d (some (files.erase file')) }
  | .join d =>
    match s.dirs d with
    | none => some { s with dirs := Function.update s.dirs d (some []) }
    | some _ => none
  | .leave d => (s.dirs d).map fun _ => { s with dirs := Function.update s.dirs d none }

/-- The queues at the start, with the entries that `readdir_r` will return before its end. -/
def start (dirs : CStr → Option (List CStr)) (entries : List Entry) : State where
  dirs := dirs
  stream := entries
  entry := none
  atEnd := false
  pc := .reading
  appeared := fun _ => 0

/-- `readdir_r` does not fail. A directory that the event is linked into for the first time has
no file of that name, and when the buffer is handled again at the end of the directory, it
does not hold a listener's directory or the listener has not taken the event yet. -/
def Delivers (globalName file : CStr) (l : Label) (s : State) : Prop :=
  match l, s.pc with
  | .multicast failure, .reading => failure = none
  | .multicast _, .handling =>
    ∀ e files, s.entry = some e → skips globalName e = false → s.dirs e.name = some files →
      (file ∈ files ↔ s.atEnd = true)
  | _, _ => True

theorem backWhile_eq (p : Char → Bool) (path : CStr) (i j : ℕ) (hij : j ≤ i)
    (hskip : ∀ k, j < k → k ≤ i → path[k]?.any p = true)
    (hstop : j = 0 ∨ path[j]?.any p = false) : backWhile p path i = j := by
  induction i with
  | zero => exact (Nat.le_zero.mp hij).symm
  | succ i ih =>
    rw [backWhile]
    rcases Nat.lt_or_eq_of_le hij with hlt | rfl
    · rw [if_pos (hskip (i + 1) hlt le_rfl)]
      exact ih (Nat.le_of_lt_succ hlt) fun k hjk hki => hskip k hjk (Nat.le_succ_of_le hki)
    · rw [if_neg]
      rcases hstop with hzero | hstop
      · exact absurd hzero (Nat.succ_ne_zero _)
      · rw [hstop]
        exact Bool.false_ne_true

/-- Walking back over a stretch of a path ends at the character before it. -/
theorem backWhile_append (p : Char → Bool) (a b rest : CStr) (c : Char) (hc : p c = false)
    (hb : ∀ x ∈ b, p x = true) :
    backWhile p (a ++ c :: (b ++ rest)) (a.length + b.length) = a.length := by
  refine backWhile_eq p _ _ _ (Nat.le_add_right ..) (fun k hlo hhi => ?_) (Or.inr ?_)
  · have hk : k - a.length = (k - a.length - 1) + 1 := by omega
    have hlt : k - a.length - 1 < b.length := by omega
    rw [List.getElem?_append_right hlo.le, hk, List.getElem?_cons_succ,
      List.getElem?_append_left hlt, List.getElem?_eq_getElem hlt, Option.any_some]
    exact hb _ (List.getElem_mem hlt)
  · rw [List.getElem?_append_right le_rfl, Nat.sub_self]
    exact hc

/-- The path of an event names the directory of the queues and the global queue. -/
theorem queueNames_eq (root name file : CStr) (hname : '/' ∉ name) (hfile : '/' ∉ file)
    (hn : name ≠ []) (hf : file ≠ []) :
    queueNames (root ++ '/' :: (name ++ '/' :: file)) = some (root ++ ['/'], name) := by
  have hplain : ∀ l : CStr, '/' ∉ l → ∀ c ∈ l, (c == '/') = false := by
    intro l hl c hc
    refine beq_false_of_ne ?_
    rintro rfl
    exact hl hc
  obtain ⟨path, hpath⟩ : ∃ path, path = root ++ '/' :: (name ++ '/' :: file) := ⟨_, rfl⟩
  have hlen : path.length = root.length + name.length + file.length + 2 := by
    rw [hpath]
    simp only [List.length_append, List.length_cons]
    omega
  -- the path ends in the event's name, which is walked over next, and then the slash before it
  have h₁ : backWhile (· == '/') path (path.length - 1) = path.length - 1 := by
    have hsplit : path = (root ++ '/' :: (name ++ '/' :: file.dropLast)) ++
        file.getLast hf :: ([] ++ []) := by
      rw [hpath]
      simp [List.dropLast_append_getLast hf]
    have hback := backWhile_append (· == '/') (root ++ '/' :: (name ++ '/' :: file.dropLast)) [] []
      (file.getLast hf) (hplain file hfile _ (List.getLast_mem hf)) (fun _ hx => by cases hx)
    rw [← hsplit] at hback
    have hlast : (root ++ '/' :: (name ++ '/' :: file.dropLast)).length = path.length - 1 := by
      have hpos := List.length_pos_iff.mpr hf
      simp only [List.length_append, List.length_cons, List.length_dropLast]
      omega
    rwa [hlast] at hback
  have h₂ : backWhile (· != '/') path (path.length - 1) = root.length + 1 + name.length := by
    have hback := backWhile_append (· != '/') (root ++ '/' :: name) file [] '/' rfl
      (fun x hx => by rw [bne, hplain file hfile x hx]; rfl)
    have hsplit : path = (root ++ '/' :: name) ++ '/' :: (file ++ []) := by
      rw [hpath]
      simp
    rw [← hsplit, List.length_append, List.length_cons] at hback
    have hstart : root.length + (name.length + 1) + file.length = path.length - 1 := by omega
    rw [hstart] at hback
    rw [hback]
    omega
  have h₃ : backWhile (· == '/') path (root.length + 1 + name.length) =
      root.length + name.length := by
    have hback := backWhile_append (· == '/') (root ++ '/' :: name.dropLast) ['/'] file
      (name.getLast hn) (hplain name hname _ (List.getLast_mem hn))
      (fun x hx => by rw [List.mem_singleton.mp hx]; rfl)
    have hsplit : path = (root ++ '/' :: name.dropLast) ++ name.getLast hn :: (['/'] ++ file) := by
      rw [hpath]
      conv_lhs => rw [← List.dropLast_append_getLast hn]
      simp
    have hpos := List.length_pos_iff.mpr hn
    rw [← hsplit] at hback
    have hends : (root ++ '/' :: name.dropLast).length = root.length + name.length := by
      simp only [List.length_append, List.length_cons, List.length_dropLast]
      omega
    rw [hends] at hback
    have hstart : root.length + name.length + ['/'].length = root.length + 1 + name.length := by
      rw [List.length_singleton]
      omega
    rwa [hstart] at hback
  have h₄ : backWhile (· != '/') path (root.length + name.length) = root.length := by
    rw [hpath]
    exact backWhile_append (· != '/') root name ('/' :: file) '/' rfl
      (fun x hx => by rw [bne, hplain name hname x hx]; rfl)
  have hne : path ≠ [] := by
    intro hnil
    rw [hnil] at hlen
    exact absurd hlen (by simp)
  have hpos := List.length_pos_iff.mpr hn
  have hwidth : root.length + name.length - root.length = name.length := by omega
  have hcut : path = (root ++ ['/']) ++ (name ++ '/' :: file) := by
    rw [hpath, List.append_assoc, List.singleton_append]
  have hdir : (root ++ ['/']).length = root.length + 1 := by
    rw [List.length_append, List.length_singleton]
  rw [← hpath, queueNames, if_neg hne]
  dsimp only
  rw [h₁, h₂, h₃, if_neg (by omega), h₄, hwidth, hcut, ← hdir, List.take_left, List.drop_left,
    List.take_left]

/-- The loop has seen a directory: neither is it still to come, nor is it in the buffer and not
handled. -/
def seen (s : State) (d : CStr) : Prop :=
  ⟨d, true⟩ ∉ s.stream ∧ (s.pc = .handling → s.entry = some ⟨d, true⟩ → s.atEnd = true)

/-- What a run keeps for a listener that is there throughout. -/
structure Inv (globalName : CStr) (d : CStr) (s : State) : Prop where
  there : (s.dirs d).isSome = true
  listener : skips globalName ⟨d, true⟩ = false
  once : (seen s d → s.appeared d = 1) ∧ (¬seen s d → s.appeared d = 0)
  nodup : s.stream.Nodup
  buffered : ∀ e, s.entry = some e → e ∉ s.stream
  ended : s.atEnd = true → s.stream = []
  unhandled : s.pc = .reading → s.atEnd = false
  finished : ∀ rc, s.pc = .finished rc → s.atEnd = true

theorem linkInto_frame (s : State) (d file : CStr) :
    (linkInto s d file).stream = s.stream ∧ (linkInto s d file).entry = s.entry ∧
      (linkInto s d file).atEnd = s.atEnd ∧
      (∀ d' ≠ d, (linkInto s d file).appeared d' = s.appeared d') ∧
      ∀ d', (s.dirs d').isSome = true → ((linkInto s d file).dirs d').isSome = true := by
  unfold linkInto
  split
  · exact ⟨rfl, rfl, rfl, fun _ _ => rfl, fun _ h => h⟩
  · split
    · exact ⟨rfl, rfl, rfl, fun _ _ => rfl, fun _ h => h⟩
    · refine ⟨rfl, rfl, rfl, fun d' hd => Function.update_of_ne hd .., fun d' h => ?_⟩
      by_cases hd : d' = d
      · rw [hd]
        dsimp only
        rw [Function.update_self]
        rfl
      · dsimp only
        rw [Function.update_of_ne hd]
        exact h

theorem appeared_linkInto (s : State) (d file : CStr) (files : List CStr)
    (hd : s.dirs d = some files) :
    (linkInto s d file).appeared d = s.appeared d + if file ∈ files then 0 else 1 := by
  unfold linkInto
  rw [hd]
  dsimp only
  split_ifs
  · rfl
  · exact Function.update_self ..

section Steps

variable {globalName file d : CStr} {s t : State}

/-- Reading the next entry. -/
theorem Inv.read (h : Inv globalName d s) (hpc : s.pc = .reading)
    (hstep : multicastStep globalName file none s = some t) : Inv globalName d t := by
  have hend := h.unhandled hpc
  unfold multicastStep at hstep
  rw [hpc] at hstep
  dsimp only at hstep
  split at hstep
  · contradiction
  · rename_i hstream
    cases Option.some.inj hstep
    have hseen : seen { s with atEnd := true, pc := .handling } d ↔ seen s d := by
      simp [seen, hpc]
    refine ⟨h.there, h.listener, ?_, h.nodup, h.buffered, fun _ => hstream, by simp, by simp⟩
    rw [hseen]
    exact h.once
  · rename_i e rest _ hstream
    cases Option.some.inj hstep
    have hnodup := h.nodup
    rw [hstream] at hnodup
    obtain ⟨hnew, hrest⟩ := List.nodup_cons.mp hnodup
    have hseen : seen { s with entry := some e, stream := rest, pc := .handling } d ↔ seen s d := by
      simp only [seen, hpc, hstream, hend, List.mem_cons, not_or]
      constructor
      · rintro ⟨hmem, hbuf⟩
        refine ⟨⟨fun heq => ?_, hmem⟩, by simp⟩
        exact Bool.false_ne_true (hbuf trivial (by rw [heq]))
      · rintro ⟨⟨hne, hmem⟩, _⟩
        exact ⟨hmem, fun _ heq => absurd (Option.some.inj heq).symm hne⟩
    refine ⟨h.there, h.listener, ?_, hrest, ?_, ?_, by simp, by simp⟩
    · rw [hseen]
      exact h.once
    · intro e' he'
      cases Option.some.inj he'
      exact hnew
    · intro htrue
      rw [hend] at htrue
      cases htrue

/-- Handling the buffer links the event into the directory of the listener when it is there for
the first time, and only then. -/
theorem appeared_linked (h : Inv globalName d s)
    (hok : ∀ e files, s.entry = some e → skips globalName e = false → s.dirs e.name = some files →
      (file ∈ files ↔ s.atEnd = true)) (e : Entry) (hentry : s.entry = some e)
    (hlink : skips globalName e = false) :
    (linkInto s e.name file).appeared d =
      s.appeared d + if e.name = d ∧ s.atEnd = false then 1 else 0 := by
  by_cases hd : e.name = d
  · subst hd
    obtain ⟨files, hfiles⟩ := Option.isSome_iff_exists.mp h.there
    have hiff := hok e files hentry hlink hfiles
    rw [appeared_linkInto s e.name file files hfiles]
    cases hend : s.atEnd with
    | true => rw [if_pos (hiff.mpr hend), if_neg (by simp)]
    | false =>
      have hnot : file ∉ files := fun hmem => by
        rw [hiff.mp hmem] at hend
        cases hend
      rw [if_neg hnot, if_pos ⟨rfl, rfl⟩]
  · rw [(linkInto_frame s e.name file).2.2.2.1 d (Ne.symm hd), if_neg fun hboth => hd hboth.1]
    rfl

theorem handleEntry_frame (h : Inv globalName d s) :
    (handleEntry globalName file s).stream = s.stream ∧
      (handleEntry globalName file s).entry = s.entry ∧
      (handleEntry globalName file s).atEnd = s.atEnd ∧
      ((handleEntry globalName file s).dirs d).isSome = true := by
  unfold handleEntry
  split
  · exact ⟨rfl, rfl, rfl, h.there⟩
  · rename_i e _
    split_ifs
    · exact ⟨rfl, rfl, rfl, h.there⟩
    · obtain ⟨hstream, hentry, hend, _, hdirs⟩ := linkInto_frame s e.name file
      exact ⟨hstream, hentry, hend, hdirs d h.there⟩

/-- After the buffer was handled, the event has come to be once in the directories that
`readdir_r` has returned. -/
theorem appeared_handleEntry (h : Inv globalName d s) (hpc : s.pc = .handling)
    (hok : ∀ e files, s.entry = some e → skips globalName e = false → s.dirs e.name = some files →
      (file ∈ files ↔ s.atEnd = true)) :
    (⟨d, true⟩ ∉ s.stream → (handleEntry globalName file s).appeared d = 1) ∧
      (⟨d, true⟩ ∈ s.stream → (handleEntry globalName file s).appeared d = 0) := by
  have honce := h.once
  unfold handleEntry
  split
  · rename_i hnone
    have hseen : seen s d ↔ ⟨d, true⟩ ∉ s.stream := by simp [seen, hnone]
    rw [hseen, not_not] at honce
    exact honce
  · rename_i e hentry
    split_ifs with hskip
    · have hne : e ≠ ⟨d, true⟩ := by
        rintro rfl
        rw [h.listener] at hskip
        cases hskip
      have hseen : seen s d ↔ ⟨d, true⟩ ∉ s.stream := by simp [seen, hentry, hne]
      rw [hseen, not_not] at honce
      exact honce
    · have hlink := Bool.eq_false_of_not_eq_true hskip
      have hdir : e = ⟨e.name, true⟩ := by
        obtain ⟨name, isDir⟩ := e
        cases isDir with
        | true => rfl
        | false => simp [skips] at hlink
      have hseen : seen s d ↔ ⟨d, true⟩ ∉ s.stream ∧ ¬(e.name = d ∧ s.atEnd = false) := by
        rw [seen, hentry, hdir]
        simp [hpc]
      rw [appeared_linked h hok e hentry hlink]
      by_cases hfirst : e.name = d ∧ s.atEnd = false
      · have hbuf := h.buffered e hentry
        rw [hdir, hfirst.1] at hbuf
        rw [if_pos hfirst, honce.2 fun hs => (hseen.mp hs).2 hfirst]
        exact ⟨fun _ => rfl, fun hmem => absurd hmem hbuf⟩
      · rw [if_neg hfirst, Nat.add_zero]
        exact ⟨fun hmem => honce.1 (hseen.mpr ⟨hmem, hfirst⟩),
          fun hmem => honce.2 fun hs => (hseen.mp hs).1 hmem⟩

theorem Inv.handle (h : Inv globalName d s) (hpc : s.pc = .handling) (failure : Option Errno)
    (hok : ∀ e files, s.entry = some e → skips globalName e = false → s.dirs e.name = some files →
      (file ∈ files ↔ s.atEnd = true))
    (hstep : multicastStep globalName file failure s = some t) : Inv globalName d t := by
  unfold multicastStep at hstep
  rw [hpc] at hstep
  cases Option.some.inj hstep
  obtain ⟨hstream, hentry, hend, hthere⟩ := handleEntry_frame h
  have hdone : (if s.atEnd = true then Pc.finished 0 else Pc.reading) ≠ .handling := by
    split_ifs <;> simp
  have hseen : seen { handleEntry globalName file s with
      pc := if s.atEnd = true then .finished 0 else .reading } d ↔ ⟨d, true⟩ ∉ s.stream := by
    rw [seen]
    dsimp only
    rw [hstream]
    exact and_iff_left fun hp => absurd hp hdone
  refine ⟨hthere, h.listener, ?_, hstream ▸ h.nodup, fun e he => ?_, fun he => ?_, fun hr => ?_,
    fun rc hf => ?_⟩
  · rw [hseen, not_not]
    exact appeared_handleEntry h hpc hok
  · rw [hstream]
    exact h.buffered e (hentry.symm.trans he)
  · rw [hstream]
    exact h.ended (hend.symm.trans he)
  · dsimp only at hr ⊢
    rw [hend]
    split_ifs at hr with he
    exact Bool.eq_false_of_not_eq_true he
  · dsimp only at hf ⊢
    rw [hend]
    split_ifs at hf with he
    exact he

/-- The listeners take files and come and go; this one stays. -/
theorem Inv.listeners (h : Inv globalName d s) (dirs : CStr → Option (List CStr))
    (hthere : (dirs d).isSome = true) : Inv globalName d { s with dirs := dirs } :=
  ⟨hthere, h.listener, h.once, h.nodup, h.buffered, h.ended, h.unhandled, h.finished⟩

theorem Inv.step {l : Label} (h : Inv globalName d s) (hok : Delivers globalName file l s)
    (hstay : l ≠ .leave d) (hstep : step globalName file l s = some t) : Inv globalName d t := by
  have hupdate : ∀ d' v, (d' = d → v.isSome = true) →
      (Function.update s.dirs d' v d).isSome = true := by
    intro d' v hv
    by_cases hd : d = d'
    · subst hd
      rw [Function.update_self]
      exact hv rfl
    · rw [Function.update_of_ne hd]
      exact h.there
  cases l with
  | multicast failure =>
    cases hpc : s.pc with
    | reading =>
      unfold Delivers at hok
      rw [hpc] at hok
      cases (hok : failure = none)
      exact h.read hpc hstep
    | handling =>
      unfold Delivers at hok
      rw [hpc] at hok
      exact h.handle hpc failure hok hstep
    | finished rc =>
      unfold Multicast.step multicastStep at hstep
      rw [hpc] at hstep
      cases hstep
  | consume d' file' =>
    obtain ⟨files, _, rfl⟩ := Option.map_eq_some_iff.mp hstep
    exact h.listeners _ (hupdate d' _ fun _ => rfl)
  | join d' =>
    unfold Multicast.step at hstep
    dsimp only at hstep
    split at hstep
    · cases Option.some.inj hstep
      exact h.listeners _ (hupdate d' _ fun _ => rfl)
    · contradiction
  | leave d' =>
    obtain ⟨files, _, rfl⟩ := Option.map_eq_some_iff.mp hstep
    exact h.listeners _ (hupdate d' _ fun hd => absurd (congrArg Label.leave hd) hstay)

/-- The event is not linked into the global queue. -/
theorem global_step {l : Label} (h : s.appeared globalName = 0)
    (hstep : step globalName file l s = some t) : t.appeared globalName = 0 := by
  cases l with
  | multicast failure =>
    unfold Multicast.step multicastStep at hstep
    dsimp only at hstep
    split at hstep
    · split at hstep
      · cases Option.some.inj hstep
        exact h
      · cases Option.some.inj hstep
        exact h
      · cases Option.some.inj hstep
        exact h
    · cases Option.some.inj hstep
      dsimp only
      unfold handleEntry
      split
      · exact h
      · rename_i e _
        split_ifs with hskip
        · exact h
        · have hne : globalName ≠ e.name := by
            intro heq
            simp [skips, heq] at hskip
          rw [(linkInto_frame s e.name file).2.2.2.1 globalName hne]
          exact h
    · contradiction
  | consume d' file' =>
    obtain ⟨files, _, rfl⟩ := Option.map_eq_some_iff.mp hstep
    exact h
  | join d' =>
    unfold Multicast.step at hstep
    dsimp only at hstep
    split at hstep
    · cases Option.some.inj hstep
      exact h
    · contradiction
  | leave d' =>
    obtain ⟨files, _, rfl⟩ := Option.map_eq_some_iff.mp hstep
    exact h

end Steps

theorem inv_start (globalName d : CStr) (dirs : CStr → Option (List CStr)) (entries : List Entry)
    (hthere : (dirs d).isSome = true) (hlistener : skips globalName ⟨d, true⟩ = false)
    (hmem : ⟨d, true⟩ ∈ entries) (hnodup : entries.Nodup) :
    Inv globalName d (start dirs entries) where
  there := hthere
  listener := hlistener
  once := ⟨fun hs => absurd hmem hs.1, fun _ => rfl⟩
  nodup := hnodup
  buffered := fun _ he => by cases he
  ended := fun he => by cases he
  unhandled := fun _ => rfl
  finished := fun _ hf => by cases hf

/-- The path that `make_event_path` prints, where the buffer has room for it. -/
def makeEventPath (devEvents : CStr) (seqnum : BitVec 64) : CStr :=
  devEvents ++ '/' :: eventName seqnum

/-- A run of `multicast_event` brings the event once into the directory of each listener that is
there throughout, which `readdir_r` therefore returns once, and not into the global queue. -/
theorem once_of_delivers (root globalName : CStr) (seqnum : BitVec 64)
    (dirs : CStr → Option (List CStr)) (entries : List Entry) (ls : List Label) (t : State)
    (rc : Int) (hname : '/' ∉ globalName) (hne : globalName ≠ []) (hnodup : entries.Nodup)
    (hok : Runs.Guarded (step globalName (eventName seqnum))
      (Delivers globalName (eventName seqnum)) ls (start dirs entries))
    (hrun : Runs.run (step globalName (eventName seqnum)) ls (start dirs entries) = some t)
    (hfinished : t.pc = .finished rc) :
    queueNames (makeEventPath (root ++ '/' :: globalName) seqnum) =
        some (root ++ ['/'], globalName) ∧
      (∀ d, (dirs d).isSome = true → .leave d ∉ ls → ⟨d, true⟩ ∈ entries → d ≠ ".".toList →
        d ≠ "..".toList → d ≠ globalName → t.appeared d = 1) ∧
      t.appeared globalName = 0 := by
  have hdigits := Decimal.isDigit_of_mem_decimal seqnum.toNat
  have hslash : '/' ∉ eventName seqnum := fun hmem => by
    have hdigit := hdigits '/' hmem
    revert hdigit
    decide
  refine ⟨?_, fun d hthere hstay hmem hdot hdots hd => ?_, ?_⟩
  · rw [makeEventPath, List.append_assoc, List.cons_append]
    exact queueNames_eq root globalName _ hname hslash hne (Decimal.decimal_ne_nil _)
  · have hlistener : skips globalName ⟨d, true⟩ = false := by
      simp only [skips, beq_false_of_ne hdot, beq_false_of_ne hdots, beq_false_of_ne hd.symm]
      rfl
    have hkeeps : ∀ l ∈ ls, l ≠ .leave d := fun l hl heq => hstay (heq ▸ hl)
    have hboth := Runs.Guarded.and _ hok hkeeps
    have hinv : Inv globalName d t := Runs.guarded_invariant _ (Inv globalName d)
      (fun l s s' hok h hstep => Inv.step h hok.1 hok.2 hstep) hboth
      (inv_start globalName d dirs entries hthere hlistener hmem hnodup) hrun
    refine hinv.once.1 ⟨?_, fun hpc => ?_⟩
    · rw [hinv.ended (hinv.finished rc hfinished)]
      exact List.not_mem_nil
    · rw [hfinished] at hpc
      cases hpc
  · exact Runs.run_invariant (step globalName (eventName seqnum))
      (fun s => s.appeared globalName = 0) (fun l s s' h hstep => global_step h hstep) rfl hrun

def globalQueue : CStr := "global".toList

/-- One listener, whose directory `readdir_r` returns first or last. -/
def listenerFirst : List Entry := [⟨"m".toList, true⟩, ⟨globalQueue, true⟩]
def listenerLast : List Entry := [⟨globalQueue, true⟩, ⟨"m".toList, true⟩]

def oneListener : CStr → Option (List CStr) := fun d => if d = "m".toList then some [] else none

/-- The run in which the listener takes event 7 before the end of the directory. -/
def quickListener : List Label :=
  List.replicate 4 (.multicast none) ++
    [.consume "m".toList (eventName 7), .multicast none, .multicast none]

def deliversCheck (globalName file : CStr) (l : Label) (s : State) : Bool :=
  match l, s.pc with
  | .multicast failure, .reading => failure.isNone
  | .multicast _, .handling =>
    match s.entry with
    | none => true
    | some e =>
      skips globalName e ||
        match s.dirs e.name with
        | none => true
        | some files => decide (file ∈ files) == s.atEnd
  | _, _ => true

theorem delivers_of_check (globalName file : CStr) (l : Label) (s : State)
    (h : deliversCheck globalName file l s = true) : Delivers globalName file l s := by
  unfold deliversCheck at h
  unfold Delivers
  split at h
  · exact Option.isNone_iff_eq_none.mp h
  · intro e files hentry hlink hfiles
    rw [hentry] at h
    dsimp only at h
    rw [hlink, Bool.false_or, hfiles] at h
    rw [← beq_iff_eq.mp h, decide_eq_true_iff]
  · trivial

theorem once_of_delivers_first :
    ∃ t, Runs.run (step globalQueue (eventName 7)) quickListener
        (start oneListener listenerFirst) = some t ∧
      t.pc = .finished 0 ∧ t.appeared "m".toList = 1 ∧ t.appeared globalQueue = 0 := by
  have hview : (Runs.run (step globalQueue (eventName 7)) quickListener
      (start oneListener listenerFirst)).map State.pc = some (.finished 0) := by decide +kernel
  obtain ⟨t, hrun, hfinished⟩ := Option.map_eq_some_iff.mp hview
  have hok : Runs.Guarded (step globalQueue (eventName 7)) (Delivers globalQueue (eventName 7))
      quickListener (start oneListener listenerFirst) :=
    Runs.guarded_of_check _ (deliversCheck globalQueue (eventName 7))
      (delivers_of_check globalQueue (eventName 7)) _ _ (by decide +kernel)
  obtain ⟨_, honce, hglobal⟩ := once_of_delivers "/dev/events".toList globalQueue 7 oneListener
    listenerFirst quickListener t 0 (by decide) (by decide) (by decide) hok hrun hfinished
  refine ⟨t, hrun, hfinished, ?_, hglobal⟩
  exact honce "m".toList rfl (by decide +kernel) (by decide) (by decide) (by decide) (by decide)

/-- When its directory is returned last, the quick listener gets the event twice. -/
theorem twice_quickListener :
    ∃ t, Runs.run (step globalQueue (eventName 7)) quickListener
        (start oneListener listenerLast) = some t ∧
      t.pc = .finished 0 ∧ t.appeared "m".toList = 2 := by
  have hview : (Runs.run (step globalQueue (eventName 7)) quickListener
      (start oneListener listenerLast)).map (fun t => (t.pc, t.appeared "m".toList)) =
        some (.finished 0, 2) := by decide +kernel
  obtain ⟨t, hrun, hseen⟩ := Option.map_eq_some_iff.mp hview
  obtain ⟨hfinished, htwice⟩ := Prod.mk.inj hseen
  exact ⟨t, hrun, hfinished, htwice⟩

end Vdev.Multicast
