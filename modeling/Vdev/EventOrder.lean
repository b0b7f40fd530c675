import Vdev.EventQueue

/-!
The order in which `udev_monitor_fs_push_events` pushes the events of a directory. The
directory is scanned in the order of the names, which are the decimal texts of the
sequence numbers. This is the order of the numbers as long as no number with more
digits comes before a number with fewer digits.
-/
namespace Vdev.EventOrder

open CString FileTree Decimal EventQueue

variable {δ : Type}

/-- The monitor `s`, with no call under way, after the events `S` are linked into its
empty directory. -/
def linkAll (contents : BitVec 64 → CStr) (s : Monitor) : List (BitVec 64) → Monitor
  | [] => { s with dir := ∅, call := .idle }
  | n :: S => linkEvent (linkAll contents s S) (eventName n) (contents n)

/-- Each call pushes its events in strictly increasing order of their numbers. -/
def PushedInOrder (L : Libudev δ) (s : Monitor) : Prop :=
  ∀ ls t, .scan ∉ ls → Runs.run (step L) (.scan :: ls) s = some t →
    ∃ pushed : List (BitVec 64),
      t.written.map Prod.fst = s.written.map Prod.fst ++ pushed.map eventName ∧
        pushed.Pairwise (· < ·)

theorem eventName_injective : Function.Injective eventName := by
  intro a b h
  exact BitVec.eq_of_toNat_eq (decimal_injective h)

theorem linkEvent_call (s : Monitor) (name content : CStr) :
    (linkEvent s name content).call = s.call := by
  unfold linkEvent
  split <;> rfl

theorem linkAll_call (contents : BitVec 64 → CStr) (s : Monitor) (S : List (BitVec 64)) :
    (linkAll contents s S).call = .idle := by
  induction S with
  | nil => rfl
  | cons n S ih => rw [linkAll, linkEvent_call, ih]

/-- The directory holds the linked events and nothing else. -/
theorem mem_linkAll (contents : BitVec 64 → CStr) (s : Monitor) (S : List (BitVec 64))
    (name : CStr) : name ∈ (linkAll contents s S).dir ↔ name ∈ S.map eventName := by
  induction S with
  | nil => simp [linkAll, Finmap.notMem_empty]
  | cons n S ih =>
    rw [List.map_cons, List.mem_cons, ← ih, linkAll, linkEvent]
    split_ifs with hold
    · exact ⟨Or.inr, fun h => h.elim (fun h => h ▸ hold) id⟩
    · exact Finmap.mem_insert

theorem lookup_linkAll (contents : BitVec 64 → CStr) (s : Monitor) (S : List (BitVec 64))
    (n : BitVec 64) (hn : n ∈ S) :
    (linkAll contents s S).dir.lookup (eventName n) = some (contents n) := by
  induction S with
  | nil => cases hn
  | cons m S ih =>
    by_cases hmem : n ∈ S
    · have hdir : eventName n ∈ (linkAll contents s S).dir :=
        (mem_linkAll contents s S _).mpr (List.mem_map_of_mem hmem)
      rw [linkAll, linkEvent]
      split_ifs with hold
      · exact ih hmem
      · have hne : eventName n ≠ eventName m := fun h => hold (h ▸ hdir)
        exact (Finmap.lookup_insert_of_ne _ hne).trans (ih hmem)
    · have hnm : n = m := (List.mem_cons.mp hn).resolve_right hmem
      subst hnm
      have hnew : eventName n ∉ (linkAll contents s S).dir := by
        rw [mem_linkAll]
        intro h
        obtain ⟨m, hm, heq⟩ := List.mem_map.mp h
        exact hmem (eventName_injective heq ▸ hm)
      rw [linkAll, linkEvent, if_neg hnew]
      exact Finmap.lookup_insert _

theorem scandirat_sorted (s : Monitor) : (scandirat s).Pairwise (· ≤ ·) := by
  apply List.Pairwise.filter
  generalize (['.'] ::ₘ ['.', '.'] ::ₘ s.dir.keys.val : Multiset CStr) = names
  induction names using Quot.inductionOn with
  | h l => exact List.pairwise_insertionSort _ l

/-- The names that one call scans are those of some of the events. -/
theorem scandirat_linkAll (contents : BitVec 64 → CStr) (s : Monitor) (S : List (BitVec 64)) :
    ∃ ns : List (BitVec 64), scandirat (linkAll contents s S) = ns.map eventName ∧
      ∀ n ∈ ns, n ∈ S := by
  have hsub := scandirat_subset (linkAll contents s S)
  generalize scandirat (linkAll contents s S) = names at hsub
  induction names with
  | nil => exact ⟨[], rfl, fun n hn => by cases hn⟩
  | cons name names ih =>
    obtain ⟨ns, hns, hmem⟩ := ih (fun x hx => hsub x (List.mem_cons_of_mem _ hx))
    obtain ⟨n, hn, rfl⟩ :=
      List.mem_map.mp ((mem_linkAll contents s S name).mp (hsub name List.mem_cons_self))
    refine ⟨n :: ns, by rw [hns]; rfl, fun m hm => ?_⟩
    rcases List.mem_cons.mp hm with rfl | hm
    · exact hn
    · exact hmem m hm

def toPush : Call → List CStr
  | .idle => []
  | .pushing name rest => name :: rest
  | .unlinking _ _ rest => rest

theorem toPush_nextCall (names : List CStr) : toPush (nextCall names) = names := by
  cases names <;> rfl

theorem sendDevice_some {L : Libudev δ} {dev : δ} {msg : CStr} {accepted : Bool} {rc : Int}
    (h : sendDevice L dev accepted = (rc, some msg)) : accepted = true ∧ 0 ≤ rc := by
  unfold sendDevice at h
  by_cases hshort : (L.monitorBuf dev).length < 32
  · simp [hshort] at h
  · cases accepted with
    | false => simp [hshort] at h
    | true =>
      have hrc : (40 + (L.monitorBuf dev).length : Int) = rc := by
        simpa [hshort] using congrArg Prod.fst h
      exact ⟨rfl, by omega⟩

/-- An event is sent when it is well-formed. -/
theorem pushEvent_some {L : Libudev δ} {content msg : CStr} {accepted : Bool} {rc : Int}
    (h : pushEvent L content accepted = (rc, some msg)) : WellFormed L content := by
  have hresult : accepted = true ∧ rc = 0 := by
    unfold pushEvent at h
    dsimp only at h
    split_ifs at h
    · cases h
    · cases h
    · cases h
    · split at h
      · cases h
      · rename_i dev _
        cases hsend : sendDevice L dev accepted with
        | mk rc' m =>
          rw [hsend] at h
          dsimp only at h
          obtain ⟨hrc, rfl⟩ := Prod.mk.inj h
          obtain ⟨hacc, hpos⟩ := sendDevice_some hsend
          rw [if_neg (by omega)] at hrc
          exact ⟨hacc, hrc.symm⟩
  obtain ⟨rfl, rfl⟩ := hresult
  exact ⟨msg, h⟩

def Sendable (L : Libudev δ) (s : Monitor) (name : CStr) : Prop :=
  ∃ content, s.dir.lookup name = some content ∧ WellFormed L content

/-- During a call that began in `s₀`, the events that were pushed and those that are left
stand in the order of the scan, and the files of those that are left are unchanged. -/
structure Ordered (L : Libudev δ) (s₀ s : Monitor) : Prop where
  nodup : (scannedNames s.call).Nodup
  unchanged : ∀ name ∈ toPush s.call, s.dir.lookup name = s₀.dir.lookup name
  pushed : ∃ pushed, s.written.map Prod.fst = s₀.written.map Prod.fst ++ pushed ∧
    (pushed ++ toPush s.call).Sublist (scandirat s₀) ∧ ∀ name ∈ pushed, Sendable L s₀ name

/-- A step that takes some names from the call keeps the order. -/
theorem Ordered.drop {L : Libudev δ} {s₀ s s' : Monitor} (h : Ordered L s₀ s)
    (hnodup : (scannedNames s'.call).Sublist (scannedNames s.call))
    (hleft : (toPush s'.call).Sublist (toPush s.call)) (hwritten : s'.written = s.written)
    (hdir : ∀ name ∈ toPush s'.call, s'.dir.lookup name = s.dir.lookup name) :
    Ordered L s₀ s' := by
  obtain ⟨pushed, hw, hsub, hsend⟩ := h.pushed
  refine ⟨h.nodup.sublist hnodup, fun name hname => ?_, pushed, ?_, ?_, hsend⟩
  · rw [hdir name hname, h.unchanged name (hleft.subset hname)]
  · rw [hwritten, hw]
  · exact (hleft.append_left pushed).trans hsub

theorem move_ordered {L : Libudev δ} {l : Label} {s₀ s s' : Monitor} (hmove : Move L s l s')
    (hl : l ≠ .scan) (h : Ordered L s₀ s) : Ordered L s₀ s' := by
  cases hmove with
  | @link name content hnew =>
    refine h.drop (List.Sublist.refl _) (List.Sublist.refl _) rfl ?_
    intro other hother
    apply Finmap.lookup_insert_of_ne
    rintro rfl
    obtain ⟨pushed, _, hsub, _⟩ := h.pushed
    have hmem := scandirat_subset s₀ other (hsub.subset (List.mem_append_right _ hother))
    apply hnew
    rw [Finmap.mem_iff] at hmem ⊢
    rwa [h.unchanged other hother]
  | linkRefused hold => exact h
  | receive hsock =>
    exact h.drop (List.Sublist.refl _) (List.Sublist.refl _) rfl (fun _ _ => rfl)
  | scan hcall => exact absurd rfl hl
  | @skip name rest opened accepted hcall hskip =>
    refine h.drop ?_ ?_ rfl (fun _ _ => rfl)
    · rw [hcall]
      exact List.Sublist.refl _
    · rw [hcall]
      exact List.sublist_cons_self name rest
  | @refused name content rest accepted rc hcall hfile hpush =>
    refine h.drop ?_ ?_ rfl (fun _ _ => rfl)
    · rw [hcall]
      exact List.Sublist.refl _
    · rw [hcall]
      exact List.sublist_cons_self name rest
  | @sent name content msg rest accepted rc hcall hfile hpush =>
    obtain ⟨hnodup, hunchanged, pushed, hw, hsub, hsend⟩ := h
    rw [hcall] at hnodup hunchanged hsub
    refine ⟨hnodup, fun other hother => hunchanged other (List.mem_cons_of_mem _ hother),
      pushed ++ [name], ?_, ?_, fun other hother => ?_⟩
    · rw [List.map_append, hw, List.append_assoc]
      rfl
    · rw [List.append_assoc]
      exact hsub
    · rcases List.mem_append.mp hother with hother | hother
      · exact hsend other hother
      · rw [List.mem_singleton.mp hother]
        refine ⟨content, ?_, pushEvent_some hpush⟩
        rw [← hunchanged name List.mem_cons_self, hfile]
  | @unlink name rc rest hcall =>
    have hleft : (toPush (if goesOn rc then nextCall rest else .idle)).Sublist rest := by
      split
      · rw [toPush_nextCall]
      · exact List.nil_sublist rest
    have hnames : (scannedNames (if goesOn rc then nextCall rest else .idle)).Sublist rest := by
      split
      · rw [scannedNames_nextCall]
      · exact List.nil_sublist rest
    have hfresh : name ∉ rest := by
      have hnodup := h.nodup
      rw [hcall] at hnodup
      exact (List.nodup_cons.mp hnodup).1
    refine h.drop ?_ ?_ rfl ?_
    · rw [hcall]
      exact hnames.trans (List.sublist_cons_self name rest)
    · rw [hcall]
      exact hleft
    · intro other hother
      apply Finmap.lookup_erase_ne
      rintro rfl
      exact hfresh (hleft.subset hother)

/-- One call pushes some of the names that it scans, in the order of the scan. -/
theorem run_ordered {L : Libudev δ} {ls : List Label} {s t : Monitor} (hls : .scan ∉ ls)
    (h : Runs.run (step L) (.scan :: ls) s = some t) :
    ∃ pushed, t.written.map Prod.fst = s.written.map Prod.fst ++ pushed ∧
      pushed.Sublist (scandirat s) ∧ ∀ name ∈ pushed, Sendable L s name := by
  obtain ⟨s', hscan, hrun⟩ := Runs.run_cons_eq_some _ h
  have hstart : Ordered L s s' := by
    cases step_move hscan with
    | scan hcall =>
      refine ⟨?_, fun _ _ => rfl, [], (List.append_nil _).symm, ?_, fun _ h => by cases h⟩
      · rw [scannedNames_nextCall]
        exact scandirat_nodup s
      · rw [toPush_nextCall]
        exact List.Sublist.refl _
  have hguard : Runs.Guarded (step L) (fun l _ => l ≠ .scan) ls s' := by
    apply Runs.guarded_of_forall
    rintro l hl _ rfl
    exact hls hl
  have hend : Ordered L s t := by
    apply Runs.guarded_invariant (step L) (Ordered L s) _ hguard hstart hrun
    intro l u u' hl hu hstep
    exact move_ordered (step_move hstep) hl hu
  obtain ⟨pushed, hw, hsub, hsend⟩ := hend.pushed
  exact ⟨pushed, hw, (List.sublist_append_left _ _).trans hsub, hsend⟩

/-- The rounds of a call in which the files that `o` picks are sent, and the others
cannot be opened. -/
def pushAll (o : CStr → Bool) (names : List CStr) : List Label :=
  names.flatMap (fun name => [.push (o name) true, .unlink])

theorem scan_notMem_pushAll (o : CStr → Bool) (names : List CStr) : .scan ∉ pushAll o names := by
  simp [pushAll]

/-- One round of a call. -/
theorem run_round {L : Libudev δ} (o : CStr → Bool) (name : CStr) (names : List CStr) (s : Monitor)
    (hcall : s.call = .pushing name names) (hsend : o name = true → Sendable L s name) :
    ∃ s', Runs.run (step L) [.push (o name) true, .unlink] s = some s' ∧
      s'.call = nextCall names ∧ s'.dir = s.dir.erase name ∧
      s'.written.map Prod.fst = s.written.map Prod.fst ++ [name].filter o := by
  cases ho : o name with
  | false =>
    refine ⟨{ s with dir := s.dir.erase name, call := nextCall names }, ?_, rfl, rfl, ?_⟩
    · cases hfile : s.dir.lookup name <;> simp [Runs.run, step, hcall, pushStep, hfile, goesOn]
    · simp [ho]
  | true =>
    obtain ⟨content, hfile, msg, hpush⟩ := hsend ho
    refine ⟨{ s with
      dir := s.dir.erase name
      call := nextCall names
      sock := s.sock ++ [msg]
      written := s.written ++ [(name, content)] }, ?_, rfl, rfl, ?_⟩
    · simp [Runs.run, step, hcall, pushStep, hfile, hpush, goesOn]
    · simp [ho]

/-- A call sends the files that `o` picks, in the order of the scan. -/
theorem run_pushAll {L : Libudev δ} (o : CStr → Bool) (names : List CStr) (s : Monitor)
    (hcall : s.call = nextCall names) (hnodup : names.Nodup)
    (hsend : ∀ name ∈ names, o name = true → Sendable L s name) :
    ∃ t, Runs.run (step L) (pushAll o names) s = some t ∧
      t.written.map Prod.fst = s.written.map Prod.fst ++ names.filter o := by
  induction names generalizing s with
  | nil => exact ⟨s, rfl, by simp⟩
  | cons name names ih =>
    obtain ⟨hfresh, hnodup⟩ := List.nodup_cons.mp hnodup
    obtain ⟨s', hround, hcall', hdir, hwritten⟩ :=
      run_round o name names s hcall (hsend name List.mem_cons_self)
    obtain ⟨t, hrun, ht⟩ := ih s' hcall' hnodup (fun other hother ho => by
      obtain ⟨content, hfile, hwell⟩ := hsend other (List.mem_cons_of_mem _ hother) ho
      refine ⟨content, ?_, hwell⟩
      have hne : other ≠ name := fun h => hfresh (h ▸ hother)
      rw [hdir, Finmap.lookup_erase_ne hne, hfile])
    refine ⟨t, ?_, ?_⟩
    · obtain ⟨u, hpush, hunlink⟩ := Runs.run_cons_eq_some _ hround
      obtain ⟨u', hunlink, hnil⟩ := Runs.run_cons_eq_some _ hunlink
      cases Option.some.inj hnil
      calc Runs.run (step L) (pushAll o (name :: names)) s
          = Runs.run (step L) (.unlink :: pushAll o names) u := by
            simp [pushAll, Runs.run, hpush]
        _ = some t := by
            rw [Runs.run, hunlink]
            exact hrun
    · rw [ht, hwritten, List.append_assoc, ← List.filter_append]
      rfl

/-- The name of `a` comes before the name of a later event `b`. -/
def KeepsOrder (a b : BitVec 64) : Prop :=
  a.toNat * 10 ^ ((eventName b).length - (eventName a).length) ≤ b.toNat

theorem eventName_lt_iff {a b : BitVec 64} (hab : a < b) :
    eventName a < eventName b ↔ KeepsOrder a b := by
  have hlt : a.toNat < b.toNat := hab
  exact decimal_lt_iff a.toNat b.toNat hlt.ne (length_decimal_mono hlt.le)

/-- Sequence numbers with names in increasing order are in increasing order, when the
names keep the order of the numbers. -/
theorem pairwise_lt_of_names (ns : List (BitVec 64)) (hnames : (ns.map eventName).Pairwise (· ≤ ·))
    (hnodup : (ns.map eventName).Nodup)
    (hkeeps : ∀ a ∈ ns, ∀ b ∈ ns, a < b → KeepsOrder a b) : ns.Pairwise (· < ·) := by
  have hstrict : ns.Pairwise (fun a b => eventName a < eventName b) := by
    rw [← List.pairwise_map]
    exact (hnames.and hnodup).imp (fun h => lt_of_le_of_ne h.1 h.2)
  refine hstrict.imp_of_mem (fun {a b} ha hb hab => ?_)
  by_contra hge
  have hba : b < a := by
    apply BitVec.lt_of_le_ne (BitVec.not_lt.mp hge)
    rintro rfl
    exact lt_irrefl _ hab
  exact lt_asymm hab ((eventName_lt_iff hba).mpr (hkeeps b hb a ha hba))

theorem eventName_mem_scandirat (contents : BitVec 64 → CStr) (s : Monitor) (S : List (BitVec 64))
    (n : BitVec 64) (hn : n ∈ S) : eventName n ∈ scandirat (linkAll contents s S) := by
  refine (mem_scandirat _ _).mpr ⟨(mem_linkAll contents s S _).mpr (List.mem_map_of_mem hn), ?_⟩
  have hdot : ('.' : Char) ∉ eventName n := fun h =>
    absurd (isDigit_of_mem_decimal n.toNat _ h) (by decide)
  have hone : eventName n ≠ ['.'] := fun h => hdot (h ▸ List.mem_cons_self)
  have htwo : eventName n ≠ ['.', '.'] := fun h => hdot (h ▸ List.mem_cons_self)
  simp [scandirFilter, hone, htwo]

theorem pushedInOrder_of_keepsOrder (L : Libudev δ) (contents : BitVec 64 → CStr) (s : Monitor)
    (S : List (BitVec 64))
    (hkeeps : ∀ a ∈ S, ∀ b ∈ S, WellFormed L (contents a) → WellFormed L (contents b) → a < b →
      KeepsOrder a b) : PushedInOrder L (linkAll contents s S) := by
  intro ls t hls hrun
  obtain ⟨names, hwritten, hsub, hsend⟩ := run_ordered hls hrun
  have hsorted := (scandirat_sorted (linkAll contents s S)).sublist hsub
  have hnodup := (scandirat_nodup (linkAll contents s S)).sublist hsub
  obtain ⟨ns, hns, hmem⟩ := scandirat_linkAll contents s S
  rw [hns] at hsub
  obtain ⟨pushed, hpushed, rfl⟩ := List.sublist_map_iff.mp hsub
  have hwell : ∀ n ∈ pushed, n ∈ S ∧ WellFormed L (contents n) := by
    intro n hn
    have hS := hmem n (hpushed.subset hn)
    obtain ⟨content, hfile, hwell⟩ := hsend (eventName n) (List.mem_map_of_mem hn)
    rw [lookup_linkAll contents s S n hS] at hfile
    cases Option.some.inj hfile
    exact ⟨hS, hwell⟩
  refine ⟨pushed, hwritten, pairwise_lt_of_names pushed hsorted hnodup ?_⟩
  intro a ha b hb hab
  exact hkeeps a (hwell a ha).1 b (hwell b hb).1 (hwell a ha).2 (hwell b hb).2 hab

theorem keepsOrder_of_pushedInOrder {L : Libudev δ} {contents : BitVec 64 → CStr} {s : Monitor}
    {S : List (BitVec 64)} (h : PushedInOrder L (linkAll contents s S)) {a b : BitVec 64}
    (ha : a ∈ S) (hb : b ∈ S) (hwa : WellFormed L (contents a)) (hwb : WellFormed L (contents b))
    (hab : a < b) : KeepsOrder a b := by
  -- the call in which only the files of `a` and `b` can be opened
  let o : CStr → Bool := fun name => name == eventName a || name == eventName b
  let s' := { linkAll contents s S with call := nextCall (scandirat (linkAll contents s S)) }
  have hsend : ∀ name, o name = true → Sendable L s' name := by
    intro name ho
    rcases Bool.or_eq_true_iff.mp ho with h | h
    · exact ⟨contents a, by rw [eq_of_beq h]; exact lookup_linkAll contents s S a ha, hwa⟩
    · exact ⟨contents b, by rw [eq_of_beq h]; exact lookup_linkAll contents s S b hb, hwb⟩
  have hscan : step L .scan (linkAll contents s S) = some s' := by
    simp [step, linkAll_call, s']
  obtain ⟨t, hrun, ht⟩ :=
    run_pushAll o _ s' rfl (scandirat_nodup (linkAll contents s S)) (fun name _ => hsend name)
  obtain ⟨pushed, hpushed, horder⟩ := h (pushAll o _) t (scan_notMem_pushAll o _) (by
    rw [Runs.run, hscan]
    exact hrun)
  have hlist : pushed.map eventName = (scandirat (linkAll contents s S)).filter o := by
    apply List.append_cancel_left
    rw [← hpushed, ht]
  have hfound : ∀ n ∈ S, o (eventName n) = true → n ∈ pushed := by
    intro n hn ho
    have hmap : eventName n ∈ pushed.map eventName := by
      rw [hlist]
      exact List.mem_filter.mpr ⟨eventName_mem_scandirat contents s S n hn, ho⟩
    obtain ⟨m, hm, heq⟩ := List.mem_map.mp hmap
    exact eventName_injective heq ▸ hm
  have hnames : pushed.Pairwise (fun x y => eventName x ≤ eventName y) := by
    rw [← List.pairwise_map, hlist]
    exact (scandirat_sorted _).filter o
  let agree : BitVec 64 → BitVec 64 → Prop := fun x y =>
    (x < y → eventName x ≤ eventName y) ∧ (y < x → eventName y ≤ eventName x)
  have hsymm : Std.Symm agree := ⟨fun _ _ h => ⟨h.2, h.1⟩⟩
  have hpair : pushed.Pairwise agree :=
    (horder.and hnames).imp (fun h => ⟨fun _ => h.2, fun hyx => absurd h.1 (BitVec.lt_asymm hyx)⟩)
  have hne : a ≠ b := fun h => BitVec.lt_irrefl a (h ▸ hab)
  have hle := (hpair.forall (hfound a ha (by simp [o])) (hfound b hb (by simp [o])) hne).1 hab
  exact (eventName_lt_iff hab).mp (lt_of_le_of_ne hle (fun h => hne (eventName_injective h)))

/-- The events of a directory are pushed in the order of their numbers exactly when, of
any two well-formed ones, the name of the first comes before the name of the second. -/
theorem pushedInOrder_iff (L : Libudev δ) (contents : BitVec 64 → CStr) (s : Monitor)
    (S : List (BitVec 64)) :
    PushedInOrder L (linkAll contents s S) ↔
      ∀ a ∈ S, ∀ b ∈ S, WellFormed L (contents a) → WellFormed L (contents b) → a < b →
        KeepsOrder a b :=
  ⟨fun h _ ha _ hb hwa hwb hab => keepsOrder_of_pushedInOrder h ha hb hwa hwb hab,
    pushedInOrder_of_keepsOrder L contents s S⟩

/-- Event 10 is pushed before event 9. -/
theorem not_pushedInOrder_nine_ten :
    ¬∀ S : List (BitVec 64), S.Nodup →
      PushedInOrder verbatimLibudev (linkAll (fun _ => nullEvent) freshMonitor S) := by
  intro h
  have hkeeps := keepsOrder_of_pushedInOrder (h [9, 10] (by decide)) (a := 9) (b := 10)
    (by decide) (by decide) wellFormed_nullEvent wellFormed_nullEvent (by decide)
  revert hkeeps
  unfold KeepsOrder
  decide +kernel

end Vdev.EventOrder
