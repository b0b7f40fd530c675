import Vdev.CString
import Vdev.Decimal
import Vdev.Runs

/-!
The table of the monitors of a process. `udev_monitor_register` puts a monitor into the first
free slot, and the slot and the pid make the name of its events directory. The system calls
of `udev_monitor_fs_setup` may fail in any way; what they do to descriptors is left out.
-/
namespace Vdev.MonitorTable

open CString Decimal

/-- The first loop of `itoa10_safe`, which finds the lowest digit first. -/
def digitsUp (val : ℕ) : CStr :=
  if h : 0 < val then Char.ofNat ('0'.toNat + val % 10) :: digitsUp (val / 10) else []
termination_by val
decreasing_by omega

/-- `itoa10_safe`, for an `int` that can be negated. -/
def itoa10Safe (val : ℤ) : CStr :=
  let str := if val.natAbs = 0 then ['0'] else digitsUp val.natAbs
  (str ++ if val < 0 then ['-'] else []).reverse

/-- What `getpid` returns. The kernel does not go up to its `PID_MAX_LIMIT`, so that the
numeral fits into the buffer of `udev_monitor_fs_events_path`. -/
structure Pid where
  val : ℕ
  pos : 0 < val
  lt : val < 2 ^ 22

/-- `UDEV_FS_EVENTS_DIR`. -/
def eventsRoot : CStr := "/dev/metadata/udev/events".toList

/-- `udev_monitor_fs_events_path`. -/
def fsEventsPath (pid : Pid) (name : CStr) (nonce : ℤ) : CStr :=
  -- strnlen bounds what is copied of the two numerals
  let pidbuf := (itoa10Safe pid.val).take 10
  let nonceBuf := (itoa10Safe nonce).take 50
  eventsRoot ++ "/libudev-".toList ++ pidbuf ++ ['-'] ++ nonceBuf ++ ['/'] ++ name

/-- `UDEV_MAX_MONITORS`. -/
@[irreducible] def maxMonitors : ℕ := 32768

/-- The fields of a `struct udev_monitor` that matter here, with the zeros of `calloc`. -/
structure Monitor where
  slot : ℤ := 0
  eventsDir : CStr := []

/-- A process with its monitors. The last two fields are not in the program: they say
for which monitors `udev_monitor_fs_setup` has been called, and which of them it has set up
that were not shut down since. -/
structure Process (ι : Type) where
  table : ℕ → Option ι
  monitors : ι → Monitor
  known : ι → Bool
  live : ι → Bool

def fresh (ι : Type) : Process ι :=
  { table := fun _ => none, monitors := fun _ => {}, known := fun _ => false,
    live := fun _ => false }

/-- The system calls of `udev_monitor_fs_setup`. -/
inductive SetupCall
  | inotifyInit1 | epollCreate1 | mkdir | inotifyAddWatch | socketpair | epollCtlInotify
  | epollCtlSock
  deriving DecidableEq

def ENOSPC : Int := 28

variable {ι : Type} [DecidableEq ι]

def setMonitor (m : ι) (f : Monitor → Monitor) (s : Process ι) : Process ι :=
  { s with monitors := Function.update s.monitors m (f (s.monitors m)) }

/-- `udev_monitor_register`. -/
def register (m : ι) (s : Process ι) : Int × Process ι :=
  match (List.range maxMonitors).find? (fun i => (s.table i).isNone) with
  | some i =>
    (0, setMonitor m (fun c => { c with slot := i })
      { s with table := Function.update s.table i (some m) })
  | none => (-ENOSPC, s)

/-- `udev_monitor_unregister`. -/
def unregister (m : ι) (s : Process ι) : Process ι :=
  if (s.monitors m).slot < 0 then s
  else
    setMonitor m (fun c => { c with slot := -1 })
      { s with table := Function.update s.table (s.monitors m).slot.toNat none }

/-- `udev_monitor_fs_shutdown`, less the descriptors that it closes. -/
def fsShutdown (m : ι) (s : Process ι) : Process ι := unregister m s

/-- `udev_monitor_fs_destroy`, less the removal of the directory. -/
def fsDestroy (m : ι) (s : Process ι) : Process ι := fsShutdown m s

/-- `udev_monitor_fs_setup`, where `sys` says which system calls fail. -/
def fsSetup (pid : Pid) (sys : SetupCall → Option Errno) (m : ι) (s : Process ι) :
    Int × Process ι :=
  let s := setMonitor m (fun _ => { slot := -1, eventsDir := [] }) s
  -- the result of udev_monitor_register is not looked at
  let s := (register m s).2
  match sys .inotifyInit1 with
  | some e => (e.rc, fsShutdown m s)
  | none =>
    match sys .epollCreate1 with
    | some e => (e.rc, fsShutdown m s)
    | none =>
      let s := setMonitor m (fun c => { c with eventsDir := fsEventsPath pid [] c.slot }) s
      match sys .mkdir with
      | some e => (e.rc, fsDestroy m s)
      | none =>
        match sys .inotifyAddWatch with
        | some e => (e.rc, fsDestroy m s)
        | none =>
          match sys .socketpair with
          | some e => (e.rc, fsDestroy m s)
          | none =>
            match sys .epollCtlInotify with
            | some e => (e.rc, fsShutdown m s)
            | none =>
              match sys .epollCtlSock with
              | some e => (e.rc, fsShutdown m s)
              | none => (0, s)

inductive Call (ι : Type)
  | setup (m : ι) (sys : SetupCall → Option Errno)
  | shutdown (m : ι)
  | destroy (m : ι)

/-- One call, with the ghosts. -/
def step (pid : Pid) : Call ι → Process ι → Option (Process ι)
  | .setup m sys, s =>
    let (rc, t) := fsSetup pid sys m s
    some { t with
      known := Function.update t.known m true
      live := Function.update t.live m (decide (0 ≤ rc)) }
  | .shutdown m, s =>
    let t := fsShutdown m s
    some { t with live := Function.update t.live m false }
  | .destroy m, s =>
    let t := fsDestroy m s
    some { t with live := Function.update t.live m false }

def OwnSlot (s : Process ι) (m : ι) : Prop :=
  ∃ i < maxMonitors, (s.monitors m).slot = i ∧ s.table i = some m

structure Spares (m : ι) (s t : Process ι) : Prop where
  known : t.known = s.known
  live : t.live = s.live
  others : ∀ m' ≠ m, t.monitors m' = s.monitors m' ∧ (OwnSlot s m' → OwnSlot t m')

omit [DecidableEq ι] in
theorem Spares.trans {m : ι} {s t u : Process ι} (h₁ : Spares m s t) (h₂ : Spares m t u) :
    Spares m s u where
  known := h₂.known.trans h₁.known
  live := h₂.live.trans h₁.live
  others := by
    intro m' hm
    obtain ⟨heq₁, hown₁⟩ := h₁.others m' hm
    obtain ⟨heq₂, hown₂⟩ := h₂.others m' hm
    exact ⟨heq₂.trans heq₁, fun h => hown₂ (hown₁ h)⟩

theorem setMonitor_self (m : ι) (f : Monitor → Monitor) (s : Process ι) :
    (setMonitor m f s).monitors m = f (s.monitors m) := Function.update_self ..

theorem spares_setMonitor (m : ι) (f : Monitor → Monitor) (s : Process ι) :
    Spares m s (setMonitor m f s) where
  known := rfl
  live := rfl
  others := by
    intro m' hm
    have heq : (setMonitor m f s).monitors m' = s.monitors m' := Function.update_of_ne hm ..
    refine ⟨heq, ?_⟩
    rintro ⟨i, hi, hslot, htable⟩
    exact ⟨i, hi, by rw [heq, hslot], htable⟩

omit [DecidableEq ι] in
/-- A slot that is free, or that is the monitor's own, may be given another value. -/
theorem spares_table (m : ι) (i : ℕ) (v : Option ι) (s : Process ι)
    (hi : ∀ m' ≠ m, s.table i ≠ some m') :
    Spares m s { s with table := Function.update s.table i v } where
  known := rfl
  live := rfl
  others := by
    intro m' hm
    refine ⟨rfl, ?_⟩
    rintro ⟨j, hj, hslot, htable⟩
    have hne : j ≠ i := by
      rintro rfl
      exact hi m' hm htable
    exact ⟨j, hj, hslot, (Function.update_of_ne hne ..).trans htable⟩

theorem register_none (m : ι) (s : Process ι)
    (h : (List.range maxMonitors).find? (fun i => (s.table i).isNone) = none) :
    register m s = (-ENOSPC, s) := by
  rw [register, h]

theorem register_some (m : ι) (i : ℕ) (s : Process ι)
    (h : (List.range maxMonitors).find? (fun i => (s.table i).isNone) = some i) :
    register m s = (0, setMonitor m (fun c => { c with slot := i })
      { s with table := Function.update s.table i (some m) }) := by
  rw [register, h]

theorem spares_register (m : ι) (s : Process ι) : Spares m s (register m s).2 := by
  cases hfind : (List.range maxMonitors).find? (fun i => (s.table i).isNone) with
  | none =>
    rw [register_none m s hfind]
    exact ⟨rfl, rfl, fun _ _ => ⟨rfl, id⟩⟩
  | some i =>
    obtain ⟨hnone, _, _⟩ := List.find?_range_eq_some.mp hfind
    rw [register_some m i s hfind]
    dsimp only
    refine (spares_table m i (some m) s fun m' _ hsome => ?_).trans (spares_setMonitor m _ _)
    rw [hsome] at hnone
    exact absurd hnone (by simp)

/-- With a free slot, the monitor gets one of its own. -/
theorem ownSlot_register (m : ι) (s : Process ι) (hfree : ∃ i < maxMonitors, s.table i = none) :
    OwnSlot (register m s).2 m := by
  obtain ⟨i, hi, hnone⟩ := hfree
  cases hfind : (List.range maxMonitors).find? (fun i => (s.table i).isNone) with
  | none =>
    have hsome := List.find?_range_eq_none.mp hfind i hi
    rw [hnone] at hsome
    exact absurd hsome (by simp)
  | some j =>
    obtain ⟨_, hj, _⟩ := List.find?_range_eq_some.mp hfind
    rw [register_some m j s hfind]
    refine ⟨j, List.mem_range.mp hj, ?_, Function.update_self ..⟩
    rw [setMonitor_self]

theorem slot_unregister (m : ι) (s : Process ι) : ((unregister m s).monitors m).slot < 0 := by
  unfold unregister
  split_ifs with hneg
  · exact hneg
  · rw [setMonitor_self]
    change (-1 : ℤ) < 0
    decide

theorem spares_unregister (m : ι) (s : Process ι)
    (h : (s.monitors m).slot < 0 ∨ OwnSlot s m) : Spares m s (unregister m s) := by
  unfold unregister
  split_ifs with hneg
  · exact ⟨rfl, rfl, fun _ _ => ⟨rfl, id⟩⟩
  · refine (spares_table m _ none s fun m' hm hsome => ?_).trans (spares_setMonitor m _ _)
    obtain ⟨i, _, hslot, htable⟩ := h.resolve_left hneg
    rw [hslot, Int.toNat_natCast, htable] at hsome
    exact hm (Option.some.inj hsome).symm

/-- In a full table nothing is registered, and the caller is not told. -/
theorem register_full (m : ι) (s : Process ι) (hfull : ∀ i < maxMonitors, s.table i ≠ none) :
    register m s = (-ENOSPC, s) := by
  have hfind : (List.range maxMonitors).find? (fun i => (s.table i).isNone) = none := by
    rw [List.find?_range_eq_none]
    intro i hi
    rw [Option.isNone_eq_false_iff.mpr (Option.isSome_iff_ne_none.mpr (hfull i hi)), Bool.not_false]
  exact register_none m s hfind

/-- A monitor is registered in the first slot that is free. -/
theorem register_first (m : ι) (i : ℕ) (s : Process ι) (hi : i < maxMonitors)
    (hfree : s.table i = none) (hbelow : ∀ j < i, s.table j ≠ none) :
    (register m s).2.table = Function.update s.table i (some m) := by
  have hfind : (List.range maxMonitors).find? (fun i => (s.table i).isNone) = some i := by
    rw [List.find?_range_eq_some]
    refine ⟨by rw [hfree]; rfl, List.mem_range.mpr hi, fun j hj => ?_⟩
    rw [Option.isNone_eq_false_iff.mpr (Option.isSome_iff_ne_none.mpr (hbelow j hj)),
      Bool.not_false]
  rw [register_some m i s hfind]
  rfl

/-- The state in which `udev_monitor_fs_setup` makes its system calls. -/
def registered (m : ι) (s : Process ι) : Process ι :=
  (register m (setMonitor m (fun _ => { slot := -1, eventsDir := [] }) s)).2

def named (pid : Pid) (m : ι) (s : Process ι) : Process ι :=
  setMonitor m (fun c => { c with eventsDir := fsEventsPath pid [] c.slot }) (registered m s)

/-- Either all system calls succeed, or the monitor is shut down again. -/
theorem fsSetup_cases (pid : Pid) (sys : SetupCall → Option Errno) (m : ι) (s : Process ι) :
    fsSetup pid sys m s = (0, named pid m s) ∨
      ∃ e : Errno, fsSetup pid sys m s = (e.rc, unregister m (registered m s)) ∨
        fsSetup pid sys m s = (e.rc, unregister m (named pid m s)) := by
  rw [named, registered, fsSetup]
  dsimp only
  split
  · exact Or.inr ⟨_, Or.inl rfl⟩
  split
  · exact Or.inr ⟨_, Or.inl rfl⟩
  split
  · exact Or.inr ⟨_, Or.inr rfl⟩
  split
  · exact Or.inr ⟨_, Or.inr rfl⟩
  split
  · exact Or.inr ⟨_, Or.inr rfl⟩
  split
  · exact Or.inr ⟨_, Or.inr rfl⟩
  split
  · exact Or.inr ⟨_, Or.inr rfl⟩
  · exact Or.inl rfl

/-- A slot is free for each monitor that is set up, and no other monitor is shut down than
one that `udev_monitor_fs_setup` was called for. -/
def Orderly : Call ι → Process ι → Prop
  | .setup _ _, s => ∃ i < maxMonitors, s.table i = none
  | .shutdown m, s => s.known m = true
  | .destroy m, s => s.known m = true

structure Inv (pid : Pid) (s : Process ι) : Prop where
  known : ∀ m, s.known m = true → (s.monitors m).slot < 0 ∨ OwnSlot s m
  live : ∀ m, s.live m = true → s.known m = true ∧ 0 ≤ (s.monitors m).slot ∧
    (s.monitors m).eventsDir = fsEventsPath pid [] (s.monitors m).slot

theorem spares_registered (m : ι) (s : Process ι) : Spares m s (registered m s) := by
  rw [registered]
  exact (spares_setMonitor m _ s).trans (spares_register m _)

theorem spares_named (pid : Pid) (m : ι) (s : Process ι) : Spares m s (named pid m s) :=
  (spares_registered m s).trans (spares_setMonitor m _ _)

theorem ownSlot_registered (m : ι) (s : Process ι) (hfree : ∃ i < maxMonitors, s.table i = none) :
    OwnSlot (registered m s) m := by
  rw [registered]
  exact ownSlot_register m _ hfree

theorem OwnSlot.setMonitor {m : ι} {s : Process ι} (h : OwnSlot s m) (f : Monitor → Monitor)
    (hf : ∀ c, (f c).slot = c.slot) : OwnSlot (setMonitor m f s) m := by
  obtain ⟨i, hi, hslot, htable⟩ := h
  exact ⟨i, hi, by rw [setMonitor_self, hf, hslot], htable⟩

theorem ownSlot_named (pid : Pid) (m : ι) (s : Process ι)
    (hfree : ∃ i < maxMonitors, s.table i = none) : OwnSlot (named pid m s) m :=
  (ownSlot_registered m s hfree).setMonitor _ (fun _ => rfl)

/-- A call keeps the invariant when it spares the other monitors and leaves its own in order. -/
theorem Inv.of_spares {pid : Pid} {m : ι} {s t : Process ι} {k l : Bool} (hinv : Inv pid s)
    (hspares : Spares m s t)
    (hknown : k = true → (t.monitors m).slot < 0 ∨ OwnSlot t m)
    (hlive : l = true → k = true ∧ 0 ≤ (t.monitors m).slot ∧
      (t.monitors m).eventsDir = fsEventsPath pid [] (t.monitors m).slot) :
    Inv pid { t with
      known := Function.update t.known m k
      live := Function.update t.live m l } where
  known := by
    intro m' hm'
    by_cases hm : m' = m
    · subst hm
      exact hknown ((Function.update_self ..).symm.trans hm')
    · obtain ⟨heq, hown⟩ := hspares.others m' hm
      have hm' : s.known m' = true := by
        rw [← hspares.known]
        exact (Function.update_of_ne hm ..).symm.trans hm'
      rcases hinv.known m' hm' with hneg | hslot
      · exact Or.inl (by rw [heq]; exact hneg)
      · exact Or.inr (hown hslot)
  live := by
    intro m' hm'
    by_cases hm : m' = m
    · subst hm
      obtain ⟨hk, hrest⟩ := hlive ((Function.update_self ..).symm.trans hm')
      exact ⟨(Function.update_self ..).trans hk, hrest⟩
    · obtain ⟨heq, _⟩ := hspares.others m' hm
      have hm' : s.live m' = true := by
        rw [← hspares.live]
        exact (Function.update_of_ne hm ..).symm.trans hm'
      obtain ⟨hk, hrest⟩ := hinv.live m' hm'
      refine ⟨(Function.update_of_ne hm ..).trans ((congrFun hspares.known m').trans hk), ?_⟩
      dsimp only
      rw [heq]
      exact hrest

omit [DecidableEq ι] in
theorem inv_fresh (pid : Pid) : Inv pid (fresh ι) where
  known := fun _ h => absurd h (by simp [fresh])
  live := fun _ h => absurd h (by simp [fresh])

theorem Inv.shutdown {pid : Pid} {m : ι} {s : Process ι} (hinv : Inv pid s)
    (hknown : s.known m = true) :
    Inv pid { unregister m s with
      live := Function.update (unregister m s).live m false } := by
  have hspares := spares_unregister m s (hinv.known m hknown)
  have h := hinv.of_spares (k := true) (l := false) hspares
    (fun _ => Or.inl (slot_unregister m s)) (fun h => absurd h (by decide))
  have hsame : Function.update (unregister m s).known m true = (unregister m s).known := by
    rw [Function.update_eq_self_iff, hspares.known, hknown]
  rwa [hsame] at h

theorem Inv.step {pid : Pid} (l : Call ι) (s s' : Process ι) (hok : Orderly l s)
    (hinv : Inv pid s) (h : step pid l s = some s') : Inv pid s' := by
  cases l with
  | shutdown m =>
    cases Option.some.inj h
    exact hinv.shutdown hok
  | destroy m =>
    cases Option.some.inj h
    exact hinv.shutdown hok
  | setup m sys =>
    have hnamed := ownSlot_named pid m s hok
    rcases fsSetup_cases pid sys m s with heq | ⟨e, heq | heq⟩
    · rw [MonitorTable.step, heq] at h
      cases Option.some.inj h
      refine hinv.of_spares (spares_named pid m s) (fun _ => Or.inr hnamed) (fun _ => ?_)
      obtain ⟨i, _, hslot, _⟩ := hnamed
      refine ⟨rfl, by omega, ?_⟩
      rw [named, setMonitor_self]
    · rw [MonitorTable.step, heq] at h
      cases Option.some.inj h
      refine hinv.of_spares ((spares_registered m s).trans
        (spares_unregister m _ (Or.inr (ownSlot_registered m s hok))))
        (fun _ => Or.inl (slot_unregister m _)) (fun hrc => ?_)
      exact absurd (of_decide_eq_true hrc) (not_le.mpr e.rc_neg)
    · rw [MonitorTable.step, heq] at h
      cases Option.some.inj h
      refine hinv.of_spares ((spares_named pid m s).trans
        (spares_unregister m _ (Or.inr hnamed)))
        (fun _ => Or.inl (slot_unregister m _)) (fun hrc => ?_)
      exact absurd (of_decide_eq_true hrc) (not_le.mpr e.rc_neg)

theorem reverse_digitsUp (val : ℕ) (h : 0 < val) : (digitsUp val).reverse = decimal val := by
  have hchar : ∀ r < 10, Char.ofNat ('0'.toNat + r) = Nat.digitChar r := by decide
  have hdigit := hchar (val % 10) (Nat.mod_lt _ (by decide))
  induction val using Nat.strongRecOn with
  | ind val ih =>
    rw [digitsUp, dif_pos h, List.reverse_cons, hdigit]
    by_cases hsmall : val < 10
    · have hdiv : val / 10 = 0 := Nat.div_eq_of_lt hsmall
      rw [decimal, Nat.toDigits_of_lt_base hsmall, Nat.mod_eq_of_lt hsmall, hdiv, digitsUp,
        dif_neg (by decide)]
      rfl
    · have hpos : 0 < val / 10 := Nat.div_pos (by omega) (by decide)
      have hbase := Nat.toDigits_of_base_le (b := 10) (by decide) (Nat.le_of_not_lt hsmall)
      rw [ih (val / 10) (by omega) hpos (hchar _ (Nat.mod_lt _ (by decide))), decimal, decimal,
        hbase]

theorem itoa10Safe_eq (val : ℤ) :
    itoa10Safe val = (if val < 0 then ['-'] else []) ++ decimal val.natAbs := by
  have hstr : (if val.natAbs = 0 then ['0'] else digitsUp val.natAbs).reverse =
      decimal val.natAbs := by
    split_ifs with hzero
    · rw [hzero]
      rfl
    · exact reverse_digitsUp _ (Nat.pos_of_ne_zero hzero)
  rw [itoa10Safe, List.reverse_append, hstr]
  split_ifs <;> rfl

theorem not_mem_decimal (n : ℕ) (c : Char) (h : c.isDigit = false) : c ∉ decimal n := by
  intro hc
  rw [isDigit_of_mem_decimal n c hc] at h
  cases h

/-- The sign is in the text, and the digits are those of the number. -/
theorem itoa10Safe_injective : Function.Injective itoa10Safe := by
  intro a b h
  rw [itoa10Safe_eq, itoa10Safe_eq] at h
  have hhead : ∀ n m : ℕ, '-' :: decimal n ≠ decimal m := by
    intro n m heq
    exact not_mem_decimal m '-' (by decide) (heq ▸ List.mem_cons_self)
  by_cases ha : a < 0
  · by_cases hb : b < 0
    · rw [if_pos ha, if_pos hb] at h
      have hab := decimal_injective (List.append_cancel_left h)
      omega
    · rw [if_pos ha, if_neg hb] at h
      exact absurd h (hhead _ _)
  · by_cases hb : b < 0
    · rw [if_neg ha, if_pos hb] at h
      exact absurd h.symm (hhead _ _)
    · rw [if_neg ha, if_neg hb] at h
      have hab := decimal_injective (List.append_cancel_left h)
      omega

theorem length_decimal_le (n : ℕ) (h : n < 2 ^ 31) : (decimal n).length ≤ 10 :=
  (Nat.length_toDigits_le_iff (by decide) (by decide)).mpr (h.trans (by decide))

/-- A text is cut at the first place where a character stands. -/
theorem cut_injective {a b x y : CStr} {c : Char} (ha : c ∉ a) (hb : c ∉ b)
    (h : a ++ c :: x = b ++ c :: y) : a = b ∧ x = y := by
  rcases List.append_eq_append_iff.mp h with ⟨d, rfl, hd⟩ | ⟨d, rfl, hd⟩
  · cases d with
    | nil => exact ⟨(List.append_nil a).symm, (List.cons.inj hd).2⟩
    | cons e d =>
      obtain ⟨rfl, -⟩ := List.cons.inj hd
      exact absurd (List.mem_append_right a List.mem_cons_self) hb
  · cases d with
    | nil => exact ⟨List.append_nil b, (List.cons.inj hd).2.symm⟩
    | cons e d =>
      obtain ⟨rfl, -⟩ := List.cons.inj hd
      exact absurd (List.mem_append_right b List.mem_cons_self) ha

/-- A path names the process and the slot. -/
theorem fsEventsPath_injective (p₁ p₂ : Pid) (name₁ name₂ : CStr) (n₁ n₂ : ℤ)
    (h₁ : n₁.natAbs < 2 ^ 31) (h₂ : n₂.natAbs < 2 ^ 31)
    (h : fsEventsPath p₁ name₁ n₁ = fsEventsPath p₂ name₂ n₂) : p₁ = p₂ ∧ n₁ = n₂ := by
  have hpid : ∀ p : Pid, (itoa10Safe p.val).take 10 = decimal p.val := by
    intro p
    have hneg : ¬(p.val : ℤ) < 0 := by omega
    rw [itoa10Safe_eq, if_neg hneg, List.nil_append, Int.natAbs_natCast]
    exact List.take_of_length_le (length_decimal_le _ (p.lt.trans (by decide)))
  have hnonce : ∀ n : ℤ, n.natAbs < 2 ^ 31 → (itoa10Safe n).take 50 = itoa10Safe n := by
    intro n hn
    refine List.take_of_length_le ?_
    have hlen := length_decimal_le _ hn
    rw [itoa10Safe_eq, List.length_append]
    split_ifs
    · exact (Nat.add_le_add_left hlen _).trans (by decide)
    · exact (Nat.add_le_add_left hlen _).trans (by decide)
  have hslash : ∀ n : ℤ, '/' ∉ itoa10Safe n := by
    intro n hmem
    rw [itoa10Safe_eq] at hmem
    rcases List.mem_append.mp hmem with hsign | hdigits
    · split_ifs at hsign
      · exact absurd (List.mem_singleton.mp hsign) (by decide)
      · exact List.not_mem_nil hsign
    · exact not_mem_decimal _ '/' (by decide) hdigits
  unfold fsEventsPath at h
  dsimp only at h
  rw [hpid, hpid, hnonce _ h₁, hnonce _ h₂] at h
  simp only [List.append_assoc] at h
  have h := List.append_cancel_left (List.append_cancel_left h)
  obtain ⟨hp, hrest⟩ := cut_injective (not_mem_decimal _ '-' (by decide))
    (not_mem_decimal _ '-' (by decide)) h
  obtain ⟨hn, _⟩ := cut_injective (hslash n₁) (hslash n₂) hrest
  refine ⟨?_, itoa10Safe_injective hn⟩
  obtain ⟨v₁, _, _⟩ := p₁
  obtain ⟨v₂, _, _⟩ := p₂
  cases decimal_injective hp
  rfl

/-- As long as a slot is free for each monitor that is set up and no monitor is shut down before
it was set up, each monitor has a slot of its own, and with it an events directory. -/
theorem slots_of_orderly (pid : Pid) (calls : List (Call ι)) (t : Process ι)
    (hok : Runs.Guarded (step pid) Orderly calls (fresh ι))
    (hrun : Runs.run (step pid) calls (fresh ι) = some t) :
    (∀ m, t.live m = true → OwnSlot t m) ∧
    (∀ m m', t.live m = true → t.live m' = true → m ≠ m' →
      (t.monitors m).slot ≠ (t.monitors m').slot ∧
      (t.monitors m).eventsDir ≠ (t.monitors m').eventsDir) ∧
    ∀ p₁ p₂ : Pid, ∀ name : CStr, ∀ n₁ n₂ : ℤ, n₁.natAbs < 2 ^ 31 → n₂.natAbs < 2 ^ 31 →
      (p₁, n₁) ≠ (p₂, n₂) → fsEventsPath p₁ name n₁ ≠ fsEventsPath p₂ name n₂ := by
  have hinv : Inv pid t := Runs.guarded_invariant (step pid) (Inv pid)
    (fun l s s' hok hinv h => Inv.step l s s' hok hinv h) hok (inv_fresh pid) hrun
  have hown : ∀ m, t.live m = true → OwnSlot t m := by
    intro m hm
    obtain ⟨hk, hpos, _⟩ := hinv.live m hm
    exact (hinv.known m hk).resolve_left (not_lt.mpr hpos)
  refine ⟨hown, ?_, ?_⟩
  · intro m m' hm hm' hne
    obtain ⟨i, hi, hslot, htable⟩ := hown m hm
    obtain ⟨j, hj, hslot', htable'⟩ := hown m' hm'
    have hij : i ≠ j := by
      rintro rfl
      exact hne (Option.some.inj (htable.symm.trans htable'))
    have hbound : maxMonitors < 2 ^ 31 := by
      rw [maxMonitors]
      decide
    have hdir := (hinv.live m hm).2.2
    have hdir' := (hinv.live m' hm').2.2
    refine ⟨by omega, fun heq => ?_⟩
    rw [hdir, hdir'] at heq
    have hsame := (fsEventsPath_injective _ _ _ _ _ _ (by omega) (by omega) heq).2
    omega
  · intro p₁ p₂ name n₁ n₂ h₁ h₂ hne heq
    obtain ⟨rfl, rfl⟩ := fsEventsPath_injective p₁ p₂ name name n₁ n₂ h₁ h₂ heq
    exact hne rfl

def initPid : Pid := ⟨1, by decide, by decide⟩

/-- The call by which the program sets up a monitor when no system call fails. -/
def setUp (m : ℕ) : Call ℕ := .setup m fun _ => none

/-- What such a call makes of the process. -/
def setUpState (pid : Pid) (m : ℕ) (s : Process ℕ) : Process ℕ :=
  { named pid m s with
    known := Function.update (named pid m s).known m true
    live := Function.update (named pid m s).live m true }

theorem setUpState_first (pid : Pid) (m i : ℕ) (s : Process ℕ) (hi : i < maxMonitors)
    (hfree : s.table i = none) (hbelow : ∀ j < i, s.table j ≠ none) :
    (setUpState pid m s).table = Function.update s.table i (some m) :=
  register_first m i (setMonitor m (fun _ => { slot := -1, eventsDir := [] }) s) hi hfree hbelow

/-- Two monitors are set up, the first one is shut down, and a third one gets its slot. -/
theorem slots_of_orderly_reused :
    ∃ t, Runs.run (step initPid) [setUp 7, setUp 8, .shutdown 7, setUp 9] (fresh ℕ) = some t ∧
      t.table 0 = some 9 ∧ t.table 1 = some 8 ∧ OwnSlot t 8 ∧ OwnSlot t 9 ∧
      (t.monitors 8).eventsDir ≠ (t.monitors 9).eventsDir := by
  have hmax : 1 < maxMonitors := by
    rw [maxMonitors]
    decide
  set s₁ := setUpState initPid 7 (fresh ℕ) with hs₁
  set s₂ := setUpState initPid 8 s₁ with hs₂
  set s₃ : Process ℕ := { unregister 7 s₂ with
    live := Function.update (unregister 7 s₂).live 7 false } with hs₃
  set t := setUpState initPid 9 s₃
  have htable₁ : s₁.table = Function.update (fun _ => none) 0 (some 7) :=
    setUpState_first initPid 7 0 (fresh ℕ) (by omega) rfl (fun _ hj => absurd hj (by omega))
  have htable₂ : s₂.table = Function.update s₁.table 1 (some 8) := by
    refine setUpState_first initPid 8 1 s₁ hmax (by rw [htable₁]; rfl) (fun j hj => ?_)
    rw [htable₁, Nat.lt_one_iff.mp hj]
    exact Option.some_ne_none 7
  have hown₂ : OwnSlot s₂ 7 := ((spares_named initPid 8 s₁).others 7 (by decide)).2
    (ownSlot_named initPid 7 (fresh ℕ) ⟨0, by omega, rfl⟩)
  have hslot : (s₂.monitors 7).slot = 0 := by
    obtain ⟨i, -, hi, htable⟩ := hown₂
    have hzero : i = 0 := by
      by_contra hne
      rw [htable₂, htable₁] at htable
      by_cases hone : i = 1
      · rw [hone, Function.update_self] at htable
        exact absurd htable (by decide)
      · rw [Function.update_of_ne hone, Function.update_of_ne hne] at htable
        cases htable
    rw [hzero] at hi
    exact hi
  have htable₃ : s₃.table = Function.update s₂.table 0 none := by
    change (unregister 7 s₂).table = _
    rw [unregister, if_neg (by rw [hslot]; decide), hslot]
    rfl
  have htable : t.table = Function.update s₃.table 0 (some 9) :=
    setUpState_first initPid 9 0 s₃ (by omega) (by rw [htable₃, Function.update_self])
      (fun _ hj => absurd hj (by omega))
  have hknown : s₂.known 7 = true := congrFun (spares_named initPid 8 s₁).known 7
  have hlive : t.live 8 = true :=
    (congrFun (spares_named initPid 9 s₃).live 8).trans
      (congrFun (spares_unregister 7 s₂ (Or.inr hown₂)).live 8)
  have hok : Runs.Guarded (step initPid) Orderly [setUp 7, setUp 8, .shutdown 7, setUp 9]
      (fresh ℕ) := by
    refine ⟨⟨0, by omega, rfl⟩, ?_⟩
    rintro _ ⟨⟩
    refine ⟨⟨1, hmax, congrFun htable₁ 1⟩, ?_⟩
    rintro _ ⟨⟩
    refine ⟨hknown, ?_⟩
    rintro _ ⟨⟩
    refine ⟨⟨0, by omega, ?_⟩, fun _ _ => trivial⟩
    exact (congrFun htable₃ 0).trans (Function.update_self ..)
  have hrun : Runs.run (step initPid) [setUp 7, setUp 8, .shutdown 7, setUp 9] (fresh ℕ) =
      some t := rfl
  obtain ⟨hown, hdistinct, -⟩ := slots_of_orderly initPid _ t hok hrun
  refine ⟨t, hrun, ?_, ?_, hown 8 hlive, hown 9 rfl, (hdistinct 8 9 hlive rfl (by decide)).2⟩
  · rw [htable, Function.update_self]
  · rw [htable, Function.update_of_ne (by decide), htable₃, Function.update_of_ne (by decide),
      htable₂, Function.update_self]

/-- When all slots below `k` are taken and the others are not, as many monitors as there are
slots left and one more are set up, and the last one has no slot. -/
theorem setUp_tooMany (pid : Pid) (n k : ℕ) (s : Process ℕ) (hsum : k + n = maxMonitors)
    (htaken : ∀ i < k, s.table i ≠ none) (hfree : ∀ i, k ≤ i → s.table i = none) :
    ∃ t, Runs.run (step pid) ((List.range' k (n + 1)).map setUp) s = some t ∧
      t.live maxMonitors = true ∧ (t.monitors maxMonitors).slot = -1 := by
  induction n generalizing k s with
  | zero =>
    have hk : k = maxMonitors := hsum
    subst hk
    refine ⟨_, rfl, Function.update_self .., ?_⟩
    have hfull : ∀ i < maxMonitors,
        (setMonitor maxMonitors (fun _ => { slot := -1, eventsDir := [] }) s).table i ≠ none :=
      htaken
    change ((named pid maxMonitors s).monitors maxMonitors).slot = -1
    rw [named, setMonitor_self, registered, register_full _ _ hfull, setMonitor_self]
  | succ n ih =>
    have htable := setUpState_first pid k k s (by omega) (hfree k le_rfl) htaken
    obtain ⟨t, hrun, hlast⟩ := ih (k + 1) (setUpState pid k s) (by omega) (by
        intro i hi
        rw [htable]
        by_cases hik : i = k
        · rw [hik, Function.update_self]
          exact Option.some_ne_none _
        · rw [Function.update_of_ne hik]
          exact htaken i (by omega)) (by
        intro i hi
        rw [htable, Function.update_of_ne (by omega)]
        exact hfree i (by omega))
    refine ⟨t, ?_, hlast⟩
    rw [List.range'_succ, List.map_cons, Runs.run]
    exact hrun

/-- With one monitor more than there are slots, all calls succeed and the last monitor has none. -/
theorem not_ownSlot_setUp :
    ∃ t, Runs.run (step initPid) ((List.range' 0 (maxMonitors + 1)).map setUp) (fresh ℕ) = some t ∧
      t.live maxMonitors = true ∧ ¬OwnSlot t maxMonitors := by
  obtain ⟨t, hrun, hlive, hslot⟩ := setUp_tooMany initPid maxMonitors 0 (fresh ℕ) (by omega)
    (fun i hi => absurd hi (by omega)) (fun _ _ => rfl)
  refine ⟨t, hrun, hlive, ?_⟩
  rintro ⟨i, _, hi, _⟩
  omega

end Vdev.MonitorTable
