import Vdev.CString
import Mathlib.Data.List.Lex
import Mathlib.Data.Char

/-!
The data model of vdevd: device requests, actions, the configuration and the
global state (device.h, action.h, libvdev/param.h, libvdev/config.h). Pointers
that may be NULL are options. A parameter set is a red-black tree in the source;
here it is the sorted list that an in-order traversal of the tree yields.
-/
namespace Vdev.Data

open CString

/-- Either all elements of a list have a property, or there is a first one without it. -/
theorem forall_or_first {α : Type} (p : α → Prop) (l : List α) :
    (∀ x ∈ l, p x) ∨ ∃ pre x rest, l = pre ++ x :: rest ∧ (∀ y ∈ pre, p y) ∧ ¬p x := by
  classical
  cases hfind : l.find? (fun x => ¬p x) with
  | none =>
    refine Or.inl (fun x hx => ?_)
    simpa using List.find?_eq_none.mp hfind x hx
  | some x =>
    obtain ⟨hx, pre, rest, hl, hpre⟩ := List.find?_eq_some_iff_append.mp hfind
    exact Or.inr ⟨pre, x, rest, hl, fun y hy => by simpa using hpre y hy, by simpa using hx⟩

/-- `vdev_params`: key/value pairs in strictly increasing `strcmp` order of the keys. -/
structure Params where
  entries : List (CStr × CStr)
  sorted : entries.Pairwise (fun a b => a.1 < b.1)
  deriving DecidableEq

namespace Params

def empty : Params := ⟨[], List.Pairwise.nil⟩

/-- `sglib_vdev_params_find_member`. -/
def find (p : Params) (key : CStr) : Option CStr := p.entries.lookup key

theorem keys_nodup (p : Params) : (p.entries.map Prod.fst).Nodup := by
  have h := p.sorted
  rw [List.Nodup, List.pairwise_map]
  refine h.imp (fun {a b} hab heq => ?_)
  rw [heq] at hab
  exact List.lt_irrefl _ hab

/-- `sglib_vdev_params_add`, for a key that is not in the set. -/
def insertEntry (key value : CStr) : List (CStr × CStr) → List (CStr × CStr)
  | [] => [(key, value)]
  | e :: rest => if key < e.1 then (key, value) :: e :: rest else e :: insertEntry key value rest

theorem mem_insertEntry (key value : CStr) (entries : List (CStr × CStr)) (x : CStr × CStr) :
    x ∈ insertEntry key value entries ↔ x = (key, value) ∨ x ∈ entries := by
  induction entries with
  | nil => simp [insertEntry]
  | cons e rest ih =>
    rw [insertEntry]
    split_ifs
    · rw [List.mem_cons]
    · rw [List.mem_cons, ih, List.mem_cons]
      tauto

theorem sorted_insertEntry (key value : CStr) (entries : List (CStr × CStr))
    (hsorted : entries.Pairwise (fun a b => a.1 < b.1)) (hkey : key ∉ entries.map Prod.fst) :
    (insertEntry key value entries).Pairwise (fun a b => a.1 < b.1) := by
  induction entries with
  | nil => exact List.pairwise_singleton _ _
  | cons e rest ih =>
    rw [List.pairwise_cons] at hsorted
    rw [List.map_cons, List.mem_cons, not_or] at hkey
    rw [insertEntry]
    split_ifs with hlt
    · refine List.pairwise_cons.mpr ⟨fun x hx => ?_, List.pairwise_cons.mpr hsorted⟩
      rcases List.mem_cons.mp hx with rfl | hx
      · exact hlt
      · exact List.lt_trans hlt (hsorted.1 x hx)
    · refine List.pairwise_cons.mpr ⟨fun x hx => ?_, ih hsorted.2 hkey.2⟩
      rcases (mem_insertEntry key value rest x).mp hx with rfl | hx
      · exact lt_of_le_of_ne (not_lt.mp hlt) (Ne.symm hkey.1)
      · exact hsorted.1 x hx

/-- `vdev_params_add`: keys are unique. -/
def add (p : Params) (key value : CStr) : Except Errno Params :=
  if h : key ∈ p.entries.map Prod.fst then .error .eexist
  else .ok ⟨insertEntry key value p.entries, sorted_insertEntry key value p.entries p.sorted h⟩

theorem add_of_mem (p : Params) (key value : CStr) (h : key ∈ p.entries.map Prod.fst) :
    p.add key value = .error .eexist := dif_pos h

theorem add_of_new (p : Params) (key value : CStr) (h : key ∉ p.entries.map Prod.fst) :
    ∃ q, p.add key value = .ok q ∧ ∀ x, x ∈ q.entries ↔ x = (key, value) ∨ x ∈ p.entries :=
  ⟨_, dif_neg h, mem_insertEntry key value p.entries⟩

theorem mem_keys_of_add {p q : Params} {key value : CStr}
    (h : ∀ x, x ∈ q.entries ↔ x = (key, value) ∨ x ∈ p.entries) (k : CStr) :
    k ∈ q.entries.map Prod.fst ↔ k = key ∨ k ∈ p.entries.map Prod.fst := by
  simp only [List.mem_map, h]
  constructor
  · rintro ⟨x, rfl | hx, rfl⟩
    · exact Or.inl rfl
    · exact Or.inr ⟨x, hx, rfl⟩
  · rintro (rfl | ⟨x, hx, rfl⟩)
    · exact ⟨(k, value), Or.inl rfl, rfl⟩
    · exact ⟨x, Or.inr hx, rfl⟩

theorem find_eq_some_iff (p : Params) (key value : CStr) :
    p.find key = some value ↔ (key, value) ∈ p.entries := by
  have hnodup := p.keys_nodup
  rw [find]
  generalize p.entries = entries at hnodup ⊢
  induction entries with
  | nil => simp
  | cons e rest ih =>
    obtain ⟨k, v⟩ := e
    rw [List.map_cons, List.nodup_cons] at hnodup
    rw [List.lookup_cons, List.mem_cons]
    by_cases hk : key = k
    · subst hk
      have hrest : (key, value) ∉ rest := fun h =>
        hnodup.1 (List.mem_map.mpr ⟨(key, value), h, rfl⟩)
      simp [hrest, eq_comm]
    · rw [beq_false_of_ne hk]
      simp [hk, ih hnodup.2]

/-- A parameter set is given by its members. -/
theorem eq_of_mem_iff (p q : Params) (h : ∀ x, x ∈ p.entries ↔ x ∈ q.entries) : p = q := by
  have hnodup : ∀ r : Params, r.entries.Nodup := fun r => List.Nodup.of_map _ r.keys_nodup
  have hperm : p.entries.Perm q.entries :=
    (List.perm_ext_iff_of_nodup (hnodup p) (hnodup q)).mpr h
  have heq : p.entries = q.entries := by
    refine hperm.eq_of_pairwise (fun a b _ _ hab hba => ?_) p.sorted q.sorted
    exact absurd (List.lt_trans hab hba) (List.lt_irrefl _)
  cases p
  cases q
  congr

end Params

/-- `vdev_device_request_t`. -/
inductive RequestType
  | invalid | add | remove | change | any
  deriving DecidableEq, Repr

/-- `struct vdev_device_request`, without its link and its state pointer. -/
structure Request where
  type : RequestType
  path : Option CStr
  renamedPath : Option CStr := none
  dev : ℕ := 0
  mode : ℕ := 0
  params : Params := Params.empty
  existsFlag : Bool := false
  deriving DecidableEq

/-- `enum vdev_action_if_exists`; `unset` is the zero that `memset` leaves behind. -/
inductive IfExists
  | unset | error | mask | run
  deriving DecidableEq, Repr

/-- `struct vdev_action`. The path regex is kept as the text it was compiled from. -/
structure Action where
  name : CStr := []
  trigger : RequestType
  path : Option CStr := none
  hasType : Bool := false
  type : CStr := []
  renameCommand : Option CStr := none
  command : Option CStr := none
  useShell : Bool := true
  devParams : Params := Params.empty
  helperVars : Params := Params.empty
  async : Bool := false
  ifExists : IfExists := .unset
  isDaemonlet : Bool := false
  daemonletStdin : Int := -1
  daemonletStdout : Int := -1
  daemonletPid : Int := -1

/-- The fields of `struct vdev_config` that the request handlers read. Without a line for
it in the configuration file, `helpers_dir` is NULL. The instance string is the
hexadecimal text of a 32-byte nonce. -/
structure Config where
  configPath : CStr
  helpersDir : Option CStr := none
  logfilePath : Option CStr := none
  defaultMode : ℕ := 0
  osQuirks : ℕ := 0
  instanceStr : CStr
  instance_length : instanceStr.length = 64

/-- `struct vdev_state`. `config->mountpoint` is the string that `vdev_init`
copied into `mountpoint`, so only one of the two is kept. -/
structure VdevState where
  mountpoint : CStr
  config : Config
  acts : List Action
  debugLevel : ℕ := 0
  errorLevel : ℕ := 0

def S_IFMT : ℕ := 0o170000
def S_IFBLK : ℕ := 0o060000
def S_IFCHR : ℕ := 0o020000

def isBlk (mode : ℕ) : Bool := mode &&& S_IFMT == S_IFBLK
def isChr (mode : ℕ) : Bool := mode &&& S_IFMT == S_IFCHR

/-- `VDEV_DEVICE_PATH_UNKNOWN`. -/
def unknownPath : CStr := "UNKNOWN".toList

def VDEV_OS_QUIRK_DEVICE_EXISTS : ℕ := 1

/-- `vdev_config_has_OS_quirk`. -/
def configHasOSQuirk (quirkField quirk : ℕ) : Bool := quirkField &&& quirk != 0

/-- A vdevd on `/dev` without actions. -/
def bareState : VdevState where
  mountpoint := "/dev".toList
  config :=
    { configPath := []
      helpersDir := some []
      instanceStr := List.replicate 64 '0'
      instance_length := List.length_replicate }
  acts := []

end Vdev.Data
