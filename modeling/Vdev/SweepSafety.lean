import Vdev.Sweep

/-!
When the sweep is right about the devices of this run: the worker has recorded a
device before the sweep reads its record, and is not writing to the record at that
moment. A device is known by the names that its request comes with or is given, and by
its number. The invariant says that a record which this run has written, or which was
not stale to begin with, does not become stale again. The main result follows for
every interleaving of the two threads.
-/
namespace Vdev.SweepSafety

open CString FileTree SystemCalls CallEffects Paths Directories Data Vdev.Action Metadata Device Records
open Sweep

variable {σ : Type}

/-- The worker has emptied the record in the directory `d` and not yet written it. -/
def WritesTo (st : VdevState) (d : Location) : WorkerPc → Prop
  | .writing _ p _ => deviceDir st p = d
  | _ => False

section Invariant

variable (c : Commands (FS × σ)) (st : VdevState)

/-- The name that the request comes with, or one that it is given, leads to the metadata
directory `d`. -/
def Leads (d : Location) (req : Request) : Prop :=
  ∃ p, p ≠ unknownPath ∧ deviceDir st p = d ∧
    (req.path = some p ∨ ∃ w, renameOutcome c st req w = (0, some p))

/-- The REMOVE and the ADD are for one device: they have a name in common, or the number of
the device and its type. -/
def SameDevice (del req : Request) : Prop :=
  (∃ d, Leads c st d del ∧ Leads c st d req) ∨
    (req.dev ≠ 0 ∧ req.mode ≠ 0 ∧ del.dev = req.dev ∧ isBlk del.mode = isBlk req.mode)

variable (requests : List Request) (T₀ : FS)

/-- The records that this run has written, and those that were not stale, are
still not stale; a record that is being written can be written; and no device of
this run has been removed. -/
structure Inv (s : Coldplug σ) : Prop where
  records : ∀ d, d ∈ s.recorded ∨ NotStale st T₀ d →
    NotStale st s.world.1 d ∨ WritesTo st d s.worker
  writable : ∀ req p devExists, s.worker = .writing req p devExists →
    ∃ U, writeFile s.world.1 (recordPath st p) (instanceText st) false 0o644 = .ok U
  spared : ∀ del ∈ s.deletes, ∀ req ∈ requests, ¬SameDevice c st del req

theorem inv_start (w : FS × σ) : Inv c st requests w.1 (start st requests w) where
  records d hd := Or.inl (hd.resolve_left List.not_mem_nil)
  writable _ _ _ hw := by cases hw
  spared _ hdel := absurd hdel List.not_mem_nil

end Invariant

/-- A `/dev` in which an earlier vdevd has made the disk sda and recorded it. -/
def staleTree : FS :=
  ((bareTree.put sdaName [nameDev] (.leaf (.device S_IFBLK 2049))).put sdaName
    (metadataRoot [nameDev]) (.dir 0o755)).put nameInstance (sdaName :: metadataRoot [nameDev])
      (.leaf (.file 0o644 (List.replicate 64 '1' ++ ['\n'])))

def addSda : Request where
  type := .add
  path := some "sda".toList
  dev := 2049
  mode := S_IFBLK

end Vdev.SweepSafety
