import MiniWin.Mwfs.Ops
import MiniWin.Vfs.Norm

/-!
# The namespace

`kernel/vfs.h`: the volume table and the variables beside it.
-/

namespace Vfs

open Mwfs

/-- `VFS_MAX_VOLS`. -/
abbrev maxVols : Nat := 6

theorem neZero_maxVols : NeZero maxVols := ⟨by decide⟩

/-- The variables of `vfs.h`. `used` and `id`, which `mwfs.h` does not look at, stand beside the
volumes, each of which has its sectors to itself. -/
structure World where
  /-- `vfs_vols`. The first one is `/`. -/
  vols : Fin maxVols → St
  used : Fin maxVols → Bool
  id : Fin maxVols → Name
  /-- `MWFS_OK` once the root volume is mounted. -/
  root_err : Err
  cwd : Text
  /-- The inode of `/mnt` on the root volume. -/
  mnt_ino : Nat

/-- The table with another state of one volume. -/
def World.put (W : World) (i : Fin maxVols) (s : St) : World :=
  { W with vols := Function.update W.vols i s }

end Vfs
