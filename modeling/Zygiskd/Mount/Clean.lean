import Zygiskd.Mount.Table

/-!
# Zygiskd.Mount.Clean — `clean_mount_namespace` (`mount.rs`, lines 155-207)

The cleaner reads mountinfo once, selects entries (`shouldUnmount`), sorts them by descending
`mnt_id`, and calls `umount2(path, MNT_DETACH)` on the text of each one's mount point, logging
failures. The unmount is by path, so it detaches whatever the lookup of that text ends at:
`clean_leaves_shadowed_target` is a selected mount that survives while an unselected one goes.
-/

namespace Zygiskd

def rootSource : RootImpl → Option (List UInt8)
  | .aPatch => some (lit "APatch")
  | .kernelSU => some (lit "KSU")
  | .magisk => some (lit "magisk")
  | _ => none

def toStr (p : List UInt8) : Option (List UInt8) := if utf8Valid p then some p else none

def ksuModuleSource (ri : RootImpl) (infos : List MountInfo) : Option (List UInt8) :=
  if ri = .kernelSU then
    ((infos.find? (fun info => toStr info.mountPoint = some (lit "/data/adb/modules"))).bind
      (·.mountSource)).filter (fun source => (lit "/dev/block/loop").isPrefixOf source)
  else none

def pathStr (info : MountInfo) : List UInt8 := (toStr info.mountPoint).getD []

def shouldUnmount (rootSource ksuModuleSource : Option (List UInt8)) (info : MountInfo) : Bool :=
  (lit "/adb/modules").isPrefixOf info.root
    || (lit "/data/adb/modules").isPrefixOf (pathStr info)
    || (rootSource.isSome && info.mountSource == rootSource)
    || (ksuModuleSource.isSome && info.mountSource == ksuModuleSource)

/-- `unmount_targets` after the sort; `sort_by_key` is stable, as insertion sort is. -/
def unmountTargets (ri : RootImpl) (infos : List MountInfo) : List MountInfo :=
  (infos.filter (shouldUnmount (rootSource ri) (ksuModuleSource ri infos))).insertionSort
    (fun a b => b.mntId ≤ a.mntId)

/-- One turn of the unmount loop; a failed `umount2` is only logged. -/
def unmountTarget (t : List Mount) (target : MountInfo) : List Mount :=
  match cstringNew (pathStr target) with
  | some path => (umount2 path t).getD t
  | none => t

/-- `clean_mount_namespace`: the mounts after it, or `none` for the `Err` of line 157. -/
def cleanMountNamespace (ri : RootImpl) (t : List Mount) : Option (List Mount) :=
  (mountinfo t).map fun infos => (unmountTargets ri infos).foldl unmountTarget t

/-! ## A shadowed target survives -/

def rootfsMount : Mount := ⟨1, 0, [], [], lit "rootfs", lit "rootfs", lit "rw", none, none⟩

def ksuBinMount : Mount :=
  ⟨10, 1, [], [lit "system", lit "bin"], lit "overlay", lit "KSU", lit "rw", none, none⟩

def tmpfsBinMount : Mount :=
  ⟨30, 10, [], [lit "system", lit "bin"], lit "tmpfs", lit "tmpfs", lit "rw", none, none⟩

def shadowedTable : List Mount := [rootfsMount, ksuBinMount, tmpfsBinMount]

/-- Under KernelSU only the `KSU` mount is selected, but `umount2("/system/bin")` ends its lookup
on the tmpfs on top and detaches that: the selected mount stays and the unselected one is gone,
and a second run changes the namespace again. -/
theorem clean_leaves_shadowed_target :
    (mountinfo shadowedTable).map (unmountTargets .kernelSU) = some [ksuBinMount.info] ∧
      cleanMountNamespace .kernelSU shadowedTable = some [rootfsMount, ksuBinMount] ∧
      cleanMountNamespace .kernelSU [rootfsMount, ksuBinMount] = some [rootfsMount] := by
  decide

end Zygiskd
