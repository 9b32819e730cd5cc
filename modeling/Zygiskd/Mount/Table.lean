import Zygiskd.Bytes

/-!
# Zygiskd.Mount.Table — a mount namespace as the kernel keeps it and as procfs shows it

The kernel side of `clean_mount_namespace` (`mount.rs`, lines 155-207): a namespace is its list
of mounts in mount order. `mountinfo` reads one line per mount, its text octal-escaped (a space
as `\040`), and fails on a line that is not UTF-8. `umount2(path, MNT_DETACH)` looks the path up
from the namespace's root, stepping at each prefix onto the mounts on top there (`resolve`), fails
unless the lookup ends at a mount's root, and detaches that mount's subtree and what propagation
reaches from it (`umountIds`).
-/

namespace Zygiskd

/-- Modelled from the spec: `root_impl.rs` is not among the sources. The active root
implementation, with the variants the spec lists; the cleaner never looks at a version. -/
inductive RootImpl
  | none
  | multiple
  | aPatch
  | kernelSU
  | magisk
  deriving DecidableEq, Repr

abbrev Path := List (List UInt8)

/-- A mount: its id and its parent's, the directory of its filesystem it shows, where it is
mounted, the free text of its line, and its peer group (`shared:N`) and master (`master:N`). -/
structure Mount where
  mntId : ℤ
  parentId : ℤ
  root : Path
  mountPoint : Path
  fsType : List UInt8
  source : List UInt8
  superOptions : List UInt8
  shared : Option ℕ
  master : Option ℕ
  deriving DecidableEq, Repr

/-! ## `/proc/self/mountinfo` -/

/-- The kernel's escape of a mountinfo field: space, tab, newline and backslash as `\ooo`. -/
def escape (s : List UInt8) : List UInt8 :=
  s.flatMap fun b =>
    if b = 32 ∨ b = 9 ∨ b = 10 ∨ b = 92 then [92, 48 + b / 64, 48 + b / 8 % 8, 48 + b % 8] else [b]

def pathText (p : Path) : List UInt8 := if p = [] then [47] else p.flatMap (47 :: ·)

structure MountInfo where
  mntId : ℤ
  pid : ℤ
  root : List UInt8
  mountPoint : List UInt8
  mountSource : Option (List UInt8)
  deriving DecidableEq, Repr

/-- The line of a mount as procfs parses it; a source shown as `none` is `None`. -/
def Mount.info (m : Mount) : MountInfo :=
  ⟨m.mntId, m.parentId, escape (pathText m.root), escape (pathText m.mountPoint),
    if escape m.source = lit "none" then none else some (escape m.source)⟩

/-- Its other fields are numbers and ASCII flags. -/
def Mount.utf8Line (m : Mount) : Bool :=
  [pathText m.root, pathText m.mountPoint, m.fsType, m.source, m.superOptions].all
    fun s => utf8Valid (escape s)

def mountinfo (t : List Mount) : Option (List MountInfo) :=
  if t.all Mount.utf8Line then some (t.map Mount.info) else none

/-! ## Path lookup -/

/-- The mount last mounted on mount `parent` at `p`. -/
def lookupMnt (t : List Mount) (parent : ℤ) (p : Path) : Option Mount :=
  (t.filter fun m => m.parentId = parent ∧ m.mountPoint = p).getLast?

/-- At `p`, step onto the mount on top as long as there is one; the flag says whether the lookup
stands at a mount's root. -/
def followMount (t : List Mount) (p : Path) : ℕ → Mount × Bool → Mount × Bool
  | 0, s => s
  | n + 1, (cur, atRoot) =>
    match lookupMnt t cur.mntId p with
    | some m => followMount t p n (m, true)
    | none => (cur, atRoot)

def walk (t : List Mount) : Path → Mount × Bool → Path → Mount × Bool
  | _, s, [] => s
  | pre, (cur, _), c :: cs => walk t (pre ++ [c]) (followMount t (pre ++ [c]) t.length (cur, false)) cs

def rootMount (t : List Mount) : Option Mount := t.find? fun m => t.all (·.mntId ≠ m.parentId)

def components (path : List UInt8) : Path := (path.splitOn 47).filter (· ≠ [])

/-- The lookup of `umount2`: the mount at whose root `path` ends, if it ends at one. Symlinks and
`..` play no part: the cleaner passes the text of a mountinfo line. -/
def resolve (t : List Mount) (path : List UInt8) : Option Mount :=
  match rootMount t with
  | none => none
  | some r =>
    match walk t [] (followMount t [] t.length (r, true)) (components path) with
    | (m, true) => some m
    | (_, false) => none

/-! ## `umount2(path, MNT_DETACH)` -/

def subtreeIds (t : List Mount) : ℕ → List ℤ → List ℤ
  | 0, ids => ids
  | n + 1, ids => subtreeIds t n (ids ++ (t.filter (fun m => m.parentId ∈ ids)).map (·.mntId))

def propagationGroups (t : List Mount) : ℕ → List ℕ → List ℕ
  | 0, gs => gs
  | n + 1, gs =>
    propagationGroups t n (gs ++ t.filterMap fun m => if m.master.any (· ∈ gs) then m.shared else none)

/-- The mounts that receive propagation from `b`: its peers and its slaves, transitively. -/
def receivers (t : List Mount) (b : Mount) : List Mount :=
  match b.shared with
  | none => []
  | some g =>
    let gs := propagationGroups t t.length [g]
    t.filter fun m => m.mntId ≠ b.mntId ∧ (m.shared.any (· ∈ gs) ∨ m.master.any (· ∈ gs))

/-- The mount at the place of `a`, a mount on `b`, on a mount `m` that receives propagation from
`b`: the same directory of the filesystem, seen through `m`'s root. -/
def propagatedChild (t : List Mount) (b a m : Mount) : Option Mount :=
  let dir := b.root ++ a.mountPoint.drop b.mountPoint.length
  if m.root.isPrefixOf dir then lookupMnt t m.mntId (m.mountPoint ++ dir.drop m.root.length)
  else none

/-- The ids a detach of `a` takes off: its subtree, and the mounts propagation reaches from it
that have nothing mounted on them. -/
def umountIds (t : List Mount) (a : Mount) : List ℤ :=
  let sub := subtreeIds t t.length [a.mntId]
  sub ++ (t.filter (·.mntId ∈ sub)).flatMap fun v =>
    match t.find? (·.mntId = v.parentId) with
    | none => []
    | some b => (receivers t b).filterMap fun m =>
      (propagatedChild t b v m).bind fun c => if t.any (·.parentId = c.mntId) then none else some c.mntId

/-- `umount2(path, MNT_DETACH)`; `none` when the call fails. -/
def umount2 (path : List UInt8) (t : List Mount) : Option (List Mount) :=
  if path = [] then none
  else (resolve t path).map fun a => t.filter fun m => m.mntId ∉ umountIds t a

end Zygiskd
