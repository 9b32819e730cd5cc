import Zygiskd.Mount.Manager

/-!
# Zygiskd.Protocol — the bytes that name an action and a namespace kind

A request names its action with one byte, `DaemonSocketAction` (`constants.rs`, lines 50-62,
decoded by the derived `TryFromPrimitive`), and the namespace actions name their kind with one
more (`MountNamespace::try_from`, `mount.rs`, lines 31-40). Both decode a byte by its place in the
enum's declaration; the derived decoder's error is the byte, the other's a message naming it.
-/

namespace Zygiskd

/-- Decoding a `#[repr(u8)]` enum whose values, in declaration order, are `table`. -/
def decodeDiscriminant {α ε : Type} (table : List α) (err : UInt8 → ε) (v : UInt8) : Except ε α :=
  match table[v.toNat]? with
  | some a => .ok a
  | none => .error (err v)

inductive DaemonSocketAction
  | pingHeartbeat
  | getProcessFlags
  | cacheMountNamespace
  | updateMountNamespace
  | readModules
  | requestCompanionSocket
  | getModuleDir
  | zygoteRestart
  | systemServerStarted
  deriving DecidableEq, Repr

def DaemonSocketAction.all : List DaemonSocketAction :=
  [.pingHeartbeat, .getProcessFlags, .cacheMountNamespace, .updateMountNamespace, .readModules,
    .requestCompanionSocket, .getModuleDir, .zygoteRestart, .systemServerStarted]

def DaemonSocketAction.tryFromPrimitive (v : UInt8) : Except UInt8 DaemonSocketAction :=
  decodeDiscriminant DaemonSocketAction.all id v

def MountNamespace.tryFrom (v : UInt8) : Except String MountNamespace :=
  decodeDiscriminant [.clean, .root] (fun v => "Invalid MountNamespace value: " ++ toString v) v

end Zygiskd
