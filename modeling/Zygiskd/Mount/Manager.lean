import Zygiskd.Bytes

/-!
# Zygiskd.Mount.Manager — `MountNamespaceManager` (`mount.rs`, lines 21-153)

`save_mount_namespace(pid, k)` returns the fd cached for `k`, or forks a child that enters
`pid`'s namespace (for `Clean`, unshares and cleans it), writes one byte on a pipe and sleeps;
the parent reads the pipe, opens `/proc/<child>/ns/mnt`, kills and reaps the child, and stores
the fd. `saveMountNamespace` runs one call to its end, each syscall's outcome given by a
`SaveEnv`; `saveMountNamespace_refines` shows that calls one after another treat the two slots
as write-once cells, and `save_caches_uncleaned_namespace` and `save_leaves_child_sleeping` are
the two runs where the parent does not do what its comments say.
-/

namespace Zygiskd

inductive MountNamespace
  | clean
  | root
  deriving DecidableEq, Repr

/-- The mount namespace a process is in, named by how the process got there: the daemon's own,
by `setns`, by `unshare(CLONE_NEWNS)`, or by `clean_mount_namespace`. -/
inductive NsView
  | inherited
  | ofPid (pid : ℤ)
  | unshared (ns : NsView)
  | cleaned (ns : NsView)
  deriving DecidableEq, Repr

/-- The namespace a save for `k` from `pid` means to pin. -/
def prepared (pid : ℤ) : MountNamespace → NsView
  | .root => .ofPid pid
  | .clean => .cleaned (.unshared (.ofPid pid))

/-! ## `switch_mount_namespace` and the child -/

structure Task where
  ns : NsView
  cwd : List UInt8
  deriving DecidableEq, Repr

inductive SwitchCall
  | currentDir
  | openNsFile
  | setns
  | setCurrentDir
  deriving DecidableEq, Repr

/-- `switch_mount_namespace(pid)`, given which of its calls succeed; an `Err` carries the thread
as the failing call left it, and `setns` puts the thread at the root of the namespace. -/
def switchMountNamespace (ok : SwitchCall → Bool) (pid : ℤ) (t : Task) : Except Task Task := do
  unless ok .currentDir do throw t
  let cwd := t.cwd
  unless ok .openNsFile do throw t
  unless ok .setns do throw t
  let t : Task := ⟨.ofPid pid, lit "/"⟩
  unless ok .setCurrentDir do throw t
  pure { t with cwd := cwd }

/-- Which of the calls the forked child unwraps (lines 105-118) succeed. -/
structure ChildEnv where
  switch : SwitchCall → Bool
  unshare : Bool
  clean : Bool
  write : Bool

/-- The child branch of the fork up to its readiness byte (lines 102-118): `ok` when the byte is
written, `error` when an `unwrap` panicked, both with where the child then is. -/
def childBranch (env : ChildEnv) (pid : ℤ) (k : MountNamespace) (t : Task) : Except Task Task := do
  let t ← switchMountNamespace env.switch pid t
  let t ← if k = .clean then do
      unless env.unshare do throw t
      let t := { t with ns := .unshared t.ns }
      unless env.clean do throw t
      pure { t with ns := .cleaned t.ns }
    else pure t
  unless env.write do throw t
  pure t

theorem switchMountNamespace_eq (ok : SwitchCall → Bool) (pid : ℤ) (t : Task) :
    switchMountNamespace ok pid t =
      if ok .currentDir && ok .openNsFile && ok .setns then
        if ok .setCurrentDir then .ok ⟨.ofPid pid, t.cwd⟩ else .error ⟨.ofPid pid, lit "/"⟩
      else .error t := by
  unfold switchMountNamespace
  cases ok .currentDir <;> cases ok .openNsFile <;> cases ok .setns <;> cases ok .setCurrentDir <;>
    rfl

theorem switchMountNamespace_ok {ok : SwitchCall → Bool} {pid : ℤ} {t t' : Task}
    (h : switchMountNamespace ok pid t = .ok t') : t' = ⟨.ofPid pid, t.cwd⟩ := by
  rw [switchMountNamespace_eq] at h
  split_ifs at h
  · exact (Except.ok.inj h).symm

/-- A child that writes its byte is in the namespace the save is for. -/
theorem childBranch_ok {env : ChildEnv} {pid : ℤ} {k : MountNamespace} {t t' : Task}
    (h : childBranch env pid k t = .ok t') : t'.ns = prepared pid k := by
  unfold childBranch at h
  cases hs : switchMountNamespace env.switch pid t with
  | error _ => rw [hs] at h; cases h
  | ok t₁ =>
    rw [hs, switchMountNamespace_ok hs] at h
    revert h
    cases k <;> cases env.unshare <;> cases env.clean <;> cases env.write <;> intro h <;> cases h <;>
      rfl

/-! ## The manager and the processes it forks -/

/-- An `OwnedFd` of a `/proc/<pid>/ns/mnt` file: its number and the namespace it pins. -/
structure NsFd where
  raw : ℤ
  ns : NsView
  deriving DecidableEq, Repr

structure MountNamespaceManager where
  cleanMntNsFd : Option NsFd
  rootMntNsFd : Option NsFd
  deriving DecidableEq, Repr

namespace MountNamespaceManager

def new : MountNamespaceManager := ⟨none, none⟩

def getNamespaceStorage (m : MountNamespaceManager) : MountNamespace → Option NsFd
  | .clean => m.cleanMntNsFd
  | .root => m.rootMntNsFd

/-- `get_namespace_storage(k).set(fd)`: `none`, the `Err`, when that `OnceLock` is already set. -/
def set (m : MountNamespaceManager) (k : MountNamespace) (fd : NsFd) :
    Option MountNamespaceManager :=
  match m.getNamespaceStorage k, k with
  | some _, _ => none
  | none, .clean => some { m with cleanMntNsFd := some fd }
  | none, .root => some { m with rootMntNsFd := some fd }

def getNamespaceFd (m : MountNamespaceManager) (k : MountNamespace) : Option ℤ :=
  (m.getNamespaceStorage k).map (·.raw)

theorem set_eq_none {m : MountNamespaceManager} {k : MountNamespace} {fd : NsFd} :
    m.set k fd = none ↔ (m.getNamespaceStorage k).isSome := by
  unfold set
  cases hk : m.getNamespaceStorage k <;> cases k <;> simp

theorem getNamespaceStorage_set {m m' : MountNamespaceManager} {k : MountNamespace} {fd : NsFd}
    (h : m.set k fd = some m') (k' : MountNamespace) :
    m'.getNamespaceStorage k' = if k' = k then some fd else m.getNamespaceStorage k' := by
  unfold set at h
  cases hk : m.getNamespaceStorage k <;> rw [hk] at h <;> cases k <;> cases h <;> cases k' <;> simp [getNamespaceStorage]

end MountNamespaceManager

/-- A forked process as its parent can tell: in its setup, asleep after writing its byte, exiting
after a panic (its end of the pipe closed), gone but not waited for, or reaped. -/
inductive ChildState
  | setup
  | sleeping (ns : NsView)
  | dying (ns : NsView)
  | exited
  | reaped
  deriving DecidableEq, Repr

structure Child where
  pid : ℤ
  kind : MountNamespace
  state : ChildState
  deriving DecidableEq, Repr

/-- The daemon: the manager, the children forked so far (the index is the child's pid), and the
working directory the children start in. -/
structure World where
  mgr : MountNamespaceManager
  children : List Child
  cwd : List UInt8
  deriving DecidableEq, Repr

def World.init (cwd : List UInt8) : World := ⟨.new, [], cwd⟩

def World.spawn (w : World) (c : Child) : World := { w with children := w.children ++ [c] }

def World.setChild (w : World) (i : ℕ) (st : ChildState) : World :=
  { w with children := w.children.modify (fun c => { c with state := st }) i }

theorem modify_append_length {α : Type} (f : α → α) (l : List α) (a : α) :
    (l ++ [a]).modify f l.length = l ++ [f a] := by
  induction l with
  | nil => rfl
  | cons b l ih => simpa [List.modify] using ih

@[simp] theorem World.setChild_spawn (w : World) (c : Child) (st : ChildState) :
    (w.spawn c).setChild w.children.length st = w.spawn { c with state := st } := by
  simp [World.setChild, World.spawn, modify_append_length]

@[simp] theorem World.spawn_mgr (w : World) (c : Child) : (w.spawn c).mgr = w.mgr := rfl
@[simp] theorem World.setChild_mgr (w : World) (i : ℕ) (st : ChildState) :
    (w.setChild i st).mgr = w.mgr := rfl
@[simp] theorem World.length_spawn (w : World) (c : Child) :
    (w.spawn c).children.length = w.children.length + 1 := by simp [World.spawn]
@[simp] theorem World.length_setChild (w : World) (i : ℕ) (st : ChildState) :
    (w.setChild i st).children.length = w.children.length := by simp [World.setChild]

/-! ## `save_mount_namespace` run to its end -/

inductive Syscall
  | pipe
  | fork
  | read
  | openNs
  deriving DecidableEq, Repr

inductive SaveError
  | os (call : Syscall)
  | msg (text : String)
  deriving DecidableEq, Repr

def onceLockSetFailed : String := "Failed to set OnceLock for namespace FD"

/-- The outcome of every syscall of one call, and whether a child that panicked is already gone
when the parent opens its namespace. -/
structure SaveEnv where
  pipe : Bool
  fork : Bool
  child : ChildEnv
  exited : Bool
  read : Bool
  openNs : Option ℤ

/-- Where the child stands when its parent is past the `read`. -/
def SaveEnv.childState (env : SaveEnv) (cwd : List UInt8) (pid : ℤ) (k : MountNamespace) :
    ChildState :=
  match childBranch env.child pid k ⟨.inherited, cwd⟩ with
  | .ok t => .sleeping t.ns
  | .error t => if env.exited then .exited else .dying t.ns

/-- `File::open("/proc/<child>/ns/mnt")`: the file is there while the child holds a namespace. -/
def openNsFile : ChildState → Option ℤ → Option NsFd
  | .sleeping ns, some raw => some ⟨raw, ns⟩
  | .dying ns, some raw => some ⟨raw, ns⟩
  | _, _ => none

/-- `save_mount_namespace(pid, k)` (lines 92-153): what it returns and the daemon after it. The
`read` of line 131 returns once the child wrote its byte or closed the pipe, and its result is
not looked at. -/
def saveMountNamespace (env : SaveEnv) (pid : ℤ) (k : MountNamespace) (w : World) :
    Except SaveError ℤ × World :=
  match w.mgr.getNamespaceStorage k with
  | some fd => (.ok fd.raw, w)
  | none =>
    if !env.pipe then (.error (.os .pipe), w) else
    if !env.fork then (.error (.os .fork), w) else
    let c := w.children.length
    let st := env.childState w.cwd pid k
    let w := w.spawn ⟨pid, k, st⟩
    if !env.read then (.error (.os .read), w) else
    match openNsFile st env.openNs with
    | none => (.error (.os .openNs), w)
    | some fd =>
      let w := w.setChild c .reaped
      match w.mgr.set k fd with
      | none => (.error (.msg onceLockSetFailed), w)
      | some mgr => (.ok fd.raw, { w with mgr })

/-- One call, by what it does to the manager: a set slot is returned; from an empty slot the call
fails leaving the manager as it was, or forks and stores the fd it returns. -/
theorem saveMountNamespace_cases (env : SaveEnv) (pid : ℤ) (k : MountNamespace) (w : World) :
    (∃ fd, w.mgr.getNamespaceStorage k = some fd ∧ saveMountNamespace env pid k w = (.ok fd.raw, w)) ∨
      (w.mgr.getNamespaceStorage k = none ∧ ∃ e, (saveMountNamespace env pid k w).1 = .error e ∧
        (saveMountNamespace env pid k w).2.mgr = w.mgr) ∨
      (w.mgr.getNamespaceStorage k = none ∧ ∃ fd, (saveMountNamespace env pid k w).1 = .ok fd.raw ∧
        w.mgr.set k fd = some (saveMountNamespace env pid k w).2.mgr ∧
        w.children.length < (saveMountNamespace env pid k w).2.children.length) := by
  unfold saveMountNamespace
  cases hs : w.mgr.getNamespaceStorage k with
  | some fd => exact .inl ⟨fd, rfl, rfl⟩
  | none =>
    refine .inr ?_
    simp only
    split_ifs
    · exact .inl ⟨trivial, _, rfl, rfl⟩
    · exact .inl ⟨trivial, _, rfl, rfl⟩
    · exact .inl ⟨trivial, _, rfl, rfl⟩
    · split
      · exact .inl ⟨trivial, _, rfl, rfl⟩
      · next fd _ =>
        split
        · exact .inl ⟨trivial, _, rfl, rfl⟩
        · next mgr hset => exact .inr ⟨trivial, fd, rfl, by simpa using hset, by simp⟩

/-- A call run to its end never fails at its `OnceLock` set (line 146): it reaches the set only
from an empty slot, and nothing fills the slot in between. -/
theorem saveMountNamespace_ne_onceLockSetFailed (env : SaveEnv) (pid : ℤ) (k : MountNamespace)
    (w : World) : (saveMountNamespace env pid k w).1 ≠ .error (.msg onceLockSetFailed) := by
  unfold saveMountNamespace
  cases hs : w.mgr.getNamespaceStorage k with
  | some fd => nofun
  | none =>
    simp only
    split_ifs
    · nofun
    · nofun
    · nofun
    split
    · nofun
    · next fd _ =>
      have hset : w.mgr.set k fd ≠ none := fun h => by
        simpa [hs] using MountNamespaceManager.set_eq_none.mp h
      simp only [World.setChild_mgr, World.spawn_mgr]
      split
      · contradiction
      · nofun

/-! ## The readiness byte and the child left behind -/

/-- A `Clean` child that unshares pid 1's namespace and panics in `clean_mount_namespace`. -/
def uncleanEnv : SaveEnv :=
  ⟨true, true, ⟨fun _ => true, true, false, true⟩, false, true, some 7⟩

/-- The child never wrote its byte, yet the call returns `Ok` and caches the copy of pid 1's
namespace it had not cleaned. -/
theorem save_caches_uncleaned_namespace :
    childBranch uncleanEnv.child 1 .clean ⟨.inherited, lit "/"⟩ =
        .error ⟨.unshared (.ofPid 1), lit "/"⟩ ∧
      (saveMountNamespace uncleanEnv 1 .clean (World.init (lit "/"))).1 = .ok 7 ∧
      (saveMountNamespace uncleanEnv 1 .clean (World.init (lit "/"))).2.mgr.getNamespaceStorage .clean =
        some ⟨7, .unshared (.ofPid 1)⟩ :=
  ⟨rfl, rfl, rfl⟩

/-- A `Root` save whose child writes its byte and whose `open` fails. -/
def openFailsEnv : SaveEnv :=
  ⟨true, true, ⟨fun _ => true, true, true, true⟩, false, true, none⟩

/-- The call returns the open's error at line 135 and leaves its child asleep: not killed, not
reaped. -/
theorem save_leaves_child_sleeping :
    saveMountNamespace openFailsEnv 1 .root (World.init (lit "/")) =
      (.error (.os .openNs), ⟨.new, [⟨1, .root, .sleeping (.ofPid 1)⟩], lit "/"⟩) :=
  rfl

/-! ## Calls one after another: two write-once slots -/

/-- `save_mount_namespace(pid, k)` with the outcomes of its syscalls, or `get_namespace_fd(k)`. -/
inductive Op
  | save (env : SaveEnv) (pid : ℤ) (k : MountNamespace)
  | get (k : MountNamespace)

inductive Reply
  | saved (r : Except SaveError ℤ) (forked : Bool)
  | got (fd : Option ℤ)

def Op.exec : Op → World → Reply × World
  | .save env pid k, w =>
    let (r, w') := saveMountNamespace env pid k w
    (.saved r (decide (w.children.length < w'.children.length)), w')
  | .get k, w => (.got (w.mgr.getNamespaceFd k), w)

def runOps : World → List Op → List Reply × World
  | w, [] => ([], w)
  | w, op :: ops =>
    let (r, w') := op.exec w
    let (rs, w'') := runOps w' ops
    (r :: rs, w'')

/-- Calls made one after another never reply with the `OnceLock` error. -/
theorem runOps_no_onceLockSetFailed (w : World) (ops : List Op) (forked : Bool) :
    Reply.saved (.error (.msg onceLockSetFailed)) forked ∉ (runOps w ops).1 := by
  induction ops generalizing w with
  | nil => nofun
  | cons op ops ih =>
    simp only [runOps, List.mem_cons, not_or]
    refine ⟨fun h => ?_, ih _⟩
    cases op with
    | get k => cases h
    | save env pid k =>
      simp only [Op.exec, Reply.saved.injEq] at h
      exact saveMountNamespace_ne_onceLockSetFailed env pid k w h.1.symm

abbrev Slots := MountNamespace → Option ℤ

/-- What the spec lets one call do to two write-once slots: a get returns the slot; a save
finding its slot set returns it without forking; a save from an empty slot may fail, leaving it
empty, or fork and fill that slot only with the fd it returns. -/
inductive Allowed : Slots → Op → Reply → Slots → Prop
  | get {s : Slots} {k : MountNamespace} : Allowed s (.get k) (.got (s k)) s
  | cached {s : Slots} {env : SaveEnv} {pid : ℤ} {k : MountNamespace} {fd : ℤ} :
      s k = some fd → Allowed s (.save env pid k) (.saved (.ok fd) false) s
  | failed {s : Slots} {env : SaveEnv} {pid : ℤ} {k : MountNamespace} {e : SaveError}
      {forked : Bool} : s k = none → Allowed s (.save env pid k) (.saved (.error e) forked) s
  | stored {s : Slots} {env : SaveEnv} {pid : ℤ} {k : MountNamespace} {fd : ℤ} :
      s k = none →
        Allowed s (.save env pid k) (.saved (.ok fd) true) (Function.update s k (some fd))

inductive AllowedRun : Slots → List Op → List Reply → Prop
  | nil {s : Slots} : AllowedRun s [] []
  | cons {s s' : Slots} {op : Op} {r : Reply} {ops : List Op} {rs : List Reply} :
      Allowed s op r s' → AllowedRun s' ops rs → AllowedRun s (op :: ops) (r :: rs)

theorem getNamespaceFd_set {m m' : MountNamespaceManager} {k : MountNamespace} {fd : NsFd}
    (h : m.set k fd = some m') :
    m'.getNamespaceFd = Function.update m.getNamespaceFd k (some fd.raw) := by
  funext k'
  simp only [MountNamespaceManager.getNamespaceFd, MountNamespaceManager.getNamespaceStorage_set h k',
    Function.update_apply]
  split_ifs <;> rfl

theorem exec_allowed (op : Op) (w : World) :
    Allowed w.mgr.getNamespaceFd op (op.exec w).1 (op.exec w).2.mgr.getNamespaceFd := by
  cases op with
  | get k => exact .get
  | save env pid k =>
    simp only [Op.exec]
    rcases saveMountNamespace_cases env pid k w with ⟨fd, hs, h⟩ | ⟨hs, e, he, hm⟩ | ⟨hs, fd, hr, hm, hlt⟩
    · simp only [h, lt_self_iff_false, decide_False]
      exact .cached (by simp [MountNamespaceManager.getNamespaceFd, hs])
    · rw [he, hm]
      exact .failed (by simp [MountNamespaceManager.getNamespaceFd, hs])
    · rw [hr, decide_eq_true hlt, getNamespaceFd_set hm]
      exact .stored (by simp [MountNamespaceManager.getNamespaceFd, hs])

/-- **Sequential calls refine the write-once slots.** Made one after another, with any pids,
kinds and syscall outcomes, the calls act on the cached fds as `Allowed` says. -/
theorem saveMountNamespace_refines (w : World) (ops : List Op) :
    AllowedRun w.mgr.getNamespaceFd ops (runOps w ops).1 := by
  induction ops generalizing w with
  | nil => exact .nil
  | cons op ops ih => exact .cons (exec_allowed op w) (ih _)

end Zygiskd
