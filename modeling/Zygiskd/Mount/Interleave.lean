import Zygiskd.Mount.Manager

/-!
# Zygiskd.Mount.Interleave — `save_mount_namespace` calls that run at the same time

Each connection is handled on a thread of its own, so several `save_mount_namespace` calls run
at once on one manager. A call is cut into the steps between which another thread may run: the
check of the slot, `pipe`, `fork`, the blocking `read`, `open`, kill-and-reap, and the `OnceLock`
set; a forked child's setup and a panicked child's exit are steps of their own. `fork` copies
every fd of the daemon, so a child forked while another thread sits between its `pipe` and its
own `fork` holds a write end of that thread's pipe.

* `concurrent_saves_fork_twice`: two calls for one empty slot both fork, and one returns `Err`.
* `interleaved_saves`, `interleaved_slots_write_once`: what every run keeps.
* `solo_run_saveMountNamespace`, `serial_schedule_runOps`: a call alone, and calls one after
  another, are runs of the threads, which do strictly more than the sequential model.
-/

namespace Zygiskd

/-- Where a thread is in `save_mount_namespace` (lines 92-153): at the check of its slot
(line 94), `pipe` (99), `fork` (101), the `read` waiting on child `c` (131), the `open` of its
namespace (135), kill-and-reap (138-141), the `OnceLock` set (144-146), or returned. From its
`pipe` on, `p` is the number of children forked before it: the children `p` to `c - 1` were
forked by other threads while its pipe was open. -/
inductive Pc
  | check
  | pipe
  | fork (p : ℕ)
  | read (p c : ℕ)
  | openNs (c : ℕ)
  | kill (c : ℕ) (fd : NsFd)
  | set (fd : NsFd)
  | done (r : Except SaveError ℤ)

structure Thread where
  pid : ℤ
  kind : MountNamespace
  pc : Pc
  child : Option ℕ

structure System where
  world : World
  threads : List Thread

/-- One step of a run: thread `i` runs its next line, whose syscall succeeds when `ok` (an
`open` that succeeds returns `raw`); child `c` runs its setup; or child `c`, having panicked,
is gone. -/
inductive Step
  | call (i : ℕ) (ok : Bool) (raw : ℤ)
  | setup (c : ℕ) (env : ChildEnv)
  | exit (c : ℕ)

/-- A process holds its copies of the daemon's fds until it is gone. -/
def ChildState.holdsFds : ChildState → Bool
  | .setup | .sleeping _ | .dying _ => true
  | .exited | .reaped => false

/-- The `read` of line 131 on the pipe of child `c`, whose write end children `p` to `c - 1`
also hold: it returns once the child wrote its byte, and at the end of the pipe once no process
holds a write end; until then it blocks. A child that panicked closed its own end. -/
def readBlocks (w : World) (p c : ℕ) : Bool :=
  match (w.children[c]?).map Child.state with
  | some (ChildState.sleeping _) => false
  | some ChildState.setup => true
  | _ => (List.range' p (c - p)).any fun d => (w.children[d]?).any (·.state.holdsFds)

/-- The next line of a thread; `none` while it is blocked or after it returned. -/
def threadStep (w : World) (t : Thread) (ok : Bool) (raw : ℤ) : Option (World × Thread) :=
  match t.pc with
  | .check =>
    match w.mgr.getNamespaceStorage t.kind with
    | some fd => some (w, { t with pc := .done (.ok fd.raw) })
    | none => some (w, { t with pc := .pipe })
  | .pipe =>
    some (w, { t with pc := if ok then .fork w.children.length else .done (.error (.os .pipe)) })
  | .fork p =>
    if ok then
      some (w.spawn ⟨t.pid, t.kind, .setup⟩,
        { t with pc := .read p w.children.length, child := some w.children.length })
    else some (w, { t with pc := .done (.error (.os .fork)) })
  | .read p c =>
    if !ok then some (w, { t with pc := .done (.error (.os .read)) })
    else if readBlocks w p c then none
    else some (w, { t with pc := .openNs c })
  | .openNs c =>
    match (w.children[c]?).bind (fun ch => openNsFile ch.state (if ok then some raw else none)) with
    | some fd => some (w, { t with pc := .kill c fd })
    | none => some (w, { t with pc := .done (.error (.os .openNs)) })
  | .kill c fd => some (w.setChild c .reaped, { t with pc := .set fd })
  | .set fd =>
    match w.mgr.set t.kind fd with
    | some mgr => some ({ w with mgr }, { t with pc := .done (.ok fd.raw) })
    | none => some (w, { t with pc := .done (.error (.msg onceLockSetFailed)) })
  | .done _ => none

/-- Child `c` runs its setup, from the daemon's directory, to its byte or to a panic. -/
def childSetup (w : World) (c : ℕ) (env : ChildEnv) : Option World :=
  match w.children[c]? with
  | some ch =>
    if ch.state = .setup then
      some (w.setChild c
        (match childBranch env ch.pid ch.kind ⟨.inherited, w.cwd⟩ with
          | .ok t => .sleeping t.ns
          | .error t => .dying t.ns))
    else none
  | none => none

/-- Child `c`, having panicked, is gone; its namespace goes with it. -/
def childExit (w : World) (c : ℕ) : Option World :=
  match (w.children[c]?).map (·.state) with
  | some (ChildState.dying _) => some (w.setChild c .exited)
  | _ => none

def System.step (s : System) : Step → Option System
  | .call i ok raw =>
    match s.threads[i]? with
    | some t => (threadStep s.world t ok raw).map fun (w, t) => ⟨w, s.threads.set i t⟩
    | none => none
  | .setup c env => (childSetup s.world c env).map fun w => { s with world := w }
  | .exit c => (childExit s.world c).map fun w => { s with world := w }

def System.run (s : System) : List Step → Option System
  | [] => some s
  | l :: ls => (s.step l).bind (·.run ls)

/-- Calls `save_mount_namespace(pid, k)`, all at their start. -/
def System.start (m : MountNamespaceManager) (cwd : List UInt8) (calls : List (ℤ × MountNamespace)) :
    System :=
  ⟨⟨m, [], cwd⟩, calls.map fun (pid, k) => ⟨pid, k, .check, none⟩⟩

/-! ## Two calls for one slot -/

/-- Both calls check the empty `Root` slot; then the first runs to its end, then the second. -/
def raceSteps : List Step :=
  let ok : ChildEnv := ⟨fun _ => true, true, true, true⟩
  [.call 0 true 0, .call 1 true 0,
   .call 0 true 0, .call 0 true 0, .setup 0 ok, .call 0 true 0, .call 0 true 5, .call 0 true 0,
   .call 0 true 0,
   .call 1 true 0, .call 1 true 0, .setup 1 ok, .call 1 true 0, .call 1 true 6, .call 1 true 0,
   .call 1 true 0]

/-- No syscall fails, yet two children are forked for the slot, and the second call returns
`Err("Failed to set OnceLock for namespace FD")`. -/
theorem concurrent_saves_fork_twice :
    ((System.start .new (lit "/") [(1, .root), (1, .root)]).run raceSteps).map
        (fun s => (s.threads.map (·.pc), s.world.children.length)) =
      some ([.done (.ok 5), .done (.error (.msg onceLockSetFailed))], 2) :=
  rfl

/-! ## What one line of a thread does -/

/-- The lines that change only the thread's own place in the function: the check, a failed
syscall, the `read`, the `open`, and the set that finds the slot filled meanwhile. -/
inductive Plain (w : World) (k : MountNamespace) : Pc → Pc → Prop
  | hit {fd : NsFd} : w.mgr.getNamespaceStorage k = some fd → Plain w k .check (.done (.ok fd.raw))
  | miss : w.mgr.getNamespaceStorage k = none → Plain w k .check .pipe
  | piped : Plain w k .pipe (.fork w.children.length)
  | osError {p : Pc} {call : Syscall} : Plain w k p (.done (.error (.os call)))
  | read {p c : ℕ} : Plain w k (.read p c) (.openNs c)
  | opened {c : ℕ} {fd : NsFd} : Plain w k (.openNs c) (.kill c fd)
  | lost {fd : NsFd} : w.mgr.set k fd = none →
      Plain w k (.set fd) (.done (.error (.msg onceLockSetFailed)))

/-- Everything one line of a thread can do: a plain step, the `fork`, the kill-and-reap, or the
`OnceLock` set that fills the slot. -/
theorem threadStep_eq_some {w w' : World} {t t' : Thread} {ok : Bool} {raw : ℤ}
    (h : threadStep w t ok raw = some (w', t')) :
    t'.pid = t.pid ∧ t'.kind = t.kind ∧
      ((w' = w ∧ t'.child = t.child ∧ Plain w t.kind t.pc t'.pc) ∨
        (∃ p, t.pc = .fork p ∧ w' = w.spawn ⟨t.pid, t.kind, .setup⟩ ∧
          t'.pc = .read p w.children.length ∧ t'.child = some w.children.length) ∨
        (∃ c fd, t.pc = .kill c fd ∧ w' = w.setChild c .reaped ∧ t'.pc = .set fd ∧
          t'.child = t.child) ∨
        (∃ fd mgr, t.pc = .set fd ∧ w.mgr.set t.kind fd = some mgr ∧ w' = { w with mgr } ∧
          t'.pc = .done (.ok fd.raw) ∧ t'.child = t.child)) := by
  unfold threadStep at h
  cases hpc : t.pc with
  | check =>
    simp only [hpc] at h
    cases hs : w.mgr.getNamespaceStorage t.kind <;> rw [hs] at h <;> cases h
    · exact ⟨rfl, rfl, .inl ⟨rfl, rfl, .miss hs⟩⟩
    · exact ⟨rfl, rfl, .inl ⟨rfl, rfl, .hit hs⟩⟩
  | pipe =>
    simp only [hpc] at h; cases h
    cases ok
    · exact ⟨rfl, rfl, .inl ⟨rfl, rfl, .osError⟩⟩
    · exact ⟨rfl, rfl, .inl ⟨rfl, rfl, .piped⟩⟩
  | fork p =>
    simp only [hpc] at h
    cases ok <;> cases h
    · exact ⟨rfl, rfl, .inl ⟨rfl, rfl, .osError⟩⟩
    · exact ⟨rfl, rfl, .inr (.inl ⟨p, rfl, rfl, rfl, rfl⟩)⟩
  | read p c =>
    simp only [hpc] at h
    cases ok
    · cases h; exact ⟨rfl, rfl, .inl ⟨rfl, rfl, .osError⟩⟩
    · simp only [Bool.not_true, Bool.false_eq_true, ↓reduceIte] at h
      split_ifs at h
      cases h; exact ⟨rfl, rfl, .inl ⟨rfl, rfl, .read⟩⟩
  | openNs c =>
    simp only [hpc] at h
    split at h <;> cases h
    · exact ⟨rfl, rfl, .inl ⟨rfl, rfl, .opened⟩⟩
    · exact ⟨rfl, rfl, .inl ⟨rfl, rfl, .osError⟩⟩
  | kill c fd =>
    simp only [hpc] at h; cases h
    exact ⟨rfl, rfl, .inr (.inr (.inl ⟨c, fd, rfl, rfl, rfl, rfl⟩))⟩
  | set fd =>
    simp only [hpc] at h
    cases hm : w.mgr.set t.kind fd <;> rw [hm] at h <;> cases h
    · exact ⟨rfl, rfl, .inl ⟨rfl, rfl, .lost hm⟩⟩
    · exact ⟨rfl, rfl, .inr (.inr (.inr ⟨fd, _, rfl, hm, rfl, rfl, rfl⟩))⟩
  | done r => simp [hpc] at h

/-! ## The world only grows -/

def World.kinds (w : World) : List MountNamespace := w.children.map (·.kind)

@[simp] theorem World.length_kinds (w : World) : w.kinds.length = w.children.length :=
  List.length_map _ _

@[simp] theorem World.kinds_spawn (w : World) (c : Child) :
    (w.spawn c).kinds = w.kinds ++ [c.kind] := by
  simp [World.kinds, World.spawn]

@[simp] theorem World.kinds_setChild (w : World) (i : ℕ) (st : ChildState) :
    (w.setChild i st).kinds = w.kinds := by
  simp only [World.kinds, World.setChild]
  induction w.children generalizing i with
  | nil => simp
  | cons c cs ih => cases i <;> simp [ih]

/-- `w'` comes after `w`: a filled slot keeps its fd, and the children forked so far keep their
kinds. -/
structure World.Grows (w w' : World) : Prop where
  slots : ∀ k fd, w.mgr.getNamespaceStorage k = some fd → w'.mgr.getNamespaceStorage k = some fd
  kinds : w.kinds <+: w'.kinds

theorem World.Grows.of_eq {w w' : World} (hm : w'.mgr = w.mgr) (hk : w'.kinds = w.kinds) :
    w.Grows w' :=
  ⟨fun _ _ h => hm ▸ h, hk ▸ List.prefix_refl _⟩

theorem MountNamespaceManager.getNamespaceStorage_of_set {m m' : MountNamespaceManager} {k : MountNamespace}
    {fd : NsFd} (h : m.set k fd = some m') : m.getNamespaceStorage k = none :=
  Option.not_isSome_iff_eq_none.mp fun hs => by
    rw [MountNamespaceManager.set_eq_none.mpr hs] at h
    cases h

theorem threadStep_grows {w w' : World} {t t' : Thread} {ok : Bool} {raw : ℤ}
    (h : threadStep w t ok raw = some (w', t')) : w.Grows w' := by
  obtain ⟨-, -, ⟨rfl, -⟩ | ⟨-, -, rfl, -⟩ | ⟨c, fd, -, rfl, -⟩ | ⟨fd, mgr, -, hm, rfl, -⟩⟩ :=
    threadStep_eq_some h
  · exact .of_eq rfl rfl
  · exact ⟨fun _ _ h => h, World.kinds_spawn w _ ▸ List.prefix_append _ _⟩
  · exact .of_eq rfl (World.kinds_setChild _ _ _)
  · refine ⟨fun k fd' hk => ?_, List.prefix_refl _⟩
    rw [MountNamespaceManager.getNamespaceStorage_set hm k, if_neg]
    · exact hk
    · rintro rfl
      rw [MountNamespaceManager.getNamespaceStorage_of_set hm] at hk
      cases hk

/-! ## What every run keeps -/

/-- The child a thread has forked, as its line says: none before the `fork`, child `c` while it
waits on, opens or kills `c`, and one at its set. -/
def PcChild : Pc → Option ℕ → Prop
  | .check, c | .pipe, c | .fork _, c => c = none
  | .read _ i, c | .openNs i, c | .kill i _, c => c = some i
  | .set _, c => c.isSome
  | .done _, _ => True

/-- What holds of a thread in the world `w`: a call that returned `Ok` returned the fd of its
slot; one that returned another `Err` than an OS error lost the race at its set, after forking,
with its slot filled; and the child it forked is one of its kind. -/
structure ThreadOk (w : World) (t : Thread) : Prop where
  ok_slot : ∀ raw, t.pc = .done (.ok raw) → w.mgr.getNamespaceFd t.kind = some raw
  err : ∀ e, t.pc = .done (.error e) → (∃ call, e = .os call) ∨
    (e = .msg onceLockSetFailed ∧ t.child.isSome ∧ (w.mgr.getNamespaceStorage t.kind).isSome)
  pc_child : PcChild t.pc t.child
  kind : ∀ c, t.child = some c → w.kinds[c]? = some t.kind

theorem ThreadOk.mono {w w' : World} {t : Thread} (hg : w.Grows w') (ht : ThreadOk w t) :
    ThreadOk w' t where
  ok_slot raw hpc := by
    obtain ⟨fd, hfd, hraw⟩ := Option.map_eq_some'.mp (ht.ok_slot raw hpc)
    simp [MountNamespaceManager.getNamespaceFd, hg.slots _ _ hfd, hraw]
  err e hpc := (ht.err e hpc).imp_right fun ⟨he, hc, hs⟩ => by
    obtain ⟨fd, hfd⟩ := Option.isSome_iff_exists.mp hs
    exact ⟨he, hc, by simp [hg.slots _ _ hfd]⟩
  pc_child := ht.pc_child
  kind c hc := by
    have hk := ht.kind c hc
    obtain ⟨l, hl⟩ := hg.kinds
    rw [← hl, List.getElem?_append_left (List.getElem?_eq_some_iff.mp hk).1, hk]

theorem ThreadOk.running {w : World} {t : Thread} (hpc : ∀ r, t.pc ≠ .done r)
    (hc : PcChild t.pc t.child) (hk : ∀ c, t.child = some c → w.kinds[c]? = some t.kind) :
    ThreadOk w t :=
  ⟨fun _ h => absurd h (hpc _), fun _ h => absurd h (hpc _), hc, hk⟩

/-- The line a thread runs keeps what holds of it. -/
theorem threadStep_threadOk {w w' : World} {t t' : Thread} {ok : Bool} {raw : ℤ}
    (h : threadStep w t ok raw = some (w', t')) (ht : ThreadOk w t) : ThreadOk w' t' := by
  obtain ⟨-, hkind, hcase⟩ := threadStep_eq_some h
  obtain ⟨pid, k, pc, child⟩ := t
  obtain ⟨pid', k', pc', child'⟩ := t'
  obtain ⟨-, -, hpc, hk⟩ := ht
  dsimp only at hkind hcase hpc hk ⊢
  subst hkind
  rcases hcase with ⟨rfl, rfl, hp⟩ | ⟨p, rfl, rfl, rfl, rfl⟩ | ⟨c, fd, rfl, rfl, rfl, rfl⟩ |
    ⟨fd, mgr, rfl, hm, rfl, rfl, rfl⟩
  · cases hp with
    | hit hs =>
      exact ⟨fun _ h => by cases h; simp [MountNamespaceManager.getNamespaceFd, hs], nofun, trivial, hk⟩
    | miss => exact .running nofun hpc hk
    | piped => exact .running nofun hpc hk
    | osError => exact ⟨nofun, fun _ h => by cases h; exact .inl ⟨_, rfl⟩, trivial, hk⟩
    | read => exact .running nofun hpc hk
    | opened => exact .running nofun hpc hk
    | lost hm =>
      exact ⟨nofun, fun _ h => by
        cases h; exact .inr ⟨rfl, hpc, MountNamespaceManager.set_eq_none.mp hm⟩, trivial, hk⟩
  · exact .running nofun rfl fun c hc => by cases hc; simp [List.getElem?_concat_length]
  · exact .running nofun (by subst hpc; rfl) (by simpa using hk)
  · exact ⟨fun _ h => by
      cases h; simp [MountNamespaceManager.getNamespaceFd, MountNamespaceManager.getNamespaceStorage_set hm],
      nofun, trivial, hk⟩

/-- A line forks a child, the next one, or leaves the thread's child and the children's kinds as
they are. -/
theorem threadStep_child {w w' : World} {t t' : Thread} {ok : Bool} {raw : ℤ}
    (h : threadStep w t ok raw = some (w', t')) (hpc : PcChild t.pc t.child) :
    (t'.child = t.child ∧ w'.kinds = w.kinds) ∨
      (t.child = none ∧ t'.child = some w.kinds.length ∧ w'.kinds = w.kinds ++ [t.kind]) := by
  obtain ⟨-, -, ⟨rfl, hc, -⟩ | ⟨p, hf, rfl, -, hc⟩ | ⟨-, -, -, rfl, -, hc⟩ | ⟨-, -, -, -, rfl, -, hc⟩⟩ :=
    threadStep_eq_some h
  · exact .inl ⟨hc, rfl⟩
  · rw [hf] at hpc
    exact .inr ⟨hpc, by simpa using hc, World.kinds_spawn _ _⟩
  · exact .inl ⟨hc, World.kinds_setChild _ _ _⟩
  · exact .inl ⟨hc, rfl⟩

theorem map_set_of_eq {α β : Type} (f : α → β) {l : List α} {i : ℕ} {a b : α}
    (ha : l[i]? = some a) (hb : f b = f a) : (l.set i b).map f = l.map f := by
  induction l generalizing i with
  | nil => simp at ha
  | cons x l ih =>
    cases i with
    | zero => obtain rfl : x = a := by simpa using ha
              simp [hb]
    | succ i => simp [ih (by simpa using ha)]

theorem filterMap_set_of_eq {α β : Type} (f : α → Option β) {l : List α} {i : ℕ} {a b : α}
    (ha : l[i]? = some a) (hb : f b = f a) : (l.set i b).filterMap f = l.filterMap f := by
  induction l generalizing i with
  | nil => simp at ha
  | cons x l ih =>
    cases i with
    | zero => obtain rfl : x = a := by simpa using ha
              simp [List.filterMap_cons, hb]
    | succ i => rw [List.set_cons_succ, List.filterMap_cons, List.filterMap_cons, ih (by simpa using ha)]

theorem filterMap_set_perm {α β : Type} (f : α → Option β) {l : List α} {i : ℕ} {a b : α} {y : β}
    (ha : l[i]? = some a) (hfa : f a = none) (hfb : f b = some y) :
    ((l.set i b).filterMap f).Perm (y :: l.filterMap f) := by
  induction l generalizing i with
  | nil => simp at ha
  | cons x l ih =>
    cases i with
    | zero => obtain rfl : x = a := by simpa using ha
              simp [List.filterMap_cons, hfa, hfb]
    | succ i =>
      rw [List.set_cons_succ, List.filterMap_cons, List.filterMap_cons]
      cases f x with
      | none => exact ih (by simpa using ha)
      | some z => exact ((ih (by simpa using ha)).cons z).trans (List.Perm.swap y z _)

/-- Every step of the daemon: a line of thread `i`, or a child's step, which leaves the threads,
the manager and the children's kinds as they are. -/
theorem System.step_eq_some {s s' : System} {l : Step} (h : s.step l = some s') :
    (∃ i ok raw t w' t', s.threads[i]? = some t ∧ threadStep s.world t ok raw = some (w', t') ∧
        s'.world = w' ∧ s'.threads = s.threads.set i t') ∨
      (s'.threads = s.threads ∧ s'.world.mgr = s.world.mgr ∧ s'.world.kinds = s.world.kinds) := by
  cases l with
  | call i ok raw =>
    cases ht : s.threads[i]? with
    | none => simp [System.step, ht] at h
    | some t =>
      simp only [System.step, ht] at h
      obtain ⟨⟨w', t'⟩, hs, rfl⟩ := Option.map_eq_some'.mp h
      exact .inl ⟨i, ok, raw, t, w', t', ht, hs, rfl, rfl⟩
  | setup c env =>
    obtain ⟨w', hw, rfl⟩ := Option.map_eq_some'.mp h
    refine .inr ⟨rfl, ?_⟩
    unfold childSetup at hw
    split at hw
    · split_ifs at hw
      cases hw
      simp
    · cases hw
  | exit c =>
    obtain ⟨w', hw, rfl⟩ := Option.map_eq_some'.mp h
    refine .inr ⟨rfl, ?_⟩
    unfold childExit at hw
    split at hw
    · cases hw
      simp
    · cases hw

/-- What holds in every state a run from `System.start _ _ calls` reaches. -/
structure SaveInv (calls : List (ℤ × MountNamespace)) (s : System) : Prop where
  calls : s.threads.map (fun t => (t.pid, t.kind)) = calls
  threads : ∀ t ∈ s.threads, ThreadOk s.world t
  forked : (s.threads.filterMap (·.child)).Perm (List.range s.world.kinds.length)

theorem saveInv_start (m : MountNamespaceManager) (cwd : List UInt8)
    (calls : List (ℤ × MountNamespace)) : SaveInv calls (System.start m cwd calls) where
  calls := by simp [System.start, Function.comp_def]
  threads := by
    simp only [System.start, List.mem_map]
    rintro _ ⟨⟨pid, k⟩, -, rfl⟩
    exact .running nofun rfl nofun
  forked := by simp [System.start, World.kinds]

theorem SaveInv.step {calls : List (ℤ × MountNamespace)} {s s' : System} {l : Step}
    (hi : SaveInv calls s) (h : s.step l = some s') : SaveInv calls s' := by
  rcases System.step_eq_some h with ⟨i, ok, raw, t, w', t', hti, hst, hw, hth⟩ | ⟨hth, hm, hk⟩
  · have ht := hi.threads t (List.getElem?_mem hti)
    obtain ⟨hpid, hkind, -⟩ := threadStep_eq_some hst
    refine ⟨?_, ?_, ?_⟩ <;> rw [hth] <;> try rw [hw]
    · rw [← hi.calls]
      exact map_set_of_eq _ hti (by rw [hpid, hkind])
    · intro u hu
      rcases List.mem_or_eq_of_mem_set hu with hu | rfl
      · exact (hi.threads u hu).mono (threadStep_grows hst)
      · exact threadStep_threadOk hst ht
    · rcases threadStep_child hst ht.pc_child with ⟨hc, hk⟩ | ⟨hc, hc', hk⟩
      · rw [filterMap_set_of_eq _ hti hc, hk]
        exact hi.forked
      · rw [hk, List.length_append, List.length_singleton, List.range_succ]
        exact (filterMap_set_perm _ hti hc hc').trans
          ((hi.forked.cons _).trans (List.perm_append_singleton _ _).symm)
  · refine ⟨hth ▸ hi.calls, fun t ht => (hi.threads t (hth ▸ ht)).mono (.of_eq hm hk), ?_⟩
    rw [hth, hk]
    exact hi.forked

theorem SaveInv.run {calls : List (ℤ × MountNamespace)} {s s' : System} {steps : List Step}
    (hi : SaveInv calls s) (h : s.run steps = some s') : SaveInv calls s' := by
  induction steps generalizing s with
  | nil => cases h; exact hi
  | cons l ls ih =>
    obtain ⟨s₁, h₁, h₂⟩ := Option.bind_eq_some.mp h
    exact ih (hi.step h₁) h₂

/-- **Concurrent saves.** In every state that any interleaving of the calls reaches, on any
manager, with any syscall failing or not, `SaveInv` holds: calls of one kind that returned `Ok`
agree with their slot, a call that returned another `Err` than an OS error lost the race at its
set, and each call forked at most one child, of its own kind. -/
theorem interleaved_saves (m : MountNamespaceManager) (cwd : List UInt8)
    (calls : List (ℤ × MountNamespace)) (steps : List Step) (s : System)
    (h : (System.start m cwd calls).run steps = some s) :
    s.threads.map (fun t => (t.pid, t.kind)) = calls ∧
      (∀ t ∈ s.threads, ∀ raw, t.pc = .done (.ok raw) →
        s.world.mgr.getNamespaceFd t.kind = some raw) ∧
      (∀ t ∈ s.threads, ∀ e, t.pc = .done (.error e) → (∃ call, e = .os call) ∨
        (e = .msg onceLockSetFailed ∧ t.child.isSome ∧ (s.world.mgr.getNamespaceStorage t.kind).isSome)) ∧
      (s.threads.filterMap (·.child)).Perm (List.range s.world.children.length) ∧
      (∀ t ∈ s.threads, ∀ c, t.child = some c → (s.world.children[c]?).map (·.kind) = some t.kind) ∧
      s.world.children.length ≤ calls.length := by
  have hi := (saveInv_start m cwd calls).run h
  have hforked : (s.threads.filterMap (·.child)).Perm (List.range s.world.children.length) := by
    simpa using hi.forked
  refine ⟨hi.calls, fun t ht => (hi.threads t ht).ok_slot, fun t ht => (hi.threads t ht).err,
    hforked, fun t ht c hc => by simpa [World.kinds] using (hi.threads t ht).kind c hc, ?_⟩
  calc s.world.children.length
      = (s.threads.filterMap (·.child)).length := by simpa using hforked.length_eq.symm
    _ ≤ s.threads.length := List.length_filterMap_le _ _
    _ = calls.length := by rw [← hi.calls, List.length_map]

/-- The race above is such a run: its `Ok` call returned the fd of the `Root` slot, and it forked
no more children than there are calls. -/
theorem race_ok_returns_slot_fd :
    ∃ s, (System.start .new (lit "/") [(1, .root), (1, .root)]).run raceSteps = some s ∧
      (∀ t ∈ s.threads, ∀ raw, t.pc = .done (.ok raw) →
        s.world.mgr.getNamespaceFd t.kind = some raw) ∧
      s.world.children.length ≤ 2 :=
  have hs : ((System.start .new (lit "/") [(1, .root), (1, .root)]).run raceSteps).isSome := rfl
  have h := (Option.some_get hs).symm
  match interleaved_saves .new (lit "/") [(1, .root), (1, .root)] raceSteps _ h with
  | ⟨_, hok, _, _, _, hlen⟩ => ⟨_, h, hok, hlen⟩

/-! ## Slots are written once -/

theorem World.Grows.trans {w₁ w₂ w₃ : World} (h₁ : w₁.Grows w₂) (h₂ : w₂.Grows w₃) :
    w₁.Grows w₃ :=
  ⟨fun k fd h => h₂.slots k fd (h₁.slots k fd h), h₁.kinds.trans h₂.kinds⟩

theorem System.step_grows {s s' : System} {l : Step} (h : s.step l = some s') :
    s.world.Grows s'.world := by
  rcases System.step_eq_some h with ⟨_, _, _, _, _, _, _, hst, hw, _⟩ | ⟨-, hm, hk⟩
  · exact hw ▸ threadStep_grows hst
  · exact .of_eq hm hk

theorem System.run_grows {s s' : System} {steps : List Step} (h : s.run steps = some s') :
    s.world.Grows s'.world := by
  induction steps generalizing s with
  | nil => cases h; exact ⟨fun _ _ h => h, List.prefix_refl _⟩
  | cons l ls ih =>
    obtain ⟨s₁, h₁, h₂⟩ := Option.bind_eq_some.mp h
    exact (System.step_grows h₁).trans (ih h₂)

/-- **A cached fd is never replaced.** Over any interleaving of calls and children, from any
state: a slot that holds an fd holds the same fd in every later state. -/
theorem interleaved_slots_write_once {s s' : System} {steps : List Step}
    (h : s.run steps = some s') (k : MountNamespace) (fd : NsFd)
    (hk : s.world.mgr.getNamespaceStorage k = some fd) : s'.world.mgr.getNamespaceStorage k = some fd :=
  (System.run_grows h).slots k fd hk

/-- Two calls for a `Root` slot that is already filled: both return its fd, which stays. -/
theorem cached_root_slot_stays :
    ∃ s', (System.start ⟨none, some ⟨3, .ofPid 1⟩⟩ (lit "/") [(1, .root), (2, .root)]).run
        [.call 0 true 0, .call 1 true 0] = some s' ∧
      s'.world.mgr.getNamespaceStorage .root = some ⟨3, .ofPid 1⟩ :=
  have hs : ((System.start ⟨none, some ⟨3, .ofPid 1⟩⟩ (lit "/") [(1, .root), (2, .root)]).run
      [.call 0 true 0, .call 1 true 0]).isSome := rfl
  have h := (Option.some_get hs).symm
  ⟨_, h, interleaved_slots_write_once h .root ⟨3, .ofPid 1⟩ rfl⟩

/-! ## A call alone -/

theorem System.run_append (s : System) (l₁ l₂ : List Step) :
    s.run (l₁ ++ l₂) = (s.run l₁).bind (·.run l₂) := by
  induction l₁ generalizing s with
  | nil => rfl
  | cons l ls ih =>
    show (s.step l).bind (·.run (ls ++ l₂)) = ((s.step l).bind (·.run ls)).bind (·.run l₂)
    cases s.step l with
    | none => rfl
    | some s' => exact ih s'

@[simp] theorem World.getElem_spawn_length (w : World) (c : Child)
    (h : w.children.length < (w.spawn c).children.length) :
    (w.spawn c).children[w.children.length] = c := by
  simp [World.spawn]

@[simp] theorem World.getElem?_spawn_length (w : World) (c : Child) :
    (w.spawn c).children[w.children.length]? = some c := by
  simp [World.spawn]

@[simp] theorem World.spawn_cwd (w : World) (c : Child) : (w.spawn c).cwd = w.cwd := rfl

/-- The steps of a forked child: its setup, and its exit if it panicked and `env` has it gone. -/
theorem childSteps (env : SaveEnv) (pid : ℤ) (k : MountNamespace) (w : World) (ts : List Thread) :
    ∃ steps, (System.mk (w.spawn ⟨pid, k, .setup⟩) ts).run steps =
      some ⟨w.spawn ⟨pid, k, env.childState w.cwd pid k⟩, ts⟩ := by
  unfold SaveEnv.childState
  cases hc : childBranch env.child pid k ⟨.inherited, w.cwd⟩ with
  | ok t =>
    refine ⟨[.setup w.children.length env.child], ?_⟩
    simp [System.run, System.step, childSetup, hc]
  | error t =>
    cases hx : env.exited
    · refine ⟨[.setup w.children.length env.child], ?_⟩
      simp [System.run, System.step, childSetup, hc]
    · refine ⟨[.setup w.children.length env.child, .exit w.children.length], ?_⟩
      simp [System.run, System.step, childSetup, childExit, hc]

theorem SaveEnv.childState_ne_setup (env : SaveEnv) (cwd : List UInt8) (pid : ℤ)
    (k : MountNamespace) : env.childState cwd pid k ≠ .setup := by
  unfold SaveEnv.childState
  split
  · nofun
  · split <;> nofun

/-- With no other child forked while its pipe was open, the `read` waits only for its child's
setup. -/
theorem readBlocks_self {w : World} {c : ℕ} (h : (w.children[c]?).map (·.state) ≠ some .setup) :
    readBlocks w c c = false := by
  unfold readBlocks
  split
  · rfl
  · contradiction
  · simp

@[simp] theorem System.run_nil (s : System) : s.run [] = some s := rfl

/-- A line of the thread at place `pre.length`; the others stay as they are. -/
theorem System.run_call (w : World) (pre post : List Thread) (t : Thread) (ok : Bool) (raw : ℤ)
    (rest : List Step) :
    (System.mk w (pre ++ t :: post)).run (.call pre.length ok raw :: rest) =
      (threadStep w t ok raw).bind fun p => (System.mk p.1 (pre ++ p.2 :: post)).run rest := by
  simp only [System.run, System.step, List.getElem?_append_right (Nat.le_refl _), Nat.sub_self,
    List.getElem?_cons_zero, List.set_append_right _ _ (Nat.le_refl _), List.set_cons_zero,
    Option.bind_map]
  rfl

/-- The call of the thread at place `pre.length`, run to its end with no other thread running,
ends with the result and the daemon that `saveMountNamespace` gives. -/
theorem System.run_saveMountNamespace (env : SaveEnv) (pid : ℤ) (k : MountNamespace) (w : World)
    (pre post : List Thread) :
    ∃ steps, (System.mk w (pre ++ ⟨pid, k, .check, none⟩ :: post)).run steps =
      some ⟨(saveMountNamespace env pid k w).2,
        pre ++ ⟨pid, k, .done (saveMountNamespace env pid k w).1,
          if w.children.length < (saveMountNamespace env pid k w).2.children.length
          then some w.children.length else none⟩ :: post⟩ := by
  unfold saveMountNamespace
  cases hs : w.mgr.getNamespaceStorage k with
  | some fd =>
    exact ⟨[.call pre.length true 0], by
      simp only [System.run_call, threadStep, hs, System.run_nil, Option.some_bind,
        lt_self_iff_false, ↓reduceIte]⟩
  | none =>
    simp only
    cases hp : env.pipe
    · exact ⟨[.call pre.length true 0, .call pre.length false 0], by
        simp only [System.run_call, threadStep, hs, System.run_nil, Option.some_bind, ↓reduceIte,
          Bool.not_false, Bool.false_eq_true, lt_self_iff_false]⟩
    cases hf : env.fork
    · exact ⟨[.call pre.length true 0, .call pre.length true 0, .call pre.length false 0], by
        simp only [System.run_call, threadStep, hs, System.run_nil, Option.some_bind, ↓reduceIte,
          Bool.not_true, Bool.not_false, Bool.false_eq_true, lt_self_iff_false]⟩
    have hfork : (System.mk w (pre ++ ⟨pid, k, .check, none⟩ :: post)).run
        [.call pre.length true 0, .call pre.length true 0, .call pre.length true 0] =
          some ⟨w.spawn ⟨pid, k, .setup⟩,
            pre ++ ⟨pid, k, .read w.children.length w.children.length, some w.children.length⟩ :: post⟩ := by
      simp only [System.run_call, threadStep, hs, System.run_nil, Option.some_bind, ↓reduceIte,
        Bool.not_true, Bool.false_eq_true]
    obtain ⟨cs, hcs⟩ :=
      childSteps env pid k w (pre ++ ⟨pid, k, .read w.children.length w.children.length, some w.children.length⟩ :: post)
    have hrun : ∀ tail, (System.mk w (pre ++ ⟨pid, k, .check, none⟩ :: post)).run
        ([.call pre.length true 0, .call pre.length true 0, .call pre.length true 0] ++ cs ++ tail) =
          (System.mk (w.spawn ⟨pid, k, env.childState w.cwd pid k⟩)
            (pre ++ ⟨pid, k, .read w.children.length w.children.length, some w.children.length⟩ :: post)).run tail :=
      fun tail => by
        rw [System.run_append, System.run_append, hfork, Option.some_bind, hcs, Option.some_bind]
    have hread : threadStep (w.spawn ⟨pid, k, env.childState w.cwd pid k⟩)
        ⟨pid, k, .read w.children.length w.children.length, some w.children.length⟩ true 0 =
          some (w.spawn ⟨pid, k, env.childState w.cwd pid k⟩,
            ⟨pid, k, .openNs w.children.length, some w.children.length⟩) := by
      simp [threadStep, readBlocks_self, env.childState_ne_setup w.cwd pid k]
    have hopen : (if env.openNs.isSome then some (env.openNs.getD 0) else none) = env.openNs := by
      cases env.openNs <;> rfl
    cases hr : env.read
    · exact ⟨_, (hrun [.call pre.length false 0]).trans (by
        simp only [System.run_call, threadStep, System.run_nil, Option.some_bind, ↓reduceIte,
          Bool.not_true, Bool.not_false, Bool.false_eq_true, World.length_spawn,
          lt_add_iff_pos_right, zero_lt_one])⟩
    cases hfd : openNsFile (env.childState w.cwd pid k) env.openNs with
    | none =>
      refine ⟨_, (hrun [.call pre.length true 0,
        .call pre.length env.openNs.isSome (env.openNs.getD 0)]).trans ?_⟩
      rw [System.run_call, hread, Option.some_bind]
      simp only [System.run_call, threadStep, World.getElem?_spawn_length, hopen, hfd,
        Option.some_bind, System.run_nil, World.length_spawn, lt_add_iff_pos_right, zero_lt_one,
        ↓reduceIte, Bool.not_true, Bool.false_eq_true]
    | some fd =>
      refine ⟨_, (hrun [.call pre.length true 0, .call pre.length env.openNs.isSome
        (env.openNs.getD 0), .call pre.length true 0, .call pre.length true 0]).trans ?_⟩
      rw [System.run_call, hread, Option.some_bind]
      simp only [System.run_call, threadStep, World.getElem?_spawn_length, Option.some_bind,
        hopen, hfd, World.setChild_mgr, World.spawn_mgr]
      cases w.mgr.set k fd <;>
        simp only [World.setChild_spawn, System.run_nil, Option.some_bind, Bool.not_true,
          Bool.false_eq_true, ↓reduceIte, World.length_spawn, lt_add_iff_pos_right, zero_lt_one]

/-- **A call alone runs as `saveMountNamespace`,** whatever its syscalls and its child do. -/
theorem solo_run_saveMountNamespace (env : SaveEnv) (pid : ℤ) (k : MountNamespace) (w : World) :
    ∃ steps child, (System.mk w [⟨pid, k, .check, none⟩]).run steps =
      some ⟨(saveMountNamespace env pid k w).2,
        [⟨pid, k, .done (saveMountNamespace env pid k w).1, child⟩]⟩ :=
  let ⟨steps, h⟩ := System.run_saveMountNamespace env pid k w [] []
  ⟨steps, _, h⟩

/-! ## Calls one after another -/

/-- What a returned call replied, as the sequential model `runOps` records it: its result, and
whether it forked. -/
def Thread.reply (t : Thread) : Option Reply :=
  match t.pc with
  | .done r => some (.saved r t.child.isSome)
  | _ => none

def startThreads (calls : List (SaveEnv × ℤ × MountNamespace)) : List Thread :=
  calls.map fun c => ⟨c.2.1, c.2.2, .check, none⟩

def saveOps (calls : List (SaveEnv × ℤ × MountNamespace)) : List Op :=
  calls.map fun c => .save c.1 c.2.1 c.2.2

/-- Runs each call to its end before the next one starts, after the returned threads `pre`. -/
theorem System.run_serial (pre : List Thread) (w : World)
    (calls : List (SaveEnv × ℤ × MountNamespace)) :
    ∃ steps post, (System.mk w (pre ++ startThreads calls)).run steps =
        some ⟨(runOps w (saveOps calls)).2, pre ++ post⟩ ∧
      post.map Thread.reply = (runOps w (saveOps calls)).1.map some := by
  induction calls generalizing pre w with
  | nil => exact ⟨[], [], rfl, rfl⟩
  | cons c calls ih =>
    obtain ⟨env, pid, k⟩ := c
    let t : Thread := ⟨pid, k, .done (saveMountNamespace env pid k w).1,
      if w.children.length < (saveMountNamespace env pid k w).2.children.length
      then some w.children.length else none⟩
    obtain ⟨steps₁, h₁⟩ := System.run_saveMountNamespace env pid k w pre (startThreads calls)
    obtain ⟨steps₂, post, h₂, hpost⟩ := ih (pre ++ [t]) (saveMountNamespace env pid k w).2
    simp only [List.append_assoc, List.singleton_append] at h₂
    refine ⟨steps₁ ++ steps₂, t :: post, ?_, ?_⟩
    · rw [System.run_append]
      exact (congrArg (Option.bind · _) h₁).trans h₂
    · simp only [List.map_cons, hpost, runOps, saveOps, Op.exec, Thread.reply]
      split_ifs <;> simp [*]

/-- **Calls one after another are runs of the daemon, and no more.** Running each call to its end
before the next starts gives the replies and the daemon of `runOps`, which never replies with the
`OnceLock` error; the second call of the race does. -/
theorem serial_schedule_runOps (m : MountNamespaceManager) (cwd : List UInt8)
    (calls : List (SaveEnv × ℤ × MountNamespace)) :
    (∃ steps s, (System.start m cwd (calls.map Prod.snd)).run steps = some s ∧
      s.world = (runOps ⟨m, [], cwd⟩ (saveOps calls)).2 ∧
      s.threads.map Thread.reply = (runOps ⟨m, [], cwd⟩ (saveOps calls)).1.map some) ∧
    (∀ (w : World) (ops : List Op) (forked : Bool),
      Reply.saved (.error (.msg onceLockSetFailed)) forked ∉ (runOps w ops).1) ∧
    ∃ s t, (System.start .new (lit "/") [(1, .root), (1, .root)]).run raceSteps = some s ∧
      s.threads[1]? = some t ∧ t.reply = some (.saved (.error (.msg onceLockSetFailed)) true) := by
  have hstart : System.start m cwd (calls.map Prod.snd) = ⟨⟨m, [], cwd⟩, [] ++ startThreads calls⟩ := by
    simp [System.start, startThreads, Function.comp_def]
  obtain ⟨steps, post, h, hpost⟩ := System.run_serial [] ⟨m, [], cwd⟩ calls
  have hrace : ((System.start .new (lit "/") [(1, .root), (1, .root)]).run raceSteps).isSome := rfl
  exact ⟨⟨steps, _, hstart ▸ h, rfl, hpost⟩, runOps_no_onceLockSetFailed,
    _, _, (Option.some_get hrace).symm, rfl, rfl⟩

end Zygiskd
