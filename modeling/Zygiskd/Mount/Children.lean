import Zygiskd.Mount.Interleave

/-!
# Zygiskd.Mount.Children — the processes `save_mount_namespace` forks, over every interleaving

A call forks a child (`mount.rs`, line 101), waits on its pipe (131), opens `/proc/<child>/ns/mnt`
(135), kills and reaps the child (138-141), and stores the fd (144), while other calls run at once
(`Zygiskd.Mount.Interleave`). This module follows the children through every run.

* `interleaved_kills_own_child`: a call kills and reaps only its own child, once, after its setup;
  its child is reaped exactly when the call did not fail with an OS error.
* `interleaved_read_hangs`: a call whose child panicked waits for ever on a copy of its pipe held
  by a sleeping child of another call that has returned.
* `interleaved_slots_pin_children`: from a new manager, a slot pins a namespace that a child
  forked for a call of its kind was in.
-/

namespace Zygiskd

/-! ## Where a child's setup stops -/

/-- The namespaces a child forked for `(pid, k)` can hold when its setup ends: the daemon's own
when `switch_mount_namespace` fails before `setns`; `pid`'s after it; and for `Clean`, `pid`'s
private copy when cleaning fails, the cleaned copy once it is done. -/
def childNamespaces (pid : ℤ) : MountNamespace → List NsView
  | .root => [.inherited, .ofPid pid]
  | .clean => [.inherited, .ofPid pid, .unshared (.ofPid pid), prepared pid .clean]

theorem switchMountNamespace_ns {ok : SwitchCall → Bool} {pid : ℤ} {cwd : List UInt8} {t : Task}
    (h : switchMountNamespace ok pid ⟨.inherited, cwd⟩ = .error t) :
    t.ns = .inherited ∨ t.ns = .ofPid pid := by
  rw [switchMountNamespace_eq] at h
  split_ifs at h <;> cases h
  · exact .inr rfl
  · exact .inl rfl

/-- Wherever the child's branch ends, with its byte written or in a panic, the child is in one of
the namespaces of its call. -/
theorem childBranch_ns {env : ChildEnv} {pid : ℤ} {k : MountNamespace} {cwd : List UInt8}
    {t : Task} (h : childBranch env pid k ⟨.inherited, cwd⟩ = .ok t ∨
      childBranch env pid k ⟨.inherited, cwd⟩ = .error t) :
    t.ns ∈ childNamespaces pid k := by
  unfold childBranch at h
  cases hs : switchMountNamespace env.switch pid ⟨.inherited, cwd⟩ with
  | error t₁ =>
    rw [hs] at h
    obtain h | h := h <;> cases h
    cases k <;> rcases switchMountNamespace_ns hs with h | h <;> simp [childNamespaces, h]
  | ok t₁ =>
    rw [hs, switchMountNamespace_ok hs] at h
    revert h
    cases k <;> cases env.unshare <;> cases env.clean <;> cases env.write <;>
      rintro (h | h) <;> cases h <;> simp [childNamespaces, prepared]

/-! ## A child's state as its parent's line says -/

def ChildState.ns? : ChildState → Option NsView
  | .sleeping ns | .dying ns => some ns
  | _ => none

theorem openNsFile_ns {st : ChildState} {raw : Option ℤ} {fd : NsFd}
    (h : openNsFile st raw = some fd) : st.ns? = some fd.ns := by
  unfold openNsFile at h
  split at h <;> cases h <;> rfl

def Pc.fd? : Pc → Option NsFd
  | .kill _ fd | .set fd => some fd
  | _ => none

/-- What a thread's line says of the child it forked: not reaped while the thread reads the
pipe; past its setup and not reaped when the thread opens its namespace or kills it; reaped once
the thread is at its set; and after the return, reaped exactly when the call did not fail with an
OS error. -/
def Lifecycle : Pc → ChildState → Prop
  | .check, _ | .pipe, _ | .fork _, _ => True
  | .read _ _, st => st ≠ .reaped
  | .openNs _, st | .kill _ _, st => st ≠ .setup ∧ st ≠ .reaped
  | .set _, st => st = .reaped
  | .done r, st => (st = .reaped ↔ ∀ call, r ≠ .error (.os call))

/-- A child's own step takes it from a state not reaped to one past its setup and not reaped,
which every line that allowed the first allows. -/
theorem Lifecycle.of_live {p : Pc} {st st' : ChildState} (h : Lifecycle p st)
    (hst : st ≠ .reaped) (h₁ : st' ≠ .setup) (h₂ : st' ≠ .reaped) : Lifecycle p st' := by
  cases p with
  | read => exact h₂
  | openNs => exact ⟨h₁, h₂⟩
  | kill => exact ⟨h₁, h₂⟩
  | set => exact absurd h hst
  | done r => exact ⟨fun e => absurd e h₂, fun hr => absurd (h.mpr hr) hst⟩
  | _ => trivial

/-- What holds of thread `t` in the world `w`: its child is the one forked for its call, in the
state its line says, and the fd it holds pins a namespace of its call. -/
structure ChildOk (w : World) (t : Thread) : Prop where
  life : ∀ c, t.child = some c → ∃ ch, w.children[c]? = some ch ∧ ch.pid = t.pid ∧
    ch.kind = t.kind ∧ Lifecycle t.pc ch.state
  fd : ∀ fd, t.pc.fd? = some fd → fd.ns ∈ childNamespaces t.pid t.kind

def Held (w : World) : Prop :=
  ∀ (c : ℕ) (ch : Child) (ns : NsView), w.children[c]? = some ch → ch.state.ns? = some ns →
    ns ∈ childNamespaces ch.pid ch.kind

structure ChildInv (s : System) : Prop where
  threads : ∀ t ∈ s.threads, ChildOk s.world t
  held : Held s.world

/-! ## The children a step leaves alone -/

theorem World.getElem?_setChild_ne (w : World) {c c' : ℕ} (h : c ≠ c') (st : ChildState) :
    (w.setChild c st).children[c']? = w.children[c']? :=
  List.getElem?_modify_ne _ _ h

theorem World.getElem?_setChild_eq (w : World) (c : ℕ) (st : ChildState) :
    (w.setChild c st).children[c]? = (w.children[c]?).map fun ch => { ch with state := st } :=
  List.getElem?_modify_eq _ _ _

theorem World.getElem?_setChild_self (w : World) {c : ℕ} {ch : Child}
    (h : w.children[c]? = some ch) (st : ChildState) :
    (w.setChild c st).children[c]? = some { ch with state := st } := by
  rw [World.getElem?_setChild_eq, h]
  rfl

theorem World.getElem?_spawn_of_some {w : World} {c : ℕ} {ch : Child}
    (h : w.children[c]? = some ch) (x : Child) : (w.spawn x).children[c]? = some ch := by
  rw [World.spawn, List.getElem?_append_left (List.getElem?_eq_some_iff.mp h).1, h]

/-- Setting the state of child `c` to one that holds a namespace of its call, if any, keeps
`Held`. -/
theorem Held.setChild {w : World} (hw : Held w) (c : ℕ) {st : ChildState}
    (hst : ∀ ns, st.ns? = some ns → ∀ ch, w.children[c]? = some ch →
      ns ∈ childNamespaces ch.pid ch.kind) :
    Held (w.setChild c st) := by
  intro c' ch' ns hc' hns
  by_cases e : c = c'
  · subst e
    rw [World.getElem?_setChild_eq] at hc'
    obtain ⟨ch, hch, rfl⟩ := Option.map_eq_some'.mp hc'
    exact hst ns hns ch hch
  · rw [World.getElem?_setChild_ne _ e] at hc'
    exact hw c' ch' ns hc' hns

theorem Held.spawn {w : World} (hw : Held w) {x : Child} (hx : x.state.ns? = none) :
    Held (w.spawn x) := by
  intro c ch ns hc hns
  rcases Nat.lt_or_ge c w.children.length with hlt | hge
  · rw [World.spawn, List.getElem?_append_left hlt] at hc
    exact hw c ch ns hc hns
  · rw [World.spawn, List.getElem?_append_right hge] at hc
    cases hn : c - w.children.length with
    | zero => rw [hn] at hc; cases hc; simp [hx] at hns
    | succ n => rw [hn] at hc; cases hc

/-- A line changes no child but its thread's: it forks a new one, or reaps its own. -/
theorem threadStep_getElem?_other {w w' : World} {t t' : Thread} {ok : Bool} {raw : ℤ}
    (h : threadStep w t ok raw = some (w', t')) (hpc : PcChild t.pc t.child) {c : ℕ} {ch : Child}
    (hc : w.children[c]? = some ch) (hne : t.child ≠ some c) : w'.children[c]? = some ch := by
  obtain ⟨-, -, ⟨rfl, -⟩ | ⟨-, -, rfl, -⟩ | ⟨c', fd, hk, rfl, -⟩ | ⟨fd, mgr, -, -, rfl, -⟩⟩ :=
    threadStep_eq_some h
  · exact hc
  · exact World.getElem?_spawn_of_some hc _
  · rw [hk] at hpc
    rw [World.getElem?_setChild_ne _ (by rintro rfl; exact hne hpc), hc]
  · exact hc

theorem threadStep_held {w w' : World} {t t' : Thread} {ok : Bool} {raw : ℤ}
    (h : threadStep w t ok raw = some (w', t')) (hw : Held w) : Held w' := by
  obtain ⟨-, -, ⟨rfl, -⟩ | ⟨-, -, rfl, -⟩ | ⟨c, fd, -, rfl, -⟩ | ⟨fd, mgr, -, -, rfl, -⟩⟩ :=
    threadStep_eq_some h
  · exact hw
  · exact hw.spawn rfl
  · exact hw.setChild c nofun
  · exact hw

/-- Two threads of a run have different children: each child is one call's. -/
theorem child_ne_of_nodup {l : List Thread} (hnd : (l.filterMap (·.child)).Nodup) {i j : ℕ}
    {t u : Thread} (hi : l[i]? = some t) (hj : l[j]? = some u) (hij : i ≠ j) {c : ℕ}
    (hc : t.child = some c) : u.child ≠ some c := by
  have hp := List.pairwise_iff_getElem.mp (List.pairwise_filterMap.mp hnd)
  obtain ⟨hi', rfl⟩ := List.getElem?_eq_some_iff.mp hi
  obtain ⟨hj', rfl⟩ := List.getElem?_eq_some_iff.mp hj
  intro hu
  rcases Nat.lt_or_gt_of_ne hij with h | h
  · exact hp i j hi' hj' h c hc c hu rfl
  · exact hp j i hj' hi' h c hu c hc rfl

/-! ## What a step does to the children -/

theorem ChildOk.of_none {w : World} {t : Thread} (hc : t.child = none) (hfd : t.pc.fd? = none) :
    ChildOk w t :=
  ⟨fun c h => (by rw [hc] at h; cases h), fun fd h => (by rw [hfd] at h; cases h)⟩

theorem ChildOk.of_child {w : World} {t : Thread} {c : ℕ} {ch : Child} (hc : t.child = some c)
    (hch : w.children[c]? = some ch) (hpid : ch.pid = t.pid) (hkind : ch.kind = t.kind)
    (hl : Lifecycle t.pc ch.state)
    (hfd : ∀ fd, t.pc.fd? = some fd → fd.ns ∈ childNamespaces t.pid t.kind) : ChildOk w t where
  life c' hc' := by
    obtain rfl : c = c' := Option.some.inj (hc.symm.trans hc')
    exact ⟨ch, hch, hpid, hkind, hl⟩
  fd := hfd

/-- The line a thread runs keeps what holds of it and its child. -/
theorem threadStep_childOk {w w' : World} {t t' : Thread} {ok : Bool} {raw : ℤ}
    (h : threadStep w t ok raw = some (w', t')) (hpc : PcChild t.pc t.child) (ht : ChildOk w t)
    (hw : Held w) : ChildOk w' t' := by
  obtain ⟨pid, k, pc, child⟩ := t
  obtain ⟨hlife, hfd⟩ := ht
  simp only at hpc hlife hfd
  cases pc with
  | check =>
    simp only [threadStep] at h
    split at h <;> cases h <;> exact .of_none hpc rfl
  | pipe => cases ok <;> cases h <;> exact .of_none hpc rfl
  | fork p =>
    cases ok <;> cases h
    · exact .of_none hpc rfl
    · exact .of_child rfl (World.getElem?_spawn_length _ _) rfl rfl nofun nofun
  | read p c =>
    obtain ⟨ch, hch, hpid, hkind, hl⟩ := hlife c hpc
    cases ok
    · cases h
      exact .of_child hpc hch hpid hkind ⟨fun e => absurd e hl, fun h => absurd rfl (h .read)⟩ nofun
    · simp only [threadStep, Bool.not_true, Bool.false_eq_true, ↓reduceIte] at h
      split_ifs at h with hs
      cases h
      refine .of_child hpc hch hpid hkind ⟨fun e => hs ?_, hl⟩ nofun
      simp [readBlocks, hch, e]
  | openNs c =>
    obtain ⟨ch, hch, hpid, hkind, hl⟩ := hlife c hpc
    simp only [threadStep, hch, Option.some_bind] at h
    split at h <;> cases h
    · next fd hfd' =>
      refine .of_child hpc hch hpid hkind hl fun fd' hfd'' => ?_
      cases hfd''
      rw [← hpid, ← hkind]
      exact hw c ch fd.ns hch (openNsFile_ns hfd')
    · exact .of_child hpc hch hpid hkind ⟨fun e => absurd e hl.2, fun h => absurd rfl (h .openNs)⟩
        nofun
  | kill c fd =>
    obtain ⟨ch, hch, hpid, hkind, -⟩ := hlife c hpc
    cases h
    exact .of_child hpc (World.getElem?_setChild_self _ hch _) hpid hkind rfl hfd
  | set fd =>
    obtain ⟨c, hc⟩ := Option.isSome_iff_exists.mp hpc
    obtain ⟨ch, hch, hpid, hkind, hl⟩ := hlife c hc
    simp only [threadStep] at h
    split at h <;> cases h
    · exact .of_child hc hch hpid hkind (iff_of_true hl nofun) nofun
    · exact .of_child hc hch hpid hkind (iff_of_true hl nofun) nofun
  | done r => cases h

/-- A child's own step: from a state not reaped to one past its setup and not reaped, holding a
namespace of its call if any. -/
theorem ChildInv.setChild {s : System} (hi : ChildInv s) {c : ℕ} {ch : Child}
    (hc : s.world.children[c]? = some ch) (hch : ch.state ≠ .reaped) {st : ChildState}
    (h₁ : st ≠ .setup) (h₂ : st ≠ .reaped)
    (hns : ∀ ns, st.ns? = some ns → ns ∈ childNamespaces ch.pid ch.kind) :
    ChildInv { s with world := s.world.setChild c st } where
  threads u hu := by
    obtain ⟨hlife, hfd⟩ := hi.threads u hu
    refine ⟨fun c' hc' => ?_, hfd⟩
    obtain ⟨ch', hch', hpid, hkind, hl⟩ := hlife c' hc'
    by_cases e : c = c'
    · subst e
      rw [hc] at hch'
      cases hch'
      exact ⟨_, World.getElem?_setChild_self _ hc _, hpid, hkind, hl.of_live hch h₁ h₂⟩
    · exact ⟨ch', by rw [World.getElem?_setChild_ne _ e, hch'], hpid, hkind, hl⟩
  held := hi.held.setChild c fun ns h ch' hch' => by
    rw [hc] at hch'
    cases hch'
    exact hns ns h

theorem childInv_start (m : MountNamespaceManager) (cwd : List UInt8)
    (calls : List (ℤ × MountNamespace)) : ChildInv (System.start m cwd calls) where
  threads := by
    simp only [System.start, List.mem_map]
    rintro _ ⟨⟨pid, k⟩, -, rfl⟩
    exact .of_none rfl rfl
  held _ _ _ hc := by simp [System.start] at hc

theorem ChildInv.step {calls : List (ℤ × MountNamespace)} {s s' : System} {l : Step}
    (hs : SaveInv calls s) (hi : ChildInv s) (h : s.step l = some s') : ChildInv s' := by
  cases l with
  | call i ok raw =>
    simp only [System.step] at h
    cases hti : s.threads[i]? with
    | none => rw [hti] at h; cases h
    | some t =>
      rw [hti] at h
      obtain ⟨⟨w', t'⟩, hst, rfl⟩ := Option.map_eq_some'.mp h
      have htm := List.getElem?_mem hti
      have hnd : (s.threads.filterMap (·.child)).Nodup :=
        hs.forked.nodup_iff.mpr (List.nodup_range _)
      refine ⟨fun u hu => ?_, threadStep_held hst hi.held⟩
      obtain ⟨j, hj, rfl⟩ := List.getElem_of_mem hu
      by_cases hij : i = j
      · subst hij
        rw [List.getElem_set_self]
        exact threadStep_childOk hst (hs.threads t htm).pc_child (hi.threads t htm) hi.held
      · have hj' : j < s.threads.length := by simpa using hj
        rw [List.getElem_set_ne hij]
        obtain ⟨hlife, hfd⟩ := hi.threads _ (List.getElem_mem hj')
        refine ⟨fun c hc => ?_, hfd⟩
        obtain ⟨ch, hch, hrest⟩ := hlife c hc
        exact ⟨ch, threadStep_getElem?_other hst (hs.threads t htm).pc_child hch
          (child_ne_of_nodup hnd (List.getElem?_eq_getElem hj') hti (Ne.symm hij) hc), hrest⟩
  | setup c env =>
    obtain ⟨w', hw', rfl⟩ := Option.map_eq_some'.mp h
    unfold childSetup at hw'
    split at hw'
    · next ch hch =>
      split_ifs at hw' with hst
      cases hw'
      have hlive : ch.state ≠ .reaped := by rw [hst]; nofun
      cases hb : childBranch env ch.pid ch.kind ⟨.inherited, s.world.cwd⟩ with
      | ok t =>
        exact hi.setChild hch hlive nofun nofun fun ns hns => by
          cases hns
          exact childBranch_ns (.inl hb)
      | error t =>
        exact hi.setChild hch hlive nofun nofun fun ns hns => by
          cases hns
          exact childBranch_ns (.inr hb)
    · cases hw'
  | exit c =>
    obtain ⟨w', hw', rfl⟩ := Option.map_eq_some'.mp h
    unfold childExit at hw'
    split at hw'
    · next ns hdying =>
      obtain ⟨ch, hch, hst⟩ := Option.map_eq_some'.mp hdying
      cases hw'
      exact hi.setChild hch (by rw [hst]; nofun) nofun nofun nofun
    · cases hw'

theorem ChildInv.run {calls : List (ℤ × MountNamespace)} {s s' : System} {steps : List Step}
    (hs : SaveInv calls s) (hi : ChildInv s) (h : s.run steps = some s') : ChildInv s' := by
  induction steps generalizing s with
  | nil => cases h; exact hi
  | cons l ls ih =>
    obtain ⟨s₁, h₁, h₂⟩ := Option.bind_eq_some.mp h
    exact ih (hs.step h₁) (hi.step hs h₁) h₂

/-! ## Each call kills its own child, once -/

/-- **Each call kills only its own child, and only once.** In every state that any interleaving of
the calls reaches, on any manager: a thread about to kill and reap child `c` forked `c` itself,
and `c` is past its setup and not yet reaped, so `kill` and `waitpid` never reach a pid already
waited for; and the child of a call that returned is reaped exactly when the call did not fail
with an OS error, so a call that failed at its `read` or its `open` leaves its child unreaped. -/
theorem interleaved_kills_own_child (m : MountNamespaceManager) (cwd : List UInt8)
    (calls : List (ℤ × MountNamespace)) (steps : List Step) (s : System)
    (h : (System.start m cwd calls).run steps = some s) :
    (∀ t ∈ s.threads, ∀ c fd, t.pc = .kill c fd → t.child = some c ∧
      ∃ ch, s.world.children[c]? = some ch ∧ ch.state ≠ .setup ∧ ch.state ≠ .reaped) ∧
    (∀ t ∈ s.threads, ∀ c r, t.child = some c → t.pc = .done r →
      ∃ ch, s.world.children[c]? = some ch ∧
        (ch.state = .reaped ↔ ∀ call, r ≠ .error (.os call))) := by
  have hs := (saveInv_start m cwd calls).run h
  have hi := (childInv_start m cwd calls).run (saveInv_start m cwd calls) h
  refine ⟨fun t ht c fd hpc => ?_, fun t ht c r hc hpc => ?_⟩
  · have hc : t.child = some c := by
      have := (hs.threads t ht).pc_child
      rwa [hpc] at this
    obtain ⟨ch, hch, -, -, hl⟩ := (hi.threads t ht).life c hc
    rw [hpc] at hl
    exact ⟨hc, ch, hch, hl⟩
  · obtain ⟨ch, hch, -, -, hl⟩ := (hi.threads t ht).life c hc
    rw [hpc] at hl
    exact ⟨ch, hch, hl⟩

/-- A `Root` save whose `read` fails while its child is still in its setup is such a run. -/
theorem failed_read_leaves_child :
    ∃ s, (System.start .new (lit "/") [(1, .root)]).run
        [.call 0 true 0, .call 0 true 0, .call 0 true 0, .call 0 false 0] = some s ∧
      ∀ t ∈ s.threads, ∀ c r, t.child = some c → t.pc = .done r →
        ∃ ch, s.world.children[c]? = some ch ∧
          (ch.state = .reaped ↔ ∀ call, r ≠ .error (.os call)) :=
  have hs : ((System.start .new (lit "/") [(1, .root)]).run
      [.call 0 true 0, .call 0 true 0, .call 0 true 0, .call 0 false 0]).isSome := rfl
  have h := (Option.some_get hs).symm
  ⟨_, h, (interleaved_kills_own_child .new (lit "/") [(1, .root)] _ _ h).2⟩

/-! ## A `read` that waits on a copy of its pipe -/

/-- The `read` on the pipe of a child that panicked blocks while a child forked during the pipe's
life holds a copy of its write end. -/
theorem readBlocks_of_copy {w : World} {p c d : ℕ}
    (hc : (w.children[c]?).map Child.state = some .exited ∨
      ∃ ns, (w.children[c]?).map Child.state = some (.dying ns))
    (hpd : p ≤ d) (hdc : d < c) (hd : ∃ ns, (w.children[d]?).map Child.state = some (.sleeping ns)) :
    readBlocks w p c = true := by
  obtain ⟨ns, hd⟩ := hd
  obtain ⟨ch, hch, hst⟩ := Option.map_eq_some'.mp hd
  have hany : (List.range' p (c - p)).any (fun d => (w.children[d]?).any (·.state.holdsFds)) :=
    List.any_eq_true.mpr ⟨d, List.mem_range'_1.mpr ⟨hpd, by omega⟩, by simp [hch, hst, ChildState.holdsFds]⟩
  unfold readBlocks
  rcases hc with hc | ⟨_, hc⟩ <;> rw [hc] <;> exact hany

/-- A step of child `c'` on its own: out of its setup, or from dying to gone. -/
theorem System.step_childSetup {s s' : System} {c' : ℕ} {env : ChildEnv}
    (h : s.step (.setup c' env) = some s') :
    s'.threads = s.threads ∧ (s.world.children[c']?).map Child.state = some .setup ∧
      ∃ st, s'.world = s.world.setChild c' st := by
  obtain ⟨w', hw', rfl⟩ := Option.map_eq_some'.mp h
  unfold childSetup at hw'
  split at hw'
  · next ch hch =>
    split_ifs at hw' with hst
    cases hw'
    exact ⟨rfl, by simp [hch, hst], _, rfl⟩
  · cases hw'

theorem System.step_childExit {s s' : System} {c' : ℕ} (h : s.step (.exit c') = some s') :
    s'.threads = s.threads ∧ (∃ ns, (s.world.children[c']?).map Child.state = some (.dying ns)) ∧
      s'.world = s.world.setChild c' .exited := by
  obtain ⟨w', hw', rfl⟩ := Option.map_eq_some'.mp h
  unfold childExit at hw'
  split at hw'
  · next ns hdying => cases hw'; exact ⟨rfl, ⟨ns, hdying⟩, rfl⟩
  · cases hw'

/-- Thread `i` waits at its `read` on child `c`, which panicked, or has given up with an error of
that `read`; child `d`, forked by another call while `i`'s pipe was open, sleeps with a copy of
the pipe's write end; and every call that forked `d` has returned, so no one will kill it. -/
structure Hang (i p c d : ℕ) (s : System) : Prop where
  thread : ∃ t, s.threads[i]? = some t ∧ t.child = some c ∧
    (t.pc = .read p c ∨ t.pc = .done (.error (.os .read)))
  gone : (s.world.children[c]?).map Child.state = some .exited ∨
    ∃ ns, (s.world.children[c]?).map Child.state = some (.dying ns)
  range : p ≤ d ∧ d < c
  copy : ∃ ns, (s.world.children[d]?).map Child.state = some (.sleeping ns)
  orphan : ∀ u ∈ s.threads, u.child = some d → ∃ r, u.pc = .done r

/-- A child's step leaves the state of a child in another state than its own as it is. -/
theorem state_setChild_of_ne {w : World} {c' c : ℕ} {st st₀ st₁ : ChildState}
    (hc' : (w.children[c']?).map Child.state = some st₀)
    (hc : (w.children[c]?).map Child.state = some st₁) (hne : st₀ ≠ st₁) :
    ((w.setChild c' st).children[c]?).map Child.state = some st₁ := by
  rw [World.getElem?_setChild_ne _ (by rintro rfl; exact hne (Option.some.inj (hc'.symm.trans hc))),
    hc]

/-- A line of another thread than `i` leaves the children `c` and `d` as they are. -/
theorem threadStep_state_other {w w' : World} {u u' : Thread} {ok : Bool} {raw : ℤ}
    (h : threadStep w u ok raw = some (w', u')) (hpc : PcChild u.pc u.child) {c : ℕ}
    {st : ChildState} (hc : (w.children[c]?).map Child.state = some st) (hne : u.child ≠ some c) :
    (w'.children[c]?).map Child.state = some st := by
  obtain ⟨ch, hch, rfl⟩ := Option.map_eq_some'.mp hc
  rw [threadStep_getElem?_other h hpc hch hne]
  rfl

section HangStep

variable {i p c d : ℕ} {s : System}

/-- Thread `i`'s own line: its `read` blocks, or fails. -/
theorem Hang.step_self {t t' : Thread} {w' : World} {ok : Bool} {raw : ℤ}
    (hh : Hang i p c d s) (hti : s.threads[i]? = some t)
    (hst : threadStep s.world t ok raw = some (w', t')) : Hang i p c d ⟨w', s.threads.set i t'⟩ := by
  obtain ⟨⟨t₀, ht₀, htc, htpc⟩, hgone, ⟨hpd, hdc⟩, hd, horphan⟩ := hh
  obtain rfl : t = t₀ := Option.some.inj (hti.symm.trans ht₀)
  have hpc : t.pc = .read p c := htpc.resolve_right fun hpc => by simp [threadStep, hpc] at hst
  cases ok
  · simp only [threadStep, hpc, Bool.not_false, ↓reduceIte, Option.some.injEq, Prod.mk.injEq] at hst
    obtain ⟨rfl, rfl⟩ := hst
    refine ⟨⟨_, List.getElem?_set_self (List.getElem?_eq_some_iff.mp hti).1, htc, .inr rfl⟩,
      hgone, ⟨hpd, hdc⟩, hd, fun v hv hvd => ?_⟩
    rcases List.mem_or_eq_of_mem_set hv with hv | rfl
    · exact horphan v hv hvd
    · cases htc.symm.trans hvd; omega
  · simp [threadStep, hpc, readBlocks_of_copy hgone hpd hdc hd] at hst

/-- Another thread's line: it touches neither `c` nor `d`, and a child it forks is a new one. -/
theorem Hang.step_other {calls : List (ℤ × MountNamespace)} {j : ℕ} {u u' : Thread} {w' : World}
    {ok : Bool} {raw : ℤ} (hs : SaveInv calls s) (hh : Hang i p c d s) (hij : j ≠ i)
    (htj : s.threads[j]? = some u) (hst : threadStep s.world u ok raw = some (w', u')) :
    Hang i p c d ⟨w', s.threads.set j u'⟩ := by
  obtain ⟨⟨t, hti, htc, htpc⟩, hgone, hrange, ⟨ns, hd⟩, horphan⟩ := hh
  have hu := (hs.threads u (List.getElem?_mem htj)).pc_child
  have hud : u.child ≠ some d := fun e => by
    obtain ⟨r, hr⟩ := horphan u (List.getElem?_mem htj) e
    simp [threadStep, hr] at hst
  have huc : u.child ≠ some c :=
    child_ne_of_nodup (hs.forked.nodup_iff.mpr (List.nodup_range _)) hti htj (Ne.symm hij) htc
  refine ⟨⟨t, by rwa [List.getElem?_set_ne hij], htc, htpc⟩,
    hgone.imp (threadStep_state_other hst hu · huc)
      fun ⟨ns', hc⟩ => ⟨ns', threadStep_state_other hst hu hc huc⟩,
    hrange, ⟨ns, threadStep_state_other hst hu hd hud⟩, fun v hv hvd => ?_⟩
  rcases List.mem_or_eq_of_mem_set hv with hv | rfl
  · exact horphan v hv hvd
  rcases threadStep_child hst hu with ⟨hc, -⟩ | ⟨-, hc, -⟩
  · exact absurd (hc.symm.trans hvd) hud
  · obtain ⟨ch, hch, -⟩ := Option.map_eq_some'.mp hd
    have hlt := (List.getElem?_eq_some_iff.mp hch).1
    cases hc.symm.trans hvd
    simp at hlt

/-- A child's own step, out of its setup or from dying to gone. -/
theorem Hang.setChild (hh : Hang i p c d s) {c' : ℕ} {st₀ st : ChildState}
    (hc' : (s.world.children[c']?).map Child.state = some st₀) (hsl : ∀ ns, st₀ ≠ .sleeping ns)
    (hst : st₀ = .setup ∨ st = .exited) : Hang i p c d { s with world := s.world.setChild c' st } := by
  obtain ⟨hthread, hgone, hrange, ⟨ns, hd⟩, horphan⟩ := hh
  refine ⟨hthread, ?_, hrange, ⟨ns, state_setChild_of_ne hc' hd (hsl ns)⟩, horphan⟩
  by_cases e : c' = c
  · subst e
    rcases hst with rfl | rfl
    · rcases hgone with hc | ⟨_, hc⟩ <;> cases hc'.symm.trans hc
    · obtain ⟨ch, hch, -⟩ := Option.map_eq_some'.mp hc'
      exact .inl (by rw [World.getElem?_setChild_eq, hch]; rfl)
  · rwa [World.getElem?_setChild_ne _ e]

theorem Hang.step {calls : List (ℤ × MountNamespace)} {s' : System} {l : Step}
    (hs : SaveInv calls s) (hh : Hang i p c d s) (h : s.step l = some s') : Hang i p c d s' := by
  cases l with
  | call j ok raw =>
    simp only [System.step] at h
    cases htj : s.threads[j]? with
    | none => rw [htj] at h; cases h
    | some u =>
      rw [htj] at h
      obtain ⟨⟨w', u'⟩, hst, rfl⟩ := Option.map_eq_some'.mp h
      by_cases hij : j = i
      · subst hij
        exact hh.step_self htj hst
      · exact hh.step_other hs hij htj hst
  | setup c' env =>
    obtain ⟨hth, hc', st, hw⟩ := System.step_childSetup h
    obtain ⟨w'', ths⟩ := s'
    dsimp only at hth hw
    subst hth hw
    exact hh.setChild hc' nofun (.inl rfl)
  | exit c' =>
    obtain ⟨hth, ⟨ns', hc'⟩, hw⟩ := System.step_childExit h
    obtain ⟨w'', ths⟩ := s'
    dsimp only at hth hw
    subst hth hw
    exact hh.setChild hc' nofun (.inr rfl)

end HangStep

theorem Hang.run {calls : List (ℤ × MountNamespace)} {i p c d : ℕ} {s s' : System}
    {steps : List Step} (hs : SaveInv calls s) (hh : Hang i p c d s) (h : s.run steps = some s') :
    Hang i p c d s' := by
  induction steps generalizing s with
  | nil => cases h; exact hh
  | cons l ls ih =>
    obtain ⟨s₁, h₁, h₂⟩ := Option.bind_eq_some.mp h
    exact ih (hs.step h₁) (hh.step hs h₁) h₂

/-- **A `read` can wait forever on a copy of its pipe.** In a state that an interleaving of the
calls reaches, let thread `i` wait at its `read` on child `c`, which panicked before writing its
byte. Let child `d` have been forked by another call while `i`'s pipe was open (`p ≤ d < c`),
so that `fork` gave it a copy of the pipe's write end; let `d` sleep, and the call that forked it
have returned. Then in every continuation of the run, thread `i` is still at that `read`, or has
given up with an error of the `read`: it never reaches its `open`. -/
theorem interleaved_read_hangs (m : MountNamespaceManager) (cwd : List UInt8)
    (calls : List (ℤ × MountNamespace)) (steps : List Step) (s : System)
    (h : (System.start m cwd calls).run steps = some s) (i p c d j : ℕ) (t u : Thread)
    (hti : s.threads[i]? = some t) (hpc : t.pc = .read p c)
    (hc : (s.world.children[c]?).map Child.state = some .exited ∨
      ∃ ns, (s.world.children[c]?).map Child.state = some (.dying ns))
    (hpd : p ≤ d) (hdc : d < c)
    (hd : ∃ ns, (s.world.children[d]?).map Child.state = some (.sleeping ns))
    (hu : s.threads[j]? = some u) (hud : u.child = some d) (hur : ∃ r, u.pc = .done r)
    (steps' : List Step) (s' : System) (h' : s.run steps' = some s') :
    ∃ t', s'.threads[i]? = some t' ∧ (t'.pc = .read p c ∨ t'.pc = .done (.error (.os .read))) := by
  have hs := (saveInv_start m cwd calls).run h
  have hnd : (s.threads.filterMap (·.child)).Nodup := hs.forked.nodup_iff.mpr (List.nodup_range _)
  have htc : t.child = some c := by
    have := (hs.threads t (List.getElem?_mem hti)).pc_child
    rwa [hpc] at this
  have horphan : ∀ v ∈ s.threads, v.child = some d → ∃ r, v.pc = .done r := fun v hv hvd => by
    obtain ⟨k, hk, rfl⟩ := List.getElem_of_mem hv
    by_cases hkj : k = j
    · subst hkj
      obtain rfl := Option.some.inj ((List.getElem?_eq_getElem hk).symm.trans hu)
      exact hur
    · exact absurd hvd (child_ne_of_nodup hnd hu (List.getElem?_eq_getElem hk) (Ne.symm hkj) hud)
  obtain ⟨⟨t', ht', -, hpc'⟩, -⟩ :=
    Hang.run hs ⟨⟨t, hti, htc, .inl hpc⟩, hc, ⟨hpd, hdc⟩, hd, horphan⟩ h'
  exact ⟨t', ht', hpc'⟩

/-- Two `Root` calls: the second forks child 0 while the first's pipe is open, then fails to open
child 0's namespace and leaves it asleep (`save_leaves_child_sleeping`); the first call's child
panics before `setns`. -/
def hangSteps : List Step :=
  let ok : ChildEnv := ⟨fun _ => true, true, true, true⟩
  let fails : ChildEnv := ⟨fun _ => false, true, true, true⟩
  [.call 0 true 0, .call 0 true 0, .call 1 true 0, .call 1 true 0, .call 1 true 0, .setup 0 ok,
   .call 1 true 0, .call 1 false 0, .call 0 true 0, .setup 1 fails]

/-- After `hangSteps` the first call never gets past its `read`. -/
theorem copied_pipe_blocks_read :
    ∃ s, (System.start .new (lit "/") [(1, .root), (1, .root)]).run hangSteps = some s ∧
      ∀ steps' s', s.run steps' = some s' →
        ∃ t', s'.threads[0]? = some t' ∧
          (t'.pc = .read 0 1 ∨ t'.pc = .done (.error (.os .read))) :=
  have hs : ((System.start .new (lit "/") [(1, .root), (1, .root)]).run hangSteps).isSome := rfl
  have h := (Option.some_get hs).symm
  ⟨_, h, fun steps' s' h' => interleaved_read_hangs .new (lit "/") _ _ _ h 0 0 1 0 1 _ _ rfl rfl
    (.inr ⟨_, rfl⟩) le_rfl Nat.zero_lt_one ⟨_, rfl⟩ rfl rfl ⟨_, rfl⟩ steps' s' h'⟩

/-! ## What a slot can pin -/

/-- Every fd in a slot pins a namespace that a child forked for one of `calls` of the slot's kind
held. -/
def SlotsFrom (calls : List (ℤ × MountNamespace)) (w : World) : Prop :=
  ∀ k fd, w.mgr.getNamespaceStorage k = some fd → ∃ pid, (pid, k) ∈ calls ∧ fd.ns ∈ childNamespaces pid k

theorem SlotsFrom.step {calls : List (ℤ × MountNamespace)} {s s' : System} {l : Step}
    (hs : SaveInv calls s) (hi : ChildInv s) (hsl : SlotsFrom calls s.world)
    (h : s.step l = some s') : SlotsFrom calls s'.world := by
  rcases System.step_eq_some h with ⟨i, ok, raw, t, w', t', hti, hst, hw, -⟩ | ⟨-, hm, -⟩
  · rw [hw]
    have htm := List.getElem?_mem hti
    obtain ⟨-, -, ⟨rfl, -⟩ | ⟨-, -, rfl, -⟩ | ⟨c, fd, -, rfl, -⟩ | ⟨fd, mgr, hpc, hm, rfl, -⟩⟩ :=
      threadStep_eq_some hst
    · exact hsl
    · exact hsl
    · exact hsl
    · intro k fd' hk
      rw [MountNamespaceManager.getNamespaceStorage_set hm] at hk
      split_ifs at hk with e
      · cases hk
        subst e
        refine ⟨t.pid, ?_, (hi.threads t htm).fd fd (by rw [hpc]; rfl)⟩
        rw [← hs.calls]
        exact List.mem_map_of_mem _ htm
      · exact hsl k fd' hk
  · intro k fd hk
    rw [hm] at hk
    exact hsl k fd hk

theorem SlotsFrom.run {calls : List (ℤ × MountNamespace)} {s s' : System} {steps : List Step}
    (hs : SaveInv calls s) (hi : ChildInv s) (hsl : SlotsFrom calls s.world)
    (h : s.run steps = some s') : SlotsFrom calls s'.world := by
  induction steps generalizing s with
  | nil => cases h; exact hsl
  | cons l ls ih =>
    obtain ⟨s₁, h₁, h₂⟩ := Option.bind_eq_some.mp h
    exact ih (hs.step h₁) (hi.step hs h₁) (hsl.step hs hi h₁) h₂

end Zygiskd
