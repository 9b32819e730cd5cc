import Zygiskd.Mount.Interleave

/-!
# Zygiskd.Mount.Serial — concurrent saves are saves one after another

`Zygiskd.Mount.Manager` says what a call may do to the two write-once slots (`Allowed`), and
`saveMountNamespace_refines` shows that calls made one after another keep to it. Calls that run at
the same time (`Zygiskd.Mount.Interleave`) fork twice for one slot; this module shows that the
slots still see a sequential history. The order of a run's returned calls: first those that
failed, each from a slot empty in the manager it started from, then the calls that filled a slot,
one per slot, then those that found their slot set. Every call of a run is in flight from its
start (`System.start`), so the order owes nothing to when the calls returned.

* `Fills`: what every run keeps about who filled which slot (`fills_start`, `Fills.step`,
  `Fills.run`).
* `interleaved_serializable`: in every state any interleaving reaches, the returned calls in
  some order, and `get_namespace_fd` calls made then, are a history that `Allowed` permits from
  the manager's slots.
-/

namespace Zygiskd

/-! ## Who filled a slot -/

/-- The slot a call filled and the fd it stored there: a call that returned `Ok` after forking
(line 149). -/
def Thread.filled (t : Thread) : Option (MountNamespace × ℤ) :=
  match t.pc, t.child with
  | .done (.ok raw), some _ => some (t.kind, raw)
  | _, _ => none

/-- A call that returned an `Err`. -/
def Thread.failed (t : Thread) : Bool :=
  match t.pc with
  | .done (.error _) => true
  | _ => false

theorem Thread.reply_of_failed {t : Thread} (h : t.failed) :
    ∃ e, t.pc = .done (.error e) ∧ t.reply = some (.saved (.error e) t.child.isSome) := by
  unfold Thread.failed at h
  split at h
  · next e hpc => exact ⟨e, hpc, by simp [Thread.reply, hpc]⟩
  · cases h

theorem Thread.reply_of_filled {t : Thread} {x : MountNamespace × ℤ} (h : t.filled = some x) :
    ∃ raw, x = (t.kind, raw) ∧ t.pc = .done (.ok raw) ∧ t.reply = some (.saved (.ok raw) true) := by
  unfold Thread.filled at h
  split at h
  · next raw c hpc hc =>
    cases h
    exact ⟨raw, rfl, hpc, by simp [Thread.reply, hpc, hc]⟩
  · cases h

theorem Thread.reply_of_cached {t : Thread} (hr : t.reply.isSome) (hf : t.failed = false)
    (hn : t.filled = none) : ∃ raw, t.pc = .done (.ok raw) ∧ t.reply = some (.saved (.ok raw) false) := by
  obtain ⟨pid, k, pc, child⟩ := t
  cases pc with
  | done r =>
    cases r with
    | error e => cases hf
    | ok raw => cases child with
      | none => exact ⟨raw, rfl, rfl⟩
      | some c => cases hn
  | _ => cases hr

theorem threadStep_filled {w w' : World} {t t' : Thread} {ok : Bool} {raw : ℤ}
    (h : threadStep w t ok raw = some (w', t')) (hc : PcChild t.pc t.child) :
    t.filled = none ∧ ((t'.filled = none ∧ w'.mgr = w.mgr) ∨
      ∃ fd, t'.filled = some (t.kind, fd.raw) ∧ w.mgr.set t.kind fd = some w'.mgr) := by
  obtain ⟨-, hk, hcase⟩ := threadStep_eq_some h
  obtain ⟨pid, k, pc, child⟩ := t
  obtain ⟨pid', k', pc', child'⟩ := t'
  dsimp only at hk hc hcase ⊢
  subst k'
  have hnone : Thread.filled ⟨pid, k, pc, child⟩ = none := by
    cases pc with
    | done r => simp [threadStep] at h
    | _ => rfl
  refine ⟨hnone, ?_⟩
  rcases hcase with ⟨rfl, rfl, hp⟩ | ⟨-, -, rfl, rfl, rfl⟩ | ⟨c, fd, -, rfl, rfl, rfl⟩ |
    ⟨fd, mgr, rfl, hm, rfl, rfl, rfl⟩
  · refine .inl ⟨?_, rfl⟩
    cases hp with
    | hit => cases hc; rfl
    | osError => rfl
    | _ => rfl
  · exact .inl ⟨rfl, rfl⟩
  · exact .inl ⟨rfl, rfl⟩
  · obtain ⟨c, hc⟩ := Option.isSome_iff_exists.mp hc
    subst hc
    exact .inr ⟨fd, rfl, hm⟩

/-! ## What every run keeps about the slots -/

/-- What a run from the manager `m` keeps about the slots: a slot `m` had set keeps its fd, and
each call for it is still at its check or returned that fd from there; the calls that filled a
slot are one per slot, and the slots they filled are those empty in `m` and set now, with the fds
the calls returned. -/
structure Fills (m : MountNamespaceManager) (s : System) : Prop where
  kept : ∀ k fd, m.getNamespaceStorage k = some fd → s.world.mgr.getNamespaceStorage k = some fd
  hit : ∀ t ∈ s.threads, ∀ fd, m.getNamespaceStorage t.kind = some fd →
    t.child = none ∧ (t.pc = .check ∨ t.pc = .done (.ok fd.raw))
  nodup : ((s.threads.filterMap Thread.filled).map Prod.fst).Nodup
  filled : ∀ k raw, (k, raw) ∈ s.threads.filterMap Thread.filled ↔
    m.getNamespaceStorage k = none ∧ s.world.mgr.getNamespaceFd k = some raw

theorem start_filterMap_filled (m : MountNamespaceManager) (cwd : List UInt8)
    (calls : List (ℤ × MountNamespace)) :
    (System.start m cwd calls).threads.filterMap Thread.filled = [] :=
  List.filterMap_eq_nil_iff.mpr (by
    simp only [System.start, List.mem_map]
    rintro _ ⟨_, -, rfl⟩
    rfl)

theorem fills_start (m : MountNamespaceManager) (cwd : List UInt8)
    (calls : List (ℤ × MountNamespace)) : Fills m (System.start m cwd calls) where
  kept _ _ h := h
  hit := by
    simp only [System.start, List.mem_map]
    rintro _ ⟨⟨pid, k⟩, -, rfl⟩ _ _
    exact ⟨rfl, .inl rfl⟩
  nodup := by rw [start_filterMap_filled]; exact List.nodup_nil
  filled k raw := by
    rw [start_filterMap_filled]
    simp only [List.not_mem_nil, false_iff, not_and]
    intro hk
    simp [System.start, MountNamespaceManager.getNamespaceFd, hk]

/-- A call for a slot that is set returns its fd at the check. -/
theorem threadStep_check_some {w w' : World} {t t' : Thread} {ok : Bool} {raw : ℤ} {fd : NsFd}
    (h : threadStep w t ok raw = some (w', t')) (hpc : t.pc = .check)
    (hs : w.mgr.getNamespaceStorage t.kind = some fd) : t' = { t with pc := .done (.ok fd.raw) } := by
  simp only [threadStep, hpc, hs, Option.some.injEq, Prod.mk.injEq] at h
  exact h.2.symm

theorem Fills.step {calls : List (ℤ × MountNamespace)} {m : MountNamespaceManager}
    {s s' : System} {l : Step} (hs : SaveInv calls s) (hf : Fills m s) (h : s.step l = some s') :
    Fills m s' := by
  rcases System.step_eq_some h with ⟨i, ok, raw, t, w', t', hti, hst, hw, hth⟩ | ⟨hth, hm, -⟩
  · have htm := List.getElem?_mem hti
    obtain ⟨-, hkind, -⟩ := threadStep_eq_some hst
    obtain ⟨hnone, hcase⟩ := threadStep_filled hst (hs.threads t htm).pc_child
    have hkept : ∀ k fd, m.getNamespaceStorage k = some fd → w'.mgr.getNamespaceStorage k = some fd :=
      fun k fd hk => (threadStep_grows hst).slots k fd (hf.kept k fd hk)
    obtain ⟨w'', ths⟩ := s'
    dsimp only at hw hth
    subst w'' ths
    have hhit : ∀ u ∈ s.threads.set i t', ∀ fd, m.getNamespaceStorage u.kind = some fd →
        u.child = none ∧ (u.pc = .check ∨ u.pc = .done (.ok fd.raw)) := fun u hu fd hk => by
      rcases List.mem_or_eq_of_mem_set hu with hu | rfl
      · exact hf.hit u hu fd hk
      · rw [hkind] at hk
        obtain ⟨hc, hpc | hpc⟩ := hf.hit t htm fd hk
        · rw [threadStep_check_some hst hpc (hf.kept _ _ hk)]
          exact ⟨hc, .inr rfl⟩
        · rw [threadStep, hpc] at hst
          cases hst
    suffices hl : (((s.threads.set i t').filterMap Thread.filled).map Prod.fst).Nodup ∧
        ∀ k r, (k, r) ∈ (s.threads.set i t').filterMap Thread.filled ↔
          m.getNamespaceStorage k = none ∧ w'.mgr.getNamespaceFd k = some r from
      ⟨hkept, hhit, hl.1, hl.2⟩
    rcases hcase with ⟨hn, hm⟩ | ⟨fd, hfd, hm⟩
    · -- a line that fills no slot
      rw [filterMap_set_of_eq _ hti (hn.trans hnone.symm)]
      refine ⟨hf.nodup, fun k r => ?_⟩
      rw [hf.filled, MountNamespaceManager.getNamespaceFd, MountNamespaceManager.getNamespaceFd, hm]
    · -- the set that fills slot `t.kind`, empty until then
      have hP := filterMap_set_perm Thread.filled hti hnone hfd
      have hw0 := MountNamespaceManager.getNamespaceStorage_of_set hm
      have hfresh : ∀ r, (t.kind, r) ∉ s.threads.filterMap Thread.filled := fun r hr => by
        have := ((hf.filled _ _).mp hr).2
        simp [MountNamespaceManager.getNamespaceFd, hw0] at this
      refine ⟨(hP.map Prod.fst).nodup_iff.mpr (List.nodup_cons.mpr ⟨fun hk => ?_, hf.nodup⟩),
        fun k r => ?_⟩
      · obtain ⟨⟨k, r⟩, hr, rfl⟩ := List.mem_map.mp hk
        exact hfresh r hr
      rw [hP.mem_iff, List.mem_cons, hf.filled, getNamespaceFd_set hm]
      by_cases hk : k = t.kind
      · subst hk
        have hm0 : m.getNamespaceStorage t.kind = none := by
          cases hk : m.getNamespaceStorage t.kind with
          | none => rfl
          | some fd0 => rw [hf.kept _ _ hk] at hw0; cases hw0
        simp [hm0, MountNamespaceManager.getNamespaceFd, hw0, eq_comm]
      · simp [hk, Function.update_noteq hk]
  · obtain ⟨w'', ths⟩ := s'
    dsimp only at hth hm ⊢
    subst hth
    refine ⟨fun k fd hk => hm ▸ hf.kept k fd hk, hf.hit, hf.nodup, fun k raw => ?_⟩
    rw [MountNamespaceManager.getNamespaceFd, hm]
    exact hf.filled k raw

theorem Fills.run {calls : List (ℤ × MountNamespace)} {m : MountNamespaceManager}
    {s s' : System} {steps : List Step} (hs : SaveInv calls s) (hf : Fills m s)
    (h : s.run steps = some s') : Fills m s' := by
  induction steps generalizing s with
  | nil => cases h; exact hf
  | cons l ls ih =>
    obtain ⟨s₁, h₁, h₂⟩ := Option.bind_eq_some.mp h
    exact ih (hs.step h₁) (hf.step hs h₁) h₂

/-! ## Returned calls as calls one after another -/

section Order

variable (env : SaveEnv) {σ : Slots} {ops : List Op} {rs : List Reply}

/-- Calls that failed, each from an empty slot, go first. -/
theorem AllowedRun.failed_append (F : List Thread) (hF : ∀ t ∈ F, t.failed ∧ σ t.kind = none)
    (h : AllowedRun σ ops rs) :
    AllowedRun σ (F.map (fun t => .save env t.pid t.kind) ++ ops) (F.filterMap Thread.reply ++ rs) := by
  induction F with
  | nil => exact h
  | cons t F ih =>
    obtain ⟨hft, hσ⟩ := hF t (List.mem_cons_self _ _)
    obtain ⟨e, -, hr⟩ := Thread.reply_of_failed hft
    rw [List.map_cons, List.filterMap_cons, hr]
    exact .cons (.failed hσ) (ih fun u hu => hF u (List.mem_cons_of_mem _ hu))

/-- Then the calls that filled a slot, one per slot, each from an empty slot to `σ'`. -/
theorem AllowedRun.filled_append {σ' : Slots} (S : List Thread)
    (hS : ∀ t ∈ S, ∃ raw, t.filled = some (t.kind, raw) ∧ σ t.kind = none ∧ σ' t.kind = some raw)
    (hnd : (S.map (·.kind)).Nodup) (hout : ∀ k, k ∉ S.map (·.kind) → σ' k = σ k)
    (h : AllowedRun σ' ops rs) :
    AllowedRun σ (S.map (fun t => .save env t.pid t.kind) ++ ops) (S.filterMap Thread.reply ++ rs) := by
  induction S generalizing σ with
  | nil =>
    obtain rfl : σ' = σ := funext fun k => hout k (List.not_mem_nil k)
    exact h
  | cons t S ih =>
    obtain ⟨raw, hfill, hσ, hσ'⟩ := hS t (List.mem_cons_self _ _)
    obtain ⟨raw', hx, -, hr⟩ := Thread.reply_of_filled hfill
    obtain rfl : raw = raw' := (Prod.mk.inj hx).2
    obtain ⟨hnot, hnd⟩ := List.nodup_cons.mp hnd
    rw [List.map_cons, List.filterMap_cons, hr]
    refine .cons (.stored hσ) (ih (fun u hu => ?_) hnd fun k hk => ?_)
    · obtain ⟨r, hu1, hu2, hu3⟩ := hS u (List.mem_cons_of_mem _ hu)
      have hne : u.kind ≠ t.kind := fun he => hnot (List.mem_map.mpr ⟨u, hu, he⟩)
      exact ⟨r, hu1, by rw [Function.update_noteq hne, hu2], hu3⟩
    · by_cases hkt : k = t.kind
      · subst hkt
        rw [Function.update_same, hσ']
      · rw [Function.update_noteq hkt]
        exact hout k (by simp [hkt, hk])

/-- Then the calls that found their slot set. -/
theorem AllowedRun.cached_append (C : List Thread)
    (hC : ∀ t ∈ C, ∃ raw, t.reply = some (.saved (.ok raw) false) ∧ σ t.kind = some raw)
    (h : AllowedRun σ ops rs) :
    AllowedRun σ (C.map (fun t => .save env t.pid t.kind) ++ ops) (C.filterMap Thread.reply ++ rs) := by
  induction C with
  | nil => exact h
  | cons t C ih =>
    obtain ⟨raw, hr, hσ⟩ := hC t (List.mem_cons_self _ _)
    rw [List.map_cons, List.filterMap_cons, hr]
    exact .cons (.cached hσ) (ih fun u hu => hC u (List.mem_cons_of_mem _ hu))

/-- `get_namespace_fd` calls return the slots. -/
theorem AllowedRun.gets (σ : Slots) (ks : List MountNamespace) :
    AllowedRun σ (ks.map .get) (ks.map fun k => .got (σ k)) := by
  induction ks with
  | nil => exact .nil
  | cons k ks ih => exact .cons .get ih

end Order

theorem map_kind_filter_filled (l : List Thread) :
    (l.filter (·.filled.isSome)).map (·.kind) = (l.filterMap Thread.filled).map Prod.fst := by
  induction l with
  | nil => rfl
  | cons t l ih =>
    cases hf : t.filled with
    | none => simp [List.filterMap_cons, hf, ih]
    | some x =>
      obtain ⟨raw, rfl, -⟩ := Thread.reply_of_filled hf
      simp [List.filterMap_cons, hf, ih]

/-- **Concurrent saves are saves one after another.** In every state that any interleaving of the
calls `save_mount_namespace(pid, k)` of `calls` reaches, on any manager, with any syscall failing
or not: the calls that have returned, put in some order, are a history of the two write-once
slots (`Allowed`) from the slots of `m`, and `get_namespace_fd` calls made now return what that
history left in them. So no slot is filled twice, a call that returned `Ok` after forking filled
its slot, every other `Ok` returned the fd its slot held, and a call returned `Err` only for a slot
that was empty in `m`. -/
theorem interleaved_serializable (m : MountNamespaceManager) (cwd : List UInt8)
    (calls : List (ℤ × MountNamespace)) (steps : List Step) (s : System)
    (h : (System.start m cwd calls).run steps = some s) (env : SaveEnv)
    (gets : List MountNamespace) :
    ∃ order : List Thread, order.Perm (s.threads.filter (·.reply.isSome)) ∧
      AllowedRun m.getNamespaceFd
        (order.map (fun t => .save env t.pid t.kind) ++ gets.map .get)
        (order.filterMap Thread.reply ++ gets.map fun k => .got (s.world.mgr.getNamespaceFd k)) := by
  have hs := (saveInv_start m cwd calls).run h
  have hf := (fills_start m cwd calls).run (saveInv_start m cwd calls) h
  set R := s.threads.filter (·.reply.isSome)
  set R' := R.filter (!·.failed)
  have hR' : ∀ t ∈ R', t ∈ s.threads ∧ t.failed = false ∧ t.reply.isSome := fun t ht => by
    simpa [R, R', and_assoc] using ht
  refine ⟨R.filter (·.failed) ++ (R'.filter (·.filled.isSome) ++ R'.filter (!·.filled.isSome)),
    ((List.filter_append_perm _ R').append_left _).trans (List.filter_append_perm _ R), ?_⟩
  simp only [List.map_append, List.filterMap_append, List.append_assoc]
  refine AllowedRun.failed_append env _ (fun t ht => ?_) (AllowedRun.filled_append env _
    (fun t ht => ?_) ?_ (fun k hk => ?_) (AllowedRun.cached_append env _ (fun t ht => ?_)
      (AllowedRun.gets _ gets)))
  · -- a call that failed found its slot empty, so `m` had it empty
    obtain ⟨htR, hft⟩ := List.mem_filter.mp ht
    refine ⟨hft, ?_⟩
    cases hk : m.getNamespaceStorage t.kind with
    | none => simp [MountNamespaceManager.getNamespaceFd, hk]
    | some fd =>
      obtain ⟨e, hpc, -⟩ := Thread.reply_of_failed hft
      obtain ⟨-, h1 | h1⟩ := hf.hit t (List.mem_filter.mp htR).1 fd hk <;> rw [hpc] at h1 <;>
        cases h1
  · -- a call that filled its slot
    obtain ⟨htR', hfs⟩ := List.mem_filter.mp ht
    obtain ⟨x, hx⟩ := Option.isSome_iff_exists.mp hfs
    obtain ⟨raw, rfl, -⟩ := Thread.reply_of_filled hx
    obtain ⟨hm, hsk⟩ := (hf.filled _ _).mp (List.mem_filterMap.mpr ⟨t, (hR' t htR').1, hx⟩)
    exact ⟨raw, hx, by simp [MountNamespaceManager.getNamespaceFd, hm], hsk⟩
  · -- one call per slot
    have hsub : (R'.filter (·.filled.isSome)).Sublist (s.threads.filter (·.filled.isSome)) :=
      ((List.filter_sublist _).trans (List.filter_sublist _)).filter _
    exact (map_kind_filter_filled s.threads ▸ hf.nodup).sublist (hsub.map _)
  · -- a slot no call filled is as it was in `m`
    cases hm : m.getNamespaceStorage k with
    | some fd => simp [MountNamespaceManager.getNamespaceFd, hm, hf.kept k fd hm]
    | none =>
      cases hsk : s.world.mgr.getNamespaceFd k with
      | none => simp [MountNamespaceManager.getNamespaceFd, hm]
      | some r =>
        obtain ⟨t, htS, hx⟩ := List.mem_filterMap.mp ((hf.filled k r).mpr ⟨hm, hsk⟩)
        obtain ⟨raw, hkr, hpc, hr⟩ := Thread.reply_of_filled hx
        obtain ⟨rfl, -⟩ := Prod.mk.inj hkr
        refine absurd (List.mem_map_of_mem _ (List.mem_filter.mpr ⟨?_, by simp [hx]⟩)) hk
        simp [R, R', htS, hr, Thread.failed, hpc]
  · -- a call that found its slot set returned the fd it holds
    obtain ⟨htR', hfs⟩ := List.mem_filter.mp ht
    obtain ⟨htS, hft, hr⟩ := hR' t htR'
    obtain ⟨raw, hpc, hr'⟩ := Thread.reply_of_cached hr hft (by simpa using hfs)
    exact ⟨raw, hr', (hs.threads t htS).ok_slot raw hpc⟩

/-- The race of `concurrent_saves_fork_twice` is such a run: its two returned calls, in some order,
and then `get_namespace_fd(Root)`, which returns 5, are a history of the slots. -/
theorem race_history_allowed :
    ∃ s, (System.start .new (lit "/") [(1, .root), (1, .root)]).run raceSteps = some s ∧
      s.world.mgr.getNamespaceFd .root = some 5 ∧
      ∃ order : List Thread, order.Perm (s.threads.filter (·.reply.isSome)) ∧
        AllowedRun MountNamespaceManager.new.getNamespaceFd
          (order.map (fun t => .save ⟨true, true, ⟨fun _ => true, true, true, true⟩, false, true,
            some 5⟩ t.pid t.kind) ++ [.get .root])
          (order.filterMap Thread.reply ++ [.got (some 5)]) :=
  have hs : ((System.start .new (lit "/") [(1, .root), (1, .root)]).run raceSteps).isSome := rfl
  have h := (Option.some_get hs).symm
  have hk : (((System.start .new (lit "/") [(1, .root), (1, .root)]).run raceSteps).get
      hs).world.mgr.getNamespaceFd .root = some 5 := rfl
  ⟨_, h, hk, hk ▸ interleaved_serializable _ _ _ _ _ h _ [.root]⟩

end Zygiskd
