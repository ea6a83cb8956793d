import AgenticOS.Smp.Switching

/-!
# Deferred reaping

A thread that has exited waits in the zombie slot of its core for the next time
that this core schedules. Until then the core must have left its stack, and no
other core may have got on it.
-/

namespace AgenticOS

open Foundation List Function Option

namespace Scheduler

/-! ## The invariant -/

structure ReapInv (kernelPml4 : UInt64) (s : Scheduler) : Prop extends Inv True s where
  queued_live : ∀ t ∈ queued s.runQueues, (s.threads t).state ≠ .exited
  zombie_exited : ∀ c z, s.zombies c = some z → (s.threads z).state = .exited
  /-- Only the core that is about to leave it is on the stack of a zombie. -/
  zombie_left : ∀ c z c', s.zombies c = some z → s.stack c' = some z →
    c' = c ∧ s.point c ≠ .running
  reaped_nodup : s.reaped.Nodup
  reaped_exited : ∀ t ∈ s.reaped, (s.threads t).state = .exited
  destroyed_eq : s.destroyed = (s.reaped.map fun t => (s.threads t).addressSpace).filter
    fun a => a ≠ 0 ∧ a ≠ kernelPml4

/-- A core picks no thread that is on another core's stack, and a thread that has
exited is left for another one. -/
def Departs (s : Scheduler) : Event → Prop
  | .schedule c => (∀ next ∈ s.chosen c, ∀ c', c' ≠ c → s.stack c' ≠ some next) ∧
      ∀ t ∈ s.currents c, (s.threads t).state = .exited → s.runQueues c ≠ none →
        s.chosen c ≠ none
  | _ => True

instance (s : Scheduler) : ∀ e, Decidable (s.Departs e)
  | .schedule c => inferInstanceAs (Decidable ((∀ next ∈ s.chosen c, ∀ c', c' ≠ c →
      s.stack c' ≠ some next) ∧ ∀ t ∈ s.currents c, (s.threads t).state = .exited →
        s.runQueues c ≠ none → s.chosen c ≠ none))
  | .init _ | .spawnIn .. | .spawnPinnedToCpu .. | .exitCurrent _ | .release _ | .switchTo .. =>
    .isTrue trivial

variable {toSelf : Prop} {kernelPml4 newRsp : UInt64} {s s' : Scheduler} {c c' : Cpu}
  {t z old new : Nat}
  {e : Event} {events : List Event}

section

variable (h : Inv toSelf s)

include h

theorem Inv.zombie_ne_current (hz : s.zombies c = some z) : s.currents c' ≠ some z := by
  intro hcurrent
  have hnodup := h.nodup
  rw [places, Multiset.nodup_add] at hnodup
  refine Multiset.disjoint_left.mp hnodup.2.2 ?_ (mem_inSlots.mpr ⟨c, hz⟩)
  exact Multiset.mem_add.mpr (.inr (mem_inSlots.mpr ⟨c', hcurrent⟩))

theorem Inv.queued_ne_current (ht : t ∈ queued s.runQueues) : s.currents c ≠ some t := by
  intro hcurrent
  have hnodup := h.nodup
  rw [places, Multiset.nodup_add, Multiset.nodup_add] at hnodup
  exact Multiset.disjoint_left.mp hnodup.1.2.2 ht (mem_inSlots.mpr ⟨c, hcurrent⟩)

theorem Inv.made_of_zombie (hz : s.zombies c = some z) : s.Made z :=
  ((h.live z).mp (mem_places.mpr (.inr (.inr ⟨c, hz⟩)))).1

theorem Inv.made_of_queued (ht : t ∈ queued s.runQueues) : s.Made t :=
  ((h.live t).mp (mem_places.mpr (.inl ht))).1

theorem Inv.current_not_reaped (hcurrent : s.currents c = some t) : t ∉ s.reaped :=
  ((h.live t).mp (mem_places.mpr (.inr (.inl ⟨c, hcurrent⟩)))).2

end

theorem reapInv_boot : ReapInv kernelPml4 boot where
  toInv := inv_boot
  queued_live t ht := by
    obtain ⟨c, ht⟩ := mem_queued.mp ht
    cases ht
  zombie_exited c z hz := by cases hz
  zombie_left c z c' hz := by cases hz
  reaped_nodup := nodup_nil
  reaped_exited t ht := by cases ht
  destroyed_eq := rfl

/-! ## Steps -/

section

variable (h : ReapInv kernelPml4 s)

include h

/-- Where the threads that were there stay as they are. -/
theorem ReapInv.of_threads (hinv : Inv True s')
    (hzombies : s'.zombies = s.zombies) (hreaped : s'.reaped = s.reaped)
    (hdestroyed : s'.destroyed = s.destroyed)
    (hexited : ∀ t, s.Made t → (s.threads t).state = .exited → (s'.threads t).state = .exited)
    (hspace : ∀ t, s.Made t → (s'.threads t).addressSpace = (s.threads t).addressSpace)
    (hqueued : ∀ t ∈ queued s'.runQueues, (s'.threads t).state ≠ .exited)
    (hleft : ∀ c z c', s.zombies c = some z → s'.stack c' = some z →
      c' = c ∧ s'.point c ≠ .running) : ReapInv kernelPml4 s' where
  toInv := hinv
  queued_live := hqueued
  zombie_exited c z hz := by
    rw [hzombies] at hz
    exact hexited z (h.made_of_zombie hz) (h.zombie_exited c z hz)
  zombie_left c z c' hz := by
    rw [hzombies] at hz
    exact hleft c z c' hz
  reaped_nodup := by
    rw [hreaped]
    exact h.reaped_nodup
  reaped_exited t ht := by
    rw [hreaped] at ht
    exact hexited t (h.reaped_made t ht) (h.reaped_exited t ht)
  destroyed_eq := by
    have hmap : (s.reaped.map fun t => (s'.threads t).addressSpace) =
        s.reaped.map fun t => (s.threads t).addressSpace :=
      map_congr_left fun t ht => hspace t (h.reaped_made t ht)
    rw [hdestroyed, hreaped, hmap, h.destroyed_eq]

theorem ReapInv.initAsCurrentThread (hstack : s.stack c = none) :
    ReapInv kernelPml4 (s.initAsCurrentThread kernelPml4 c) := by
  have hthreads {t : Nat} (ht : s.Made t) :
      (s.initAsCurrentThread kernelPml4 c).threads t = s.threads t :=
    update_of_ne ht.2.ne _ _
  refine h.of_threads (h.toInv.initAsCurrentThread hstack) rfl rfl rfl ?_ ?_ ?_ ?_
  · intro t ht hexited
    rw [hthreads ht, hexited]
  · intro t ht
    rw [hthreads ht]
  · intro t ht
    rw [hthreads (h.made_of_queued ht)]
    exact h.queued_live t ht
  · intro c1 z c' hz hon
    refine h.zombie_left c1 z c' hz ?_
    unfold Scheduler.initAsCurrentThread at hon
    dsimp only at hon
    rw [update_apply] at hon
    split_ifs at hon with hc
    · rw [some_inj] at hon
      exact absurd (h.made_of_zombie hz) (hon ▸ Inv.nextTid_not_made)
    · exact hon

theorem ReapInv.spawnThread (target : Cpu) (sp addressSpace : UInt64) :
    ReapInv kernelPml4 (s.spawnThread target sp addressSpace) := by
  have hthreads {t : Nat} (ht : s.Made t) :
      (s.spawnThread target sp addressSpace).threads t = s.threads t :=
    update_of_ne ht.2.ne _ _
  refine h.of_threads (h.toInv.spawnThread target sp addressSpace) rfl rfl rfl ?_ ?_ ?_
    h.zombie_left
  · intro t ht hexited
    rw [hthreads ht, hexited]
  · intro t ht
    rw [hthreads ht]
  · intro t ht
    have ht' : t ∈ s.nextTid ::ₘ queued s.runQueues := queued_push s.runQueues target s.nextTid ▸ ht
    rw [Multiset.mem_cons] at ht'
    obtain rfl | hold := ht'
    · unfold Scheduler.spawnThread
      dsimp only
      rw [update_self]
      exact nofun
    · rw [hthreads (h.made_of_queued hold)]
      exact h.queued_live t hold

theorem ReapInv.exitCurrent : ReapInv kernelPml4 (s.exitCurrent c) := by
  have hinv := h.toInv.exitCurrent (c := c)
  unfold Scheduler.exitCurrent at hinv ⊢
  cases hcurrent : s.currents c with
  | none => exact h
  | some current =>
    rw [hcurrent] at hinv
    have hstate (t : Nat) : ((s.setState current .exited).threads t).state =
        if t = current then .exited else (s.threads t).state := by
      unfold setState
      dsimp only
      rw [update_apply]
      split_ifs <;> rfl
    refine h.of_threads hinv rfl rfl rfl ?_ (fun t _ => setState_addressSpace _ _ _) ?_
      h.zombie_left
    · intro t _ hexited
      rw [hstate, hexited, ite_self]
    · intro t ht
      rw [hstate, if_neg fun heq => h.queued_ne_current ht (heq ▸ hcurrent)]
      exact h.queued_live t ht

end

theorem ReapInv.release (h : ReapInv kernelPml4 s)
    (hpoint : s.point c = .switching old new newRsp) :
    ReapInv kernelPml4 (s.release c old new newRsp) := by
  refine h.of_threads (h.toInv.release hpoint) rfl rfl rfl (fun _ _ hexited => hexited)
    (fun _ _ => rfl) h.queued_live ?_
  intro c1 z c' hz hon
  obtain ⟨hc, hleaving⟩ := h.zombie_left c1 z c' hz hon
  refine ⟨hc, ?_⟩
  unfold Scheduler.release
  dsimp only
  rw [update_apply]
  split_ifs
  · exact nofun
  · exact hleaving

theorem ReapInv.switchTo {rsp : UInt64} (h : ReapInv kernelPml4 s)
    (hpoint : s.point c = .released old new newRsp) :
    ReapInv kernelPml4 (s.switchTo c old new rsp) := by
  have hcore := h.cores c
  unfold CoreOk at hcore
  rw [hpoint] at hcore
  have hthread (t : Nat) : ((s.switchTo c old new rsp).threads t).state = (s.threads t).state ∧
      ((s.switchTo c old new rsp).threads t).addressSpace = (s.threads t).addressSpace := by
    unfold Scheduler.switchTo
    dsimp only
    rw [update_apply]
    split_ifs with ht
    · rw [ht]
      exact ⟨rfl, rfl⟩
    · exact ⟨rfl, rfl⟩
  refine h.of_threads (h.toInv.switchTo hpoint) rfl rfl rfl
    (fun t _ hexited => (hthread t).1.trans hexited) (fun t _ => (hthread t).2) ?_ ?_
  · intro t ht
    rw [(hthread t).1]
    exact h.queued_live t ht
  · intro c1 z c' hz hon
    unfold Scheduler.switchTo at hon ⊢
    dsimp only at hon ⊢
    rw [update_apply] at hon
    split_ifs at hon with hc
    · -- the incoming thread is the current one, and no zombie
      exact absurd (hon ▸ hcore.2.1) (h.zombie_ne_current hz)
    · obtain ⟨hsame, hleaving⟩ := h.zombie_left c1 z c' hz hon
      rw [hsame] at hc
      rw [update_of_ne hc]
      exact ⟨hsame, hleaving⟩

theorem Inv.stored_of_departs (h : Inv True s) (hidle : s.Idle c)
    (hdeparts : s.Departs (.schedule c)) : s.Stored True (.schedule c) := by
  intro next hchosen
  by_cases hon : s.stack c = some next
  · obtain ⟨-, current, hcurrent, -⟩ := scheduleLocked_chosen 0 hchosen
    have hcore := h.cores c
    unfold CoreOk at hcore
    rw [hidle.2.1] at hcore
    have hsame := hcore current hcurrent
    rw [hon] at hsame
    rw [hcurrent, hsame]
    exact .inl ⟨trivial, rfl⟩
  · right
    intro c'
    by_cases hc : c' = c
    · rw [hc]
      exact hon
    · exact hdeparts.1 next hchosen c' hc

theorem ReapInv.schedule (h : ReapInv kernelPml4 s) (hidle : s.Idle c)
    (hdeparts : s.Departs (.schedule c)) : ReapInv kernelPml4 (s.scheduleLocked kernelPml4 c) := by
  have hinv : Inv True (s.scheduleLocked kernelPml4 c) :=
    h.toInv.schedule hidle (h.toInv.stored_of_departs hidle hdeparts)
  obtain ⟨-, hstack, -, hreaped, hdestroyed, hfields⟩ := scheduleLocked_fields kernelPml4 s c
  have hexited := scheduleLocked_exited kernelPml4 s c
  have hcurrents {t : Nat} (ht : s.chosen c = some t) :=
    (scheduleLocked_chosen kernelPml4 ht).1
  have hfirst {t : Nat} (ht : t ∈ (s.zombies c).toList) : s.zombies c = some t :=
    mem_toList.mp ht
  refine ⟨hinv, ?_, ?_, ?_, ?_, ?_, ?_⟩
  · intro t ht hstate
    obtain hold | ⟨-, hlive⟩ := queued_of_scheduleLocked ht
    · exact h.queued_live t hold ((hexited t).mp hstate).1
    · exact hlive ((hexited t).mp hstate).1
  · intro c' z hz
    refine (hexited z).mpr ⟨?_, fun hchosen => hinv.zombie_ne_current hz (hcurrents hchosen)⟩
    by_cases hc : c' = c
    · rw [hc] at hz
      exact (scheduleLocked_zombie kernelPml4 hz).2.1
    · rw [(scheduleLocked_of_ne kernelPml4 hc).2.1] at hz
      exact h.zombie_exited c' z hz
  · intro c1 z c' hz hon
    rw [hstack] at hon
    by_cases hc : c1 = c
    · -- the core has just put the zombie away, and leaves its stack
      subst hc
      obtain ⟨hcurrent, hz', hqueue⟩ := scheduleLocked_zombie kernelPml4 hz
      have hcore := h.cores c1
      unfold CoreOk at hcore
      rw [hidle.2.1] at hcore
      refine ⟨h.stack_injective c' c1 z hon (hcore z hcurrent), ?_⟩
      obtain ⟨_, hnext⟩ := ne_none_iff_exists'.mp (hdeparts.2 z hcurrent hz' hqueue)
      obtain ⟨-, _, -, hpoint⟩ := scheduleLocked_chosen kernelPml4 hnext
      rw [hpoint]
      exact nofun
    · obtain ⟨-, hzombies, hpoint⟩ := scheduleLocked_of_ne kernelPml4 hc
      rw [hzombies] at hz
      rw [hpoint]
      exact h.zombie_left c1 z c' hz hon
  · rw [hreaped]
    refine nodup_append'.mpr ⟨h.reaped_nodup, ?_, ?_⟩
    · cases s.zombies c <;> simp
    · intro t ht hz
      exact ((h.live t).mp (mem_places.mpr (.inr (.inr ⟨c, hfirst hz⟩)))).2 ht
  · intro t ht
    refine (hexited t).mpr ⟨?_, fun hchosen => hinv.current_not_reaped (hcurrents hchosen) ht⟩
    rw [hreaped, mem_append] at ht
    obtain hold | hz := ht
    · exact h.reaped_exited t hold
    · exact h.zombie_exited c t (hfirst hz)
  · simp only [(hfields _).2]
    rw [hdestroyed, hreaped, map_append, filter_append, h.destroyed_eq]

theorem ReapInv.step {e : Event} (h : ReapInv kernelPml4 s) (hdeparts : s.Departs e)
    (hstep : s.step kernelPml4 e = some s') : ReapInv kernelPml4 s' := by
  cases moves_of_step hstep with
  | init _ hstack => exact h.initAsCurrentThread hstack
  | spawnIn | spawnPinnedToCpu => exact h.spawnThread _ _ _
  | exitCurrent => exact h.exitCurrent
  | schedule hidle => exact h.schedule hidle hdeparts
  | release hpoint => exact h.release hpoint
  | switchTo hpoint => exact h.switchTo hpoint

/-! ## Runs -/

/-- What has exited is released once and what has not is kept. -/
structure Settled (kernelPml4 : UInt64) (s : Scheduler) : Prop where
  kept : ∀ t, s.Made t → t ∉ s.reaped → s.places.count t = 1
  once : s.reaped.Nodup
  exited : ∀ t, t ∈ s.reaped ∨ (∃ c, s.zombies c = some t) → (s.threads t).state = .exited
  destroyed : s.destroyed = (s.reaped.map fun t => (s.threads t).addressSpace).filter
    fun a => a ≠ 0 ∧ a ≠ kernelPml4

/-- A step releases only threads that have exited and that no core executes on,
and a zombie leaves its slot only so. -/
structure Releases (s s' : Scheduler) : Prop where
  left : ∀ t ∈ s'.reaped, t ∉ s.reaped →
    (s.threads t).state = .exited ∧ ∀ c, s.stack c ≠ some t
  taken : ∀ c z, s.zombies c = some z → s'.zombies c = some z ∨ z ∈ s'.reaped

theorem ReapInv.settled (h : ReapInv kernelPml4 s) : s.Settled kernelPml4 where
  kept t hmade hreaped :=
    Multiset.count_eq_one_of_mem h.nodup ((h.live t).mpr ⟨hmade, hreaped⟩)
  once := h.reaped_nodup
  exited t := by
    rintro (hreaped | ⟨c, hz⟩)
    · exact h.reaped_exited t hreaped
    · exact h.zombie_exited c t hz
  destroyed := h.destroyed_eq

theorem Releases.of_eq (hzombies : s'.zombies = s.zombies) (hreaped : s'.reaped = s.reaped) :
    Releases s s' where
  left t ht hnot := absurd (hreaped ▸ ht) hnot
  taken c z hz := .inl (by rw [hzombies, hz])

theorem ReapInv.releases (h : ReapInv kernelPml4 s) (hstep : s.step kernelPml4 e = some s') :
    Releases s s' := by
  cases moves_of_step hstep with
  | init | spawnIn | spawnPinnedToCpu | release | switchTo => exact .of_eq rfl rfl
  | @exitCurrent c _ =>
    unfold Scheduler.exitCurrent
    cases s.currents c with
    | none | some => exact .of_eq rfl rfl
  | @schedule c hidle =>
    obtain ⟨-, -, -, hreaped, -⟩ := scheduleLocked_fields kernelPml4 s c
    constructor
    · intro t ht hnot
      rw [hreaped, mem_append] at ht
      have hz : s.zombies c = some t := mem_toList.mp (ht.resolve_left hnot)
      refine ⟨h.zombie_exited c t hz, fun c' hon => ?_⟩
      exact (h.zombie_left c t c' hz hon).2 hidle.2.1
    · intro c' z hz
      by_cases hc : c' = c
      · right
        rw [hreaped, ← hc, hz]
        exact mem_append_right _ (mem_singleton_self z)
      · left
        rw [(scheduleLocked_of_ne kernelPml4 hc).2.1, hz]

/-- **Deferred reaping is safe** in every run in which the cores leave the
threads that have exited for threads that no other core is on. -/
theorem reaping_safe (hrun : attempt (step kernelPml4) boot events = some s)
    (hdeparts : Meets (step kernelPml4) Departs boot events) :
    s.Settled kernelPml4 ∧ ∀ e s', s.step kernelPml4 e = some s' → Releases s s' := by
  have h : ReapInv kernelPml4 s :=
    attempt_invariant (fun _ _ _ h hdeparts hstep => h.step hdeparts hstep) reapInv_boot
      hdeparts hrun
  exact ⟨h.settled, fun e s' hstep => h.releases hstep⟩

/-- A thread exits, the boot thread of its core goes on, and the timer ticks. -/
theorem reaping_safe_one_exit : ∃ s', attempt (step 0x1000)
      boot [.init 0, .spawnIn 0 0x8000 0x5000, .schedule 0, .release 0, .switchTo 0 0x500,
        .exitCurrent 0, .schedule 0, .release 0, .switchTo 0 0x7f00, .schedule 0] = some s' ∧
      s'.reaped = [2] ∧ s'.destroyed = [0x5000] ∧ s'.Settled 0x1000 := by
  refine exists_run_imp (Q := fun s => s.reaped = [2] ∧ s.destroyed = [0x5000])
    (by decide +kernel) fun s' hrun hs' => ⟨hs'.1, hs'.2, ?_⟩
  exact (reaping_safe hrun (by decide +kernel)).1

/-- The boot thread of the only core exits, and then the other thread does: with
nothing to switch to, the core stays on its stack, and the next tick releases
this stack and the address space. -/
theorem reaping_own_stack : ∃ s s', attempt (step 0x1000)
      boot [.init 0, .spawnIn 0 0x8000 0x5000, .exitCurrent 0, .schedule 0, .release 0,
        .switchTo 0 0x500, .exitCurrent 0, .schedule 0] = some s ∧
      s.step 0x1000 (.schedule 0) = some s' ∧ s.stack 0 = some 2 ∧ 2 ∉ s.reaped ∧
      2 ∈ s'.reaped ∧ s'.stack 0 = some 2 ∧ s'.destroyed = [0x5000] ∧ ¬ Releases s s' := by
  simp only [exists_and_left]
  refine exists_run_imp (Q := fun s => ∃ s', s.step 0x1000 (.schedule 0) = some s' ∧
    s.stack 0 = some 2 ∧ 2 ∉ s.reaped ∧ 2 ∈ s'.reaped ∧ s'.stack 0 = some 2 ∧
      s'.destroyed = [0x5000]) (by decide +kernel) ?_
  rintro s - ⟨s', hstep, hstack, hnot, hin, hstack', hdestroyed⟩
  exact ⟨s', hstep, hstack, hnot, hin, hstack', hdestroyed,
    fun h => (h.left 2 hin hnot).2 0 hstack⟩

end Scheduler

end AgenticOS
