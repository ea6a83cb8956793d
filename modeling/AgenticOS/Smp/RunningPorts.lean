import AgenticOS.Kernel.PortBitmap
import AgenticOS.Smp.Switching

/-!
# Port bitmaps under the scheduler

A thread carries its I/O permission bitmap with it, and a core checks ring 3 against
the bitmap in its own TSS. `schedule_locked` loads the bitmap of the incoming thread,
`allow_port_for_current` and `deny_port_for_current` change both at once. The calls
that were made are kept with the thread that was current, the last one first.
-/

namespace AgenticOS

open Foundation Function Option

namespace Scheduler

/-! ## Where threads are

This part of the invariant holds in every run, also where a core picks a thread whose
stack pointer is not stored yet. -/

structure Placed (s : Scheduler) : Prop where
  nodup : s.places.Nodup
  made : ∀ t ∈ s.places, t < s.nextTid
  stack_made : ∀ c t, s.stack c = some t → t < s.nextTid
  queued_live : ∀ t ∈ queued s.runQueues, (s.threads t).state ≠ .exited
  /-- A core that is to switch has the incoming thread as its current one. -/
  switching : ∀ c old new newRsp, s.point c = .switching old new newRsp ∨
    s.point c = .released old new newRsp → s.currents c = some new
  /-- A core that is on the stack of a thread has it as its current one, until the
  thread ends. -/
  executing : ∀ c t, s.point c = .running → s.stack c = some t →
    (s.threads t).state ≠ .exited → s.currents c = some t
  unused : ∀ c, s.stack c = none → s.currents c = none

section

variable {kernelPml4 newRsp : UInt64} {s s' : Scheduler} {c c' : Cpu} {t old new : Nat}

theorem placed_boot : Placed boot where
  nodup := by simp [places, queued, inSlots, boot]
  made := by simp [places, queued, inSlots, boot]
  stack_made c t h := by cases h
  queued_live t h := by simp [queued, boot] at h
  switching c old new newRsp h := by simp [boot] at h
  executing c t _ h := by cases h
  unused c _ := rfl

section

variable (h : Placed s)

include h

theorem Placed.current_injective (hc : s.currents c = some t)
    (hc' : s.currents c' = some t) : c = c' := by
  have hnodup := h.nodup
  rw [places, Multiset.nodup_add, Multiset.nodup_add] at hnodup
  exact inSlots_injective hnodup.1.2.1 hc hc'

theorem Placed.current_made (hc : s.currents c = some t) : t < s.nextTid :=
  h.made t (mem_places.mpr (.inr (.inl ⟨c, hc⟩)))

theorem Placed.cons {m : Multiset Nat} (hm : m = s.nextTid ::ₘ s.places) :
    m.Nodup ∧ ∀ t ∈ m, t < s.nextTid + 1 := by
  subst hm
  refine ⟨Multiset.nodup_cons.mpr ⟨fun hmem => lt_irrefl _ (h.made _ hmem), h.nodup⟩, ?_⟩
  intro t ht
  obtain rfl | ht := Multiset.mem_cons.mp ht
  · exact Nat.lt_succ_self _
  · exact Nat.lt_succ_of_lt (h.made t ht)

theorem Placed.spawnThread (target : Cpu) (sp addressSpace : UInt64) :
    Placed (s.spawnThread target sp addressSpace) := by
  obtain ⟨hnodup, hmade⟩ := h.cons (s.places_spawnThread target sp addressSpace)
  have hthread {t : Nat} (ht : t < s.nextTid) :
      (s.spawnThread target sp addressSpace).threads t = s.threads t :=
    update_of_ne ht.ne _ _
  refine ⟨hnodup, hmade, fun c t ht => Nat.lt_succ_of_lt (h.stack_made c t ht), ?_,
    h.switching, ?_, h.unused⟩
  · intro t ht
    have ht : t ∈ s.nextTid ::ₘ queued s.runQueues := by
      rw [← queued_push s.runQueues target]
      exact ht
    obtain rfl | ht := Multiset.mem_cons.mp ht
    · simp [Scheduler.spawnThread]
    · rw [hthread (h.made t (mem_places.mpr (.inl ht)))]
      exact h.queued_live t ht
  · intro c t hpoint hstack hlive
    rw [hthread (h.stack_made c t hstack)] at hlive
    exact h.executing c t hpoint hstack hlive

theorem Placed.initAsCurrentThread (hstack : s.stack c = none) :
    Placed (s.initAsCurrentThread kernelPml4 c) := by
  have hnone := h.unused c hstack
  obtain ⟨hnodup, hmade⟩ := h.cons (m := (s.initAsCurrentThread kernelPml4 c).places)
    (places_initAsCurrentThread hnone)
  have hthread {t : Nat} (ht : t < s.nextTid) :
      (s.initAsCurrentThread kernelPml4 c).threads t = s.threads t :=
    update_of_ne ht.ne _ _
  refine ⟨hnodup, hmade, ?_, ?_, ?_, ?_, ?_⟩
  · intro c' t ht
    simp only [Scheduler.initAsCurrentThread, update_apply] at ht ⊢
    split_ifs at ht
    · exact some_inj.mp ht ▸ Nat.lt_succ_self _
    · exact Nat.lt_succ_of_lt (h.stack_made c' t ht)
  · intro t ht
    rw [hthread (h.made t (mem_places.mpr (.inl ht)))]
    exact h.queued_live t ht
  · intro c' old new newRsp hpoint
    have hcurrent := h.switching c' old new newRsp hpoint
    have hne : c' ≠ c := by
      rintro rfl
      rw [hnone] at hcurrent
      cases hcurrent
    simp only [Scheduler.initAsCurrentThread, update_of_ne hne]
    exact hcurrent
  · intro c' t hpoint hon hlive
    by_cases hc : c' = c
    · subst hc
      simp only [Scheduler.initAsCurrentThread, update_self] at hon ⊢
      exact hon
    · simp only [Scheduler.initAsCurrentThread, update_of_ne hc] at hon ⊢
      rw [hthread (h.stack_made c' t hon)] at hlive
      exact h.executing c' t hpoint hon hlive
  · intro c' hon
    by_cases hc : c' = c
    · subst hc
      simp [Scheduler.initAsCurrentThread] at hon
    · simp only [Scheduler.initAsCurrentThread, update_of_ne hc] at hon ⊢
      exact h.unused c' hon

theorem Placed.exitCurrent : Placed (s.exitCurrent c) := by
  unfold Scheduler.exitCurrent
  cases hcurrent : s.currents c with
  | none => exact h
  | some t =>
    refine { h with queued_live := ?_, executing := ?_ }
    · intro t' ht'
      have hne : t' ≠ t := by
        rintro rfl
        have hnodup := h.nodup
        rw [places, Multiset.nodup_add, Multiset.nodup_add] at hnodup
        exact Multiset.disjoint_left.mp hnodup.1.2.2 ht' (mem_inSlots.mpr ⟨c, hcurrent⟩)
      simp only [setState, update_of_ne hne]
      exact h.queued_live t' ht'
    · intro c' t' hpoint hstack hlive
      refine h.executing c' t' hpoint hstack fun hexited => hlive ?_
      simp only [setState, update_apply]
      split_ifs
      · rfl
      · exact hexited

end

theorem chosen_ne_none {queue : List Nat} (hqueue : s.runQueues c = some queue)
    (hcurrent : s.currents c = some t) (hlive : (s.threads t).state ≠ .exited) :
    s.chosen c ≠ none := by
  have hpick : ∃ x, pick (s.requeued c queue t) c = some x := by
    unfold pick requeued
    rw [if_neg hlive, update_self]
    cases queue with
    | nil | cons => exact ⟨_, rfl⟩
  obtain ⟨x, hpick⟩ := hpick
  simp [chosen, hqueue, hcurrent, hpick]

theorem Placed.scheduleLocked_exited_iff (h : Placed s) (kernelPml4 : UInt64) (c : Cpu) (t : Nat) :
    ((s.scheduleLocked kernelPml4 c).threads t).state = .exited ↔
      (s.threads t).state = .exited := by
  rw [scheduleLocked_exited]
  refine and_iff_left_of_imp fun hexited hchosen => ?_
  obtain hqueued | ⟨-, hlive⟩ := queued_of_chosen hchosen
  · exact h.queued_live t hqueued hexited
  · exact hlive hexited

theorem Placed.scheduleLocked (h : Placed s) (hidle : s.Idle c) :
    Placed (s.scheduleLocked kernelPml4 c) := by
  obtain ⟨hnext, hstack, -, -, -⟩ := scheduleLocked_fields kernelPml4 s c
  have hplaces : (s.scheduleLocked kernelPml4 c).places + ↑(s.zombies c).toList = s.places :=
    places_scheduleLocked
  have hnodup := h.nodup
  rw [← hplaces, Multiset.nodup_add] at hnodup
  have hexited := h.scheduleLocked_exited_iff kernelPml4 c
  refine ⟨hnodup.1, ?_, ?_, ?_, ?_, ?_, ?_⟩
  · intro t ht
    rw [hnext]
    exact h.made t (hplaces ▸ Multiset.mem_add.mpr (.inl ht))
  · rw [hstack, hnext]
    exact h.stack_made
  · intro t ht
    rw [Ne, hexited]
    obtain hqueued | ⟨-, hlive⟩ := queued_of_scheduleLocked ht
    · exact h.queued_live t hqueued
    · exact hlive
  · intro c' old new newRsp hpoint
    by_cases hc : c' = c
    · subst hc
      cases hchosen : s.chosen c' with
      | none =>
        rw [(scheduleLocked_bails kernelPml4 hchosen).2, hidle.2.1] at hpoint
        simp at hpoint
      | some =>
        obtain ⟨hcurrents, current, -, hswitching⟩ := scheduleLocked_chosen kernelPml4 hchosen
        rw [hswitching] at hpoint
        rw [hcurrents]
        simp only [CorePoint.switching.injEq, reduceCtorEq, or_false] at hpoint
        rw [hpoint.2.1]
    · obtain ⟨hcurrents, -, hsame⟩ := scheduleLocked_of_ne kernelPml4 hc
      rw [hsame] at hpoint
      rw [hcurrents]
      exact h.switching c' old new newRsp hpoint
  · intro c' t hpoint hon hlive
    rw [hstack] at hon
    rw [Ne, hexited] at hlive
    by_cases hc : c' = c
    · subst hc
      have hcurrent := h.executing c' t hidle.2.1 hon hlive
      -- it bails out with its thread in place, as it finds no queue
      obtain ⟨-, -, heq⟩ | ⟨queue, current, hqueue, _, hnone, -, -⟩ |
        ⟨-, -, _, -, -, -, hchosen, -, -⟩ := scheduleLocked_cases kernelPml4 s c'
      · rw [heq, reap_currents]
        exact hcurrent
      · exact absurd hnone (chosen_ne_none hqueue hcurrent hlive)
      · obtain ⟨-, _, -, hswitching⟩ := scheduleLocked_chosen kernelPml4 hchosen
        rw [hswitching] at hpoint
        cases hpoint
    · obtain ⟨hcurrents, -, hsame⟩ := scheduleLocked_of_ne kernelPml4 hc
      rw [hsame] at hpoint
      rw [hcurrents]
      exact h.executing c' t hpoint hon hlive
  · intro c' hon
    rw [hstack] at hon
    have hne : c' ≠ c := by
      rintro rfl
      exact hidle.2.2 hon
    rw [(scheduleLocked_of_ne kernelPml4 hne).1]
    exact h.unused c' hon

theorem Placed.release (h : Placed s)
    (hpoint : s.point c = .switching old new newRsp) : Placed (s.release c old new newRsp) := by
  refine { h with switching := ?_, executing := ?_ }
  · intro c' old' new' newRsp' hp
    by_cases hc : c' = c
    · subst hc
      simp only [Scheduler.release, update_self, CorePoint.released.injEq, reduceCtorEq,
        false_or] at hp
      rw [← hp.2.1]
      exact h.switching c' old new newRsp (.inl hpoint)
    · simp only [Scheduler.release, update_of_ne hc] at hp
      exact h.switching c' old' new' newRsp' hp
  · intro c' t hp hon hlive
    by_cases hc : c' = c
    · subst hc
      simp [Scheduler.release] at hp
    · simp only [Scheduler.release, update_of_ne hc] at hp
      exact h.executing c' t hp hon hlive

theorem Placed.switchTo {rsp : UInt64} (h : Placed s)
    (hpoint : s.point c = .released old new newRsp) : Placed (s.switchTo c old new rsp) := by
  have hnew := h.switching c old new newRsp (.inr hpoint)
  have hstate (t : Nat) : ((s.switchTo c old new rsp).threads t).state = (s.threads t).state := by
    simp only [Scheduler.switchTo, update_apply]
    split_ifs with ht
    · rw [ht]
    · rfl
  refine ⟨h.nodup, h.made, ?_, fun t ht => hstate t ▸ h.queued_live t ht, ?_, ?_, ?_⟩
  · intro c' t hon
    simp only [Scheduler.switchTo, update_apply] at hon
    split_ifs at hon
    · exact some_inj.mp hon ▸ h.current_made hnew
    · exact h.stack_made c' t hon
  · intro c' old' new' newRsp' hp
    by_cases hc : c' = c
    · subst hc
      simp [Scheduler.switchTo] at hp
    · simp only [Scheduler.switchTo, update_of_ne hc] at hp
      exact h.switching c' old' new' newRsp' hp
  · intro c' t hp hon hlive
    rw [hstate] at hlive
    by_cases hc : c' = c
    · subst hc
      simp only [Scheduler.switchTo, update_self] at hon
      rw [← hon]
      exact hnew
    · simp only [Scheduler.switchTo, update_of_ne hc] at hp hon
      exact h.executing c' t hp hon hlive
  · intro c' hon
    by_cases hc : c' = c
    · subst hc
      simp [Scheduler.switchTo] at hon
    · simp only [Scheduler.switchTo, update_of_ne hc] at hon
      exact h.unused c' hon

end

end Scheduler

/-! ## Threads with bitmaps -/

/-- An `allow_port_for_current`, or a `deny_port_for_current`. -/
structure PortCall where
  thread : Nat
  port : UInt16
  allow : Bool

structure PortSystem where
  sched : Scheduler
  /-- `Thread::iopb`. -/
  iopb : Nat → Iopb
  /-- `TSSES[cpu].iopb`. -/
  tss : Cpu → Iopb
  calls : List PortCall

namespace PortSystem

inductive Event where
  | sched (e : Scheduler.Event)
  | allowPort (c : Cpu) (port : UInt16)
  | denyPort (c : Cpu) (port : UInt16)

def make (s : PortSystem) (sched : Scheduler) : PortSystem :=
  { s with sched := sched, iopb := Function.update s.iopb s.sched.nextTid .denyAll }

/-- `set_iopb` for the incoming thread, if there is one. -/
def load (s : PortSystem) (sched : Scheduler) (c : Cpu) : PortSystem :=
  { s with
    sched := sched
    tss :=
      match s.sched.chosen c with
      | some next => Function.update s.tss c (s.iopb next)
      | none => s.tss }

/-- The bitmap of the current thread is changed, and loaded on its core. -/
def setPort (s : PortSystem) (c : Cpu) (port : UInt16) (allow : Bool) : PortSystem :=
  match s.sched.currents c with
  | none => s
  | some t =>
    let bitmap :=
      if allow then Iopb.allowPortBits (s.iopb t) port else Iopb.denyPortBits (s.iopb t) port
    { s with iopb := Function.update s.iopb t bitmap, tss := Function.update s.tss c bitmap }

/-- The call is kept with the thread that makes it, whatever becomes of it. -/
def callPort (s : PortSystem) (c : Cpu) (port : UInt16) (allow : Bool) : PortSystem :=
  { s.setPort c port allow with
    calls := (s.sched.currents c).toList.map (⟨·, port, allow⟩) ++ s.calls }

/-- What a step of the scheduler does to the bitmaps. -/
def follow (s : PortSystem) (sched : Scheduler) : Scheduler.Event → PortSystem
  | .init _ | .spawnIn .. | .spawnPinnedToCpu .. => s.make sched
  | .schedule c => s.load sched c
  | .exitCurrent _ | .release _ | .switchTo .. => { s with sched := sched }

def step (kernelPml4 : UInt64) (s : PortSystem) : Event → Option PortSystem
  | .sched e => (s.sched.step kernelPml4 e).map fun sched => s.follow sched e
  | .allowPort c port => if s.sched.Idle c then some (s.callPort c port true) else none
  | .denyPort c port => if s.sched.Idle c then some (s.callPort c port false) else none

/-- No thread is there, and the bitmap of every TSS denies every port. -/
def boot : PortSystem := ⟨.boot, fun _ => .denyAll, fun _ => .denyAll, []⟩

/-! ## What the bitmaps say -/

/-- What the last call for a port made of it while the thread was current. -/
def lastCall (calls : List PortCall) (t : Nat) (port : UInt16) : Option Bool :=
  (calls.find? fun call => call.thread = t ∧ call.port = port).map (·.allow)

theorem lastCall_cons (call : PortCall) (calls : List PortCall) (t : Nat) (port : UInt16) :
    lastCall (call :: calls) t port =
      if call.thread = t ∧ call.port = port then some call.allow else lastCall calls t port := by
  unfold lastCall
  rw [List.find?_cons]
  split_ifs with h <;> simp [h]

theorem lastCall_eq_none {calls : List PortCall} {t : Nat} (h : ∀ call ∈ calls, call.thread ≠ t)
    (port : UInt16) : lastCall calls t port = none := by
  unfold lastCall
  rw [map_eq_none_iff, List.find?_eq_none]
  intro call hcall
  simp [h call hcall]

/-- The core may execute ring-3 code of the thread: it is on its stack, outside of
`schedule_locked`, and the thread has not ended. -/
def Executes (s : PortSystem) (c : Cpu) (t : Nat) : Prop :=
  s.sched.point c = .running ∧ s.sched.stack c = some t ∧ (s.sched.threads t).state ≠ .exited

def Follows (calls : List PortCall) (t : Nat) (bitmap : Iopb) : Prop :=
  ∀ port, bitmap.allows port = true ↔
    port.toNat < iopbPorts ∧ lastCall calls t port = some true

/-- The bitmaps are what the calls made of them, and a TSS has the one of the current
thread. -/
structure Loaded (s : PortSystem) : Prop where
  placed : s.sched.Placed
  calls_made : ∀ call ∈ s.calls, call.thread < s.sched.nextTid
  follows : ∀ t, Follows s.calls t (s.iopb t)
  tss_eq : ∀ c t, s.sched.currents c = some t → s.tss c = s.iopb t
  tss_unused : ∀ c, s.sched.stack c = none → s.tss c = .denyAll

section

variable {kernelPml4 : UInt64} {s s' : PortSystem} {c : Cpu}

theorem loaded_boot : Loaded boot where
  placed := Scheduler.placed_boot
  calls_made call h := by cases h
  follows t port := by
    simp [boot, lastCall]
  tss_eq c t h := by cases h
  tss_unused c _ := rfl

theorem Follows.cons {calls : List PortCall} {t : Nat} {bitmap : Iopb}
    (h : Follows calls t bitmap) (port : UInt16) (allow : Bool) :
    Follows (⟨t, port, allow⟩ :: calls) t
      (if allow then bitmap.allowPortBits port else bitmap.denyPortBits port) := by
  intro q
  have hq := h q
  rw [lastCall_cons]
  by_cases hport : port = q
  · subst hport
    have hlast : (if t = t ∧ port = port then some allow else lastCall calls t port) =
        some allow := if_pos ⟨rfl, rfl⟩
    rw [hlast, some_inj]
    by_cases hlt : port.toNat < iopbPorts
    · cases allow
      · simp [Iopb.allows_denyPortBits, hlt]
      · simp [Iopb.allows_allowPortBits, hlt]
    · have hdenied : bitmap.allows port = false :=
        Bool.eq_false_iff.mpr fun hallows => hlt (hq.mp hallows).1
      cases allow
      · simp [Iopb.allows_denyPortBits, hlt, hdenied]
      · simp [Iopb.allows_allowPortBits, hlt, hdenied]
  · have hlast : (if t = t ∧ port = q then some allow else lastCall calls t q) =
        lastCall calls t q := if_neg fun hsame => hport hsame.2
    rw [hlast, ← hq]
    cases allow
    · simp [Iopb.allows_denyPortBits, Ne.symm hport]
    · simp [Iopb.allows_allowPortBits, Ne.symm hport]

section

variable (h : Loaded s)

include h

theorem Loaded.callPort (hstack : s.sched.stack c ≠ none) (port : UInt16)
    (allow : Bool) : Loaded (s.callPort c port allow) := by
  unfold PortSystem.callPort PortSystem.setPort
  cases hcurrent : s.sched.currents c with
  | none => exact h
  | some t =>
    refine ⟨h.placed, ?_, ?_, ?_, ?_⟩
    · intro call hcall
      obtain rfl | hcall := List.mem_cons.mp hcall
      · exact h.placed.current_made hcurrent
      · exact h.calls_made call hcall
    · intro t'
      dsimp only
      by_cases ht : t' = t
      · subst ht
        rw [update_self]
        exact (h.follows t').cons port allow
      · rw [update_of_ne ht]
        intro q
        show _ ↔ _ ∧ lastCall (⟨t, port, allow⟩ :: s.calls) t' q = some true
        rw [lastCall_cons, if_neg fun hsame => ht hsame.1.symm]
        exact h.follows t' q
    · intro c' t' hcurrent'
      dsimp only at hcurrent' ⊢
      by_cases hc : c' = c
      · subst hc
        rw [hcurrent] at hcurrent'
        cases hcurrent'
        rw [update_self, update_self]
      · -- the thread is current on no other core
        have ht : t' ≠ t := by
          rintro rfl
          exact hc (h.placed.current_injective hcurrent' hcurrent)
        rw [update_of_ne hc, update_of_ne ht]
        exact h.tss_eq c' t' hcurrent'
    · intro c' hon
      have hne : c' ≠ c := by
        rintro rfl
        exact hstack hon
      dsimp only
      rw [update_of_ne hne]
      exact h.tss_unused c' hon

theorem Loaded.make {sched : Scheduler} (hplaced : sched.Placed)
    (hnext : sched.nextTid = s.sched.nextTid + 1)
    (hcurrents : ∀ c t, sched.currents c = some t → s.sched.currents c = some t ∨
      (t = s.sched.nextTid ∧ s.sched.stack c = none))
    (hstack : ∀ c, sched.stack c = none → s.sched.stack c = none) :
    Loaded (s.make sched) := by
  have hfresh : ∀ call ∈ s.calls, call.thread ≠ s.sched.nextTid :=
    fun call hcall => (h.calls_made call hcall).ne
  refine ⟨hplaced, ?_, ?_, ?_, fun c hon => h.tss_unused c (hstack c hon)⟩
  · intro call hcall
    show call.thread < sched.nextTid
    rw [hnext]
    exact Nat.lt_succ_of_lt (h.calls_made call hcall)
  · intro t
    unfold PortSystem.make
    dsimp only
    by_cases ht : t = s.sched.nextTid
    · subst ht
      rw [update_self]
      intro port
      rw [lastCall_eq_none hfresh]
      simp
    · rw [update_of_ne ht]
      exact h.follows t
  · intro c t hcurrent
    unfold PortSystem.make at hcurrent ⊢
    dsimp only at hcurrent ⊢
    obtain hold | ⟨rfl, hon⟩ := hcurrents c t hcurrent
    · rw [update_of_ne (h.placed.current_made hold).ne]
      exact h.tss_eq c t hold
    · rw [update_self]
      exact h.tss_unused c hon

theorem Loaded.load (hidle : s.sched.Idle c) :
    Loaded (s.load (s.sched.scheduleLocked kernelPml4 c) c) := by
  obtain ⟨hnext, hstack, -, -, -⟩ := Scheduler.scheduleLocked_fields kernelPml4 s.sched c
  refine ⟨h.placed.scheduleLocked hidle, ?_, h.follows, ?_, ?_⟩
  · intro call hcall
    show call.thread < (s.sched.scheduleLocked kernelPml4 c).nextTid
    rw [hnext]
    exact h.calls_made call hcall
  · intro c' t hcurrent
    unfold PortSystem.load at hcurrent ⊢
    by_cases hc : c' = c
    · subst hc
      cases hchosen : s.sched.chosen c' with
      | none =>
        have hold := (Scheduler.scheduleLocked_bails kernelPml4 hchosen).1 t hcurrent
        exact h.tss_eq c' t hold
      | some =>
        rw [(Scheduler.scheduleLocked_chosen kernelPml4 hchosen).1, some_inj] at hcurrent
        subst hcurrent
        exact update_self _ _ _
    · rw [(Scheduler.scheduleLocked_of_ne kernelPml4 hc).1] at hcurrent
      cases s.sched.chosen c with
      | none => exact h.tss_eq c' t hcurrent
      | some => exact (update_of_ne hc _ _).trans (h.tss_eq c' t hcurrent)
  · intro c' hon
    unfold PortSystem.load at hon ⊢
    rw [hstack] at hon
    have hne : c' ≠ c := by
      rintro rfl
      exact hidle.2.2 hon
    cases s.sched.chosen c with
    | none => exact h.tss_unused c' hon
    | some => exact (update_of_ne hne _ _).trans (h.tss_unused c' hon)

theorem Loaded.of_currents {sched : Scheduler} (hplaced : sched.Placed)
    (hnext : sched.nextTid = s.sched.nextTid) (hcurrents : sched.currents = s.sched.currents)
    (hstack : ∀ c, sched.stack c = none → s.sched.stack c = none) :
    Loaded { s with sched := sched } := by
  refine ⟨hplaced, ?_, h.follows, ?_, fun c hon => h.tss_unused c (hstack c hon)⟩
  · intro call hcall
    rw [hnext]
    exact h.calls_made call hcall
  · intro c t hcurrent
    exact h.tss_eq c t (hcurrents ▸ hcurrent)

theorem Loaded.step {e : Event} (hs' : s.step kernelPml4 e = some s') : Loaded s' := by
  cases e with
  | allowPort c port =>
    obtain ⟨hidle, hs'⟩ := ite_none_right_eq_some.mp hs'
    cases hs'
    exact h.callPort hidle.2.2 port true
  | denyPort c port =>
    obtain ⟨hidle, hs'⟩ := ite_none_right_eq_some.mp hs'
    cases hs'
    exact h.callPort hidle.2.2 port false
  | sched =>
    obtain ⟨sched, hstep, rfl⟩ := map_eq_some_iff.mp hs'
    cases Scheduler.moves_of_step hstep with
    | init hlock hon =>
      refine h.make (h.placed.initAsCurrentThread hon) rfl ?_ ?_
      · intro c t hcurrent
        simp only [Scheduler.initAsCurrentThread, update_apply] at hcurrent
        split_ifs at hcurrent with hc
        · exact .inr ⟨(some_inj.mp hcurrent).symm, hc ▸ hon⟩
        · exact .inl hcurrent
      · intro c hnone
        simp only [Scheduler.initAsCurrentThread, update_apply] at hnone
        split_ifs at hnone
        exact hnone
    | spawnIn | spawnPinnedToCpu =>
      exact h.make (h.placed.spawnThread _ _ _) rfl (fun c t hc => .inl hc) fun c hc => hc
    | exitCurrent =>
      refine h.of_currents h.placed.exitCurrent ?_ ?_ ?_
      all_goals
        unfold Scheduler.exitCurrent
        split
      all_goals first | rfl | exact fun c hc => hc
    | schedule hidle => exact h.load hidle
    | release hpoint => exact h.of_currents (h.placed.release hpoint) rfl rfl fun c hc => hc
    | switchTo hpoint =>
      refine h.of_currents (h.placed.switchTo hpoint) rfl rfl fun c hnone => ?_
      simp only [Scheduler.switchTo, update_apply] at hnone
      split_ifs at hnone
      exact hnone

end

end

/-- **A core has the bitmap of the thread it runs.** In every run on any number of
cores, where a core can execute ring-3 code of a thread its TSS has the bitmap of
this thread, which allows a port exactly when the last call for it was an allow. -/
theorem tss_has_running_bitmap (kernelPml4 : UInt64) (events : List Event) (s : PortSystem)
    (hrun : attempt (step kernelPml4) boot events = some s) (c : Cpu) (t : Nat)
    (hexec : s.Executes c t) :
    (∀ port, (s.tss c).allows port = (s.iopb t).allows port) ∧
      ∀ port, (s.iopb t).allows port = true ↔
        port.toNat < iopbPorts ∧ lastCall s.calls t port = some true := by
  have hmeets : Meets (step kernelPml4) (fun _ _ => True) boot events :=
    meets_of_forall (fun _ _ => trivial) _ _
  have h : Loaded s :=
    attempt_invariant (fun _ _ _ hinv _ hs' => Loaded.step hinv hs') loaded_boot hmeets hrun
  have hcurrent := h.placed.executing c t hexec.1 hexec.2.1 hexec.2.2
  refine ⟨fun port => ?_, h.follows t⟩
  rw [h.tss_eq c t hcurrent]

theorem tss_has_running_bitmap_com1 :
    ∃ s, attempt (step 0) boot [.sched (.init 0), .allowPort 0 0x60, .allowPort 0 0x3F8,
        .denyPort 0 0x60] = some s ∧
      s.Executes 0 1 ∧ (s.tss 0).allows 0x3F8 = true ∧ (s.tss 0).allows 0x60 ≠ true := by
  have hexec : Executes ((((boot.make (Scheduler.boot.initAsCurrentThread 0 0)).callPort 0 0x60
      true).callPort 0 0x3F8 true).callPort 0 0x60 false) 0 1 := ⟨rfl, rfl, by decide⟩
  obtain ⟨htss, hiopb⟩ := tss_has_running_bitmap 0
    [.sched (.init 0), .allowPort 0 0x60, .allowPort 0 0x3F8, .denyPort 0 0x60] _ rfl 0 1 hexec
  refine ⟨_, rfl, hexec, ?_, ?_⟩
  · rw [htss, hiopb]
    decide
  · rw [htss, Ne, hiopb]
    decide

end PortSystem

end AgenticOS
