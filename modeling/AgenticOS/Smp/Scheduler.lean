import AgenticOS.Foundation.PointwiseSum
import AgenticOS.Smp.KernelLock

/-!
# The scheduler

`kernel_rs/src/thread.rs`: every core has a run queue, the thread it runs and a
slot for a thread that has exited, and all of them are changed under the kernel
lock. A thread is a box on the heap, named here by the number it was made with.
`schedule_locked` is three steps: the critical section, the release of the
lock, and the store of the outgoing stack pointer in `switch_to`, after which
the outgoing stack is not touched any more.

Two components are not in the source: `stack` says on whose stack a core
executes, and `frame` where a thread that does not run has left its registers.
-/

namespace AgenticOS

open Foundation Function
open Multiset (mem_sum coe_add coe_singleton singleton_add cons_add coe_nil mem_add)
open Option hiding or_assoc
open List hiding next

abbrev Cpu := Fin maxCpus

instance : NeZero maxCpus := ⟨by decide⟩

namespace Scheduler

inductive ThreadState where
  | ready
  | running
  | exited
  deriving DecidableEq

structure Thread where
  state : ThreadState
  savedRsp : UInt64
  addressSpace : UInt64
  deriving DecidableEq

inductive CorePoint where
  /-- Outside it. -/
  | running
  /-- The critical section is over and the lock is held. -/
  | switching (old new : Nat) (newRsp : UInt64)
  /-- The lock is released, and `switch_to` has not stored the stack pointer. -/
  | released (old new : Nat) (newRsp : UInt64)
  deriving DecidableEq

end Scheduler

open Scheduler in
structure Scheduler where
  nextTid : Nat
  threads : Nat → Scheduler.Thread
  runQueues : Cpu → Option (List Nat)
  currents : Cpu → Option Nat
  zombies : Cpu → Option Nat
  lock : Option Cpu
  point : Cpu → CorePoint
  /-- On whose stack a core executes. -/
  stack : Cpu → Option Nat
  /-- Where a thread that does not run has left its registers. -/
  frame : Nat → Option UInt64
  /-- The threads that were dropped, in their order. -/
  reaped : List Nat
  /-- The address spaces that were destroyed. -/
  destroyed : List UInt64

/-! ## Picking the next thread -/

abbrev RunQueues := Cpu → Option (List Nat)

/-- The other core with the longest queue, the first one if there are several. -/
def victim (queues : RunQueues) (me : Cpu) : Option Cpu :=
  ((List.finRange maxCpus).foldl (fun (best : Option Cpu × Nat) cpu =>
    if cpu = me then best
    else
      match queues cpu with
      | some q => if q.length > best.2 then (some cpu, q.length) else best
      | none => best) (none, 0)).1

/-- The thread that runs next, with the queues that are left. A core without one
takes the last of another core's. -/
def pick (queues : RunQueues) (me : Cpu) : Option (Nat × RunQueues) :=
  match queues me with
  | some (next :: rest) => some (next, Function.update queues me (some rest))
  | _ => do
    let bestCpu ← victim queues me
    let q ← queues bestCpu
    let stolen ← q.getLast?
    return (stolen, Function.update queues bestCpu (some q.dropLast))

variable {kernelPml4 : UInt64} {s : Scheduler} {c : Cpu} {queue : List Nat} {current next t : Nat}
  {queues : RunQueues}

namespace Scheduler

/-! ## `schedule_locked` -/

section

variable (kernelPml4)

def setState (s : Scheduler) (t : Nat) (state : ThreadState) : Scheduler :=
  { s with threads := Function.update s.threads t { s.threads t with state := state } }

/-- The zombie of the core is dropped, with its address space. -/
def reap (s : Scheduler) (c : Cpu) : Scheduler :=
  match s.zombies c with
  | none => s
  | some zombie =>
    let space := (s.threads zombie).addressSpace
    { s with
      zombies := Function.update s.zombies c none
      reaped := s.reaped ++ [zombie]
      destroyed :=
        if space ≠ 0 ∧ space ≠ kernelPml4 then s.destroyed ++ [space] else s.destroyed }

/-- The run queues with the outgoing thread put back, unless it has exited. -/
def requeued (s : Scheduler) (c : Cpu) (queue : List Nat) (current : Nat) : RunQueues :=
  if (s.threads current).state = .exited then s.runQueues
  else Function.update s.runQueues c (some (queue ++ [current]))

def putAway (s : Scheduler) (c : Cpu) (queue : List Nat) (current : Nat) : Scheduler :=
  { (if (s.threads current).state = .running then s.setState current .ready else s) with
    currents := Function.update s.currents c none
    runQueues := s.requeued c queue current
    zombies :=
      if (s.threads current).state = .exited then Function.update s.zombies c (some current)
      else s.zombies }

def dispatch (s : Scheduler) (c : Cpu) (old next : Nat) (queues : RunQueues) : Scheduler :=
  { s.setState next .running with
    runQueues := queues
    currents := Function.update s.currents c (some next)
    lock := some c
    point := Function.update s.point c (.switching old next (s.threads next).savedRsp) }

/-- The critical section of `schedule_locked`. Where it bails out it has
released the lock. -/
def scheduleLocked (s : Scheduler) (c : Cpu) : Scheduler :=
  let s := s.reap kernelPml4 c
  match s.runQueues c, s.currents c with
  | some queue, some current =>
    let s := s.putAway c queue current
    match pick s.runQueues c with
    | some (next, queues) => s.dispatch c current next queues
    | none => s
  | _, _ => s

end

/-! ## The other calls -/

/-- A new thread at the end of the queue of `target`; `sp` is the frame that is
built on its stack. -/
def spawnThread (s : Scheduler) (target : Cpu) (sp addressSpace : UInt64) : Scheduler :=
  { s with
    nextTid := s.nextTid + 1
    threads := Function.update s.threads s.nextTid ⟨.ready, sp, addressSpace⟩
    frame := Function.update s.frame s.nextTid (some sp)
    runQueues := Function.update s.runQueues target
      (some ((s.runQueues target).getD [] ++ [s.nextTid])) }

/-- `init_as_current_thread_locked`: the code that runs on the core is made a
thread. -/
def initAsCurrentThread (s : Scheduler) (kernelPml4 : UInt64) (c : Cpu) : Scheduler :=
  { s with
    nextTid := s.nextTid + 1
    threads := Function.update s.threads s.nextTid ⟨.running, 0, kernelPml4⟩
    frame := Function.update s.frame s.nextTid none
    currents := Function.update s.currents c (some s.nextTid)
    stack := Function.update s.stack c (some s.nextTid) }

/-- `exit_current`, and what `kill_current_and_reschedule` does before it
schedules. -/
def exitCurrent (s : Scheduler) (c : Cpu) : Scheduler :=
  match s.currents c with
  | some t => s.setState t .exited
  | none => s

/-- The release of the lock before `switch_to`. -/
def release (s : Scheduler) (c : Cpu) (old new : Nat) (newRsp : UInt64) : Scheduler :=
  { s with lock := none, point := Function.update s.point c (.released old new newRsp) }

/-- `switch_to`: the stack pointer of the outgoing thread is stored, and the
core goes on where the incoming one has left off. -/
def switchTo (s : Scheduler) (c : Cpu) (old new : Nat) (rsp : UInt64) : Scheduler :=
  { s with
    threads := Function.update s.threads old { s.threads old with savedRsp := rsp }
    frame := Function.update (Function.update s.frame old (some rsp)) new none
    stack := Function.update s.stack c (some new)
    point := Function.update s.point c .running }

/-! ## Steps -/

/-- Whose step it is, and which. A core on which the timer ticks or a reschedule
interrupt comes in calls `schedule`; a call on a core that is killed is
`exitCurrent` and then `schedule`. -/
inductive Event where
  | init (c : Cpu)
  | spawnIn (c : Cpu) (sp addressSpace : UInt64)
  | spawnPinnedToCpu (c target : Cpu) (sp addressSpace : UInt64)
  | exitCurrent (c : Cpu)
  | schedule (c : Cpu)
  | release (c : Cpu)
  | switchTo (c : Cpu) (rsp : UInt64)
  deriving DecidableEq

/-- The core executes a thread and can get the kernel lock. -/
def Idle (s : Scheduler) (c : Cpu) : Prop :=
  s.lock = none ∧ s.point c = .running ∧ s.stack c ≠ none

instance (s : Scheduler) (c : Cpu) : Decidable (s.Idle c) :=
  inferInstanceAs (Decidable (_ ∧ _ ∧ _))

def step (kernelPml4 : UInt64) (s : Scheduler) : Event → Option Scheduler
  | .init c =>
    if s.lock = none ∧ s.stack c = none then some (s.initAsCurrentThread kernelPml4 c) else none
  | .spawnIn c sp addressSpace =>
    if s.Idle c then some (s.spawnThread c sp addressSpace) else none
  | .spawnPinnedToCpu c target sp addressSpace =>
    if s.Idle c then some (s.spawnThread target sp addressSpace) else none
  | .exitCurrent c => if s.Idle c then some (s.exitCurrent c) else none
  | .schedule c => if s.Idle c then some (s.scheduleLocked kernelPml4 c) else none
  | .release c =>
    match s.point c with
    | .switching old new newRsp => some (s.release c old new newRsp)
    | .running | .released .. => none
  | .switchTo c rsp =>
    match s.point c with
    | .released old new _ => some (s.switchTo c old new rsp)
    | .running | .switching .. => none

def boot : Scheduler where
  nextTid := 1
  threads := fun _ => ⟨.ready, 0, 0⟩
  runQueues := fun _ => none
  currents := fun _ => none
  zombies := fun _ => none
  lock := none
  point := fun _ => .running
  stack := fun _ => none
  frame := fun _ => none
  reaped := []
  destroyed := []

/-- What a step does, and when it is made. -/
inductive Moves (kernelPml4 : UInt64) (s : Scheduler) : Event → Scheduler → Prop
  | init {c : Cpu} : s.lock = none → s.stack c = none →
      Moves kernelPml4 s (.init c) (s.initAsCurrentThread kernelPml4 c)
  | spawnIn {c : Cpu} {sp addressSpace : UInt64} : s.Idle c →
      Moves kernelPml4 s (.spawnIn c sp addressSpace) (s.spawnThread c sp addressSpace)
  | spawnPinnedToCpu {c target : Cpu} {sp addressSpace : UInt64} : s.Idle c →
      Moves kernelPml4 s (.spawnPinnedToCpu c target sp addressSpace)
        (s.spawnThread target sp addressSpace)
  | exitCurrent {c : Cpu} : s.Idle c → Moves kernelPml4 s (.exitCurrent c) (s.exitCurrent c)
  | schedule {c : Cpu} : s.Idle c →
      Moves kernelPml4 s (.schedule c) (s.scheduleLocked kernelPml4 c)
  | release {c : Cpu} {old new : Nat} {newRsp : UInt64} : s.point c = .switching old new newRsp →
      Moves kernelPml4 s (.release c) (s.release c old new newRsp)
  | switchTo {c : Cpu} {old new : Nat} {newRsp rsp : UInt64} :
      s.point c = .released old new newRsp →
      Moves kernelPml4 s (.switchTo c rsp) (s.switchTo c old new rsp)

theorem moves_of_step {kernelPml4 : UInt64} {s s' : Scheduler} {e : Event}
    (h : s.step kernelPml4 e = some s') : Moves kernelPml4 s e s' := by
  cases e with
  | init =>
    obtain ⟨hfree, hs'⟩ := ite_none_right_eq_some.mp h
    cases hs'
    exact .init hfree.1 hfree.2
  | spawnIn =>
    obtain ⟨hidle, hs'⟩ := ite_none_right_eq_some.mp h
    cases hs'
    exact .spawnIn hidle
  | spawnPinnedToCpu =>
    obtain ⟨hidle, hs'⟩ := ite_none_right_eq_some.mp h
    cases hs'
    exact .spawnPinnedToCpu hidle
  | exitCurrent =>
    obtain ⟨hidle, hs'⟩ := ite_none_right_eq_some.mp h
    cases hs'
    exact .exitCurrent hidle
  | schedule =>
    obtain ⟨hidle, hs'⟩ := ite_none_right_eq_some.mp h
    cases hs'
    exact .schedule hidle
  | release c =>
    simp only [step] at h
    cases hpoint : s.point c with
    | switching =>
      rw [hpoint] at h
      cases h
      exact .release hpoint
    | running | released old new newRsp =>
      rw [hpoint] at h
      cases h
  | switchTo c =>
    simp only [step] at h
    cases hpoint : s.point c with
    | released =>
      rw [hpoint] at h
      cases h
      exact .switchTo hpoint
    | running | switching old new newRsp =>
      rw [hpoint] at h
      cases h

/-! ## Fields

What the parts of `schedule_locked` leave alone. -/

@[simp] theorem reap_nextTid : (s.reap kernelPml4 c).nextTid = s.nextTid := by
  unfold reap; split <;> rfl

@[simp] theorem reap_threads : (s.reap kernelPml4 c).threads = s.threads := by
  unfold reap; split <;> rfl

@[simp] theorem reap_runQueues : (s.reap kernelPml4 c).runQueues = s.runQueues := by
  unfold reap; split <;> rfl

@[simp] theorem reap_currents : (s.reap kernelPml4 c).currents = s.currents := by
  unfold reap; split <;> rfl

@[simp] theorem reap_point : (s.reap kernelPml4 c).point = s.point := by
  unfold reap; split <;> rfl

@[simp] theorem reap_stack : (s.reap kernelPml4 c).stack = s.stack := by
  unfold reap; split <;> rfl

@[simp] theorem reap_frame : (s.reap kernelPml4 c).frame = s.frame := by
  unfold reap; split <;> rfl

theorem reap_zombies : (s.reap kernelPml4 c).zombies = update s.zombies c none := by
  unfold reap
  split
  · rename_i h
    rw [← h, update_eq_self]
  · rfl

theorem reap_reaped : (s.reap kernelPml4 c).reaped = s.reaped ++ (s.zombies c).toList := by
  unfold reap
  split
  · rename_i h
    rw [h, toList_none, append_nil]
  · rename_i h
    rw [h]
    rfl

theorem reap_destroyed : (s.reap kernelPml4 c).destroyed = s.destroyed ++
    ((s.zombies c).toList.map fun z => (s.threads z).addressSpace).filter
      (fun a => a ≠ 0 ∧ a ≠ kernelPml4) := by
  unfold reap
  split
  · rename_i h
    rw [h, toList_none, map_nil, filter_nil, append_nil]
  · rename_i zombie h
    rw [h, toList_some, map_singleton]
    dsimp only
    split_ifs with hspace
    · rw [filter_singleton, decide_eq_true hspace, cond_true]
    · rw [filter_singleton, decide_eq_false hspace, cond_false, append_nil]

@[simp] theorem setState_addressSpace (t t' : Nat) (state : ThreadState) :
    ((s.setState t state).threads t').addressSpace = (s.threads t').addressSpace := by
  unfold setState
  dsimp only
  rw [update_apply]
  split_ifs with h
  · rw [h]
  · rfl

@[simp] theorem putAway_addressSpace (t : Nat) :
    ((s.putAway c queue current).threads t).addressSpace = (s.threads t).addressSpace := by
  unfold putAway
  dsimp only
  split_ifs
  · exact setState_addressSpace _ _ _
  · rfl

theorem putAway_destroyed : (s.putAway c queue current).destroyed = s.destroyed := by
  unfold putAway; split_ifs <;> rfl

theorem putAway_exited (t : Nat) :
    ((s.putAway c queue current).threads t).state = .exited ↔ (s.threads t).state = .exited := by
  unfold putAway
  dsimp only
  split_ifs with hrunning
  · unfold setState
    dsimp only
    rw [update_apply]
    split_ifs with ht
    · rw [ht, hrunning]
      simp
    · rfl
  · rfl

@[simp] theorem setState_savedRsp (t t' : Nat) (state : ThreadState) :
    ((s.setState t state).threads t').savedRsp = (s.threads t').savedRsp := by
  unfold setState
  dsimp only
  rw [update_apply]
  split_ifs with h
  · rw [h]
  · rfl

@[simp] theorem putAway_savedRsp (t : Nat) :
    ((s.putAway c queue current).threads t).savedRsp = (s.threads t).savedRsp := by
  unfold putAway
  dsimp only
  split_ifs
  · exact setState_savedRsp _ _ _
  · rfl

@[simp] theorem putAway_nextTid : (s.putAway c queue current).nextTid = s.nextTid := by
  unfold putAway; split_ifs <;> rfl

@[simp] theorem putAway_stack : (s.putAway c queue current).stack = s.stack := by
  unfold putAway; split_ifs <;> rfl

@[simp] theorem putAway_frame : (s.putAway c queue current).frame = s.frame := by
  unfold putAway; split_ifs <;> rfl

@[simp] theorem putAway_point : (s.putAway c queue current).point = s.point := by
  unfold putAway; split_ifs <;> rfl

@[simp] theorem putAway_reaped : (s.putAway c queue current).reaped = s.reaped := by
  unfold putAway; split_ifs <;> rfl

/-! ## What the critical section does -/

section

variable (kernelPml4)

def chosen (s : Scheduler) (c : Cpu) : Option Nat := do
  let queue ← s.runQueues c
  let current ← s.currents c
  let (next, _) ← pick (s.requeued c queue current) c
  return next

variable (s)

/-- **The critical section**: there is nothing to do, there is nothing to switch
to, or the core is to switch. -/
theorem scheduleLocked_cases (c : Cpu) :
    ((s.runQueues c = none ∨ s.currents c = none) ∧ s.chosen c = none ∧
      s.scheduleLocked kernelPml4 c = s.reap kernelPml4 c) ∨
    (∃ queue current, s.runQueues c = some queue ∧ s.currents c = some current ∧
      s.chosen c = none ∧ pick (s.requeued c queue current) c = none ∧
      s.scheduleLocked kernelPml4 c = (s.reap kernelPml4 c).putAway c queue current) ∨
    ∃ queue current next queues, s.runQueues c = some queue ∧ s.currents c = some current ∧
      s.chosen c = some next ∧ pick (s.requeued c queue current) c = some (next, queues) ∧
      s.scheduleLocked kernelPml4 c =
        ((s.reap kernelPml4 c).putAway c queue current).dispatch c current next queues := by
  cases hqueue : s.runQueues c with
  | none =>
    left
    simp [scheduleLocked, chosen, hqueue]
  | some queue =>
    cases hcurrent : s.currents c with
    | none =>
      left
      simp [scheduleLocked, chosen, hqueue, hcurrent]
    | some current =>
      right
      have hpick : pick ((s.reap kernelPml4 c).putAway c queue current).runQueues c =
          pick (s.requeued c queue current) c := by
        simp [putAway, requeued]
      cases hnext : pick (s.requeued c queue current) c with
      | none =>
        left
        refine ⟨queue, current, rfl, rfl, ?_, hnext, ?_⟩
        · simp [chosen, hqueue, hcurrent, hnext]
        · simp [scheduleLocked, hqueue, hcurrent, hpick, hnext]
      | some x =>
        right
        refine ⟨queue, current, x.1, x.2, rfl, rfl, ?_, hnext, ?_⟩
        · simp [chosen, hqueue, hcurrent, hnext]
        · simp [scheduleLocked, hqueue, hcurrent, hpick, hnext]

/-- What the critical section leaves alone, and which address spaces it destroys. -/
theorem scheduleLocked_fields (c : Cpu) : (s.scheduleLocked kernelPml4 c).nextTid = s.nextTid ∧
      (s.scheduleLocked kernelPml4 c).stack = s.stack ∧
      (s.scheduleLocked kernelPml4 c).frame = s.frame ∧
      (s.scheduleLocked kernelPml4 c).reaped = s.reaped ++ (s.zombies c).toList ∧
      (s.scheduleLocked kernelPml4 c).destroyed = s.destroyed ++
        ((s.zombies c).toList.map fun z => (s.threads z).addressSpace).filter
          (fun a => a ≠ 0 ∧ a ≠ kernelPml4) ∧
      ∀ t, ((s.scheduleLocked kernelPml4 c).threads t).savedRsp = (s.threads t).savedRsp ∧
        ((s.scheduleLocked kernelPml4 c).threads t).addressSpace = (s.threads t).addressSpace := by
  obtain ⟨-, -, heq⟩ | ⟨queue, current, -, -, -, -, heq⟩ |
    ⟨queue, current, next, _, -, -, -, -, heq⟩ := scheduleLocked_cases kernelPml4 s c
  · rw [heq]
    exact ⟨reap_nextTid, reap_stack, reap_frame, reap_reaped, reap_destroyed,
      fun t => by simp [reap_threads]⟩
  · rw [heq]
    refine ⟨by simp, by simp, by simp, ?_, ?_, by simp⟩
    · rw [putAway_reaped, reap_reaped]
    · rw [putAway_destroyed, reap_destroyed]
  · rw [heq]
    refine ⟨by simp [dispatch, setState], by simp [dispatch, setState],
      by simp [dispatch, setState], ?_, ?_, fun t => ?_⟩
    · show ((s.reap kernelPml4 c).putAway c queue current).reaped = _
      rw [putAway_reaped, reap_reaped]
    · show ((s.reap kernelPml4 c).putAway c queue current).destroyed = _
      rw [putAway_destroyed, reap_destroyed]
    · simp [dispatch]

/-- A thread is exited or not as before, and the incoming one is not. -/
theorem scheduleLocked_exited (c : Cpu) (t : Nat) :
    ((s.scheduleLocked kernelPml4 c).threads t).state = .exited ↔
      (s.threads t).state = .exited ∧ s.chosen c ≠ some t := by
  have hput (queue : List Nat) (current : Nat) :
      (((s.reap kernelPml4 c).putAway c queue current).threads t).state = .exited ↔
        (s.threads t).state = .exited := by
    rw [putAway_exited, reap_threads]
  obtain ⟨-, hnone, heq⟩ | ⟨queue, current, -, -, hnone, -, heq⟩ |
    ⟨queue, current, _, _, -, -, hnext, -, heq⟩ := scheduleLocked_cases kernelPml4 s c
  · rw [heq, reap_threads, hnone]
    simp
  · rw [heq, hput, hnone]
    simp
  · rw [heq, hnext, ← hput queue current]
    unfold dispatch setState
    dsimp only
    rw [update_apply]
    split_ifs with ht
    · simp [ht]
    · simp [Ne.symm ht]

variable {s}

/-- The zombie that the critical section leaves is the thread that has exited. -/
theorem scheduleLocked_zombie {z : Nat} (h : (s.scheduleLocked kernelPml4 c).zombies c = some z) :
    s.currents c = some z ∧ (s.threads z).state = .exited ∧ s.runQueues c ≠ none := by
  have hput (queue : List Nat) (current : Nat)
      (h : ((s.reap kernelPml4 c).putAway c queue current).zombies c = some z) :
      current = z ∧ (s.threads z).state = .exited := by
    unfold putAway at h
    dsimp only at h
    rw [reap_threads, reap_zombies] at h
    split_ifs at h with hexited
    · rw [update_self, some_inj] at h
      exact ⟨h, h ▸ hexited⟩
    · rw [update_self] at h
      cases h
  obtain ⟨-, -, heq⟩ | ⟨queue, current, hqueue, hcurrent, -, -, heq⟩ |
    ⟨queue, current, _, _, hqueue, hcurrent, -, -, heq⟩ :=
      scheduleLocked_cases kernelPml4 s c
  · rw [heq, reap_zombies, update_self] at h
    cases h
  · rw [heq] at h
    obtain ⟨rfl, hexited⟩ := hput queue current h
    exact ⟨hcurrent, hexited, by rw [hqueue]; exact some_ne_none _⟩
  · rw [heq] at h
    obtain ⟨rfl, hexited⟩ := hput queue current h
    exact ⟨hcurrent, hexited, by rw [hqueue]; exact some_ne_none _⟩

/-- The core is to switch to the thread that it has picked. -/
theorem scheduleLocked_chosen {next : Nat} (h : s.chosen c = some next) :
    (s.scheduleLocked kernelPml4 c).currents c = some next ∧
      ∃ current, s.currents c = some current ∧ (s.scheduleLocked kernelPml4 c).point c =
        .switching current next (s.threads next).savedRsp := by
  obtain ⟨-, hnone, -⟩ | ⟨-, -, -, -, hnone, -⟩ |
    ⟨_, current, next', _, -, hcurrent, hnext, -, heq⟩ :=
      scheduleLocked_cases kernelPml4 s c
  · rw [hnone] at h
    cases h
  · rw [hnone] at h
    cases h
  · obtain rfl : next' = next := some_inj.mp (hnext.symm.trans h)
    rw [heq]
    exact ⟨by simp [dispatch], current, hcurrent, by simp [dispatch]⟩

/-- The core goes on where it is if there is nothing to switch to. -/
theorem scheduleLocked_bails (h : s.chosen c = none) :
    (∀ t, (s.scheduleLocked kernelPml4 c).currents c = some t → s.currents c = some t) ∧
      (s.scheduleLocked kernelPml4 c).point c = s.point c := by
  obtain ⟨-, -, heq⟩ | ⟨queue, current, -, -, -, -, heq⟩ |
    ⟨queue, current, _, _, -, -, hnext, -, -⟩ := scheduleLocked_cases kernelPml4 s c
  · rw [heq, reap_currents, reap_point]
    exact ⟨fun t ht => ht, rfl⟩
  · rw [heq, putAway_point, reap_point]
    refine ⟨fun t ht => ?_, rfl⟩
    simp [putAway] at ht
  · rw [hnext] at h
    cases h

theorem scheduleLocked_of_ne {c' : Cpu} (hne : c' ≠ c) :
    (s.scheduleLocked kernelPml4 c).currents c' = s.currents c' ∧
      (s.scheduleLocked kernelPml4 c).zombies c' = s.zombies c' ∧
      (s.scheduleLocked kernelPml4 c).point c' = s.point c' := by
  have hzombies : (s.reap kernelPml4 c).zombies c' = s.zombies c' := by
    rw [reap_zombies, update_of_ne hne]
  have hput (queue : List Nat) (current : Nat) :
      ((s.reap kernelPml4 c).putAway c queue current).currents c' = s.currents c' ∧
        ((s.reap kernelPml4 c).putAway c queue current).zombies c' = s.zombies c' := by
    unfold putAway
    dsimp only
    rw [update_of_ne hne, reap_currents]
    refine ⟨rfl, ?_⟩
    split_ifs
    · rw [update_of_ne hne, hzombies]
    · exact hzombies
  obtain ⟨-, -, heq⟩ | ⟨queue, current, -, -, -, -, heq⟩ |
    ⟨queue, current, _, _, -, -, -, -, heq⟩ := scheduleLocked_cases kernelPml4 s c
  · rw [heq]
    exact ⟨by rw [reap_currents], hzombies, by rw [reap_point]⟩
  · rw [heq]
    exact ⟨(hput queue current).1, (hput queue current).2, by simp⟩
  · rw [heq]
    unfold dispatch setState
    dsimp only
    rw [update_of_ne hne, update_of_ne hne]
    exact ⟨(hput queue current).1, (hput queue current).2, by simp⟩

end

end Scheduler

/-! ## Places -/

def queued (queues : RunQueues) : Multiset Nat := ∑ c, (↑((queues c).getD []) : Multiset Nat)

def inSlots (slots : Cpu → Option Nat) : Multiset Nat := ∑ c, (↑(slots c).toList : Multiset Nat)

theorem queued_update (queues : RunQueues) (c : Cpu) (q : Option (List Nat)) :
    queued (update queues c q) + ↑((queues c).getD []) = queued queues + ↑(q.getD []) :=
  sum_update_add (fun q : Option (List Nat) => (↑(q.getD []) : Multiset Nat)) queues c q

theorem inSlots_update (slots : Cpu → Option Nat) (c : Cpu) (o : Option Nat) :
    inSlots (update slots c o) + ↑(slots c).toList = inSlots slots + ↑o.toList :=
  sum_update_add (fun o : Option Nat => (↑o.toList : Multiset Nat)) slots c o

theorem mem_queued : t ∈ queued queues ↔ ∃ c, t ∈ (queues c).getD [] := by
  rw [queued, mem_sum]
  simp

theorem mem_inSlots {slots : Cpu → Option Nat} : t ∈ inSlots slots ↔ ∃ c, slots c = some t := by
  rw [inSlots, mem_sum]
  simp

theorem queued_push (queues : RunQueues) (c : Cpu) (t : Nat) :
    queued (update queues c (some ((queues c).getD [] ++ [t]))) = t ::ₘ queued queues := by
  have hsum := queued_update queues c (some ((queues c).getD [] ++ [t]))
  rw [getD_some, ← coe_add, add_comm (((queues c).getD [] : List Nat) :
    Multiset Nat), ← add_assoc, add_left_inj, add_comm, coe_singleton,
    singleton_add] at hsum
  exact hsum

theorem queued_remove {c : Cpu} {q rest : List Nat}
    (hq : queues c = some q) (hperm : q.Perm (t :: rest)) :
    queued queues = t ::ₘ queued (update queues c (some rest)) := by
  have hsum := queued_update queues c (some rest)
  rw [hq, getD_some, getD_some, Multiset.coe_eq_coe.mpr hperm, ← Multiset.cons_coe,
    Multiset.add_cons, ← cons_add] at hsum
  exact (add_right_cancel hsum).symm

/-- Picking takes one thread out of the queues. -/
theorem queued_pick {queues' : RunQueues} {me : Cpu} {next : Nat}
    (h : pick queues me = some (next, queues')) : queued queues = next ::ₘ queued queues' := by
  unfold pick at h
  split at h
  · rename_i hqueue
    cases h
    exact queued_remove hqueue (Perm.refl _)
  · obtain ⟨_, -, h⟩ := bind_eq_some_iff.mp h
    obtain ⟨q, hq, h⟩ := bind_eq_some_iff.mp h
    obtain ⟨_, hlast, h⟩ := bind_eq_some_iff.mp h
    cases h
    apply queued_remove hq
    rw [← dropLast_append_getLast? next hlast, dropLast_concat]
    exact perm_append_singleton next _

namespace Scheduler

/-- Every place that a thread can have: a run queue, the current thread of a
core, the zombie slot of a core. -/
def places (s : Scheduler) : Multiset Nat :=
  queued s.runQueues + inSlots s.currents + inSlots s.zombies

theorem places_reap : (s.reap kernelPml4 c).places + ↑(s.zombies c).toList = s.places := by
  have hsum := inSlots_update s.zombies c none
  rw [toList_none, coe_nil, add_zero] at hsum
  rw [places, reap_runQueues, reap_currents, reap_zombies, add_assoc, hsum]
  rfl

theorem places_putAway (hqueue : s.runQueues c = some queue)
    (hcurrent : s.currents c = some current) (hzombie : s.zombies c = none) :
    (s.putAway c queue current).places = s.places := by
  have hcur := inSlots_update s.currents c none
  rw [hcurrent, toList_none, coe_nil, add_zero, toList_some] at hcur
  unfold places putAway requeued
  dsimp only
  split_ifs with hexit
  · have hsum := inSlots_update s.zombies c (some current)
    rw [hzombie, toList_none, coe_nil, add_zero, toList_some] at hsum
    rw [hsum, ← hcur]
    abel
  · have hpush := queued_push s.runQueues c current
    rw [hqueue, getD_some] at hpush
    rw [hpush, ← hcur, ← singleton_add, coe_singleton]
    abel

theorem places_dispatch {old : Nat} (hpick : pick s.runQueues c = some (next, queues))
    (hcurrent : s.currents c = none) : (s.dispatch c old next queues).places = s.places := by
  have hcur := inSlots_update s.currents c (some next)
  rw [hcurrent, toList_none, coe_nil, add_zero, toList_some] at hcur
  unfold places dispatch
  rw [hcur, queued_pick hpick, ← singleton_add, coe_singleton]
  abel

/-- **No thread is lost** in the critical section, and the zombie is dropped. -/
theorem places_scheduleLocked :
    (s.scheduleLocked kernelPml4 c).places + ↑(s.zombies c).toList = s.places := by
  have hzombie : (s.reap kernelPml4 c).zombies c = none := by
    rw [reap_zombies, update_self]
  have hsame : (s.scheduleLocked kernelPml4 c).places = (s.reap kernelPml4 c).places := by
    obtain ⟨-, -, heq⟩ | ⟨queue, current, hqueue, hcurrent, -, -, heq⟩ |
      ⟨queue, current, _, _, hqueue, hcurrent, -, hpick, heq⟩ :=
        scheduleLocked_cases kernelPml4 s c
    · rw [heq]
    · rw [heq, places_putAway (by rwa [reap_runQueues]) (by rwa [reap_currents]) hzombie]
    · rw [heq, places_dispatch, places_putAway (by rwa [reap_runQueues])
        (by rwa [reap_currents]) hzombie]
      · simpa [putAway, requeued] using hpick
      · simp [putAway]
  rw [hsame, places_reap]

theorem places_spawnThread (s : Scheduler) (target : Cpu) (sp addressSpace : UInt64) :
    (s.spawnThread target sp addressSpace).places = s.nextTid ::ₘ s.places := by
  unfold places spawnThread
  rw [queued_push, cons_add, cons_add]

theorem places_initAsCurrentThread (h : s.currents c = none) :
    (s.initAsCurrentThread kernelPml4 c).places = s.nextTid ::ₘ s.places := by
  have hsum := inSlots_update s.currents c (some s.nextTid)
  rw [h, toList_none, coe_nil, add_zero, toList_some, coe_singleton] at hsum
  unfold places initAsCurrentThread
  rw [hsum, ← singleton_add]
  abel

theorem mem_places : t ∈ s.places ↔
    t ∈ queued s.runQueues ∨ (∃ c, s.currents c = some t) ∨ ∃ c, s.zombies c = some t := by
  rw [places, mem_add, mem_add, mem_inSlots, mem_inSlots, or_assoc]

/-! ### Where the queued threads come from -/

theorem mem_queued_requeued (hqueue : s.runQueues c = some queue) :
    t ∈ queued (s.requeued c queue current) ↔
      t ∈ queued s.runQueues ∨ (t = current ∧ (s.threads current).state ≠ .exited) := by
  unfold requeued
  split_ifs with hexited
  · simp [hexited]
  · have hpush := queued_push s.runQueues c current
    rw [hqueue, getD_some] at hpush
    rw [hpush, Multiset.mem_cons, or_comm]
    simp [hexited]

theorem queued_of_chosen (h : s.chosen c = some t) :
    t ∈ queued s.runQueues ∨ (s.currents c = some t ∧ (s.threads t).state ≠ .exited) := by
  obtain ⟨queue, hqueue, h⟩ := bind_eq_some_iff.mp h
  obtain ⟨current, hcurrent, h⟩ := bind_eq_some_iff.mp h
  obtain ⟨⟨_, _⟩, hpick, h⟩ := bind_eq_some_iff.mp h
  cases h
  have hmem : t ∈ queued (s.requeued c queue current) := by
    rw [queued_pick hpick]
    exact Multiset.mem_cons_self t _
  obtain hold | ⟨rfl, hlive⟩ := (mem_queued_requeued hqueue).mp hmem
  · exact .inl hold
  · exact .inr ⟨hcurrent, hlive⟩

theorem queued_of_scheduleLocked (h : t ∈ queued (s.scheduleLocked kernelPml4 c).runQueues) :
    t ∈ queued s.runQueues ∨ (s.currents c = some t ∧ (s.threads t).state ≠ .exited) := by
  have hput {queue : List Nat} {current : Nat} (hqueue : s.runQueues c = some queue)
      (hcurrent : s.currents c = some current) (h : t ∈ queued (s.requeued c queue current)) :
      t ∈ queued s.runQueues ∨ (s.currents c = some t ∧ (s.threads t).state ≠ .exited) := by
    obtain hold | ⟨rfl, hlive⟩ := (mem_queued_requeued hqueue).mp h
    · exact .inl hold
    · exact .inr ⟨hcurrent, hlive⟩
  obtain ⟨-, -, heq⟩ | ⟨queue, current, hqueue, hcurrent, -, -, heq⟩ |
    ⟨queue, current, _, _, hqueue, hcurrent, -, hpick, heq⟩ :=
      scheduleLocked_cases kernelPml4 s c
  · rw [heq, reap_runQueues] at h
    exact .inl h
  · rw [heq] at h
    exact hput hqueue hcurrent (by simpa [putAway, requeued] using h)
  · rw [heq] at h
    apply hput hqueue hcurrent
    rw [queued_pick hpick]
    exact Multiset.mem_cons_of_mem h

end Scheduler

end AgenticOS
