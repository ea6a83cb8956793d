import AgenticOS.Foundation.Execution
import AgenticOS.Kernel.State

/-!
# The lives of processes

`kernel_rs/src/process.rs`, with every section under the kernel lock as one step: a
`sys_spawn` takes a pid, puts the thread of the child into a run queue and enters it
in the process table only then; a `sys_wait` looks whether there is an entry and then
tries again and again to reap it; a thread ends by `sys_exit`, which marks its entry
first, or by a fault, which does not. Any thread that has not ended may make the next
step, so the runs cover those on any number of cores.

What no variable of the source holds is kept beside it: which thread a pid was given
to, whether its `sys_spawn` has returned, the codes that were given to `sys_exit` and
what the calls of `try_wait` have returned.
-/

namespace AgenticOS

open Foundation List Function Option
open UInt64 (lt_trans lt_irrefl)

/-! ## The process table -/

namespace ProcessTable

def processExists (table : List Process) (pid : UInt64) : Bool := table.any (·.pid == pid)

/-- `try_wait`: the code of an entry that has exited, which is removed. -/
def tryWait (table : List Process) (pid : UInt64) : Option Int32 × List Process :=
  match Keyed.lookup Process.pid table pid with
  | some p =>
    match p.status with
    | .exited code => (some code, Keyed.remove Process.pid pid table)
    | .running => (none, table)
  | none => (none, table)

/-- What `sys_exit` does to the entry of its thread. -/
def markExited (table : List Process) (tid : ThreadId) (code : Int32) : List Process :=
  Keyed.adjust Process.threadId tid (fun p => { p with status := .exited code }) table

end ProcessTable

/-! ## Steps -/

inductive CallPoint where
  /-- In ring 3. -/
  | user
  /-- In `sys_spawn`, with a pid. -/
  | spawning (pid space : UInt64)
  /-- In `sys_spawn`, with the thread of the child in a run queue. -/
  | pushing (pid : UInt64) (tid : ThreadId) (space : UInt64)
  /-- In the loop of `sys_wait`. -/
  | waiting (pid : UInt64)
  /-- In `sys_exit`, after the entry was looked for. -/
  | exiting
  deriving DecidableEq

structure Lifecycle where
  nextPid : UInt64
  nextTid : ThreadId
  table : List Process
  /-- Where the threads are, those that have not ended. -/
  point : ThreadId → Option CallPoint
  made : UInt64 → Option ThreadId
  returned : UInt64 → Bool
  code : ThreadId → Option Int32
  answers : UInt64 → List Int32

namespace Lifecycle

inductive Call where
  /-- `sys_spawn`, that gets as far as taking a pid. -/
  | spawn (space : UInt64)
  | wait (pid : UInt64)
  | exit (code : Int32)
  /-- A fault that `recover_or_halt` turns into a kill. -/
  | fault
  deriving DecidableEq

inductive Event where
  | call (t : ThreadId) (c : Call)
  /-- The thread goes on in its call. -/
  | resume (t : ThreadId)
  deriving DecidableEq

def moveTo (s : Lifecycle) (t : ThreadId) (p : Option CallPoint) : Lifecycle :=
  { s with point := Function.update s.point t p }

def enter (s : Lifecycle) (t : ThreadId) : Call → Lifecycle
  | .spawn space =>
    { s.moveTo t (some (.spawning s.nextPid space)) with nextPid := s.nextPid + 1 }
  | .wait pid =>
    if ProcessTable.processExists s.table pid then s.moveTo t (some (.waiting pid)) else s
  | .exit code =>
    { s.moveTo t (some .exiting) with
      table := ProcessTable.markExited s.table t code
      code := Function.update s.code t (some code) }
  | .fault => s.moveTo t none

/-- `spawn_user`. -/
def enqueue (s : Lifecycle) (t : ThreadId) (pid space : UInt64) : Lifecycle :=
  { s with
    nextTid := s.nextTid + 1
    point := Function.update (Function.update s.point t (some (.pushing pid s.nextTid space)))
      s.nextTid (some .user)
    made := Function.update s.made pid (some s.nextTid) }

def addEntry (s : Lifecycle) (pid : UInt64) (tid : ThreadId) (space : UInt64) : Lifecycle :=
  { s with
    table := s.table ++ [⟨pid, tid, space, .running⟩]
    returned := Function.update s.returned pid true }

def answer (s : Lifecycle) (table : List Process) (pid : UInt64) (code : Int32) : Lifecycle :=
  { s with
    table := table
    answers := Function.update s.answers pid (s.answers pid ++ [code]) }

/-- One turn of the loop of `sys_wait`. -/
def tryWait (s : Lifecycle) (t : ThreadId) (pid : UInt64) : Lifecycle :=
  match ProcessTable.tryWait s.table pid with
  | (some code, table) => (s.moveTo t (some .user)).answer table pid code
  | (none, _) => s

def step (s : Lifecycle) : Event → Option Lifecycle
  | .call t c => if s.point t = some .user then some (s.enter t c) else none
  | .resume t =>
    match s.point t with
    | some (.spawning pid space) => some (s.enqueue t pid space)
    | some (.pushing pid tid space) => some ((s.moveTo t (some .user)).addEntry pid tid space)
    | some (.waiting pid) => some (s.tryWait t pid)
    | some .exiting => some (s.moveTo t none)
    | some .user | none => none

/-- The threads before `first` are there, and none of them is a process. -/
def boot (first : ThreadId) : Lifecycle where
  nextPid := 1
  nextTid := first
  table := []
  point := fun t => if t < first then some .user else none
  made := fun _ => none
  returned := fun _ => false
  code := fun _ => none
  answers := fun _ => []

/-! ## What is wanted, and what it takes -/

structure Kept (s : Lifecycle) : Prop where
  /-- A process that has ended is marked as such until it is reaped. -/
  marked : ∀ pid tid, s.made pid = some tid → s.returned pid = true → s.point tid = none →
    s.answers pid = [] → ∃ p ∈ s.table, p.pid = pid ∧ ∃ code, p.status = .exited code
  /-- One call of `try_wait` returns the code of a process, the first one that finds it. -/
  answered : ∀ pid tid code, s.made pid = some tid → s.returned pid = true →
    s.code tid = some code →
      (s.answers pid = [] ∧ ∃ p ∈ s.table, p.pid = pid ∧ p.status = .exited code) ∨
      (s.answers pid = [code] ∧ ∀ p ∈ s.table, p.pid ≠ pid)
  /-- The next turn of a call that waits for a process that has exited returns its code, and
  no entry is left. -/
  reaps : ∀ t, ∀ p ∈ s.table, ∀ code, s.point t = some (.waiting p.pid) →
    p.status = .exited code → ∃ s', s.step (.resume t) = some s' ∧ s'.point t = some .user ∧
      s'.answers p.pid = [code] ∧ ∀ q ∈ s'.table, q.pid ≠ p.pid
  /-- Nothing but codes is returned. -/
  codes : ∀ pid, s.answers pid ≠ [] → ∃ tid code, s.made pid = some tid ∧
    s.code tid = some code ∧ s.answers pid = [code]
  /-- No call waits for a pid that has no entry. -/
  awaited : ∀ t pid, s.point t = some (.waiting pid) → ∃ p ∈ s.table, p.pid = pid

/-- A child is entered before it ends, it ends by `sys_exit`, a process is reaped by the
only thread that waits for it, and the counters do not wrap. -/
def Orderly (s : Lifecycle) : Event → Prop
  | .call _ (.spawn _) => s.nextPid < s.nextPid + 1
  | .call t .fault => ∀ pid, s.made pid ≠ some t
  | .call _ (.wait _) | .call _ (.exit _) => True
  | .resume t =>
    match s.point t with
    | some (.spawning _ _) => s.nextTid < s.nextTid + 1
    | some (.pushing _ tid _) => s.point tid ≠ none ∧ s.point tid ≠ some .exiting
    | some (.waiting pid) => (∃ p ∈ s.table, p.pid = pid ∧ p.status ≠ .running) →
        ∀ t', s.point t' = some (.waiting pid) → t' = t
    | some .exiting | some .user | none => True

/-! ## The invariant -/

def EntryOk (s : Lifecycle) (p : Process) : Prop :=
  s.made p.pid = some p.threadId ∧ s.returned p.pid = true ∧ s.answers p.pid = [] ∧
    match p.status with
    | .running => s.code p.threadId = none ∧ s.point p.threadId ≠ none
    | .exited code => s.code p.threadId = some code

structure Inv (s : Lifecycle) : Prop where
  made_lt : ∀ pid tid, s.made pid = some tid → pid < s.nextPid ∧ tid < s.nextTid
  made_inj : ∀ pid pid' tid, s.made pid = some tid → s.made pid' = some tid → pid = pid'
  point_lt : ∀ t, s.point t ≠ none → t < s.nextTid
  code_lt : ∀ t, s.code t ≠ none → t < s.nextTid
  /-- A pid is taken by one call, and no thread was made for it yet. -/
  spawning : ∀ t pid space, s.point t = some (.spawning pid space) →
    pid < s.nextPid ∧ s.made pid = none ∧
      ∀ t' space', s.point t' = some (.spawning pid space') → t' = t
  pushing : ∀ t pid tid space, s.point t = some (.pushing pid tid space) →
    s.made pid = some tid ∧ s.returned pid = false ∧
      ∀ t' tid' space', s.point t' = some (.pushing pid tid' space') → t' = t
  returned_made : ∀ pid, s.returned pid = true → s.made pid ≠ none
  unreturned : ∀ pid, s.returned pid = false → s.answers pid = []
  nodup : (s.table.map Process.pid).Nodup
  entries : ∀ p ∈ s.table, s.EntryOk p
  /-- A process has an entry, or its code was returned. -/
  entered : ∀ pid, s.returned pid = true → (∃ p ∈ s.table, p.pid = pid) ∨
    ∃ tid code, s.made pid = some tid ∧ s.code tid = some code ∧ s.answers pid = [code]
  exiting : ∀ t, s.point t = some .exiting → s.code t ≠ none
  coded : ∀ t, s.code t ≠ none → s.point t = none ∨ s.point t = some .exiting
  awaited : ∀ t pid, s.point t = some (.waiting pid) → ∃ p ∈ s.table, p.pid = pid

section

variable {s s' : Lifecycle} {t tid : ThreadId} {pid space : UInt64}

theorem inv_boot (first : ThreadId) : Inv (boot first) where
  made_lt pid tid h := by cases h
  made_inj pid pid' tid h := by cases h
  point_lt t h := by
    by_contra hlt
    exact h (if_neg hlt)
  code_lt t h := absurd rfl h
  spawning t pid space h := by
    simp only [boot] at h
    split_ifs at h
    cases h
  pushing t pid tid space h := by
    simp only [boot] at h
    split_ifs at h
    cases h
  returned_made pid h := by cases h
  unreturned pid _ := rfl
  nodup := nodup_nil
  entries p h := by cases h
  entered pid h := by cases h
  exiting t h := by
    simp only [boot] at h
    split_ifs at h
    cases h
  coded t h := absurd rfl h
  awaited t pid h := by
    simp only [boot] at h
    split_ifs at h
    cases h

theorem Inv.kept (h : Inv s) : Kept s where
  marked pid tid hmade hreturned hended hanswers := by
    obtain ⟨p, hp, rfl⟩ | ⟨tid', code, -, -, hanswer⟩ := h.entered pid hreturned
    · obtain ⟨hmade', -, -, hstatus⟩ := h.entries p hp
      refine ⟨p, hp, rfl, ?_⟩
      rw [hmade] at hmade'
      cases hmade'
      cases hp' : p.status with
      | running =>
        rw [hp'] at hstatus
        exact absurd hended hstatus.2
      | exited code => exact ⟨code, rfl⟩
    · rw [hanswers] at hanswer
      cases hanswer
  answered pid tid code hmade hreturned hcode := by
    obtain ⟨p, hp, rfl⟩ | ⟨tid', _, hmade', hcode', hanswer⟩ := h.entered pid hreturned
    · left
      obtain ⟨hmade', -, hnone, hstatus⟩ := h.entries p hp
      rw [hmade] at hmade'
      cases hmade'
      refine ⟨hnone, p, hp, rfl, ?_⟩
      cases hp' : p.status with
      | running =>
        rw [hp', hcode] at hstatus
        cases hstatus.1
      | exited =>
        rw [hp', hcode] at hstatus
        cases hstatus
        rfl
    · right
      rw [hmade] at hmade'
      cases hmade'
      rw [hcode] at hcode'
      cases hcode'
      refine ⟨hanswer, fun p hp hpid => ?_⟩
      obtain ⟨-, -, hnone, -⟩ := h.entries p hp
      rw [hpid, hanswer] at hnone
      cases hnone
  reaps t p hp code hpoint hstatus := by
    have hlookup : Keyed.lookup Process.pid s.table p.pid = some p :=
      (Keyed.lookup_eq_some_iff h.nodup).mpr ⟨hp, rfl⟩
    have hstep : s.step (.resume t) = some (s.tryWait t p.pid) := by rw [step, hpoint]
    refine ⟨_, hstep, ?_⟩
    rw [Lifecycle.tryWait, ProcessTable.tryWait, hlookup]
    dsimp only
    rw [hstatus]
    dsimp only [answer, moveTo]
    rw [update_self, update_self, (h.entries p hp).2.2.1]
    exact ⟨rfl, rfl, fun q hq => ((Keyed.mem_remove_iff h.nodup).mp hq).2⟩
  codes pid hne := by
    cases hreturned : s.returned pid with
    | false => exact absurd (h.unreturned pid hreturned) hne
    | true =>
      obtain ⟨p, hp, rfl⟩ | hcode := h.entered pid hreturned
      · exact absurd (h.entries p hp).2.2.1 hne
      · exact hcode
  awaited := h.awaited

/-- An entry stays right where the thread of a running process stays. -/
theorem EntryOk.of_eq {p : Process} (h : s.EntryOk p) (hmade : s'.made p.pid = s.made p.pid)
    (hreturned : s'.returned p.pid = s.returned p.pid)
    (hanswers : s'.answers p.pid = s.answers p.pid)
    (hcode : s'.code p.threadId = s.code p.threadId)
    (hlive : p.status = .running → s.point p.threadId ≠ none → s'.point p.threadId ≠ none) :
    s'.EntryOk p := by
  unfold EntryOk at h ⊢
  rw [hmade, hreturned, hanswers, hcode]
  refine h.imp_right (And.imp_right (And.imp_right fun hstatus => ?_))
  cases hp : p.status with
  | running =>
    rw [hp] at hstatus
    exact ⟨hstatus.1, hlive hp hstatus.2⟩
  | exited =>
    rw [hp] at hstatus
    exact hstatus

section

variable (h : Inv s)

include h

/-- A thread goes somewhere else, and nothing more changes. -/
theorem Inv.moveTo {q : Option CallPoint} (ht : s.point t ≠ none)
    (hspawning : ∀ pid space, q = some (.spawning pid space) → pid < s.nextPid ∧
      s.made pid = none ∧ ∀ t' space', s.point t' ≠ some (.spawning pid space'))
    (hpushing : ∀ pid tid space, q ≠ some (.pushing pid tid space))
    (hwaiting : ∀ pid, q = some (.waiting pid) → ∃ p ∈ s.table, p.pid = pid)
    (hended : q = none → ∀ p ∈ s.table, p.threadId = t → p.status ≠ .running)
    (hcode : s.code t ≠ none ↔ q = some .exiting ∨ (q = none ∧ s.code t ≠ none)) :
    Inv (s.moveTo t q) := by
  have hpoint (t' : ThreadId) : (s.moveTo t q).point t' = if t' = t then q else s.point t' :=
    update_apply _ _ _ _
  refine ⟨h.made_lt, h.made_inj, ?_, h.code_lt, ?_, ?_, h.returned_made, h.unreturned, h.nodup,
    ?_, h.entered, ?_, ?_, ?_⟩
  · intro t' ht'
    rw [hpoint] at ht'
    split_ifs at ht' with htt
    · exact htt ▸ h.point_lt t ht
    · exact h.point_lt t' ht'
  · intro t' pid space ht'
    rw [hpoint] at ht'
    split_ifs at ht' with htt
    · obtain ⟨hlt, hmade, hnew⟩ := hspawning pid space ht'
      refine ⟨hlt, hmade, fun t'' space' ht'' => ?_⟩
      rw [hpoint] at ht''
      split_ifs at ht'' with htt''
      · exact htt''.trans htt.symm
      · exact absurd ht'' (hnew t'' space')
    · obtain ⟨hlt, hmade, hone⟩ := h.spawning t' pid space ht'
      refine ⟨hlt, hmade, fun t'' space' ht'' => ?_⟩
      rw [hpoint] at ht''
      split_ifs at ht''
      · exact absurd ht' ((hspawning pid space' ht'').2.2 t' space)
      · exact hone t'' space' ht''
  · intro t' pid tid space ht'
    rw [hpoint] at ht'
    split_ifs at ht' with htt
    · exact absurd ht' (hpushing pid tid space)
    · obtain ⟨hmade, hreturned, hone⟩ := h.pushing t' pid tid space ht'
      refine ⟨hmade, hreturned, fun t'' tid' space' ht'' => ?_⟩
      rw [hpoint] at ht''
      split_ifs at ht''
      · exact absurd ht'' (hpushing pid tid' space')
      · exact hone t'' tid' space' ht''
  · intro p hp
    refine (h.entries p hp).of_eq rfl rfl rfl rfl fun hrunning hlive => ?_
    rw [hpoint]
    split_ifs with htt
    · exact fun hq => hended hq p hp htt hrunning
    · exact hlive
  · intro t' ht'
    rw [hpoint] at ht'
    split_ifs at ht' with htt
    · exact htt ▸ hcode.mpr (.inl ht')
    · exact h.exiting t' ht'
  · intro t' hcode'
    rw [hpoint]
    split_ifs with htt
    · exact (hcode.mp (htt ▸ hcode')).symm.imp_left And.left
    · exact h.coded t' hcode'
  · intro t' pid ht'
    rw [hpoint] at ht'
    split_ifs at ht'
    · exact hwaiting pid ht'
    · exact h.awaited t' pid ht'

/-- A thread that has not exited has given no code. -/
theorem Inv.code_eq_none {q : CallPoint} (ht : s.point t = some q)
    (hq : q ≠ .exiting) : s.code t = none := by
  by_contra hcode
  obtain hnone | hexiting := h.coded t hcode
  · rw [ht] at hnone
    cases hnone
  · rw [ht] at hexiting
    exact hq (some_inj.mp hexiting)

theorem Inv.moveTo_user {q : CallPoint} (ht : s.point t = some q)
    (hq : q ≠ .exiting) : Inv (s.moveTo t (some .user)) := by
  refine h.moveTo (by simp [ht]) (by simp) (by simp) (by simp) (by simp) ?_
  simp [h.code_eq_none ht hq]

theorem Inv.spawn (ht : s.point t = some .user) (hwrap : s.nextPid < s.nextPid + 1) :
    Inv (s.enter t (.spawn space)) := by
  -- the counter goes on first, then the thread holds the pid before it
  have hnext : Inv { s with nextPid := s.nextPid + 1 } := by
    refine { h with made_lt := fun pid tid hmade => ?_, spawning := fun t' pid space' ht' => ?_ }
    · exact (h.made_lt pid tid hmade).imp_left (lt_trans · hwrap)
    · exact (h.spawning t' pid space' ht').imp_left (lt_trans · hwrap)
  refine hnext.moveTo (by simp [ht]) ?_ (by simp) (by simp) (by simp) ?_
  · rintro _ _ ⟨⟩
    refine ⟨hwrap, ?_, fun t' space' ht' => lt_irrefl _ (h.spawning t' _ _ ht').1⟩
    by_contra hmade
    obtain ⟨tid, hmade⟩ := ne_none_iff_exists'.mp hmade
    exact lt_irrefl _ (h.made_lt _ _ hmade).1
  · simp [h.code_eq_none ht (by decide)]

theorem Inv.enqueue (ht : s.point t = some (.spawning pid space))
    (hwrap : s.nextTid < s.nextTid + 1) : Inv (s.enqueue t pid space) := by
  have hpoint (t' : ThreadId) : (s.enqueue t pid space).point t' =
      if t' = s.nextTid then some .user else
        if t' = t then some (.pushing pid s.nextTid space) else s.point t' := by
    simp only [Lifecycle.enqueue, update_apply]
  have hmade' (pid' : UInt64) : (s.enqueue t pid space).made pid' =
      if pid' = pid then some s.nextTid else s.made pid' :=
    update_apply _ _ _ _
  obtain ⟨hlt, hfresh, hone⟩ := h.spawning t pid space ht
  have hold {pid' tid' : UInt64} (hmade : s.made pid' = some tid') :
      (s.enqueue t pid space).made pid' = some tid' := by
    have hne : pid' ≠ pid := by
      rintro rfl
      rw [hfresh] at hmade
      cases hmade
    rw [hmade', if_neg hne, hmade]
  have hcode : s.code t = none := h.code_eq_none ht (by simp)
  refine ⟨?_, ?_, ?_, fun t' hc => lt_trans (h.code_lt t' hc) hwrap, ?_, ?_, ?_,
    h.unreturned, h.nodup, ?_, ?_, ?_, ?_, ?_⟩
  · intro pid' tid' hmade
    rw [hmade'] at hmade
    split_ifs at hmade with hpid
    · cases hmade
      exact ⟨hpid ▸ hlt, hwrap⟩
    · exact (h.made_lt pid' tid' hmade).imp_right (lt_trans · hwrap)
  · -- the thread is a new one
    intro pid1 pid2 tid' h1 h2
    rw [hmade'] at h1 h2
    split_ifs at h1 h2 with e1 e2 e2
    · exact e1.trans e2.symm
    · cases h1
      exact absurd (h.made_lt _ _ h2).2 (lt_irrefl _)
    · cases h2
      exact absurd (h.made_lt _ _ h1).2 (lt_irrefl _)
    · exact h.made_inj pid1 pid2 tid' h1 h2
  · intro t' ht'
    rw [hpoint] at ht'
    split_ifs at ht' with hnew htt
    · exact hnew ▸ hwrap
    · rw [htt]
      exact lt_trans (h.point_lt t (by simp [ht])) hwrap
    · exact lt_trans (h.point_lt t' ht') hwrap
  · intro t' pid' space' ht'
    rw [hpoint] at ht'
    split_ifs at ht' with hnew htt
    · cases ht'
    · cases ht'
    · obtain ⟨hlt', hmade, hone'⟩ := h.spawning t' pid' space' ht'
      have hne : pid' ≠ pid := by
        rintro rfl
        exact htt (hone t' space' ht')
      refine ⟨hlt', by rw [hmade', if_neg hne, hmade], fun t'' space'' ht'' => ?_⟩
      rw [hpoint] at ht''
      split_ifs at ht''
      · cases ht''
      · cases ht''
      · exact hone' t'' space'' ht''
  · intro t' pid' tid' space' ht'
    have hunreturned : s.returned pid = false := by
      by_contra hreturned
      exact h.returned_made pid (Bool.not_eq_false _ ▸ hreturned) hfresh
    rw [hpoint] at ht'
    split_ifs at ht' with hnew htt
    · cases ht'
    · cases ht'
      refine ⟨by rw [hmade', if_pos rfl], hunreturned, fun t'' tid'' space'' ht'' => ?_⟩
      rw [hpoint] at ht''
      split_ifs at ht'' with _ htt'
      · cases ht''
      · exact htt'.trans htt.symm
      · have hmade := (h.pushing t'' pid tid'' space'' ht'').1
        rw [hfresh] at hmade
        cases hmade
    · obtain ⟨hmade, hreturned, hone'⟩ := h.pushing t' pid' tid' space' ht'
      refine ⟨hold hmade, hreturned, fun t'' tid'' space'' ht'' => ?_⟩
      rw [hpoint] at ht''
      split_ifs at ht''
      · cases ht''
      · cases ht''
        rw [hfresh] at hmade
        cases hmade
      · exact hone' t'' tid'' space'' ht''
  · intro pid' hreturned
    obtain ⟨tid', hmade⟩ := ne_none_iff_exists'.mp (h.returned_made pid' hreturned)
    rw [hold hmade]
    exact some_ne_none _
  · intro p hp
    have hentry := h.entries p hp
    refine hentry.of_eq (by rw [hold hentry.1, hentry.1]) rfl rfl rfl fun _ hlive => ?_
    rw [hpoint]
    split_ifs
    · exact some_ne_none _
    · exact some_ne_none _
    · exact hlive
  · intro pid' hreturned
    refine (h.entered pid' hreturned).imp_right ?_
    rintro ⟨tid', code, hmade, hrest⟩
    exact ⟨tid', code, hold hmade, hrest⟩
  · intro t' ht'
    rw [hpoint] at ht'
    split_ifs at ht'
    · cases ht'
    · cases ht'
    · exact h.exiting t' ht'
  · intro t' hcode'
    rw [hpoint]
    split_ifs with hnew htt
    · exact absurd (hnew ▸ h.code_lt t' hcode') (lt_irrefl _)
    · subst htt
      exact absurd hcode hcode'
    · exact h.coded t' hcode'
  · intro t' pid' ht'
    rw [hpoint] at ht'
    split_ifs at ht'
    · cases ht'
    · cases ht'
    · exact h.awaited t' pid' ht'

theorem Inv.addEntry (hmade : s.made pid = some tid) (hreturned : s.returned pid = false)
    (hdone : ∀ t' tid' space', s.point t' ≠ some (.pushing pid tid' space'))
    (hcode : s.code tid = none) (hlive : s.point tid ≠ none) :
    Inv (s.addEntry pid tid space) := by
  have hret (pid' : UInt64) : (s.addEntry pid tid space).returned pid' =
      if pid' = pid then true else s.returned pid' :=
    update_apply _ _ _ _
  have hnotin : ∀ p ∈ s.table, p.pid ≠ pid := by
    rintro p hp rfl
    rw [(h.entries p hp).2.1] at hreturned
    cases hreturned
  refine ⟨h.made_lt, h.made_inj, h.point_lt, h.code_lt, h.spawning, ?_, ?_, ?_, ?_, ?_, ?_,
    h.exiting, h.coded, ?_⟩
  · intro t' pid' tid' space' ht'
    obtain ⟨hmade', hreturned', hone⟩ := h.pushing t' pid' tid' space' ht'
    have hne : pid' ≠ pid := by
      rintro rfl
      exact hdone t' tid' space' ht'
    exact ⟨hmade', by rw [hret, if_neg hne, hreturned'], hone⟩
  · intro pid' hreturned'
    rw [hret] at hreturned'
    split_ifs at hreturned' with hpid
    · show s.made pid' ≠ none
      rw [hpid, hmade]
      exact some_ne_none _
    · exact h.returned_made pid' hreturned'
  · intro pid' hreturned'
    rw [hret] at hreturned'
    split_ifs at hreturned'
    exact h.unreturned pid' hreturned'
  · unfold Lifecycle.addEntry
    rw [map_append, nodup_append]
    refine ⟨h.nodup, nodup_singleton _, ?_⟩
    intro a ha b hb
    obtain ⟨p, hp, rfl⟩ := List.mem_map.mp ha
    obtain rfl : b = pid := by simpa using hb
    exact hnotin p hp
  · intro p hp
    obtain hp | hp := mem_append.mp hp
    · have hentry := h.entries p hp
      refine hentry.of_eq rfl ?_ rfl rfl fun _ hpoint => hpoint
      rw [hret, if_neg (hnotin p hp)]
    · obtain rfl := mem_singleton.mp hp
      exact ⟨hmade, by rw [hret, if_pos rfl], h.unreturned pid hreturned, hcode, hlive⟩
  · intro pid' hreturned'
    rw [hret] at hreturned'
    split_ifs at hreturned' with hpid
    · exact .inl ⟨_, mem_append_right _ (mem_singleton_self _), hpid.symm⟩
    · refine (h.entered pid' hreturned').imp_left ?_
      rintro ⟨p, hp, hpid'⟩
      exact ⟨p, mem_append_left _ hp, hpid'⟩
  · intro t' pid' ht'
    obtain ⟨p, hp, hpid'⟩ := h.awaited t' pid' ht'
    exact ⟨p, mem_append_left _ hp, hpid'⟩

theorem Inv.push (ht : s.point t = some (.pushing pid tid space))
    (hlive : s.point tid ≠ none ∧ s.point tid ≠ some .exiting) :
    Inv ((s.moveTo t (some .user)).addEntry pid tid space) := by
  obtain ⟨hmade, hreturned, hone⟩ := h.pushing t pid tid space ht
  obtain ⟨q, hq⟩ := ne_none_iff_exists'.mp hlive.1
  have hpoint (t' : ThreadId) : (s.moveTo t (some .user)).point t' =
      if t' = t then some .user else s.point t' :=
    update_apply _ _ _ _
  refine (h.moveTo_user ht (by simp)).addEntry hmade hreturned ?_ ?_ ?_
  · intro t' tid' space' ht'
    rw [hpoint] at ht'
    split_ifs at ht' with htt
    · cases ht'
    · exact htt (hone t' tid' space' ht')
  · exact h.code_eq_none hq fun hexiting => hlive.2 (hexiting ▸ hq)
  · rw [hpoint]
    split_ifs
    · exact some_ne_none _
    · exact hlive.1

theorem Inv.nodup_threadId : (s.table.map Process.threadId).Nodup := by
  refine pairwise_map.mpr ((pairwise_map.mp h.nodup).imp_of_mem ?_)
  intro p p' hp hp' hne hsame
  exact hne (h.made_inj _ _ _ (h.entries p hp).1 (hsame ▸ (h.entries p' hp').1))

theorem Inv.answer {p : Process} {code : Int32} (hp : p ∈ s.table)
    (hstatus : p.status = .exited code)
    (hdone : ∀ t', s.point t' ≠ some (.waiting p.pid)) :
    Inv (s.answer (Keyed.remove Process.pid p.pid s.table) p.pid code) := by
  have hmem {p' : Process} : p' ∈ Keyed.remove Process.pid p.pid s.table ↔
      p' ∈ s.table ∧ p'.pid ≠ p.pid := Keyed.mem_remove_iff h.nodup
  have hanswers (pid' : UInt64) :
      (s.answer (Keyed.remove Process.pid p.pid s.table) p.pid code).answers pid' =
        if pid' = p.pid then s.answers p.pid ++ [code] else s.answers pid' :=
    update_apply _ _ _ _
  obtain ⟨hmade, hreturned, hnone, hcode⟩ := h.entries p hp
  rw [hstatus] at hcode
  refine ⟨h.made_lt, h.made_inj, h.point_lt, h.code_lt, h.spawning, h.pushing, h.returned_made,
    ?_, h.nodup.sublist (Keyed.map_key_remove_sublist _ _), ?_, ?_, h.exiting, h.coded, ?_⟩
  · intro pid' hreturned'
    rw [hanswers]
    split_ifs with hpid
    · subst hpid
      exact absurd (hreturned.symm.trans hreturned') (by decide)
    · exact h.unreturned pid' hreturned'
  · intro p' hp'
    obtain ⟨hold, hne⟩ := hmem.mp hp'
    refine (h.entries p' hold).of_eq rfl rfl ?_ rfl fun _ hpoint => hpoint
    rw [hanswers, if_neg hne]
  · intro pid' hreturned'
    rw [hanswers]
    split_ifs with hpid
    · exact .inr ⟨p.threadId, code, hpid ▸ hmade, hcode, by rw [hnone, nil_append]⟩
    · refine (h.entered pid' hreturned').imp_left ?_
      rintro ⟨p', hp', rfl⟩
      exact ⟨p', hmem.mpr ⟨hp', hpid⟩, rfl⟩
  · intro t' pid' ht'
    obtain ⟨p', hp', rfl⟩ := h.awaited t' pid' ht'
    refine ⟨p', hmem.mpr ⟨hp', fun hpid => ?_⟩, rfl⟩
    rw [hpid] at ht'
    exact hdone t' ht'

theorem Inv.tryWait (ht : s.point t = some (.waiting pid))
    (halone : (∃ p ∈ s.table, p.pid = pid ∧ p.status ≠ .running) →
      ∀ t', s.point t' = some (.waiting pid) → t' = t) : Inv (s.tryWait t pid) := by
  unfold Lifecycle.tryWait ProcessTable.tryWait
  cases hlookup : Keyed.lookup Process.pid s.table pid with
  | none => exact h
  | some p =>
    obtain ⟨hp, rfl⟩ := (Keyed.lookup_eq_some_iff h.nodup).mp hlookup
    cases hstatus : p.status with
    | running => simpa [hstatus] using h
    | exited =>
      simp only [hstatus]
      refine (h.moveTo_user ht (by simp)).answer hp hstatus fun t' ht' => ?_
      have hpoint : (s.moveTo t (some .user)).point t' =
          if t' = t then some .user else s.point t' := update_apply _ _ _ _
      rw [hpoint] at ht'
      split_ifs at ht' with htt
      · cases ht'
      · exact htt (halone ⟨p, hp, rfl, by simp [hstatus]⟩ t' ht')

theorem Inv.exit (ht : s.point t = some .user) (code : Int32) : Inv (s.enter t (.exit code)) := by
  have hpoint (t' : ThreadId) : (s.enter t (.exit code)).point t' =
      if t' = t then some .exiting else s.point t' := update_apply _ _ _ _
  have hcode (t' : ThreadId) : (s.enter t (.exit code)).code t' =
      if t' = t then some code else s.code t' := update_apply _ _ _ _
  have htable : (s.enter t (.exit code)).table = s.table.map fun p =>
      if p.threadId = t then { p with status := .exited code } else p :=
    Keyed.adjust_eq_map h.nodup_threadId t _
  have hpid (p : Process) : (if p.threadId = t then { p with status := .exited code } else p).pid =
      p.pid := by split_ifs <;> rfl
  have hkept (pid' : UInt64) (hp : ∃ p ∈ s.table, p.pid = pid') :
      ∃ p ∈ (s.enter t (.exit code)).table, p.pid = pid' := by
    obtain ⟨p, hp, rfl⟩ := hp
    rw [htable]
    exact ⟨_, List.mem_map_of_mem hp, hpid p⟩
  have hback {t' : ThreadId} {q : CallPoint} (hq : q ≠ .exiting)
      (ht' : (s.enter t (.exit code)).point t' = some q) : s.point t' = some q := by
    rw [hpoint] at ht'
    split_ifs at ht'
    · exact absurd (Option.some.inj ht').symm hq
    · exact ht'
  have hnone := h.code_eq_none ht (by decide)
  refine ⟨h.made_lt, h.made_inj, ?_, ?_, ?_, ?_, h.returned_made, h.unreturned, ?_, ?_, ?_, ?_, ?_,
    ?_⟩
  · intro t' ht'
    rw [hpoint] at ht'
    split_ifs at ht' with htt
    · exact htt ▸ h.point_lt t (by simp [ht])
    · exact h.point_lt t' ht'
  · intro t' hcode'
    rw [hcode] at hcode'
    split_ifs at hcode' with htt
    · exact htt ▸ h.point_lt t (by simp [ht])
    · exact h.code_lt t' hcode'
  · intro t' pid space ht'
    obtain ⟨hlt, hmade, hone⟩ := h.spawning t' pid space (hback (by simp) ht')
    exact ⟨hlt, hmade, fun t'' space' ht'' => hone t'' space' (hback (by simp) ht'')⟩
  · intro t' pid tid space ht'
    obtain ⟨hmade, hreturned, hone⟩ := h.pushing t' pid tid space (hback (by simp) ht')
    exact ⟨hmade, hreturned, fun t'' tid' space' ht'' =>
      hone t'' tid' space' (hback (by simp) ht'')⟩
  · rw [htable, List.map_map]
    simpa only [comp_def, hpid] using h.nodup
  · intro _ hp'
    rw [htable] at hp'
    obtain ⟨p, hp, rfl⟩ := List.mem_map.mp hp'
    have hentry := h.entries p hp
    split_ifs with htt
    · exact ⟨hentry.1, hentry.2.1, hentry.2.2.1, by rw [hcode, if_pos htt]⟩
    · refine hentry.of_eq rfl rfl rfl (by rw [hcode, if_neg htt]) fun _ hlive => ?_
      rw [hpoint, if_neg htt]
      exact hlive
  · intro pid' hreturned
    refine (h.entered pid' hreturned).imp (hkept pid') ?_
    rintro ⟨tid', code', hmade, hcode', hanswers⟩
    have hne : tid' ≠ t := by
      rintro rfl
      rw [hnone] at hcode'
      cases hcode'
    exact ⟨tid', code', hmade, by rw [hcode, if_neg hne, hcode'], hanswers⟩
  · intro t' ht'
    rw [hpoint] at ht'
    rw [hcode]
    split_ifs at ht' ⊢
    · exact some_ne_none _
    · exact h.exiting t' ht'
  · intro t' hcode'
    rw [hcode] at hcode'
    rw [hpoint]
    split_ifs at hcode' ⊢
    · exact .inr rfl
    · exact h.coded t' hcode'
  · intro t' pid' ht'
    exact hkept pid' (h.awaited t' pid' (hback (by simp) ht'))

end

theorem Inv.step {e : Event} (h : Inv s) (horderly : s.Orderly e) (hs' : s.step e = some s') :
    Inv s' := by
  cases e with
  | call t c =>
    obtain ⟨ht, hs'⟩ := ite_none_right_eq_some.mp hs'
    cases hs'
    cases c with
    | spawn => exact h.spawn ht horderly
    | exit code => exact h.exit ht code
    | fault =>
      refine h.moveTo (by simp [ht]) (by simp) (by simp) (by simp) ?_ (by simp)
      -- no process ends by a fault
      intro _ p hp hthread
      exact absurd (hthread ▸ (h.entries p hp).1) (horderly p.pid)
    | wait =>
      unfold enter
      dsimp only
      split_ifs with hexists
      · refine h.moveTo (by simp [ht]) (by simp) (by simp) ?_ (by simp) ?_
        · intro _ hpid'
          cases hpid'
          simpa [ProcessTable.processExists] using hexists
        · simp [h.code_eq_none ht (by decide)]
      · exact h
  | resume t =>
    simp only [Lifecycle.step] at hs'
    simp only [Orderly] at horderly
    cases ht : s.point t with
    | none =>
      rw [ht] at hs'
      cases hs'
    | some q =>
      rw [ht] at hs' horderly
      cases q with
      | user => cases hs'
      | spawning =>
        cases hs'
        exact h.enqueue ht horderly
      | pushing =>
        cases hs'
        exact h.push ht horderly
      | waiting =>
        cases hs'
        exact h.tryWait ht horderly
      | exiting =>
        cases hs'
        have hcode := h.exiting t ht
        refine h.moveTo (by simp [ht]) (by simp) (by simp) (by simp) ?_ (by simp)
        intro _ p hp hthread hrunning
        obtain ⟨-, -, -, hstatus⟩ := h.entries p hp
        rw [hrunning, hthread] at hstatus
        exact hcode hstatus.1

end

/-- **The life of a process.** In every run whose steps are orderly, from any number of
threads, a process that has ended is marked until it is reaped, its code is returned
once, and no call waits for a pid without an entry. -/
theorem kept_of_orderly (first : ThreadId) (events : List Event) (s : Lifecycle)
    (hrun : attempt step (boot first) events = some s)
    (horderly : Meets step Orderly (boot first) events) : s.Kept :=
  (attempt_invariant (fun _ _ _ h ho hs' => Inv.step h ho hs') (inv_boot first) horderly hrun).kept

/-- A child is spawned, its parent waits for it, it exits and is reaped. -/
theorem kept_of_orderly_child : ∃ s, attempt step (boot 1)
      [.call 0 (.spawn 0x7000), .resume 0, .resume 0, .call 0 (.wait 1), .call 1 (.exit 5),
        .resume 0] = some s ∧ s.answers 1 = [5] ∧ s.Kept := by
  refine ⟨_, rfl, rfl, kept_of_orderly 1 [.call 0 (.spawn 0x7000), .resume 0, .resume 0,
    .call 0 (.wait 1), .call 1 (.exit 5), .resume 0] _ rfl ?_⟩
  have hwrap : (1 : UInt64) < 1 + 1 := by decide
  have hlive : some CallPoint.user ≠ none ∧ some CallPoint.user ≠ some .exiting := by decide
  refine ⟨hwrap, fun _ h1 => ?_⟩
  cases h1
  refine ⟨hwrap, fun _ h2 => ?_⟩
  cases h2
  refine ⟨hlive, fun _ h3 => ?_⟩
  cases h3
  refine ⟨trivial, fun _ h4 => ?_⟩
  cases h4
  refine ⟨trivial, fun _ h5 => ?_⟩
  cases h5
  refine ⟨fun _ t' ht' => ?_, fun _ _ => trivial⟩
  by_contra hne
  by_cases hone : t' = 1
  · subst hone
    cases ht'
  · simp [boot, enter, enqueue, addEntry, moveTo, hne, hone, ProcessTable.processExists] at ht'

/-- The child exits before its entry is made; it is killed by a fault; two threads wait
for it. -/
theorem lifecycle_not_kept :
    (∃ s, attempt step (boot 1) [.call 0 (.spawn 0x7000), .resume 0, .call 1 (.exit 5), .resume 1,
      .resume 0] = some s ∧ ¬ s.Kept) ∧
    (∃ s, attempt step (boot 1) [.call 0 (.spawn 0x7000), .resume 0, .resume 0,
      .call 1 .fault] = some s ∧ ¬ s.Kept) ∧
    ∃ s, attempt step (boot 2) [.call 0 (.spawn 0x7000), .resume 0, .resume 0, .call 0 (.wait 1),
      .call 1 (.wait 1), .call 2 (.exit 5), .resume 0] = some s ∧ ¬ s.Kept := by
  have hrunning {p : Process} {code : Int32} (hp : p ∈ [(⟨1, 1, 0x7000, .running⟩ : Process)]) :
      p.status ≠ .exited code := by
    rw [mem_singleton.mp hp]
    simp
  refine ⟨⟨_, rfl, fun h => ?_⟩, ⟨_, rfl, fun h => ?_⟩, ⟨_, rfl, fun h => ?_⟩⟩
  · obtain ⟨p, hp, -, code, hcode⟩ := h.marked 1 1 rfl rfl rfl rfl
    exact hrunning hp hcode
  · obtain ⟨p, hp, -, code, hcode⟩ := h.marked 1 1 rfl rfl rfl rfl
    exact hrunning hp hcode
  · obtain ⟨p, hp, -⟩ := h.awaited 1 1 rfl
    cases hp

end Lifecycle

end AgenticOS
