import AgenticOS.Foundation.Execution
import AgenticOS.Foundation.Keyed

/-!
# Supervised drivers

`supervisor.rs`, `device_manager.rs` and `kernel_common::supervision`. Every critical section is a
step: the registry lookup of `on_process_killed`, its `report_crash`, its `respawn` and its
`mark_running`, each on the core of the thread that faulted, interleaved with those of the other
cores. A device is known by bus, device and function, which `pack_bdf` packs without loss.
-/

namespace AgenticOS.Supervision

open Foundation List

abbrev Bdf := UInt8 × UInt8 × UInt8

def maxRestarts : Nat := 3

inductive DeviceState
  | discovered | bound | running | crashed | restarting | failed
  deriving DecidableEq

/-- The device manager finds a device by its address: `devices` maps addresses to these. -/
structure ManagedDevice where
  state : DeviceState
  restartCount : Nat
  deriving DecidableEq

inductive RestartDecision
  | restart (attempt : Nat)
  | quarantine

def decideRestart (priorRestartCount maxRestarts : Nat) : RestartDecision :=
  if priorRestartCount ≥ maxRestarts then .quarantine else .restart (priorRestartCount + 1)

inductive AuditEvent
  | processCrashed (bdf : Bdf) (faultVector : UInt8)
  | processRestarted (bdf : Bdf) (attempt : Nat)
  | processQuarantined (bdf : Bdf)
  deriving DecidableEq

inductive Point
  | report (d : Bdf)
  | respawn (d : Bdf)
  | markRunning (d : Bdf)
  | done
  deriving DecidableEq

structure Handler where
  thread : Nat
  faultVector : UInt8
  next : Point
  deriving DecidableEq

/-- `ownerThread` is 0 until a thread has marked itself. -/
structure SupervisedDriver where
  bdf : Bdf
  ownerThread : Nat

/-- The threads so far are those from 1 to `threads`. A handler stays in the list when its thread
is dead; `respawns` records the `respawn` calls. -/
structure Supervisor where
  registry : List SupervisedDriver
  devices : Bdf → Option ManagedDevice
  log : List AuditEvent
  threads : Nat
  handlers : List Handler
  respawns : List Bdf

def boot (found : Bdf → Option {st : DeviceState // st ≠ .failed}) : Supervisor :=
  ⟨[], fun d => (found d).map fun st => ⟨st, 0⟩, [], 0, [], []⟩

inductive Event
  | register (d : Bdf)
  | registerSynthetic (d : Bdf)
  | start
  /-- By a thread, for the device that it names. -/
  | markThreadOwner (t : Nat) (d : Bdf)
  | fault (t : Nat) (faultVector : UInt8)
  | advance (handler : Nat)

def markRunning (devices : Bdf → Option ManagedDevice) (d : Bdf) : Bdf → Option ManagedDevice :=
  Function.update devices d ((devices d).map fun dev =>
    if dev.state = .bound ∨ dev.state = .restarting then { dev with state := .running } else dev)

namespace Supervisor

def Alive (s : Supervisor) (t : Nat) : Prop :=
  (0 < t ∧ t ≤ s.threads) ∧ ∀ h ∈ s.handlers, h.thread ≠ t

instance (s : Supervisor) (t : Nat) : Decidable (s.Alive t) := inferInstanceAs (Decidable (_ ∧ _))

/-- The device is `Crashed` only inside the critical section. -/
def reportCrash (s : Supervisor) (d : Bdf) (faultVector : UInt8) : Bool × Supervisor :=
  match s.devices d with
  | none => (false, s)
  | some dev =>
    match decideRestart dev.restartCount maxRestarts with
    | .quarantine =>
      (false, { s with
        devices := Function.update s.devices d (some { dev with state := .failed })
        log := s.log ++ [.processCrashed d faultVector, .processQuarantined d] })
    | .restart attempt =>
      (true, { s with
        devices := Function.update s.devices d (some ⟨.restarting, attempt⟩)
        log := s.log ++ [.processCrashed d faultVector, .processRestarted d attempt] })

def goTo (s : Supervisor) (i : Nat) (h : Handler) (next : Point) : Supervisor :=
  { s with handlers := s.handlers.set i { h with next := next } }

def advance (s : Supervisor) (i : Nat) (h : Handler) : Supervisor :=
  match h.next with
  | .report d =>
    let (restartScheduled, s) := s.reportCrash d h.faultVector
    s.goTo i h (if restartScheduled then .respawn d else .done)
  | .respawn d =>
    goTo { s with threads := s.threads + 1, respawns := s.respawns ++ [d] }
      i h (.markRunning d)
  | .markRunning d => goTo { s with devices := markRunning s.devices d } i h .done
  | .done => s

def step (s : Supervisor) : Event → Supervisor
  | .register d =>
    if ∃ x ∈ s.registry, x.bdf = d then s else { s with registry := s.registry ++ [⟨d, 0⟩] }
  | .registerSynthetic d =>
    if (s.devices d).isSome then s
    else { s with devices := Function.update s.devices d (some ⟨.running, 0⟩) }
  | .start => { s with threads := s.threads + 1 }
  | .markThreadOwner t d =>
    if s.Alive t then
      { s with
        registry := Keyed.adjust SupervisedDriver.bdf d (fun x => { x with ownerThread := t })
          s.registry }
    else s
  | .fault t faultVector =>
    if s.Alive t then
      { s with handlers := s.handlers ++
          [⟨t, faultVector, match s.registry.find? (·.ownerThread = t) with
            | some x => .report x.bdf
            | none => .done⟩] }
    else s
  | .advance i =>
    match s.handlers[i]? with
    | some h => s.advance i h
    | none => s

def state (s : Supervisor) (d : Bdf) : Option DeviceState := (s.devices d).map (·.state)

/-- The attempts recorded for `d`, in the order of the log. -/
def attempts (s : Supervisor) (d : Bdf) : List Nat :=
  s.log.filterMap fun
    | .processRestarted d' attempt => if d' = d then some attempt else none
    | _ => none

/-- The `respawn` calls for `d` that are approved and still to be made. -/
def approved (handlers : List Handler) (d : Bdf) : Nat := handlers.countP (·.next = .respawn d)

/-! ## The restart budget -/

def restarts (s : Supervisor) (d : Bdf) : Nat := ((s.devices d).map (·.restartCount)).getD 0

/-- What one `report_crash` of a known device writes. -/
def records : Bdf × UInt8 × Option Nat → List AuditEvent
  | (d, v, some attempt) => [.processCrashed d v, .processRestarted d attempt]
  | (d, v, none) => [.processCrashed d v, .processQuarantined d]

structure Inv (s : Supervisor) : Prop where
  budget : ∀ d, s.respawns.count d + approved s.handlers d = s.restarts d
  bound : ∀ d, s.restarts d ≤ maxRestarts
  attempts : ∀ d, s.attempts d = List.range' 1 (s.restarts d)
  log : ∃ reports : List _, s.log = reports.flatMap records
  failed : ∀ d, s.state d = some .failed → s.restarts d = maxRestarts

variable {s : Supervisor} {i : Nat} {h : Handler} {d : Bdf} {v : UInt8}

theorem approved_set {handlers : List Handler} (hi : handlers[i]? = some h) (next : Point)
    (d : Bdf) :
    approved (handlers.set i { h with next := next }) d + (if h.next = .respawn d then 1 else 0) =
      approved handlers d + if next = .respawn d then 1 else 0 := by
  obtain ⟨hlt, rfl⟩ := List.getElem?_eq_some_iff.mp hi
  have hpos : (handlers[i]).next = .respawn d → 0 < handlers.countP (·.next = .respawn d) :=
    fun hnext => countP_pos_iff.mpr ⟨_, getElem_mem hlt, by simpa using hnext⟩
  rw [approved, countP_set hlt, approved]
  split_ifs <;> simp_all

/-- What `report_crash` does to the budget and the log of each device. -/
theorem reportCrash_spec (s : Supervisor) (d : Bdf) (v : UInt8) : let r := s.reportCrash d v
    r.2.handlers = s.handlers ∧ r.2.respawns = s.respawns ∧
    (∀ d', r.2.restarts d' = s.restarts d' + if r.1 ∧ d = d' then 1 else 0) ∧
    (∀ d', r.2.attempts d' = s.attempts d' ++ if r.1 ∧ d = d' then [s.restarts d + 1] else []) ∧
    (r.1 → s.restarts d < maxRestarts) ∧
    (∀ d', (r.2.state d' = some .failed ↔ s.state d' = some .failed) ∨
      r.1 = decide (s.restarts d' < maxRestarts) ∧ (r.2.state d' = some .failed ↔ ¬ r.1)) ∧
    ∃ reports : List _, r.2.log = s.log ++ reports.flatMap records := by
  have hrestarts (dev dev' : ManagedDevice) (log : List AuditEvent) (hdev : s.devices d = some dev)
      (n : Nat) (hn : dev'.restartCount = dev.restartCount + n) (d' : Bdf) :
      restarts { s with devices := Function.update s.devices d (some dev'), log := log } d' =
        s.restarts d' + if d = d' then n else 0 := by
    by_cases hd : d = d'
    · subst hd
      simp [restarts, hdev, hn]
    · simp [restarts, hd, Ne.symm hd]
  rw [reportCrash]
  cases hdev : s.devices d with
  | none => exact ⟨rfl, rfl, by simp, by simp, by simp, fun _ => .inl .rfl, [], by simp⟩
  | some dev =>
    have hcount : s.restarts d = dev.restartCount := by simp [restarts, hdev]
    simp only [decideRestart]
    by_cases hmax : dev.restartCount ≥ maxRestarts
    · simp only [if_pos hmax]
      refine ⟨trivial, trivial, fun d' => ?_, by simp [attempts], by simp, fun d' => ?_,
        [(d, v, none)], by simp [records]⟩
      · simpa using hrestarts dev { dev with state := .failed } _ hdev 0 rfl d'
      · by_cases hd : d' = d
        · subst hd
          simp [state, hcount, hmax]
        · simp [state, hd]
    · simp only [if_neg hmax]
      refine ⟨trivial, trivial, fun d' => ?_, fun d' => ?_, fun _ => by omega, fun d' => ?_,
        [(d, v, some (dev.restartCount + 1))], by simp [records]⟩
      · simpa using hrestarts dev _ _ hdev 1 rfl d'
      · by_cases hd : d = d' <;> simp [attempts, hd, ← hcount]
      · by_cases hd : d' = d
        · subst hd
          simp [state, hcount, not_le.mp hmax]
        · simp [state, hd]

theorem Inv.report (hs : Inv s) (hi : s.handlers[i]? = some h) (hnext : h.next = .report d) :
    Inv (s.advance i h) := by
  obtain ⟨hhandlers, hrespawns, hrestarts, hattempts, hlt, hfailed, reports', hlog'⟩ :=
    s.reportCrash_spec d h.faultVector
  simp only [advance, hnext]
  generalize hr : s.reportCrash d h.faultVector = r at *
  have happroved (d' : Bdf) :
      approved (r.2.goTo i h (if r.1 then .respawn d else .done)).handlers d' =
        approved s.handlers d' + if r.1 ∧ d = d' then 1 else 0 := by
    have := approved_set hi (if r.1 then .respawn d else .done) d'
    simp only [hnext, reduceCtorEq, if_false, Nat.add_zero] at this
    rw [goTo, hhandlers, this]
    cases r.1 <;> simp
  refine ⟨fun d' => ?_, fun d' => (hrestarts d').trans_le ?_, fun d' => ?_, ?_, fun d' hf => ?_⟩
  · have hsum := hs.budget d'
    rw [← hrespawns] at hsum
    rw [happroved, ← Nat.add_assoc]
    exact (congrArg (· + _) hsum).trans (hrestarts d').symm
  · have := hs.bound d'
    split_ifs with hd
    · obtain ⟨hscheduled, rfl⟩ := hd
      exact hlt hscheduled
    · exact this
  · refine (hattempts d').trans ?_
    rw [hs.attempts d']
    refine Eq.trans ?_ (congrArg (range' 1) (hrestarts d').symm)
    split_ifs with hd
    · obtain ⟨-, rfl⟩ := hd
      rw [range'_1_concat, Nat.add_comm 1]
    · rw [append_nil, Nat.add_zero]
  · obtain ⟨reports, hlog⟩ := hs.log
    exact ⟨reports ++ reports', by simp [goTo, hlog', hlog]⟩
  · refine (hrestarts d').trans ?_
    have hle := hs.bound d'
    obtain hsame | ⟨hr, hnot⟩ := hfailed d'
    · have hmax := hs.failed d' (hsame.mp hf)
      rw [if_neg (by rintro ⟨hscheduled, rfl⟩; exact (hlt hscheduled).ne hmax), hmax, Nat.add_zero]
    · have hno := hnot.mp hf
      rw [if_neg fun hd => hno hd.1]
      simp_all
      omega

structure Quiet (s s' : Supervisor) : Prop where
  log : s'.log = s.log
  restarts : ∀ d, s'.restarts d = s.restarts d
  failed : ∀ d, s'.state d = some .failed ↔ s.state d = some .failed
  budget : ∀ d, s'.respawns.count d + approved s'.handlers d =
    s.respawns.count d + approved s.handlers d
  approved : ∀ d, approved s'.handlers d ≤ approved s.handlers d

theorem quiet_of_same {s' : Supervisor} (hlog : s'.log = s.log) (hdevices : s'.devices = s.devices)
    (hrespawns : s'.respawns = s.respawns)
    (happroved : ∀ d, approved s'.handlers d = approved s.handlers d) : Quiet s s' := by
  refine ⟨hlog, fun d => ?_, fun d => ?_, fun d => ?_, fun d => (happroved d).le⟩
  · rw [Supervisor.restarts, hdevices, Supervisor.restarts]
  · rw [state, hdevices, state]
  · rw [hrespawns, happroved]

theorem quiet_update {dev : Option ManagedDevice} {handlers : List Handler}
    (hcount : (dev.map (·.restartCount)).getD 0 = s.restarts d)
    (hfailed : dev.map (·.state) = some .failed ↔ s.state d = some .failed)
    (happroved : ∀ d, approved handlers d = approved s.handlers d) :
    Quiet s { s with devices := Function.update s.devices d dev, handlers := handlers } := by
  refine ⟨rfl, fun d' => ?_, fun d' => ?_, fun d' => congrArg _ (happroved d'),
    fun d' => (happroved d').le⟩
  · by_cases hd : d' = d
    · subst hd
      simpa [Supervisor.restarts] using hcount
    · simp [Supervisor.restarts, hd]
  · by_cases hd : d' = d
    · subst hd
      simpa only [state, Function.update_self] using hfailed
    · simp [state, hd]

theorem quiet_or_report (s : Supervisor) (e : Event) :
    Quiet s (s.step e) ∨ ∃ i h d, s.handlers[i]? = some h ∧ h.next = .report d ∧
      s.step e = s.advance i h := by
  have hrefl : Quiet s s := quiet_of_same rfl rfl rfl fun _ => rfl
  cases e with
  | register | markThreadOwner =>
    left
    simp only [step]
    split_ifs
    all_goals exact quiet_of_same rfl rfl rfl fun _ => rfl
  | start => exact .inl (quiet_of_same rfl rfl rfl fun _ => rfl)
  | registerSynthetic =>
    left
    simp only [step]
    split_ifs with hnew
    · exact hrefl
    · apply quiet_update _ _ fun _ => rfl <;> simp_all [restarts, state]
  | fault t =>
    left
    simp only [step]
    split_ifs
    · refine quiet_of_same rfl rfl rfl fun d => ?_
      cases s.registry.find? (·.ownerThread = t) <;> simp [approved]
    · exact hrefl
  | advance i =>
    simp only [step]
    cases hi : s.handlers[i]? with
    | none => exact .inl hrefl
    | some h =>
      dsimp only
      cases hnext : h.next with
      | report d => exact .inr ⟨i, h, d, hi, hnext, rfl⟩
      | done =>
        rw [advance, hnext]
        exact .inl hrefl
      | respawn d =>
        left
        rw [advance, hnext]
        have hset (d' : Bdf) : approved (s.handlers.set i { h with next := .markRunning d }) d' +
            (if d = d' then 1 else 0) = approved s.handlers d' := by
          simpa [hnext] using approved_set hi (.markRunning d) d'
        refine ⟨rfl, fun _ => rfl, fun _ => .rfl, fun d' => ?_, fun d' => ?_⟩
        · have := hset d'
          simp only [goTo, count_append, count_singleton, beq_iff_eq]
          omega
        · exact (Nat.le_add_right _ _).trans (hset d').le
      | markRunning d =>
        left
        rw [advance, hnext]
        apply quiet_update
        · cases hdev : s.devices d <;> simp [restarts, hdev, apply_ite]
        · cases hdev : s.devices d with
          | none => simp [state, hdev]
          | some dev =>
            by_cases hrun : dev.state = .bound ∨ dev.state = .restarting
            · rcases hrun with hrun | hrun <;> simp [state, hdev, hrun]
            · simp [state, hdev, hrun]
        · intro d'
          simpa [hnext] using approved_set hi .done d'

theorem Inv.step (hs : Inv s) (e : Event) : Inv (s.step e) := by
  obtain hq | ⟨i, h, d, hi, hnext, heq⟩ := s.quiet_or_report e
  · refine ⟨fun d => ?_, fun d => ?_, fun d => ?_, hq.log ▸ hs.log, fun d hd => ?_⟩
    · rw [hq.budget, hq.restarts, hs.budget]
    · rw [hq.restarts]
      exact hs.bound d
    · rw [hq.restarts, ← hs.attempts, Supervisor.attempts, hq.log]
      rfl
    · rw [hq.restarts]
      exact hs.failed d ((hq.failed d).mp hd)
  · rw [heq]
    exact hs.report hi hnext

theorem inv_run (found) (events : List Event) : Inv (run step (boot found) events) := by
  have hboot : Inv (boot found) := by
    have hrestarts (d : Bdf) : (boot found).restarts d = 0 := by
      simp only [restarts, boot]
      cases found d <;> rfl
    refine ⟨fun d => (hrestarts d).symm, fun d => (hrestarts d).trans_le (Nat.zero_le _),
      fun d => by rw [hrestarts]; rfl, ⟨[], rfl⟩, fun d hd => ?_⟩
    cases hfound : found d with
    | none => simp [state, boot, hfound] at hd
    | some st => exact absurd (by simpa [state, boot, hfound] using hd) st.2
  generalize boot found = s at hboot
  induction events generalizing s with
  | nil => exact hboot
  | cons e events ih => exact ih _ (hboot.step e)

/-- A device that has failed stays so, and no respawn is approved for it any more. -/
theorem Inv.failed_step (hs : Inv s) (e : Event) (hf : s.state d = some .failed) :
    (s.step e).state d = some .failed ∧ approved (s.step e).handlers d ≤ approved s.handlers d := by
  obtain hq | ⟨i, h, d', hi, hnext, heq⟩ := s.quiet_or_report e
  · exact ⟨(hq.failed d).mpr hf, hq.approved d⟩
  obtain ⟨hhandlers, -, -, -, hlt, hfailed, -⟩ := s.reportCrash_spec d' h.faultVector
  simp only [heq, advance, hnext]
  generalize s.reportCrash d' h.faultVector = r at *
  refine ⟨?_, ?_⟩
  · obtain hsame | ⟨hr, hnot⟩ := hfailed d
    · exact hsame.mpr hf
    · exact hnot.mpr (by simp [hr, hs.failed d hf])
  · have hno : (if r.1 then Point.respawn d' else .done) ≠ .respawn d := by
      split_ifs with hr
      · rintro ⟨⟩
        exact (hlt hr).ne (hs.failed d hf)
      · exact Point.noConfusion
    have hset := approved_set hi (if r.1 then .respawn d' else .done) d
    simp only [hnext, reduceCtorEq, if_false, if_neg hno, Nat.add_zero] at hset
    rw [goTo, hhandlers]
    exact hset.le

end Supervisor
end AgenticOS.Supervision
