import AgenticOS.Foundation.Execution

/-!
# Frame pacing

`kernel_common/src/frame_pacing.rs`. Zero stands for "never" in `last_present_tsc`, so that a
frame at time zero is forgotten.
-/

namespace AgenticOS

open Foundation

structure FramePacer where
  targetFps : UInt32
  lastPresentTsc : UInt64
  hasDamage : Bool
  droppedFrames : UInt64
  presentedFrames : UInt64

inductive PacerCall where
  | markDamage
  | requestPresentation (nowTsc : UInt64) (force : Bool)

namespace FramePacer

def new (targetFps : UInt32) : FramePacer := ⟨targetFps, 0, false, 0, 0⟩

def frameIntervalUs (p : FramePacer) : UInt64 :=
  if p.targetFps = 0 then 0 else 1000000 / p.targetFps.toUInt64

def frameIntervalCycles (p : FramePacer) (cyclesPerUs : UInt64) : UInt64 :=
  p.frameIntervalUs * cyclesPerUs

def requestPresentation (p : FramePacer) (nowTsc cyclesPerUs : UInt64) (force : Bool) :
    Bool × FramePacer :=
  if !p.hasDamage && !force then (false, p)
  else
    -- `saturating_sub`
    let elapsed := nowTsc.toNat - p.lastPresentTsc.toNat
    if force ∨ p.lastPresentTsc = 0 ∨ elapsed ≥ (p.frameIntervalCycles cyclesPerUs).toNat then
      (true, { p with
        lastPresentTsc := nowTsc, hasDamage := false, presentedFrames := p.presentedFrames + 1 })
    else (false, { p with droppedFrames := p.droppedFrames + 1 })

def call (cyclesPerUs : UInt64) (p : FramePacer) : PacerCall → Bool × FramePacer
  | .markDamage => (false, { p with hasDamage := true })
  | .requestPresentation nowTsc force => p.requestPresentation nowTsc cyclesPerUs force

/-! ## Pacing -/

/-- What a run shows: the time of the last frame, whether damage was marked since, and how many
requests were forced or had damage pending. -/
structure Observed where
  last : Option UInt64
  damaged : Bool
  counted : Nat

def Observed.after (o : Observed) : PacerCall × Bool → Observed
  | (.markDamage, _) => { o with damaged := true }
  | (.requestPresentation now force, presented) =>
    { last := if presented then some now else o.last
      damaged := o.damaged && !presented
      counted := if force || o.damaged then o.counted + 1 else o.counted }

def observed (calls : List (PacerCall × Bool)) : Observed :=
  run Observed.after ⟨none, false, 0⟩ calls

structure Paced (targetFps : UInt32) (cyclesPerUs : UInt64) (p : FramePacer) (o : Observed) :
    Prop where
  pending : p.hasDamage = o.damaged
  counted : p.presentedFrames + p.droppedFrames = UInt64.ofNat o.counted
  /-- A frame that is not forced keeps its distance. -/
  spaced : ∀ now t, o.last = some t → (p.requestPresentation now cyclesPerUs false).1 = true →
    (new targetFps).frameIntervalUs.toNat * cyclesPerUs.toNat ≤ now.toNat - t.toNat
  /-- It comes as soon as it may. -/
  prompt : ∀ now force, o.damaged = true → (∀ t, o.last = some t →
      (new targetFps).frameIntervalUs.toNat * cyclesPerUs.toNat ≤ now.toNat - t.toNat) →
    (p.requestPresentation now cyclesPerUs force).1 = true

structure InStep (targetFps : UInt32) (p : FramePacer) (o : Observed) : Prop where
  fps : p.targetFps = targetFps
  last : o.last = if p.lastPresentTsc = 0 then none else some p.lastPresentTsc
  pending : p.hasDamage = o.damaged
  counted : p.presentedFrames + p.droppedFrames = UInt64.ofNat o.counted

variable {targetFps : UInt32} {cyclesPerUs : UInt64} {p : FramePacer} {o : Observed}

theorem inStep_call (h : InStep targetFps p o) {c : PacerCall}
    (hc : ∀ force, .requestPresentation 0 force ≠ c) :
    InStep targetFps (p.call cyclesPerUs c).2 (o.after (c, (p.call cyclesPerUs c).1)) := by
  cases c with
  | markDamage => exact { h with pending := rfl }
  | requestPresentation now force =>
    have hnow : now ≠ 0 := fun heq => hc force (heq ▸ rfl)
    have hpending := h.pending
    have hnext : p.presentedFrames + p.droppedFrames + 1 = UInt64.ofNat (o.counted + 1) := by
      rw [h.counted, UInt64.ofNat_add]
      rfl
    simp only [FramePacer.call, requestPresentation]
    split_ifs with hidle
    · refine ⟨h.fps, h.last, by simp [Observed.after, hpending], h.counted.trans ?_⟩
      simp_all [Observed.after]
    all_goals have hbusy : (force || o.damaged) = true := by grind
    · refine ⟨h.fps, by simp [Observed.after, hnow], by simp [Observed.after], ?_⟩
      rw [Observed.after, if_pos hbusy, ← hnext, add_right_comm]
    · refine ⟨h.fps, h.last, by simp [Observed.after, hpending], ?_⟩
      rw [Observed.after, if_pos hbusy, ← hnext, add_assoc]

theorem inStep_run (h : InStep targetFps p o) {calls : List PacerCall}
    (hcalls : ∀ force, .requestPresentation 0 force ∉ calls) :
    InStep targetFps (run (next (call cyclesPerUs)) p calls)
      (run Observed.after o (transcript (call cyclesPerUs) p calls)) := by
  induction calls generalizing p o with
  | nil => exact h
  | cons c calls ih =>
    simp only [List.mem_cons, not_or] at hcalls
    exact ih (inStep_call h fun force => (hcalls force).1) fun force => (hcalls force).2

/-- **Frame pacing.** It is right in every run without a request at time zero. -/
theorem frames_paced (targetFps : UInt32) (cyclesPerUs : UInt64) (calls : List PacerCall)
    (hfit : (new targetFps).frameIntervalUs.toNat * cyclesPerUs.toNat < 2 ^ 64)
    (hcalls : ∀ force, .requestPresentation 0 force ∉ calls) :
    Paced targetFps cyclesPerUs (run (next (call cyclesPerUs)) (new targetFps) calls)
      (observed (transcript (call cyclesPerUs) (new targetFps) calls)) := by
  have h := @inStep_run targetFps cyclesPerUs (new targetFps) ⟨none, false, 0⟩
    ⟨rfl, rfl, rfl, rfl⟩ calls hcalls
  rw [← observed] at h
  generalize run _ _ calls = p, observed _ = o at h ⊢
  have hinterval : (p.frameIntervalCycles cyclesPerUs).toNat =
      (new targetFps).frameIntervalUs.toNat * cyclesPerUs.toNat := by
    rw [frameIntervalCycles, frameIntervalUs, h.fps, UInt64.toNat_mul]
    exact Nat.mod_eq_of_lt hfit
  refine ⟨h.pending, h.counted, fun now t ht hshown => ?_, fun now force hdamage hdue => ?_⟩
  · rw [h.last] at ht
    split_ifs at ht with hzero
    cases ht
    simp only [requestPresentation] at hshown
    split_ifs at hshown with hidle hshow
    simpa [hzero, hinterval] using hshow
  · unfold requestPresentation
    rw [if_neg (by simp [h.pending, hdamage]), if_pos]
    by_cases hzero : p.lastPresentTsc = 0
    · exact .inr (.inl hzero)
    · refine .inr (.inr (hinterval ▸ hdue _ ?_))
      rw [h.last, if_neg hzero]

/-- Three frames are presented, the last one because it is forced, and one is dropped. -/
theorem frames_paced_sixty :
    let calls := [.markDamage, .requestPresentation 5 false, .markDamage,
      .requestPresentation 10 false, .requestPresentation 17000000 false,
      .requestPresentation 17000001 true]
    let p := run (next (call 1000)) (new 60) calls
    Paced 60 1000 p (observed (transcript (call 1000) (new 60) calls)) ∧
      p.presentedFrames = 3 ∧ p.droppedFrames = 1 := by
  intro calls p
  exact ⟨frames_paced 60 1000 calls (by decide) (by simp [calls]), by decide, by decide⟩

/-- A frame at time zero, and one a cycle later. -/
theorem frame_at_zero_forgotten :
    let calls := [.markDamage, .requestPresentation 0 false, .markDamage]
    ¬ Paced 60 1000 (run (next (call 1000)) (new 60) calls)
      (observed (transcript (call 1000) (new 60) calls)) := by
  intro calls h
  exact absurd (h.spaced 1 0 rfl rfl) (by decide)

end FramePacer

end AgenticOS
