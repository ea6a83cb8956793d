import AgenticOS.Foundation.Execution

/-!
# Slide animations

`kernel_common/src/animation.rs`. Q16 numbers are held as `Nat`; the division of `i64` cuts
towards zero.
-/

namespace AgenticOS

open Foundation List

def q16One : Nat := 65536

def lerpI32 (start target : Int32) (progressQ16 : Nat) : Int32 :=
  let p : Int := min progressQ16 q16One
  .ofInt (start.toInt + ((target.toInt - start.toInt) * p).tdiv q16One)

def easeOutQuad (progressQ16 : Nat) : Nat :=
  let p := min progressQ16 q16One
  p * (2 * q16One - p) / q16One

def interpolatePosition (start target : Int32 × Int32) (elapsed duration : Nat) :
    Int32 × Int32 × Bool :=
  if duration = 0 ∨ elapsed ≥ duration then (target.1, target.2, true)
  else
    let eased := easeOutQuad (elapsed * q16One / duration)
    (lerpI32 start.1 target.1 eased, lerpI32 start.2 target.2 eased, false)

structure SlideAnimation where
  start : Int32 × Int32
  target : Int32 × Int32
  startTsc : UInt64
  durationCycles : UInt64
  active : Bool

namespace SlideAnimation

/-- `SlideAnimation::start`, which sets every field. -/
def started (start target : Int32 × Int32) (nowTsc durationCycles : UInt64) : SlideAnimation :=
  ⟨start, target, nowTsc, durationCycles, true⟩

def step (a : SlideAnimation) (nowTsc : UInt64) : (Int32 × Int32 × Bool) × SlideAnimation :=
  if a.active then
    let r := interpolatePosition a.start a.target (nowTsc.toNat - a.startTsc.toNat)
      a.durationCycles.toNat
    (r, { a with active := !r.2.2 })
  else ((a.target.1, a.target.2, true), a)

end SlideAnimation

/-! ## Easing and interpolation -/

/-- From `start`, `y` is at least as far towards `target` as `x`, and neither is beyond it. -/
def Towards (start target x y : Int32) : Prop :=
  start.toInt ≤ x.toInt ∧ x.toInt ≤ y.toInt ∧ y.toInt ≤ target.toInt ∨
    target.toInt ≤ y.toInt ∧ y.toInt ≤ x.toInt ∧ x.toInt ≤ start.toInt

theorem easeOutQuad_mono {p q : Nat} (h : p ≤ q) : easeOutQuad p ≤ easeOutQuad q := by
  apply Nat.div_le_div_right
  obtain ⟨u, hu⟩ := Nat.exists_eq_add_of_le (min_le_min_right q16One h)
  obtain ⟨v, hv⟩ := Nat.exists_eq_add_of_le (min_le_right q q16One)
  generalize min p q16One = p' at hu
  have hleft : 2 * q16One - p' = p' + 2 * u + 2 * v := by omega
  have hright : 2 * q16One - (p' + u) = p' + u + 2 * v := by omega
  rw [hu, hleft, hright]
  nlinarith

theorem lerpI32_towards {start target : Int32} {p q : Nat} (h : p ≤ q) :
    Towards start target (lerpI32 start target p) (lerpI32 start target q) := by
  have hlow := start.le_toInt
  have hhigh := start.toInt_lt
  have hlow' := target.le_toInt
  have hhigh' := target.toInt_lt
  obtain ⟨n, hn⟩ := Int.eq_nat_or_neg (target.toInt - start.toInt)
  let w (p : Nat) : Nat := n * min p q16One / q16One
  have hle (p : Nat) : w p ≤ n :=
    Nat.div_le_of_le_mul ((Nat.mul_comm ..).trans_le (Nat.mul_le_mul_right n (min_le_right ..)))
  have hp := hle p
  have hq := hle q
  have hmono : w p ≤ w q := Nat.div_le_div_right (Nat.mul_le_mul_left _ (min_le_min_right _ h))
  have hcut (p : Nat) : ((n : Int) * (min p q16One : Nat)).tdiv q16One = w p := rfl
  clear_value w
  rw [lerpI32, lerpI32, ← Nat.cast_min, ← Nat.cast_min]
  rcases hn with hn | hn
  on_goal 1 => rw [hn, hcut, hcut]
  on_goal 2 => rw [hn, neg_mul, neg_mul, Int.neg_tdiv, Int.neg_tdiv, hcut, hcut]
  all_goals
    rw [Towards, Int32.toInt_ofInt_of_le (by omega) (by omega),
      Int32.toInt_ofInt_of_le (by omega) (by omega)]
    omega

theorem lerpI32_one (start target : Int32) : lerpI32 start target q16One = target := by
  rw [lerpI32, min_self, Int.mul_tdiv_cancel _ (by decide), add_sub_cancel, Int32.ofInt_toInt]

/-- The eased progress, complete once the time is up. -/
def progress (elapsed duration : Nat) : Nat :=
  if duration ≤ elapsed then q16One
  else min (easeOutQuad (elapsed * q16One / duration)) q16One

theorem progress_mono {duration e e' : Nat} (h : e ≤ e') :
    progress e duration ≤ progress e' duration := by
  unfold progress
  split_ifs with hd hd'
  · exact le_rfl
  · exact absurd (hd.trans h) hd'
  · exact min_le_right _ _
  · exact min_le_min_right _ (easeOutQuad_mono (Nat.div_le_div_right (Nat.mul_le_mul_right _ h)))

variable {start target : Int32 × Int32} {duration : Nat}

theorem interpolatePosition_eq (elapsed : Nat) : interpolatePosition start target elapsed duration =
      (lerpI32 start.1 target.1 (progress elapsed duration),
        lerpI32 start.2 target.2 (progress elapsed duration), decide (duration ≤ elapsed)) := by
  have hdone : duration = 0 ∨ elapsed ≥ duration ↔ duration ≤ elapsed := by omega
  unfold interpolatePosition progress
  by_cases h : duration ≤ elapsed
  · rw [if_pos (hdone.mpr h), if_pos h, lerpI32_one, lerpI32_one, decide_eq_true h]
  · rw [if_neg (hdone.not.mpr h), if_neg h, decide_eq_false h]
    simp only [lerpI32, Nat.cast_min, min_assoc, min_self]

theorem interpolatePosition_towards {e e' : Nat} (h : e ≤ e') :
    Towards start.1 target.1 (interpolatePosition start target e duration).1
        (interpolatePosition start target e' duration).1 ∧
      Towards start.2 target.2 (interpolatePosition start target e duration).2.1
        (interpolatePosition start target e' duration).2.1 := by
  rw [interpolatePosition_eq, interpolatePosition_eq]
  exact ⟨lerpI32_towards (progress_mono h), lerpI32_towards (progress_mono h)⟩

/-! ## Runs -/

namespace SlideAnimation

/-- Each call shows the position of its own time. -/
theorem transcript_step {a : SlideAnimation} {times : List UInt64}
    (hsorted : times.Pairwise (· ≤ ·))
    (hdone : a.active = false → ∀ now ∈ times,
      a.durationCycles.toNat ≤ now.toNat - a.startTsc.toNat) :
    transcript step a times = times.map fun now => (now, interpolatePosition a.start a.target
      (now.toNat - a.startTsc.toNat) a.durationCycles.toNat) := by
  induction times generalizing a with
  | nil => rfl
  | cons now times ih =>
    obtain ⟨hnow, hsorted⟩ := pairwise_cons.mp hsorted
    rw [transcript, map_cons]
    cases hactive : a.active with
    | true =>
      rw [step, if_pos hactive]
      congr 1
      refine ih hsorted fun hend later hlater => ?_
      have hle : now.toNat ≤ later.toNat := hnow later hlater
      simp only [interpolatePosition_eq, Bool.not_eq_false', decide_eq_true_eq] at hend
      exact hend.trans (Nat.sub_le_sub_right hle _)
    | false =>
      have hend := hdone hactive
      rw [step, if_neg (by simp [hactive]), interpolatePosition,
        if_pos (.inr (hend now mem_cons_self))]
      congr 1
      exact ih hsorted fun _ later hlater => hend later (mem_cons_of_mem _ hlater)

/-- **Slides are monotone and arrive.** -/
theorem slide_arrives (start target : Int32 × Int32) (nowTsc durationCycles : UInt64)
    (times : List UInt64) (hsorted : (nowTsc :: times).Pairwise (· ≤ ·)) :
    let shown := transcript step (started start target nowTsc durationCycles) times
    (∀ r ∈ shown, Towards start.1 target.1 r.2.1 r.2.1 ∧ Towards start.2 target.2 r.2.2.1 r.2.2.1 ∧
      (r.2.2.2 = true ↔ durationCycles.toNat ≤ r.1.toNat - nowTsc.toNat) ∧
      (durationCycles.toNat ≤ r.1.toNat - nowTsc.toNat → r.2 = (target.1, target.2, true))) ∧
    shown.Pairwise (fun r r' => Towards start.1 target.1 r.2.1 r'.2.1 ∧
      Towards start.2 target.2 r.2.2.1 r'.2.2.1) ∧
    (∀ p q, p ≤ q → easeOutQuad p ≤ easeOutQuad q) ∧
    easeOutQuad 0 = 0 ∧ easeOutQuad 65536 = 65536 := by
  have hsorted := (pairwise_cons.mp hsorted).2
  intro shown
  have hshown : shown = _ := transcript_step hsorted nofun
  simp only [hshown, forall_mem_map, pairwise_map]
  refine ⟨fun _ _ => ⟨(interpolatePosition_towards le_rfl).1,
    (interpolatePosition_towards le_rfl).2, ?_, fun hend => if_pos (.inr hend)⟩,
    hsorted.imp fun hle => interpolatePosition_towards (Nat.sub_le_sub_right hle _),
    fun p q => easeOutQuad_mono, by decide, by decide⟩
  rw [interpolatePosition_eq]
  exact decide_eq_true_iff

theorem slide_arrives_after_four :
    let shown := transcript step (started (0, 0) (5, -7) 3 4) [3, 5, 7, 9]
    shown.length = 4 ∧ ∀ r ∈ shown,
      (r.2.2.2 = true ↔ 4 ≤ r.1.toNat - 3) ∧ (4 ≤ r.1.toNat - 3 → r.2 = (5, -7, true)) := by
  have hshown := (slide_arrives (0, 0) (5, -7) 3 4 [3, 5, 7, 9] (by decide)).1
  exact ⟨rfl, fun r hr => (hshown r hr).2.2⟩

end SlideAnimation

end AgenticOS
