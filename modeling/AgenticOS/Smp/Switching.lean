import AgenticOS.Smp.Scheduler

/-!
# Switching between threads

A thread is in one place, and a core goes on with a thread where it has left
off, as long as the thread that the critical section picks is on no stack: not
the outgoing thread itself, whose stack pointer is stored only afterwards, and
not a thread that another core has put back and not stored yet.
-/

namespace AgenticOS

open Foundation List Function Option

theorem inSlots_injective {slots : Cpu → Option Nat} (h : (inSlots slots).Nodup) {c c' : Cpu}
    {t : Nat} (hc : slots c = some t) (hc' : slots c' = some t) : c = c' := by
  by_contra hne
  unfold inSlots at h
  rw [← Finset.add_sum_erase _ _ (Finset.mem_univ c), Multiset.nodup_add] at h
  have hmem : t ∈ ∑ x ∈ Finset.univ.erase c, (↑(slots x).toList : Multiset Nat) := by
    rw [Multiset.mem_sum]
    refine ⟨c', Finset.mem_erase.mpr ⟨Ne.symm hne, Finset.mem_univ c'⟩, ?_⟩
    simp [hc']
  refine Multiset.disjoint_left.mp h.2.2 ?_ hmem
  simp [hc]

namespace Scheduler

/-! ## The invariant -/

def Made (s : Scheduler) (t : Nat) : Prop := 1 ≤ t ∧ t < s.nextTid

/-- The incoming thread of a core that is to switch is where it was stored. If
`toSelf` is allowed it may also be the outgoing one. -/
def CoreOk (toSelf : Prop) (s : Scheduler) (c : Cpu) : Prop :=
  match s.point c with
  | .running => ∀ t, s.currents c = some t → s.stack c = some t
  | .switching old new newRsp | .released old new newRsp =>
    s.stack c = some old ∧ s.currents c = some new ∧
      ((toSelf ∧ new = old) ∨ s.frame new = some newRsp)

structure Inv (toSelf : Prop) (s : Scheduler) : Prop where
  nextTid_pos : 1 ≤ s.nextTid
  nodup : s.places.Nodup
  live : ∀ t, t ∈ s.places ↔ s.Made t ∧ t ∉ s.reaped
  reaped_made : ∀ t ∈ s.reaped, s.Made t
  stack_injective : ∀ c c' t, s.stack c = some t → s.stack c' = some t → c = c'
  stack_made : ∀ c t, s.stack c = some t → s.Made t
  frames : ∀ t, s.Made t → (s.frame t = none ↔ ∃ c, s.stack c = some t)
  saved : ∀ t r, s.frame t = some r → (s.threads t).savedRsp = r
  cores : ∀ c, CoreOk toSelf s c

/-- The thread that a core picks is on no stack, or the outgoing one. -/
def Stored (toSelf : Prop) (s : Scheduler) : Event → Prop
  | .schedule c => ∀ next, s.chosen c = some next →
      (toSelf ∧ s.currents c = some next) ∨ ∀ c', s.stack c' ≠ some next
  | _ => True

variable {toSelf : Prop} {kernelPml4 newRsp : UInt64} {s s' : Scheduler} {c c' : Cpu}
  {t old new : Nat} {e : Event}

theorem Inv.current_injective (h : Inv toSelf s) (hc : s.currents c = some t)
    (hc' : s.currents c' = some t) : c = c' := by
  have hnodup := h.nodup
  rw [places, Multiset.nodup_add, Multiset.nodup_add] at hnodup
  exact inSlots_injective hnodup.1.2.1 hc hc'

theorem Inv.made_of_current (h : Inv toSelf s) (hc : s.currents c = some t) : s.Made t :=
  ((h.live t).mp (mem_places.mpr (.inr (.inl ⟨c, hc⟩)))).1

theorem inv_boot : Inv toSelf boot := by
  have hplaces : boot.places = 0 := by
    simp [places, queued, inSlots, boot]
  constructor
  · exact le_rfl
  · rw [hplaces]
    exact Multiset.nodup_zero
  · intro t
    rw [hplaces]
    simp only [Multiset.notMem_zero, Made, boot, false_iff]
    omega
  · exact fun t ht => absurd ht not_mem_nil
  · exact fun c _ t hc => absurd hc (by simp [boot])
  · exact fun c t hc => absurd hc (by simp [boot])
  · intro t ht
    exact absurd ht (by simp only [Made, boot]; omega)
  · exact fun t r hr => absurd hr (by simp [boot])
  · exact fun c t hc => absurd hc (by simp [boot])

theorem CoreOk.of_eq (h : CoreOk toSelf s c) (hpoint : s'.point c = s.point c)
    (hcurrents : s'.currents c = s.currents c) (hstack : s'.stack c = s.stack c)
    (hframe : ∀ new r, s.currents c = some new → s.frame new = some r → s'.frame new = some r) :
    CoreOk toSelf s' c := by
  unfold CoreOk at h ⊢
  rw [hpoint, hcurrents, hstack]
  cases hp : s.point c with
  | running =>
    rw [hp] at h
    exact h
  | switching old new newRsp | released old new newRsp =>
    rw [hp] at h
    obtain ⟨hon, hcur, hfr⟩ := h
    exact ⟨hon, hcur, hfr.imp_right (hframe new newRsp hcur)⟩

theorem mem_places_of_chosen (h : s.chosen c = some t) : t ∈ s.places := by
  rw [mem_places]
  exact (queued_of_chosen h).imp_right fun hcurrent => .inl ⟨c, hcurrent.1⟩

section

variable (h : Inv toSelf s)

include h

theorem Inv.exitCurrent : Inv toSelf (s.exitCurrent c) := by
  unfold Scheduler.exitCurrent
  cases s.currents c with
  | none => exact h
  | some =>
    refine { h with saved := fun t' r hr => ?_ }
    dsimp only
    rw [setState_savedRsp]
    exact h.saved t' r hr

theorem Inv.release (hpoint : s.point c = .switching old new newRsp) :
    Inv toSelf (s.release c old new newRsp) := by
  refine { h with cores := fun c' => ?_ }
  have hcore := h.cores c'
  unfold CoreOk Scheduler.release at *
  dsimp only
  by_cases hc : c' = c
  · rw [hc, hpoint] at hcore
    rw [hc, update_self]
    exact hcore
  · rw [update_of_ne hc]
    exact hcore

theorem Inv.schedule (hidle : s.Idle c) (hstored : s.Stored toSelf (.schedule c)) :
    Inv toSelf (s.scheduleLocked kernelPml4 c) := by
  obtain ⟨hnext, hstack, hframe, hreaped, -, hfields⟩ := scheduleLocked_fields kernelPml4 s c
  have hplaces : (s.scheduleLocked kernelPml4 c).places + ↑(s.zombies c).toList = s.places :=
    places_scheduleLocked
  have hmade {t : Nat} : (s.scheduleLocked kernelPml4 c).Made t ↔ s.Made t := by
    rw [Made, Made, hnext]
  have hnodup := h.nodup
  rw [← hplaces, Multiset.nodup_add] at hnodup
  have hzombie {t : Nat} (ht : t ∈ (s.zombies c).toList) : t ∈ s.places := by
    rw [← hplaces]
    exact Multiset.mem_add.mpr (.inr ht)
  constructor
  · rw [hnext]
    exact h.nextTid_pos
  · exact hnodup.1
  · intro t
    have hlive := h.live t
    rw [← hplaces, Multiset.mem_add, Multiset.mem_coe] at hlive
    rw [hmade, hreaped, mem_append, not_or]
    constructor
    · intro ht
      obtain ⟨hm, hr⟩ := hlive.mp (.inl ht)
      exact ⟨hm, hr, fun hz => Multiset.disjoint_left.mp hnodup.2.2 ht hz⟩
    · rintro ⟨hm, hr, hz⟩
      exact (hlive.mpr ⟨hm, hr⟩).resolve_right hz
  · intro t ht
    rw [hreaped, mem_append] at ht
    rw [hmade]
    obtain hr | hz := ht
    · exact h.reaped_made t hr
    · exact ((h.live t).mp (hzombie hz)).1
  · rw [hstack]
    exact h.stack_injective
  · intro c' t ht
    rw [hstack] at ht
    rw [hmade]
    exact h.stack_made c' t ht
  · intro t ht
    rw [hframe, hstack]
    exact h.frames t (hmade.mp ht)
  · intro t r hr
    rw [hframe] at hr
    rw [(hfields _).1]
    exact h.saved t r hr
  · intro c'
    by_cases hc : c' = c
    · subst hc
      have hrunning := h.cores c'
      unfold CoreOk at hrunning
      rw [hidle.2.1] at hrunning
      cases hchosen : s.chosen c' with
      | none =>
        obtain ⟨hcurrents, hpoint⟩ := scheduleLocked_bails kernelPml4 hchosen
        unfold CoreOk
        rw [hpoint, hidle.2.1]
        intro t ht
        rw [hstack]
        exact hrunning t (hcurrents t ht)
      | some next =>
        obtain ⟨hcurrents, current, hcurrent, hpoint⟩ := scheduleLocked_chosen kernelPml4 hchosen
        unfold CoreOk
        rw [hpoint]
        rw [hstack, hframe]
        refine ⟨hrunning current hcurrent, hcurrents, ?_⟩
        obtain ⟨hself, hsame⟩ | hoff := hstored next hchosen
        · rw [hcurrent] at hsame
          exact .inl ⟨hself, (some_inj.mp hsame).symm⟩
        · right
          have hnot : s.frame next ≠ none := by
            rw [Ne, h.frames next ((h.live next).mp (mem_places_of_chosen hchosen)).1]
            rintro ⟨c, hon⟩
            exact hoff c hon
          obtain ⟨r, hr⟩ := ne_none_iff_exists'.mp hnot
          rw [hr, h.saved next r hr]
    · obtain ⟨hcurrents, -, hpoint⟩ := scheduleLocked_of_ne kernelPml4 hc
      refine (h.cores c').of_eq hpoint hcurrents (by rw [hstack]) fun _ r _ hr => ?_
      rw [hframe, hr]

theorem Inv.switchTo {rsp : UInt64} (hpoint : s.point c = .released old new newRsp) :
    Inv toSelf (s.switchTo c old new rsp) := by
  have hcore := h.cores c
  unfold CoreOk at hcore
  rw [hpoint] at hcore
  obtain ⟨hold, hcurrent, hframe⟩ := hcore
  have hframeOld : s.frame old = none := (h.frames old (h.stack_made c old hold)).mpr ⟨c, hold⟩
  have hnewMade := h.made_of_current hcurrent
  -- no other core is on the stack of the incoming thread
  have hnew {c' : Cpu} (hc : c' ≠ c) : s.stack c' ≠ some new := by
    intro hon
    obtain ⟨-, rfl⟩ | hframe := hframe
    · exact hc (h.stack_injective c' c new hon hold)
    · rw [(h.frames new hnewMade).mpr ⟨c', hon⟩] at hframe
      cases hframe
  have hstack {c' : Cpu} {t : Nat} : (s.switchTo c old new rsp).stack c' = some t ↔
      (c' = c ∧ t = new) ∨ (c' ≠ c ∧ s.stack c' = some t) := by
    unfold Scheduler.switchTo
    dsimp only
    rw [update_apply]
    split_ifs with hc
    · rw [some_inj]
      simp [hc, eq_comm]
    · simp [hc]
  refine ⟨h.nextTid_pos, h.nodup, h.live, h.reaped_made, ?_, ?_, ?_, ?_, ?_⟩
  · intro c1 c2 t h1 h2
    rw [hstack] at h1 h2
    obtain ⟨rfl, rfl⟩ | ⟨hc1, h1⟩ := h1
    · obtain ⟨rfl, -⟩ | ⟨hc2, h2⟩ := h2
      · rfl
      · exact absurd h2 (hnew hc2)
    · obtain ⟨rfl, rfl⟩ | ⟨hc2, h2⟩ := h2
      · exact absurd h1 (hnew hc1)
      · exact h.stack_injective c1 c2 t h1 h2
  · intro c' t ht
    rw [hstack] at ht
    obtain ⟨-, rfl⟩ | ⟨-, ht⟩ := ht
    · exact hnewMade
    · exact h.stack_made c' t ht
  · intro t ht
    simp only [hstack]
    unfold Scheduler.switchTo
    dsimp only
    rw [update_apply, update_apply]
    split_ifs with hnew' hold'
    · exact ⟨fun _ => ⟨c, .inl ⟨rfl, hnew'⟩⟩, fun _ => rfl⟩
    · constructor
      · intro hnone
        cases hnone
      · rintro ⟨c', ⟨-, heq⟩ | ⟨hc', hon⟩⟩
        · exact absurd heq hnew'
        · rw [hold'] at hon
          exact absurd (h.stack_injective c' c old hon hold) hc'
    · rw [h.frames t ht]
      constructor
      · rintro ⟨c', hon⟩
        refine ⟨c', .inr ⟨?_, hon⟩⟩
        rintro rfl
        rw [hold] at hon
        exact hold' (some_inj.mp hon).symm
      · rintro ⟨c', ⟨-, heq⟩ | ⟨-, hon⟩⟩
        · exact absurd heq hnew'
        · exact ⟨c', hon⟩
  · intro t r hr
    unfold Scheduler.switchTo at hr ⊢
    dsimp only at hr ⊢
    rw [update_apply, update_apply] at hr
    rw [update_apply]
    split_ifs at hr ⊢ with hnew' hold' hold'
    · exact some_inj.mp hr
    · exact h.saved t r hr
  · intro c'
    by_cases hc : c' = c
    · subst hc
      unfold CoreOk Scheduler.switchTo
      dsimp only
      rw [update_self]
      intro t ht
      rw [hcurrent] at ht
      rw [update_self, ht]
    · refine (h.cores c').of_eq (update_of_ne hc _ _) rfl
        (update_of_ne hc _ _) fun new' r hcur hfr => ?_
      -- its incoming thread is another one, and stored before
      have hne : new' ≠ new := by
        rintro rfl
        exact hc (h.current_injective hcur hcurrent)
      have hne' : new' ≠ old := by
        rintro rfl
        rw [hframeOld] at hfr
        cases hfr
      unfold Scheduler.switchTo
      dsimp only
      rw [update_of_ne hne, update_of_ne hne', hfr]

end

/-! ### New threads -/

theorem Inv.nextTid_not_made : ¬ s.Made s.nextTid := fun hm => lt_irrefl _ hm.2

section

variable (h : Inv toSelf s)

include h

theorem Inv.nextTid_notMem : s.nextTid ∉ s.places := fun hm =>
  Inv.nextTid_not_made ((h.live _).mp hm).1

theorem Inv.live_cons {m : Multiset Nat} (hm : m = s.nextTid ::ₘ s.places) (t : Nat) :
    t ∈ m ↔ (1 ≤ t ∧ t < s.nextTid + 1) ∧ t ∉ s.reaped := by
  rw [hm, Multiset.mem_cons, h.live, Made, Nat.lt_succ_iff_lt_or_eq]
  constructor
  · rintro (rfl | ⟨⟨hle, hlt⟩, hr⟩)
    · exact ⟨⟨h.nextTid_pos, .inr rfl⟩, fun hr => Inv.nextTid_not_made (h.reaped_made _ hr)⟩
    · exact ⟨⟨hle, .inl hlt⟩, hr⟩
  · rintro ⟨⟨hle, hlt | rfl⟩, hr⟩
    · exact .inr ⟨⟨hle, hlt⟩, hr⟩
    · exact .inl rfl

theorem Inv.spawnThread (target : Cpu) (sp addressSpace : UInt64) :
    Inv toSelf (s.spawnThread target sp addressSpace) := by
  have hplaces := s.places_spawnThread target sp addressSpace
  have hframe {t : Nat} (ht : s.Made t) :
      (s.spawnThread target sp addressSpace).frame t = s.frame t :=
    update_of_ne ht.2.ne _ _
  constructor
  · exact Nat.le_succ_of_le h.nextTid_pos
  · rw [hplaces, Multiset.nodup_cons]
    exact ⟨h.nextTid_notMem, h.nodup⟩
  · exact h.live_cons hplaces
  · exact fun t ht => ⟨(h.reaped_made t ht).1, Nat.lt_succ_of_lt (h.reaped_made t ht).2⟩
  · exact h.stack_injective
  · exact fun c t ht => ⟨(h.stack_made c t ht).1, Nat.lt_succ_of_lt (h.stack_made c t ht).2⟩
  · rintro t ⟨hle, hlt⟩
    obtain hlt | rfl := Nat.lt_succ_iff_lt_or_eq.mp hlt
    · rw [hframe ⟨hle, hlt⟩]
      exact h.frames t ⟨hle, hlt⟩
    · unfold Scheduler.spawnThread
      dsimp only
      rw [update_self]
      constructor
      · intro hnone
        cases hnone
      · rintro ⟨c, hc⟩
        exact absurd (h.stack_made c _ hc) Inv.nextTid_not_made
  · intro t r hr
    unfold Scheduler.spawnThread at hr ⊢
    dsimp only at hr ⊢
    rw [update_apply] at hr ⊢
    split_ifs at hr ⊢
    · exact some_inj.mp hr
    · exact h.saved t r hr
  · intro c
    refine (h.cores c).of_eq rfl rfl rfl fun _ r hcur hfr => ?_
    rw [hframe (h.made_of_current hcur), hfr]

theorem Inv.of_stack_none (hstack : s.stack c = none) :
    s.point c = .running ∧ s.currents c = none := by
  have hcore := h.cores c
  unfold CoreOk at hcore
  cases hp : s.point c with
  | running =>
    rw [hp] at hcore
    refine ⟨rfl, eq_none_iff_forall_ne_some.mpr fun t hcur => ?_⟩
    have hon := hcore t hcur
    rw [hstack] at hon
    cases hon
  | switching old new newRsp | released old new newRsp =>
    rw [hp, hstack] at hcore
    cases hcore.1

theorem Inv.initAsCurrentThread (hstack : s.stack c = none) :
    Inv toSelf (s.initAsCurrentThread kernelPml4 c) := by
  obtain ⟨hpoint, hcurrent⟩ := h.of_stack_none hstack
  have hplaces : (s.initAsCurrentThread kernelPml4 c).places = s.nextTid ::ₘ s.places :=
    places_initAsCurrentThread hcurrent
  have hframe {t : Nat} (ht : s.Made t) :
      (s.initAsCurrentThread kernelPml4 c).frame t = s.frame t :=
    update_of_ne ht.2.ne _ _
  have hon {c' : Cpu} {t : Nat} : (s.initAsCurrentThread kernelPml4 c).stack c' = some t ↔
      (c' = c ∧ t = s.nextTid) ∨ (c' ≠ c ∧ s.stack c' = some t) := by
    unfold Scheduler.initAsCurrentThread
    dsimp only
    rw [update_apply]
    split_ifs with hc
    · rw [some_inj]
      simp [hc, eq_comm]
    · simp [hc]
  constructor
  · exact Nat.le_succ_of_le h.nextTid_pos
  · rw [hplaces, Multiset.nodup_cons]
    exact ⟨h.nextTid_notMem, h.nodup⟩
  · exact h.live_cons hplaces
  · exact fun t ht => ⟨(h.reaped_made t ht).1, Nat.lt_succ_of_lt (h.reaped_made t ht).2⟩
  · intro c1 c2 t h1 h2
    rw [hon] at h1 h2
    obtain ⟨rfl, rfl⟩ | ⟨_, h1⟩ := h1
    · obtain ⟨rfl, -⟩ | ⟨-, h2⟩ := h2
      · rfl
      · exact absurd (h.stack_made c2 _ h2) Inv.nextTid_not_made
    · obtain ⟨-, rfl⟩ | ⟨-, h2⟩ := h2
      · exact absurd (h.stack_made c1 _ h1) Inv.nextTid_not_made
      · exact h.stack_injective c1 c2 t h1 h2
  · intro c' t ht
    rw [hon] at ht
    obtain ⟨-, rfl⟩ | ⟨-, ht⟩ := ht
    · exact ⟨h.nextTid_pos, Nat.lt_succ_self _⟩
    · exact ⟨(h.stack_made c' t ht).1, Nat.lt_succ_of_lt (h.stack_made c' t ht).2⟩
  · rintro t ⟨hle, hlt⟩
    simp only [hon]
    obtain hlt | rfl := Nat.lt_succ_iff_lt_or_eq.mp hlt
    · rw [hframe ⟨hle, hlt⟩, h.frames t ⟨hle, hlt⟩]
      constructor
      · rintro ⟨c', hc'⟩
        refine ⟨c', .inr ⟨?_, hc'⟩⟩
        rintro rfl
        rw [hstack] at hc'
        cases hc'
      · rintro ⟨c', ⟨-, rfl⟩ | ⟨-, hc'⟩⟩
        · exact absurd hlt (lt_irrefl _)
        · exact ⟨c', hc'⟩
    · unfold Scheduler.initAsCurrentThread
      dsimp only
      rw [update_self]
      exact ⟨fun _ => ⟨c, .inl ⟨rfl, rfl⟩⟩, fun _ => rfl⟩
  · intro t r hr
    unfold Scheduler.initAsCurrentThread at hr ⊢
    dsimp only at hr ⊢
    rw [update_apply] at hr ⊢
    split_ifs at hr ⊢
    exact h.saved t r hr
  · intro c'
    by_cases hc : c' = c
    · subst hc
      unfold CoreOk Scheduler.initAsCurrentThread
      rw [hpoint]
      dsimp only
      rw [update_self, update_self]
      exact fun t ht => ht
    · refine (h.cores c').of_eq rfl (update_of_ne hc _ _) (update_of_ne hc _ _)
        fun _ r hcur hfr => ?_
      rw [hframe (h.made_of_current hcur), hfr]

end

/-! ## Steps and runs -/

theorem Inv.step {e : Event} (h : Inv toSelf s) (hstored : s.Stored toSelf e)
    (hstep : s.step kernelPml4 e = some s') : Inv toSelf s' := by
  cases moves_of_step hstep with
  | init _ hstack => exact h.initAsCurrentThread hstack
  | spawnIn | spawnPinnedToCpu => exact h.spawnThread _ _ _
  | exitCurrent => exact h.exitCurrent
  | schedule hidle => exact h.schedule hidle hstored
  | release hpoint => exact h.release hpoint
  | switchTo hpoint => exact h.switchTo hpoint

/-- One thread, one place, one core: a thread that was made and not reaped is in
one place, a core is about to load the stack pointer with which the incoming
thread was suspended, and no two cores execute on one stack. -/
structure OnePlace (s : Scheduler) : Prop where
  places : ∀ t, s.Made t → t ∉ s.reaped → s.places.count t = 1
  resumes : ∀ c old new newRsp,
    s.point c = .switching old new newRsp ∨ s.point c = .released old new newRsp →
      s.frame new = some newRsp
  stack : ∀ c c' t, s.stack c = some t → s.stack c' = some t → c = c'

def PicksStored (s : Scheduler) : Event → Prop
  | .schedule c => ∀ next ∈ s.chosen c, ∀ c', s.stack c' ≠ some next
  | _ => True

instance (s : Scheduler) : ∀ e, Decidable (s.PicksStored e)
  | .schedule c => inferInstanceAs (Decidable (∀ next ∈ s.chosen c, ∀ c', s.stack c' ≠ some next))
  | .init _ | .spawnIn .. | .spawnPinnedToCpu .. | .exitCurrent _ | .release _ | .switchTo .. =>
    .isTrue trivial

theorem PicksStored.stored {toSelf : Prop} (h : s.PicksStored e) : s.Stored toSelf e := by
  cases e with
  | schedule => exact fun next hnext => .inr (h next hnext)
  | init | spawnIn | spawnPinnedToCpu | exitCurrent | release | switchTo => trivial

theorem Inv.onePlace (h : Inv False s) : s.OnePlace := by
  refine ⟨?_, ?_, h.stack_injective⟩
  · intro t hmade hreaped
    exact Multiset.count_eq_one_of_mem h.nodup ((h.live t).mpr ⟨hmade, hreaped⟩)
  · intro c _ _ _ hpoint
    have hcore := h.cores c
    unfold CoreOk at hcore
    obtain hpoint | hpoint := hpoint
    · rw [hpoint] at hcore
      exact hcore.2.2.resolve_left fun hself => hself.1
    · rw [hpoint] at hcore
      exact hcore.2.2.resolve_left fun hself => hself.1

/-- A core that picks a thread which is on a stack is about to load a stack
pointer that is not where that thread is. -/
theorem Inv.not_onePlace (h : Inv False s) (hpicks : ¬ s.PicksStored e)
    (hstep : s.step kernelPml4 e = some s') : ¬ s'.OnePlace := by
  intro hone
  cases moves_of_step hstep with
  | @schedule c _ =>
    unfold PicksStored at hpicks
    push Not at hpicks
    obtain ⟨next, hnext, c', hon⟩ := hpicks
    obtain ⟨-, _, -, hpoint⟩ := scheduleLocked_chosen kernelPml4 hnext
    have hframe := hone.resumes c _ _ _ (.inl hpoint)
    rw [(scheduleLocked_fields kernelPml4 s c).2.2.1,
      (h.frames next (h.stack_made c' next hon)).mpr ⟨c', hon⟩] at hframe
    cases hframe
  | init | spawnIn | spawnPinnedToCpu | exitCurrent | release | switchTo =>
    exact hpicks trivial

/-- **One thread, one place, one core.** In all states of a run from boot every
thread is in one place and resumed where it was suspended, if and only if no
core picks a thread that is on a stack: the outgoing one, or one that another
core has not stored yet. -/
theorem onePlace_iff {events : List Event}
    (hrun : attempt (step kernelPml4) boot events = some s') :
    (∀ pre post s₁, events = pre ++ post → attempt (step kernelPml4) boot pre = some s₁ →
        s₁.OnePlace) ↔
      Meets (step kernelPml4) PicksStored boot events :=
  attempt_forall_iff_meets (fun _ h => Inv.onePlace h)
    (fun _ _ _ h _ hpicks hstep => h.step hpicks.stored hstep)
    (fun _ _ _ h _ hpicks hstep => h.not_onePlace hpicks hstep)
    inv_boot (meets_of_forall (fun _ _ => trivial) boot events) hrun

/-- The boot thread of a core makes a thread, which the timer lets run. -/
theorem onePlace_spawn : ∃ s', attempt (step 0x1000)
      boot [.init 0, .spawnIn 0 0x8000 0x1000, .schedule 0, .release 0, .switchTo 0 0x500] =
        some s' ∧ s'.OnePlace ∧ s'.stack 0 = some 2 := by
  refine exists_run_imp (Q := fun s => s.stack 0 = some 2) (by decide +kernel)
    fun s' hrun hstack => ⟨?_, hstack⟩
  exact (onePlace_iff hrun).mpr (by decide +kernel) _ [] s' (append_nil _).symm hrun

/-- The boot thread is alone on its core again, and the timer ticks: the core is
to go on at the stack pointer that was stored before it had run last. And a core
that has nothing of its own takes the boot thread of another core, which has put
it back and not stored its stack pointer: both execute on that stack. -/
theorem switch_to_stale : (∃ s', attempt (step 0x1000) boot
        [.init 0, .spawnIn 0 0x8000 0x1000, .schedule 0, .release 0, .switchTo 0 0x500,
          .exitCurrent 0, .schedule 0, .release 0, .switchTo 0 0x7f00, .schedule 0] = some s' ∧
      s'.point 0 = .switching 1 1 0x500 ∧ s'.frame 1 = none) ∧
    ∃ s', attempt (step 0x1000) boot
        [.init 0, .init 1, .spawnIn 0 0x8000 0x1000, .spawnIn 1 0x9000 0x1000,
          .schedule 1, .release 1, .switchTo 1 0x600, .exitCurrent 1,
          .schedule 1, .release 1, .switchTo 1 0x8f00, .exitCurrent 1,
          .schedule 0, .release 0, .schedule 1, .release 1, .switchTo 1 0x5f0] = some s' ∧
      s'.stack 0 = some 1 ∧ s'.stack 1 = some 1 := by
  decide +kernel

end Scheduler

end AgenticOS
