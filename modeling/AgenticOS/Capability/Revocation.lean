import AgenticOS.Capability.Confinement

/-!
# Revocation against racing delegation

`derive` has two critical sections, the resolve and the push, and other cores
run between them. The state below therefore keeps, for each thread, the
derivation it has in flight. It also keeps two ghosts that nothing reads: the
number of steps taken, and for every slot the step at which the generation it
carries was read from the registry (by the `grant`, or by the resolve half of
the derivation, that filled the slot).

A thread with a derivation in flight may issue other calls in this model. The
kernel has fewer runs than that, so what holds of all of these holds of its.

The proof carries one bound from the revocation on: whatever was read before
it is at most the generation the object had then, and the object has moved
past that generation.
-/

namespace AgenticOS

open Foundation Function Option UInt64
open CapState (resolve_ok_iff call setTable)
open List hiding next

structure PendingDerive (τ : Type) where
  source : Capability
  requested : Rights
  target : τ
  readAt : Nat

structure RaceState (τ : Type) where
  caps : CapState τ
  pending : ThreadId → Option (PendingDerive τ)
  clock : Nat
  readAt : τ → Nat → Nat

inductive RaceStep (τ : Type) where
  | createObject (kind : KernelObjectKind)
  | grant (table : τ) (objectId : ObjectId) (rights : Rights)
  | resolve (table : τ) (capId : CapId) (required : Rights)
  | revoke (objectId : ObjectId) (destroy : Bool)
  | deriveResolve (table : τ) (sourceCapId : CapId) (requested : Rights) (target : τ)
  | derivePush
  deriving DecidableEq

namespace CapState

variable {τ : Type}

def onThread (s : CapState τ) (tid : ThreadId) : CapState τ :=
  { s with core := { s.core with currentTid := tid } }

@[simp] theorem onThread_tables (s : CapState τ) (tid : ThreadId) :
    (s.onThread tid).tables = s.tables := rfl

end CapState

namespace RaceState

variable {τ : Type} [DecidableEq τ]

def boot : RaceState τ := ⟨.boot, fun _ => none, 0, fun _ _ => 0⟩

/-- The ghost stamp of the slot that the next push into `t` fills. -/
def stamp (s : RaceState τ) (t : τ) (time : Nat) : τ → Nat → Nat :=
  Function.update s.readAt t
    (Function.update (s.readAt t) (s.caps.tables t).slots.length time)

def step (s : RaceState τ) : ThreadId × RaceStep τ → RaceState τ
  | (tid, .createObject kind) =>
    { s with
      caps := (s.caps.onThread tid).step (.createObject kind)
      clock := s.clock + 1 }
  | (tid, .grant t o r) =>
    { s with
      caps := (s.caps.onThread tid).step (.grant t o r)
      clock := s.clock + 1
      readAt := s.stamp t s.clock }
  | (tid, .resolve t c r) =>
    { s with
      caps := (s.caps.onThread tid).step (.resolve t c r)
      clock := s.clock + 1 }
  | (tid, .revoke o destroy) =>
    { s with
      caps := (s.caps.onThread tid).step (.revoke o destroy)
      clock := s.clock + 1 }
  | (tid, .deriveResolve t c requested target) =>
    match s.pending tid with
    | some _ => { s with clock := s.clock + 1 }
    | none =>
      let caps := s.caps.onThread tid
      let (result, core) := (caps.tables t).deriveSource c requested caps.core
      { s with
        caps := { caps with core }
        pending := match result with
          | .ok source => Function.update s.pending tid
              (some ⟨source, requested, target, s.clock⟩)
          | .error _ => s.pending
        clock := s.clock + 1 }
  | (tid, .derivePush) =>
    match s.pending tid with
    | none => { s with clock := s.clock + 1 }
    | some p =>
      let caps := s.caps.onThread tid
      let (_, table, core) :=
        (caps.tables p.target).derivePush p.source p.requested caps.core
      { s with
        caps := caps.setTable p.target table core
        pending := Function.update s.pending tid none
        clock := s.clock + 1
        readAt := s.stamp p.target p.readAt }

def InRange (s : RaceState τ) : ThreadId × RaceStep τ → Prop
  | (_, .revoke o _) => (s.caps.core.mintGen o).toNat + 1 < 2 ^ 64
  | _ => True

variable (s : RaceState τ)

@[simp] theorem step_clock (a : ThreadId × RaceStep τ) : (s.step a).clock = s.clock + 1 := by
  obtain ⟨tid, a⟩ := a
  cases a with
  | deriveResolve | derivePush =>
    simp only [step]
    cases s.pending tid <;> rfl
  | createObject | grant | resolve | revoke => rfl

/-- Where the generation of a pushed capability was read, and when: in the
registry just now, or by a derivation in flight. -/
inductive ReadOrigin (s : RaceState τ) (cap : Capability) (time : Nat) : Prop where
  | registry (hgen : cap.generation = s.caps.core.mintGen cap.objectId)
      (htime : time = s.clock)
  | pending (tid : ThreadId) (p : PendingDerive τ) (hp : s.pending tid = some p)
      (hobject : cap.objectId = p.source.objectId)
      (hgen : cap.generation = p.source.generation) (htime : time = p.readAt)

/-- **What a step can do.** -/
inductive Effect (s : RaceState τ) :
    ThreadId × RaceStep τ → RaceState τ → Prop where
  | quiet {a s'} (hobjects : s'.caps.core.objects = s.caps.core.objects)
      (htables : s'.caps.tables = s.caps.tables) (hread : s'.readAt = s.readAt)
      (hpending : s'.pending = s.pending) : Effect s a s'
  | created {a s'} (kind : KernelObjectKind)
      (hobjects : s'.caps.core.objects = (s.caps.core.createObject kind).2.objects)
      (htables : s'.caps.tables = s.caps.tables) (hread : s'.readAt = s.readAt)
      (hpending : s'.pending = s.pending) : Effect s a s'
  | opened {a s'} (tid : ThreadId) (t : τ) (c : CapId) (p : PendingDerive τ)
      (hsource : s.caps.resolve t c .grant = .ok p.source)
      (htime : p.readAt = s.clock)
      (hobjects : s'.caps.core.objects = s.caps.core.objects)
      (htables : s'.caps.tables = s.caps.tables) (hread : s'.readAt = s.readAt)
      (hpending : s'.pending = Function.update s.pending tid (some p)) : Effect s a s'
  | pushed {a s'} (target : τ) (cap : Capability) (time : Nat)
      (horigin : ReadOrigin s cap time)
      (hobjects : s'.caps.core.objects = s.caps.core.objects)
      (htables : s'.caps.tables = Function.update s.caps.tables target
        ((s.caps.tables target).push cap).2)
      (hread : s'.readAt = s.stamp target time)
      (hpending : ∀ tid p, s'.pending tid = some p → s.pending tid = some p) :
      Effect s a s'
  | revoked {s'} (tid : ThreadId) (o : ObjectId) (destroy : Bool)
      (hobjects : s'.caps.core.objects = (s.caps.core.revoke o destroy).objects)
      (htables : s'.caps.tables = s.caps.tables) (hread : s'.readAt = s.readAt)
      (hpending : s'.pending = s.pending) : Effect s (tid, .revoke o destroy) s'

theorem step_effect (a : ThreadId × RaceStep τ) : Effect s a (s.step a) := by
  obtain ⟨tid, a⟩ := a
  cases a with
  | createObject kind => exact .created kind rfl rfl rfl rfl
  | grant t o r =>
    exact .pushed t ⟨o, r, s.caps.core.mintGen o⟩ s.clock (.registry rfl rfl)
      rfl rfl rfl fun _ _ h => h
  | resolve =>
    exact .quiet (CapabilityTable.resolve_objects _ _ _ _) rfl rfl rfl
  | revoke o destroy => exact .revoked tid o destroy rfl rfl rfl rfl
  | deriveResolve t c requested target =>
    simp only [step]
    cases s.pending tid with
    | some => exact .quiet rfl rfl rfl rfl
    | none =>
      obtain ⟨source, hres, -, h⟩ | ⟨source, -, -, h⟩ | ⟨e, -, h⟩ :=
        (s.caps.tables t).deriveSource_cases c requested (s.caps.onThread tid).core
      · have hsource : s.caps.resolve t c .grant = .ok source := by
          have hok := CapabilityTable.resolve_ok_iff.mp (congrArg Prod.fst hres)
          exact resolve_ok_iff.mpr hok
        rw [CapState.onThread_tables, h]
        exact .opened tid t c ⟨source, requested, target, s.clock⟩ hsource rfl rfl rfl rfl rfl
      · rw [CapState.onThread_tables, h]
        exact .quiet rfl rfl rfl rfl
      · rw [CapState.onThread_tables, h]
        exact .quiet rfl rfl rfl rfl
  | derivePush =>
    simp only [step]
    cases hp : s.pending tid with
    | none => exact .quiet rfl rfl rfl rfl
    | some p =>
      refine .pushed p.target ⟨p.source.objectId, p.requested, p.source.generation⟩ p.readAt
        (.pending tid p hp rfl rfl rfl) rfl rfl rfl ?_
      intro tid' p' (h : update s.pending tid none tid' = some p')
      by_cases htid : tid' = tid
      · subst htid
        simp at h
      · rwa [update_of_ne htid] at h

variable {s}

theorem stamp_apply (t t' : τ) (time i : Nat) :
    s.stamp t time t' i = if t' = t ∧ i = (s.caps.tables t).slots.length then time
      else s.readAt t' i := by
  by_cases ht : t' = t
  · subst ht
    simp [stamp, update_apply]
  · simp [stamp, ht]

/-! ## Nothing is ahead of its object -/

/-- No slot and no derivation in flight carries a generation its object has
not reached. -/
structure Sound (s : RaceState τ) : Prop where
  slots : s.caps.WellMinted
  flights : ∀ tid p, s.pending tid = some p →
    p.source.generation ≤ s.caps.core.mintGen p.source.objectId

omit [DecidableEq τ] in
theorem sound_boot : (boot : RaceState τ).Sound :=
  ⟨CapState.wellMinted_boot, fun _ _ h => by cases h⟩

variable {a : ThreadId × RaceStep τ}

theorem mintGen_le_step (h : s.InRange a) (o : ObjectId) :
    s.caps.core.mintGen o ≤ (s.step a).caps.core.mintGen o := by
  have hsame : (s.step a).caps.core.objects = s.caps.core.objects →
      s.caps.core.mintGen o ≤ (s.step a).caps.core.mintGen o := by
    intro e
    rw [Core.mintGen_congr e]
    exact UInt64.le_refl _
  cases step_effect s a with
  | quiet hobjects => exact hsame hobjects
  | opened _ _ _ _ _ _ hobjects => exact hsame hobjects
  | pushed _ _ _ _ hobjects => exact hsame hobjects
  | created kind hobjects =>
    rw [Core.mintGen_congr hobjects]
    exact Core.mintGen_le_createObject _ _ _
  | revoked tid o' destroy hobjects =>
    rw [Core.mintGen_congr hobjects]
    exact Core.mintGen_le_revoke h _ _

theorem sound_step (hs : s.Sound) (h : s.InRange a) : (s.step a).Sound := by
  have hgrow := mintGen_le_step h
  have hslots : ∀ t c cap, (s.caps.tables t).slot? c = some cap →
      cap.generation ≤ (s.step a).caps.core.mintGen cap.objectId :=
    fun t c cap hslot => UInt64.le_trans (hs.slots t c cap hslot) (hgrow _)
  have hflights : ∀ tid p, s.pending tid = some p →
      p.source.generation ≤ (s.step a).caps.core.mintGen p.source.objectId :=
    fun tid p hp => UInt64.le_trans (hs.flights tid p hp) (hgrow _)
  cases step_effect s a with
  | quiet _ htables _ hpending | created _ _ htables _ hpending
  | revoked _ _ _ _ htables _ hpending =>
    refine ⟨?_, ?_⟩
    · intro t c cap hslot
      exact hslots t c cap (by rwa [htables] at hslot)
    · intro tid p hp
      exact hflights tid p (by rwa [hpending] at hp)
  | opened tid t c p hsource _ _ htables _ hpending =>
    refine ⟨?_, ?_⟩
    · intro t' c' cap hslot
      exact hslots t' c' cap (by rwa [htables] at hslot)
    · intro tid' p' hp
      rw [hpending, update_apply] at hp
      split_ifs at hp with htid
      · obtain rfl := Option.some.inj hp
        exact hslots t c _ (resolve_ok_iff.mp hsource).1
      · exact hflights tid' p' hp
  | pushed target cap time horigin _ htables _ hpending =>
    refine ⟨?_, ?_⟩
    · intro t' c' cap' hslot
      rw [htables, CapState.slot?_update_push] at hslot
      split_ifs at hslot with hnew
      · obtain rfl := Option.some.inj hslot
        cases horigin with
        | registry hgen _ =>
          rw [hgen]
          exact hgrow _
        | pending tid p hp hobject hgen =>
          rw [hgen, hobject]
          exact hflights tid p hp
      · exact hslots t' c' cap' hslot
    · intro tid p hp
      exact hflights tid p (hpending tid p hp)

/-! ## After a revocation -/

/-- What was read of `o` before step `time` is at most `g`, and `o` is past
`g`. -/
structure Outdated (o : ObjectId) (time : Nat) (g : UInt64) (s : RaceState τ) :
    Prop where
  clock : time < s.clock
  missing : s.caps.core.object? o = none → g = 0
  passed : ∀ obj, s.caps.core.object? o = some obj → g < obj.generation
  slots : ∀ t c cap, (s.caps.tables t).slot? c = some cap → cap.objectId = o →
    s.readAt t c.toNat < time → cap.generation ≤ g
  flights : ∀ tid p, s.pending tid = some p → p.source.objectId = o →
    p.readAt < time → p.source.generation ≤ g

variable {time : Nat} {o : ObjectId} {g : UInt64}

omit [DecidableEq τ] in
theorem Outdated.resolve_ne_ok (h : Outdated o time g s) {t : τ} {c : CapId}
    {cap : Capability} (hslot : (s.caps.tables t).slot? c = some cap)
    (hobject : cap.objectId = o) (hread : s.readAt t c.toNat < time) (r : Rights)
    (cap' : Capability) : s.caps.resolve t c r ≠ .ok cap' := by
  intro hres
  obtain ⟨hslot', hgen, -⟩ := resolve_ok_iff.mp hres
  obtain rfl := Option.some.inj (hslot.symm.trans hslot')
  rw [hobject, Core.currentGen, map_eq_some_iff] at hgen
  obtain ⟨obj, hobj, hgen⟩ := hgen
  have hlt := h.passed obj (filter_eq_some_iff.mp hobj).1
  rw [hgen] at hlt
  exact absurd (h.slots t c cap hslot hobject hread) (UInt64.not_le.mpr hlt)

theorem outdated_revoke (hs : s.Sound) (tid : ThreadId)
    (o : ObjectId) (destroy : Bool) (h : s.InRange (tid, .revoke o destroy)) :
    Outdated o s.clock (s.caps.core.mintGen o) (s.step (tid, .revoke o destroy)) := by
  have hobj : (s.step (tid, .revoke o destroy)).caps.core.object? o =
      (s.caps.core.revoke o destroy).object? o := rfl
  rw [Core.object?_revoke, if_pos rfl] at hobj
  refine ⟨Nat.lt_succ_self _, ?_, ?_, ?_, ?_⟩
  · intro hnone
    rw [hobj, map_eq_none_iff] at hnone
    rw [Core.mintGen, hnone]
    rfl
  · intro _ hsome
    rw [hobj, map_eq_some_iff] at hsome
    obtain ⟨old, hold, rfl⟩ := hsome
    have hlt := Core.mintGen_lt_revoke h
    have hgen : s.caps.core.mintGen o = old.generation := by
      rw [Core.mintGen, hold]
      rfl
    rwa [hgen] at hlt ⊢
  · rintro t c cap hslot rfl -
    exact hs.slots t c cap hslot
  · rintro tid' p hp rfl -
    exact hs.flights tid' p hp

/-- The registry half of `Outdated` is kept by every step in range. -/
theorem Outdated.object_step (h : Outdated o time g s) (hrange : s.InRange a) :
    ((s.step a).caps.core.object? o = none → g = 0) ∧
      ∀ obj, (s.step a).caps.core.object? o = some obj → g < obj.generation := by
  cases step_effect s a with
  | quiet hobjects | opened _ _ _ _ _ _ hobjects | pushed _ _ _ _ hobjects =>
    rw [Core.object?_congr hobjects]
    exact ⟨h.missing, h.passed⟩
  | created kind hobjects =>
    rw [Core.object?_congr hobjects, Core.object?_createObject]
    by_cases hnew : o.toNat = s.caps.core.objects.length
    · -- the id was unused, so nothing but generation 0 was read of it
      have hnone : s.caps.core.object? o = none :=
        List.getElem?_eq_none (Nat.le_of_eq hnew.symm)
      rw [if_pos hnew]
      refine ⟨fun e => (some_ne_none _ e).elim, ?_⟩
      rintro obj ⟨⟩
      rw [h.missing hnone]
      exact (by decide : (0 : UInt64) < 1)
    · rw [if_neg hnew]
      exact ⟨h.missing, h.passed⟩
  | revoked tid o' destroy hobjects =>
    rw [Core.object?_congr hobjects, Core.object?_revoke]
    by_cases ho : o = o'
    · subst ho
      rw [if_pos rfl]
      refine ⟨fun e => h.missing (map_eq_none_iff.mp e), ?_⟩
      intro obj hsome
      obtain ⟨old, hold, rfl⟩ := map_eq_some_iff.mp hsome
      have hgen : s.caps.core.mintGen o = old.generation := by
        rw [Core.mintGen, hold]
        rfl
      have hlt := Core.mintGen_lt_revoke hrange
      rw [hgen] at hlt
      exact UInt64.lt_trans (h.passed old hold) hlt
    · rw [if_neg ho]
      exact ⟨h.missing, h.passed⟩

theorem outdated_step (h : Outdated o time g s) (hrange : s.InRange a) :
    Outdated o time g (s.step a) := by
  have hclock : time < (s.step a).clock := by
    rw [step_clock]
    exact Nat.lt_succ_of_lt h.clock
  obtain ⟨hmissing, hpassed⟩ := h.object_step hrange
  refine ⟨hclock, hmissing, hpassed, ?_, ?_⟩
  · intro t c cap hslot hobject hread
    cases step_effect s a with
    | quiet _ htables hsame | created _ _ htables hsame
    | opened _ _ _ _ _ _ _ htables hsame | revoked _ _ _ _ htables hsame =>
      rw [htables] at hslot
      rw [hsame] at hread
      exact h.slots t c cap hslot hobject hread
    | pushed target new when horigin _ htables hstamp =>
      rw [htables, CapState.slot?_update_push] at hslot
      rw [hstamp, stamp_apply] at hread
      by_cases hnew : t = target ∧ c.toNat = (s.caps.tables target).slots.length
      · rw [if_pos hnew] at hslot hread
        obtain rfl := Option.some.inj hslot
        cases horigin with
        | registry =>
          -- read now, not before `time`
          have := h.clock
          omega
        | pending tid p hp hobj hgen htime =>
          rw [hgen]
          exact h.flights tid p hp (hobj.symm.trans hobject) (htime ▸ hread)
      · rw [if_neg hnew] at hslot hread
        exact h.slots t c cap hslot hobject hread
  · intro tid p hp hobject hread
    cases step_effect s a with
    | quiet _ _ _ hpending | created _ _ _ _ hpending
    | revoked _ _ _ _ _ _ hpending =>
      rw [hpending] at hp
      exact h.flights tid p hp hobject hread
    | pushed _ _ _ _ _ _ _ hpending =>
      exact h.flights tid p (hpending tid p hp) hobject hread
    | opened tid' t c p' _ htime _ _ _ hpending =>
      rw [hpending, update_apply] at hp
      split_ifs at hp with htid
      · obtain rfl := Option.some.inj hp
        have := h.clock
        omega
      · exact h.flights tid p hp hobject hread

def Dead (o : ObjectId) (s : RaceState τ) : Prop :=
  ∃ obj, s.caps.core.object? o = some obj ∧ obj.alive = false

theorem dead_step (h : Dead o s) : Dead o (s.step a) := by
  obtain ⟨obj, hobj, halive⟩ := h
  cases step_effect s a with
  | quiet hobjects | opened _ _ _ _ _ _ hobjects | pushed _ _ _ _ hobjects =>
    exact ⟨obj, by rw [Core.object?_congr hobjects, hobj], halive⟩
  | created kind hobjects =>
    refine ⟨obj, ?_, halive⟩
    have hlt := (List.getElem?_eq_some_iff.mp hobj).1
    rw [Core.object?_congr hobjects, Core.object?_createObject, if_neg (Nat.ne_of_lt hlt), hobj]
  | revoked tid o' destroy hobjects =>
    rw [Dead, Core.object?_congr hobjects, Core.object?_revoke]
    by_cases ho : o = o'
    · subst ho
      rw [if_pos rfl, hobj]
      exact ⟨_, rfl, by simp [halive]⟩
    · rw [if_neg ho]
      exact ⟨obj, hobj, halive⟩

variable (s) in
theorem resolve_revoke_of_ne (tid : ThreadId) (o : ObjectId)
    (destroy : Bool) {cap : Capability} (ho : cap.objectId ≠ o) (t : τ) (c : CapId)
    (r : Rights) :
    (s.step (tid, .revoke o destroy)).caps.resolve t c r = .ok cap ↔
      s.caps.resolve t c r = .ok cap := by
  have hgen : (s.step (tid, .revoke o destroy)).caps.core.currentGen cap.objectId =
      (s.caps.core.revoke o destroy).currentGen cap.objectId := rfl
  rw [Core.currentGen_revoke, if_neg ho] at hgen
  have htables : (s.step (tid, .revoke o destroy)).caps.tables = s.caps.tables := rfl
  rw [resolve_ok_iff, resolve_ok_iff, hgen, htables]

/-! ## Whole runs -/

theorem run_clock (as : List (ThreadId × RaceStep τ)) :
    (run step s as).clock = s.clock + as.length := by
  induction as generalizing s with
  | nil => rfl
  | cons a as ih =>
    rw [run_cons, ih, step_clock, length_cons]
    omega

/-- **Revocation is immediate, transitive and permanent.** Take any run from
boot in which no generation wraps, and any `revoke o` in it. In every later
state, a slot on `o` whose generation was read before that revocation resolves
for no rights, although a racing derivation may have filled it afterwards. If
the revocation destroyed an existing object, nothing on `o` resolves later.
And on every other object the same slots resolve for the same rights just
before and just after it. -/
theorem revoke_permanent (before after : List (ThreadId × RaceStep τ))
    (tid : ThreadId) (o : ObjectId) (destroy : Bool)
    (hrange : Along step InRange (boot : RaceState τ)
      (before ++ (tid, .revoke o destroy) :: after)) :
    let s₀ := run step (boot : RaceState τ) before
    let s₁ := s₀.step (tid, .revoke o destroy)
    let s₂ := run step s₁ after
    (∀ t c cap, (s₂.caps.tables t).slot? c = some cap → cap.objectId = o →
      s₂.readAt t c.toNat < before.length → ∀ r cap', s₂.caps.resolve t c r ≠ .ok cap') ∧
    (destroy = true → (s₀.caps.core.object? o).isSome →
      ∀ t c r cap, s₂.caps.resolve t c r = .ok cap → cap.objectId ≠ o) ∧
    ∀ o', o' ≠ o → ∀ t c r, (∃ cap, s₀.caps.resolve t c r = .ok cap ∧ cap.objectId = o') ↔
        ∃ cap, s₁.caps.resolve t c r = .ok cap ∧ cap.objectId = o' := by
  intro s₀ s₁ s₂
  obtain ⟨hpre, hrevoke, hpost⟩ := along_append.mp hrange
  have hsound : s₀.Sound :=
    run_invariant (fun _ _ hs h => sound_step hs h) sound_boot hpre
  refine ⟨?_, ?_, ?_⟩
  · have houtdated : Outdated o s₀.clock (s₀.caps.core.mintGen o) s₂ :=
      run_invariant (fun _ _ hs h => outdated_step hs h)
        (outdated_revoke hsound tid o destroy hrevoke) hpost
    have hclock : s₀.clock = before.length := by
      rw [run_clock]
      exact Nat.zero_add _
    rw [hclock] at houtdated
    intro t c cap hslot hobject hread r cap'
    exact houtdated.resolve_ne_ok hslot hobject hread r cap'
  · rintro rfl hexists t c r cap hres rfl
    have hdead : Dead cap.objectId s₁ := by
      obtain ⟨obj, hobj⟩ := isSome_iff_exists.mp hexists
      have hnew : s₁.caps.core.object? cap.objectId =
          (s₀.caps.core.revoke cap.objectId true).object? cap.objectId := rfl
      rw [Core.object?_revoke, if_pos rfl, hobj] at hnew
      exact ⟨_, hnew, rfl⟩
    have hdead2 : Dead cap.objectId s₂ :=
      run_invariant (fun _ _ hs _ => dead_step hs) hdead hpost
    obtain ⟨obj, hobj, halive⟩ := hdead2
    obtain ⟨-, hgen, -⟩ := CapState.resolve_ok_iff.mp hres
    simp [Core.currentGen, hobj, Option.filter, halive] at hgen
  · rintro o' ho t c r
    constructor
    · rintro ⟨cap, hres, rfl⟩
      exact ⟨cap, (resolve_revoke_of_ne s₀ tid o destroy ho t c r).mpr hres, rfl⟩
    · rintro ⟨cap, hres, rfl⟩
      exact ⟨cap, (resolve_revoke_of_ne s₀ tid o destroy ho t c r).mp hres, rfl⟩

/-- The race of the title: thread 2 revokes between the two halves of thread
1's derivation, and the slot filled afterwards is stamped before the
revocation. -/
theorem revoke_permanent_race :
    let before : List (ThreadId × RaceStep Bool) :=
      [(0, .createObject .ipcEndpoint), (0, .grant false 0 (Rights.send.union .grant)),
        (1, .deriveResolve false 0 .send true)]
    let s₂ := run step ((run step boot before).step (2, .revoke 0 false))
      [(1, .derivePush)]
    (s₂.caps.tables true).slot? 0 = some ⟨0, .send, 1⟩ ∧ s₂.readAt true 0 < before.length ∧
      ∀ r cap', s₂.caps.resolve true 0 r ≠ .ok cap' := by
  intro before s₂
  have hslot : (s₂.caps.tables true).slot? 0 = some ⟨0, .send, 1⟩ := rfl
  have hread : s₂.readAt true 0 < before.length := by decide
  have hrange : Along step InRange (boot : RaceState Bool)
      (before ++ (2, .revoke 0 false) :: [(1, .derivePush)]) :=
    ⟨trivial, trivial, trivial, (by decide : 1 + 1 < 2 ^ 64), trivial, trivial⟩
  have h := (revoke_permanent before [(1, .derivePush)] 2 0 false hrange).1
  exact ⟨hslot, hread, h true 0 _ hslot rfl hread⟩

variable (s) in
theorem run_revoke_replicate (tid : ThreadId) (o : ObjectId) (n : Nat) :
    let s' := run step s (replicate n (tid, .revoke o false))
    s'.caps.tables = s.caps.tables ∧ s'.readAt = s.readAt ∧ s'.caps.core.currentGen o =
        (s.caps.core.currentGen o).map (· + ofNat n) := by
  induction n generalizing s with
  | zero => simp
  | succ n ih =>
    obtain ⟨htables, hread, hgen⟩ := ih (s.step (tid, .revoke o false))
    have hone : (s.step (tid, .revoke o false)).caps.core.currentGen o =
        (s.caps.core.revoke o false).currentGen o := rfl
    rw [Core.currentGen_revoke, if_pos rfl, if_neg Bool.false_ne_true] at hone
    refine ⟨htables, hread, ?_⟩
    rw [replicate_succ, run_cons, hgen, hone, Option.map_map]
    congr 1
    funext g
    simp only [comp_apply, ofNat_add, UInt64.add_assoc]
    rw [UInt64.add_comm (ofNat n)]
    rfl

/-- Revoked a multiple of `2^64` times, the object has the generation again
that the capability was granted with. -/
theorem resolve_after_replicate {n : Nat} (hn : UInt64.ofNat n = 0) :
    let s0 := run step (boot : RaceState Unit)
      [(0, .createObject .ipcEndpoint), (0, .grant () 0 .send)]
    let s2 := run step s0 (replicate n (0, .revoke 0 false))
    s2.readAt () 0 < s0.clock ∧ s2.caps.resolve () 0 .send = .ok ⟨0, .send, 1⟩ := by
  intro s0 s2
  obtain ⟨htables, hread, hgen⟩ := run_revoke_replicate s0 0 0 n
  refine ⟨?_, resolve_ok_iff.mpr ⟨?_, ?_, by decide⟩⟩
  · rw [hread]
    decide
  · rw [htables]
    rfl
  · rw [hgen, hn]
    rfl

/-- **Where it fails.** Destroying an id that names no object yet does not
stop the object created under it later; and after `2^64` revocations the
generation is back where a capability read it. -/
theorem revoke_needs_range : (run step (boot : RaceState Unit)
        [(0, .revoke 0 true), (0, .createObject .ipcEndpoint),
          (0, .grant () 0 .send)]).caps.resolve () 0 .send = .ok ⟨0, .send, 1⟩ ∧
    let s₀ := run step (boot : RaceState Unit)
      [(0, .createObject .ipcEndpoint), (0, .grant () 0 .send)]
    let s₂ := run step s₀ (replicate (2 ^ 64) (0, .revoke 0 false))
    s₂.readAt () 0 < s₀.clock ∧ s₂.caps.resolve () 0 .send = .ok ⟨0, .send, 1⟩ :=
  ⟨rfl, resolve_after_replicate (by decide)⟩

end RaceState

end AgenticOS
