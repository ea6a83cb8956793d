import AgenticOS.Capability.System

/-!
# Capability confinement

Without `grant`, no chain of derivations through any number of tables makes a
right appear that no table could exercise. The argument is one relation on
states, `Confined`: what resolves later goes back to what resolved earlier,
either in the very same slot or through a capability that also held `GRANT`.
The relation is transitive because rights sets absorb a second `GRANT`, so
one lemma about one call is enough.

A call that raises a generation could, in an arbitrary state, meet a
capability that carries that generation already. `WellMinted` excludes it: no
capability is ahead of its object. It holds at boot, and every call keeps it
(`grant` included) unless a generation wraps past its 64 bits.
-/

namespace AgenticOS

open Foundation UInt64

/-! ## Generations only grow -/

theorem Core.mintGen_le_createObject (k : Core) (kind : KernelObjectKind)
    (o : ObjectId) : k.mintGen o ≤ (k.createObject kind).2.mintGen o := by
  rw [Core.mintGen_createObject]
  split_ifs with hnew
  · rw [Core.mintGen_eq_zero (Nat.le_of_eq hnew.symm)]
    decide
  · exact UInt64.le_refl _

theorem Core.mintGen_lt_revoke {k : Core} {o : ObjectId}
    (h : (k.mintGen o).toNat + 1 < 2 ^ 64) : k.mintGen o < k.mintGen o + 1 := by
  rw [lt_iff_toNat_lt, UInt64.toNat_add]
  simp only [reduceToNat]
  omega

theorem Core.mintGen_le_revoke {k : Core} {o : ObjectId}
    (h : (k.mintGen o).toNat + 1 < 2 ^ 64) (destroy : Bool) (o' : ObjectId) :
    k.mintGen o' ≤ (k.revoke o destroy).mintGen o' := by
  rw [Core.mintGen_revoke]
  split_ifs with ho
  · rw [ho.1]
    exact UInt64.le_of_lt (Core.mintGen_lt_revoke h)
  · exact UInt64.le_refl _

namespace CapState

variable {τ : Type}

/-- No capability carries a generation its object has not reached. -/
def WellMinted (s : CapState τ) : Prop :=
  ∀ t c cap, (s.tables t).slot? c = some cap →
    cap.generation ≤ s.core.mintGen cap.objectId

/-- The call does not wrap a generation: a `revoke` finds it below `2^64 - 1`. -/
def InRange (s : CapState τ) : CapCall τ → Prop
  | .revoke o _ => (s.core.mintGen o).toNat + 1 < 2 ^ 64
  | _ => True

instance (s : CapState τ) : (c : CapCall τ) → Decidable (s.InRange c)
  | .revoke o _ =>
    inferInstanceAs (Decidable ((s.core.mintGen o).toNat + 1 < 2 ^ 64))
  | .createObject _ | .grant .. | .resolve .. | .derive .. | .deriveSelf .. =>
    .isTrue trivial

/-- Every capability that resolves in `s'` was authorised by `s`: the same
slot resolved for the same rights, or some capability on the object resolved
for those rights together with `GRANT`. -/
def Confined (s s' : CapState τ) : Prop :=
  ∀ t c r cap, s'.resolve t c r = .ok cap →
    (∃ t' c' cap', s.resolve t' c' (r.union .grant) = .ok cap' ∧
      cap'.objectId = cap.objectId) ∨
    s.resolve t c r = .ok cap

theorem wellMinted_boot : (boot : CapState τ).WellMinted := by
  intro t c _ h
  simp [boot, CapabilityTable.new, CapabilityTable.slot?] at h

theorem Confined.refl (s : CapState τ) : Confined s s :=
  fun _ _ _ _ h => .inr h

theorem Confined.trans {s1 s2 s3 : CapState τ} (h1 : Confined s1 s2)
    (h2 : Confined s2 s3) : Confined s1 s3 := by
  intro t c r cap h
  rcases h2 t c r cap h with ⟨t', c', cap', hres, hobj⟩ | hsame
  · rcases h1 t' c' _ cap' hres with ⟨t'', c'', cap'', hres', hobj'⟩ | hsame
    · -- a second `GRANT` adds nothing
      refine .inl ⟨t'', c'', cap'', ?_, hobj'.trans hobj⟩
      obtain ⟨hslot, hgen, hr⟩ := resolve_ok_iff.mp hres'
      exact resolve_ok_iff.mpr ⟨hslot, hgen, (Rights.contains_union_iff.mp hr).1⟩
    · exact .inl ⟨t', c', cap', hsame, hobj⟩
  · exact h1 t c r cap hsame

variable [DecidableEq τ]

/-! ## One call -/

variable {s : CapState τ} {c : CapCall τ}

theorem mintGen_le_step (h : s.InRange c)
    (o : ObjectId) : s.core.mintGen o ≤ (s.step c).core.mintGen o := by
  have hsame : (s.step c).core.objects = s.core.objects →
      s.core.mintGen o ≤ (s.step c).core.mintGen o := by
    intro e
    rw [Core.mintGen_congr e]
    exact UInt64.le_refl _
  cases call_effect s c with
  | quiet hobjects => exact hsame hobjects
  | minted _ _ _ hobjects => exact hsame hobjects
  | copied _ _ _ _ _ _ _ hobjects => exact hsame hobjects
  | created kind hobjects _ =>
    rw [Core.mintGen_congr hobjects]
    exact Core.mintGen_le_createObject _ _ _
  | revoked o' destroy hobjects _ =>
    rw [Core.mintGen_congr hobjects]
    exact Core.mintGen_le_revoke h _ _

theorem wellMinted_step (hs : s.WellMinted) (h : s.InRange c) : (s.step c).WellMinted := by
  -- an old slot is below its object's old generation, which only grows
  have hold : ∀ t' c' cap, (s.tables t').slot? c' = some cap →
      cap.generation ≤ (s.step c).core.mintGen cap.objectId :=
    fun t' c' cap hslot =>
      UInt64.le_trans (hs t' c' cap hslot) (mintGen_le_step h _)
  intro t' c' cap hslot
  cases call_effect s c with
  | quiet _ htables => exact hold t' c' cap (by rwa [htables] at hslot)
  | created _ _ htables => exact hold t' c' cap (by rwa [htables] at hslot)
  | revoked _ _ _ htables => exact hold t' c' cap (by rwa [htables] at hslot)
  | minted t o r hobjects htables =>
    rw [htables, slot?_update_push] at hslot
    split_ifs at hslot with hnew
    · obtain rfl := Option.some.inj hslot
      exact mintGen_le_step h o
    · exact hold t' c' cap hslot
  | copied t sc source requested target hsource _ _ htables =>
    rw [htables, slot?_update_push] at hslot
    split_ifs at hslot with hnew
    · obtain rfl := Option.some.inj hslot
      exact hold t sc source (resolve_ok_iff.mp hsource).1
    · exact hold t' c' cap hslot

/-- **One call confines.** Creating an object leaves every capability that
could name it a generation behind, revoking leaves every capability on the
object behind, and a derivation copies from a capability with `GRANT`. -/
theorem confined_step (hs : s.WellMinted)
    (h : s.InRange c) (hgrant : c.isGrant = false) : Confined s (s.step c) := by
  intro t' c' r cap hres
  cases call_effect s c with
  | quiet hobjects htables =>
    exact .inr ((resolve_congr hobjects (by rw [htables])).mp hres)
  | created kind hobjects htables =>
    obtain ⟨hslot, hgen, hr⟩ := resolve_ok_iff.mp hres
    rw [Core.currentGen_congr hobjects, Core.currentGen_createObject] at hgen
    split_ifs at hgen with hnew
    · have hle := hs t' c' cap hslot
      rw [Core.mintGen_eq_zero (Nat.le_of_eq hnew.symm), ← Option.some.inj hgen] at hle
      exact absurd hle (by decide)
    · exact .inr (resolve_ok_iff.mpr ⟨hslot, hgen, hr⟩)
  | minted => cases hgrant
  | copied t sc source requested target hsource hrights hobjects htables =>
    obtain ⟨hslot, hgen, hr⟩ := resolve_ok_iff.mp hres
    rw [htables, slot?_update_push] at hslot
    rw [Core.currentGen_congr hobjects] at hgen
    split_ifs at hslot with hnew
    · -- the copy itself: its source resolves for `r` and `GRANT`
      obtain rfl := Option.some.inj hslot
      obtain ⟨hslot', hgen', hgrant'⟩ := resolve_ok_iff.mp hsource
      have hcover : source.rights.contains (r.union .grant) = true :=
        Rights.contains_union_iff.mpr ⟨Rights.contains_trans hrights hr, hgrant'⟩
      exact .inl ⟨t, sc, source, resolve_ok_iff.mpr ⟨hslot', hgen', hcover⟩, rfl⟩
    · exact .inr (resolve_ok_iff.mpr ⟨hslot, hgen, hr⟩)
  | revoked o destroy hobjects htables =>
    obtain ⟨hslot, hgen, hr⟩ := resolve_ok_iff.mp hres
    rw [Core.currentGen_congr hobjects, Core.currentGen_revoke] at hgen
    by_cases ho : cap.objectId = o
    · rw [if_pos ho] at hgen
      cases destroy with
      | true => simp at hgen
      | false =>
        simp only [Bool.false_eq_true, if_false, Option.map_eq_some_iff] at hgen
        obtain ⟨g, hg, hnext⟩ := hgen
        have hle := hs t' c' cap hslot
        have hlt : (s.core.mintGen o).toNat + 1 < 2 ^ 64 := h
        rw [ho, Core.mintGen_of_currentGen hg, ← hnext, le_iff_toNat_le, UInt64.toNat_add] at hle
        rw [Core.mintGen_of_currentGen hg] at hlt
        simp only [reduceToNat] at hle
        omega
    · rw [if_neg ho] at hgen
      exact .inr (resolve_ok_iff.mpr ⟨hslot, hgen, hr⟩)

/-! ## Whole sequences -/

theorem wellMinted_after (hs : s.WellMinted)
    {calls : List (CapCall τ)} (h : Along step InRange s calls) :
    (s.after calls).WellMinted :=
  run_invariant (fun _ _ hs h => wellMinted_step hs h) hs h

/-- **Capability confinement.** Along any sequence of calls without `grant`
in which no generation wraps, a capability that resolves at the end goes back
to the start: the same slot resolved for the same rights already, or some
table held a capability on the object that resolved for those rights together
with `GRANT`; so some table could exercise the right at the start. -/
theorem resolve_confined {s : CapState τ} (hs : s.WellMinted)
    {calls : List (CapCall τ)} (hgrant : ∀ c ∈ calls, c.isGrant = false)
    (hrange : Along step InRange s calls) {t : τ} {c : CapId} {r : Rights}
    {cap : Capability} (hres : (s.after calls).resolve t c r = .ok cap) :
    ((∃ t' c' cap', s.resolve t' c' (r.union .grant) = .ok cap' ∧
        cap'.objectId = cap.objectId) ∨ s.resolve t c r = .ok cap) ∧
      ∃ t' c' cap', s.resolve t' c' r = .ok cap' ∧ cap'.objectId = cap.objectId := by
  have hconf : Confined s (s.after calls) := by
    clear hres
    induction calls generalizing s with
    | nil => exact Confined.refl s
    | cons c calls ih =>
      have hstep := confined_step hs hrange.1 (hgrant c List.mem_cons_self)
      have hrest := ih (wellMinted_step hs hrange.1)
        (fun c' hc' => hgrant c' (List.mem_cons_of_mem _ hc')) hrange.2
      exact hstep.trans hrest
  have horigin := hconf t c r cap hres
  refine ⟨horigin, ?_⟩
  rcases horigin with ⟨t', c', cap', hres', hobj⟩ | hsame
  · obtain ⟨hslot, hgen, hr⟩ := resolve_ok_iff.mp hres'
    exact ⟨t', c', cap', resolve_ok_iff.mpr
      ⟨hslot, hgen, (Rights.contains_union_iff.mp hr).1⟩, hobj⟩
  · exact ⟨t, c, cap, hsame, rfl⟩

/-- An endpoint is created and granted to one table, which delegates `SEND` to
the other. -/
theorem resolve_confined_delegation :
    let s : CapState Bool := boot.after
      [.createObject .ipcEndpoint, .grant false 0 (Rights.send.union .grant)]
    let calls : List (CapCall Bool) := [.derive false 0 .send true, .revoke 1 true]
    (s.after calls).resolve true 0 .send = .ok ⟨0, .send, 1⟩ ∧
    ((∃ t' c' cap', s.resolve t' c' (Rights.send.union .grant) = .ok cap' ∧
        cap'.objectId = 0) ∨ s.resolve true 0 .send = .ok ⟨0, .send, 1⟩) ∧
      ∃ t' c' cap', s.resolve t' c' .send = .ok cap' ∧ cap'.objectId = 0 := by
  intro s calls
  have hres : (s.after calls).resolve true 0 .send = .ok ⟨0, .send, 1⟩ := rfl
  have hs : s.WellMinted := wellMinted_after wellMinted_boot ⟨trivial, trivial, trivial⟩
  have hgrant : ∀ c ∈ calls, c.isGrant = false := by decide
  have hrange : Along step InRange s calls := by decide
  exact ⟨hres, resolve_confined hs hgrant hrange hres⟩

/-- One object of generation `g`, and one capability on it of generation `g'`. -/
def single (g g' : UInt64) : CapState Unit where
  core := ⟨[⟨.ipcEndpoint, g, true⟩], .empty, 0⟩
  tables := fun _ => ⟨[some ⟨0, .send, g'⟩]⟩

theorem single_slot? {g g' : UInt64} {c : CapId} {cap : Capability}
    (h : ((single g g').tables ()).slot? c = some cap) : cap = ⟨0, .send, g'⟩ := by
  simp only [single, CapabilityTable.slot?, List.getElem?_singleton] at h
  split_ifs at h
  · exact (Option.some.inj h).symm
  · cases h

theorem single_not_ok {g g' : UInt64} (hne : g ≠ g') (t : Unit) (c : CapId)
    (r : Rights) (cap : Capability) : (single g g').resolve t c r ≠ .ok cap := by
  intro h
  obtain ⟨hslot, hgen, -⟩ := resolve_ok_iff.mp h
  obtain rfl := single_slot? hslot
  exact hne (Option.some.inj hgen)

/-- **Confinement fails from arbitrary states.** With a capability ahead of
its object, one `revoke` makes it resolve although nothing resolved before; so
it does where no capability is ahead but the generation wraps. -/
theorem confinement_needs_range : (((single 1 2).after [.revoke 0 false]).resolve () 0 .send =
        .ok ⟨0, .send, 2⟩ ∧
      ∀ t c r cap, (single 1 2).resolve t c r ≠ .ok cap) ∧
    (single 0xFFFFFFFFFFFFFFFF 0).WellMinted ∧
    ((single 0xFFFFFFFFFFFFFFFF 0).after [.revoke 0 false]).resolve () 0 .send = .ok ⟨0, .send, 0⟩ ∧
      ∀ t c r cap, (single 0xFFFFFFFFFFFFFFFF 0).resolve t c r ≠ .ok cap := by
  refine ⟨⟨rfl, single_not_ok (by decide)⟩, ?_, rfl, single_not_ok (by decide)⟩
  intro t c cap hslot
  obtain rfl := single_slot? hslot
  decide

end CapState

end AgenticOS
