import AgenticOS.Capability.Model

/-!
# Capabilities at spawn time

`spawn_with_capabilities` and `spawn_with_manifest` fill the table of a new thread from
a list of grants, one of them by the global policy and the other by the manifest of
the program. A grant that is refused leaves no slot behind, so every later grant moves
down by one, while callers count slots by the list.
-/

namespace AgenticOS

open List

/-! ## Policy and manifest -/

namespace Policy

def agentMaxRights : Rights :=
  ((Rights.introspect.union .auditQuery).union .send).union .receive

def allows (rights : Rights) : Bool := agentMaxRights.contains rights

end Policy

inductive CapKind where
  | ipcEndpoint
  | mmioRegion
  | interruptLine
  | portIoRange
  | fileObject
  | introspectionHandle
  | auditQueryHandle
  | socket
  | surface
  | userSession
  | cryptoKey
  | dnsResolver
  | execHandle
  deriving DecidableEq, Repr

namespace CapKind

def toUInt8 : CapKind → UInt8
  | ipcEndpoint => 0
  | mmioRegion => 1
  | interruptLine => 2
  | portIoRange => 3
  | fileObject => 4
  | introspectionHandle => 5
  | auditQueryHandle => 6
  | socket => 7
  | surface => 8
  | userSession => 9
  | cryptoKey => 10
  | dnsResolver => 11
  | execHandle => 12

end CapKind

def kindOf : KernelObjectKind → CapKind
  | .ipcEndpoint => .ipcEndpoint
  | .mmioRegion .. => .mmioRegion
  | .interruptLine .. => .interruptLine
  | .portIoRange .. => .portIoRange
  | .fileObject .. => .fileObject
  | .introspectionHandle => .introspectionHandle
  | .auditQueryHandle => .auditQueryHandle
  | .socket .. => .socket
  | .surface .. => .surface
  | .userSession .. => .userSession
  | .cryptoKey .. => .cryptoKey
  | .dnsResolver .. => .dnsResolver
  | .execHandle => .execHandle

structure Manifest where
  bits : UInt16
  deriving DecidableEq, Repr

namespace Manifest

def none : Manifest := ⟨0⟩

def allow (self : Manifest) (kind : CapKind) : Manifest :=
  ⟨self.bits ||| (1 <<< kind.toUInt8.toUInt16)⟩

def declares (self : Manifest) (kind : CapKind) : Bool :=
  (self.bits &&& (1 <<< kind.toUInt8.toUInt16)) != 0

end Manifest

/-! ## The loops -/

abbrev SpawnGrant := ObjectId × Rights

abbrev Granting := CapabilityTable × Core

def grantOne (st : Granting) (g : SpawnGrant) : Granting :=
  let (_, table, k) := st.1.grant g.1 g.2 st.2
  (table, k)

/-- The body of the loop of `spawn_with_capabilities`. -/
def grantByPolicy (st : Granting) (g : SpawnGrant) : Granting :=
  if Policy.allows g.2 then grantOne st g
  else (st.1, st.2.record (.policyDenied g.2.bits))

/-- The body of the loop of `spawn_with_manifest`. A dead id is passed over. -/
def grantByManifest (manifest : Manifest) (st : Granting) (g : SpawnGrant) : Granting :=
  match st.2.objectKind g.1 with
  | none => st
  | some objectKind =>
    if manifest.declares (kindOf objectKind) then grantOne st g
    else (st.1, st.2.record (.manifestDenied (kindOf objectKind).toUInt8))

/-- The table of the new thread, which starts empty. -/
def spawnWithCapabilities (grants : List SpawnGrant) (k : Core) : Granting :=
  grants.foldl grantByPolicy (.new, k)

def spawnWithManifest (grants : List SpawnGrant) (manifest : Manifest) (k : Core) : Granting :=
  grants.foldl (grantByManifest manifest) (.new, k)

/-! ## The slots -/

def minted (k : Core) (g : SpawnGrant) : Capability := ⟨g.1, g.2, k.mintGen g.1⟩

/-- The body of a loop grants what `p` accepts and passes over the rest. -/
def GrantsBy (p : Core → SpawnGrant → Bool) (body : Granting → SpawnGrant → Granting) : Prop :=
  ∀ table k g, (body (table, k) g).2.objects = k.objects ∧
    (body (table, k) g).1 = if p k g then (table.push (minted k g)).2 else table

theorem grantsBy_grantByPolicy : GrantsBy (fun _ g => Policy.allows g.2) grantByPolicy := by
  intro _ k g
  unfold grantByPolicy
  split_ifs
  · exact ⟨rfl, rfl⟩
  · exact ⟨rfl, rfl⟩

/-- The manifest accepts a grant: the object is alive and its kind is declared. -/
def declared (manifest : Manifest) (k : Core) (g : SpawnGrant) : Bool :=
  (k.objectKind g.1).any fun kind => manifest.declares (kindOf kind)

theorem declared_congr (manifest : Manifest) {k k' : Core} (h : k'.objects = k.objects) :
    declared manifest k' = declared manifest k := by
  funext g
  rw [declared, declared, Core.objectKind_congr h]

theorem grantsBy_grantByManifest (manifest : Manifest) :
    GrantsBy (declared manifest) (grantByManifest manifest) := by
  intro _ k g
  unfold grantByManifest declared
  cases k.objectKind g.1 with
  | none => exact ⟨rfl, rfl⟩
  | some =>
    dsimp only [Option.any_some]
    split_ifs
    · exact ⟨rfl, rfl⟩
    · exact ⟨rfl, rfl⟩

/-- **The loop.** The slots are the accepted grants in their order. -/
theorem GrantsBy.foldl {p : Core → SpawnGrant → Bool} {body : Granting → SpawnGrant → Granting}
    (h : GrantsBy p body) (hp : ∀ k k' : Core, k'.objects = k.objects → p k' = p k)
    (grants : List SpawnGrant) (table : CapabilityTable) (k : Core) :
    (grants.foldl body (table, k)).2.objects = k.objects ∧ (grants.foldl body (table, k)).1.slots =
        table.slots ++ (grants.filter (p k)).map fun g => some (minted k g) := by
  induction grants generalizing table k with
  | nil => exact ⟨rfl, by simp⟩
  | cons g grants ih =>
    obtain ⟨hobjects, htable⟩ := h table k g
    obtain ⟨hrest, hslots⟩ := ih (body (table, k) g).1 (body (table, k) g).2
    rw [foldl_cons]
    refine ⟨hrest.trans hobjects, ?_⟩
    have hminted : minted (body (table, k) g).2 = minted k := by
      funext g'
      rw [minted, minted, Core.mintGen_congr hobjects]
    rw [show grants.foldl body (body (table, k) g) = grants.foldl body
      ((body (table, k) g).1, (body (table, k) g).2) from rfl, hslots, hp _ _ hobjects, hminted,
      htable, filter_cons]
    split_ifs
    · simp [CapabilityTable.push]
    · rfl

theorem getElem?_filter_eq_some_iff {α : Type} (p : α → Bool) (xs : List α) (j : Nat) (x : α) :
    (xs.filter p)[j]? = some x ↔ ∃ m, xs[m]? = some x ∧ p x = true ∧ (xs.take m).countP p = j := by
  induction xs generalizing j with
  | nil => simp
  | cons y xs ih =>
    constructor
    · intro h
      by_cases hy : p y = true
      · rw [filter_cons_of_pos hy] at h
        cases j with
        | zero =>
          obtain rfl : y = x := by simpa using h
          exact ⟨0, rfl, hy, rfl⟩
        | succ j =>
          obtain ⟨m, hm, hx, hcount⟩ := (ih j).mp h
          exact ⟨m + 1, hm, hx, by rw [take_succ_cons, countP_cons_of_pos hy, hcount]⟩
      · rw [filter_cons_of_neg hy] at h
        obtain ⟨m, hm, hx, hcount⟩ := (ih j).mp h
        exact ⟨m + 1, hm, hx, by rw [take_succ_cons, countP_cons_of_neg hy, hcount]⟩
    · rintro ⟨m, hm, hx, hcount⟩
      cases m with
      | zero =>
        obtain rfl : y = x := by simpa using hm
        obtain rfl : 0 = j := hcount
        rw [filter_cons_of_pos hx]
        rfl
      | succ m =>
        rw [take_succ_cons] at hcount
        by_cases hy : p y = true
        · rw [countP_cons_of_pos hy] at hcount
          rw [filter_cons_of_pos hy, ← hcount, List.getElem?_cons_succ]
          exact (ih _).mpr ⟨m, hm, hx, rfl⟩
        · rw [countP_cons_of_neg hy] at hcount
          rw [filter_cons_of_neg hy]
          exact (ih j).mpr ⟨m, hm, hx, hcount⟩

/-! ## Predictable slots -/

def Core.Live (k : Core) (objectId : ObjectId) : Prop := (k.currentGen objectId).isSome = true

instance (k : Core) (objectId : ObjectId) : Decidable (k.Live objectId) :=
  inferInstanceAs (Decidable (_ = true))

/-- Slot `i` answers for grant `i`: it names nothing else, and it resolves for the
rights of the grant exactly when the grant is permitted and its object alive. -/
def Predictable (permitted : SpawnGrant → Bool) (grants : List SpawnGrant) (st : Granting) : Prop :=
  ∀ c : CapId,
    (∀ r cap, (st.1.resolve c r st.2).1 = .ok cap →
      grants[c.toNat]? = some (cap.objectId, cap.rights)) ∧
    ∀ g, grants[c.toNat]? = some g →
      ((∃ cap, (st.1.resolve c g.2 st.2).1 = .ok cap) ↔ permitted g = true ∧ st.2.Live g.1)

/-- No grant that is permitted and alive, and whose slot a `CapId` can name, comes
after one that is not permitted. -/
def RefusalsLast (permitted : SpawnGrant → Bool) (grants : List SpawnGrant) (k : Core) : Prop :=
  ∀ m g, grants[m]? = some g → permitted g = true → k.Live g.1 →
    (grants.take m).countP permitted < UInt32.size → ∀ g' ∈ grants.take m, permitted g' = true

theorem Rights.contains_self (r : Rights) : r.contains r = true :=
  contains_iff_subset.mpr subset_rfl

variable {st : Granting} {grants : List SpawnGrant} {p : SpawnGrant → Bool}

theorem resolve_filled {k : Core} (hobjects : st.2.objects = k.objects)
    (hslots : st.1.slots = (grants.filter p).map fun g => some (minted k g))
    (c : CapId) (r : Rights) (cap : Capability) :
    (st.1.resolve c r st.2).1 = .ok cap ↔
      ∃ m g, grants[m]? = some g ∧ p g = true ∧ (grants.take m).countP p = c.toNat ∧
        cap = minted k g ∧ k.Live g.1 ∧ g.2.contains r = true := by
  have hslot : st.1.slot? c = some cap ↔ ∃ g, (grants.filter p)[c.toNat]? = some g ∧
      cap = minted k g := by
    rw [CapabilityTable.slot?, hslots, List.getElem?_map]
    cases (grants.filter p)[c.toNat]? with
    | none => simp
    | some => simp [eq_comm]
  -- a live object is minted at the generation it resolves with
  have hlive : ∀ g : SpawnGrant, k.currentGen g.1 = some (k.mintGen g.1) ↔ k.Live g.1 := by
    intro g
    constructor
    · intro h
      rw [Core.Live, h]
      rfl
    · intro h
      obtain ⟨_, hgen⟩ := Option.isSome_iff_exists.mp h
      rw [hgen, Core.mintGen_of_currentGen hgen]
  rw [CapabilityTable.resolve_ok_iff, hslot, Core.currentGen_congr hobjects]
  constructor
  · rintro ⟨⟨g, hg, rfl⟩, hgen, hr⟩
    obtain ⟨m, hm, hp, hcount⟩ := (getElem?_filter_eq_some_iff p grants _ g).mp hg
    exact ⟨m, g, hm, hp, hcount, rfl, (hlive g).mp hgen, hr⟩
  · rintro ⟨m, g, hm, hp, hcount, rfl, hg, hr⟩
    exact ⟨⟨g, (getElem?_filter_eq_some_iff p grants _ g).mpr ⟨m, hm, hp, hcount⟩, rfl⟩,
      (hlive g).mpr hg, hr⟩

theorem countP_take_of_forall {m : Nat}
    (hm : m ≤ grants.length) (h : ∀ g ∈ grants.take m, p g = true) :
    (grants.take m).countP p = m := by
  rw [countP_eq_length.mpr h, length_take, Nat.min_eq_left hm]

theorem predictable_iff {k : Core} (hobjects : st.2.objects = k.objects)
    (hslots : st.1.slots = (grants.filter p).map fun g => some (minted k g)) :
    Predictable p grants st ↔ RefusalsLast p grants k := by
  have hresolve := resolve_filled hobjects hslots
  have hlen : ∀ {m : Nat} {g : SpawnGrant}, grants[m]? = some g → m < grants.length :=
    fun h => (List.getElem?_eq_some_iff.mp h).1
  have hLive : ∀ o, st.2.Live o ↔ k.Live o := fun o => by
    rw [Core.Live, Core.Live, Core.currentGen_congr hobjects]
  constructor
  · intro h m
    -- the first place where it fails would name a grant that stands before it
    induction m using Nat.strong_induction_on with
    | _ m ih =>
      intro g hm hp hg hfits
      by_contra hrefused
      obtain ⟨c, hc⟩ : ∃ c : CapId, c.toNat = (grants.take m).countP p :=
        ⟨UInt32.ofNat _, UInt32.toNat_ofNat_of_lt hfits⟩
      have hlt : c.toNat < m := by
        rw [hc]
        refine lt_of_le_of_ne (countP_le_length.trans (length_take_le _ _)) ?_
        intro heq
        refine hrefused (countP_eq_length.mp ?_)
        rw [heq, length_take, Nat.min_eq_left (hlen hm).le]
      have hslot := (h c).1 g.2 (minted k g)
        ((hresolve c g.2 _).mpr ⟨m, g, hm, hp, hc.symm, rfl, hg, g.2.contains_self⟩)
      have hbefore : ∀ x ∈ grants.take c.toNat, p x = true :=
        ih c.toNat hlt g hslot hp hg
          (lt_of_le_of_lt (countP_le_length.trans (length_take_le _ _)) c.toNat_lt)
      have hsub : (grants.take (c.toNat + 1)).countP p ≤ (grants.take m).countP p :=
        (take_sublist_take_left hlt).countP_le
      have hcount : (grants.take (c.toNat + 1)).countP p = c.toNat + 1 := by
        refine countP_take_of_forall (hlen hslot) fun x hx => ?_
        rw [take_add_one, hslot] at hx
        rcases mem_append.mp hx with hx | hx
        · exact hbefore x hx
        · obtain rfl : x = (g.1, g.2) := by simpa [minted] using hx
          exact hp
      omega
  · intro h c
    have hplace : ∀ {m g}, grants[m]? = some g → p g = true → k.Live g.1 →
        (grants.take m).countP p = c.toNat → m = c.toNat := by
      intro m g hm hp hg hcount
      have hall := h m g hm hp hg (hcount ▸ c.toNat_lt)
      exact (countP_take_of_forall (hlen hm).le hall).symm.trans hcount
    refine ⟨fun r cap hcap => ?_, fun g hget => ⟨?_, ?_⟩⟩
    · obtain ⟨m, g, hm, hp, hcount, rfl, hg, -⟩ := (hresolve c r cap).mp hcap
      rw [← hplace hm hp hg hcount]
      exact hm
    · rintro ⟨cap, hcap⟩
      obtain ⟨m, _, hm, hp, hcount, -, hg, -⟩ := (hresolve c g.2 cap).mp hcap
      rw [← hplace hm hp hg hcount, hm] at hget
      obtain rfl := Option.some.inj hget
      exact ⟨hp, (hLive _).mpr hg⟩
    · rintro ⟨hp, hg⟩
      rw [hLive] at hg
      have hfits : (grants.take c.toNat).countP p < UInt32.size :=
        lt_of_le_of_lt (countP_le_length.trans (length_take_le _ _)) c.toNat_lt
      have hall := h c.toNat g hget hp hg hfits
      exact ⟨minted k g, (hresolve c g.2 _).mpr ⟨c.toNat, g, hget, hp,
        countP_take_of_forall (hlen hget).le hall, rfl, hg, g.2.contains_self⟩⟩

/-- **Slots at spawn.** The slots of the new thread follow the list of grants exactly
when the grants that are refused stand at its end, for the policy and for a manifest. -/
theorem spawn_slots_iff (grants : List SpawnGrant) (manifest : Manifest) (k : Core) :
    (Predictable (fun g => Policy.allows g.2) grants (spawnWithCapabilities grants k) ↔
      RefusalsLast (fun g => Policy.allows g.2) grants k) ∧
    (Predictable (declared manifest k) grants (spawnWithManifest grants manifest k) ↔
      RefusalsLast (declared manifest k) grants k) := by
  constructor
  · obtain ⟨hobjects, hslots⟩ :=
      grantsBy_grantByPolicy.foldl (fun _ _ _ => rfl) grants .new k
    exact predictable_iff hobjects hslots
  · obtain ⟨hobjects, hslots⟩ := (grantsBy_grantByManifest manifest).foldl
      (fun _ _ h => declared_congr manifest h) grants .new k
    exact predictable_iff hobjects hslots

/-- Two grants of the introspection handle, the first with a right no agent may hold:
the second lands in slot 0. -/
theorem refused_grant_moves_slot :
    let k := (Core.boot.createObject .introspectionHandle).2
    let grants : List SpawnGrant := [(0, .map), (0, .introspect)]
    ¬ Predictable (fun g => Policy.allows g.2) grants (spawnWithCapabilities grants k) := by
  intro k grants h
  have hslot := (h 0).1 .introspect ⟨0, .introspect, 1⟩ (by decide +kernel)
  revert hslot
  decide +kernel

end AgenticOS
