import AgenticOS.Foundation.Absorb

/-!
# The authority graph

The table of grants that both hardware projections are read from
(`kernel_common/src/authority_graph.rs`): a bounded array of optional grants,
filled from its first empty slot and emptied by principal and base address.
-/

namespace AgenticOS

open List Option UInt64

/-! ## Principals, grants and entries -/

inductive Principal where
  | cpuProcess (pid : UInt32)
  | pciDevice (bus device function : UInt8)
  deriving DecidableEq, Repr

structure Grant where
  principal : Principal
  physBase : UInt64
  len : UInt64
  writable : Bool
  executable : Bool
  deriving DecidableEq, Repr

structure Entry where
  physPage : UInt64
  writable : Bool
  executable : Bool
  deriving DecidableEq, Repr

namespace AuthorityGraph

def pageSize : UInt64 := 4096

def pagesFor (len : UInt64) : UInt64 := (len + pageSize - 1) / pageSize

/-- The slots of the kernel's table, and the room in its projection buffers. -/
def maxGrants : Nat := 32

abbrev Graph := List (Option Grant)

/-! ## The operations -/

/-- Adds `x` into the first empty slot; `false` if the table is full. -/
def grant : Graph → Grant → Bool × Graph
  | [], _ => (false, [])
  | none :: g, x => (true, some x :: g)
  | some y :: g, x => ((grant g x).1, some y :: (grant g x).2)

/-- The slot holds a grant of `principal` that starts at `physBase`. -/
def hit (principal : Principal) (physBase : UInt64) : Option Grant → Bool
  | none => false
  | some g => g.principal = principal && g.physBase = physBase

/-- Empties every slot that is hit, and says how many there were. -/
def revoke (g : Graph) (principal : Principal) (physBase : UInt64) : Nat × Graph :=
  (g.countP (hit principal physBase),
    g.map fun slot => if hit principal physBase slot then none else slot)

def pageEntry (g : Grant) (p : Nat) : Entry where
  physPage := g.physBase + UInt64.ofNat p * pageSize
  writable := g.writable
  executable := g.executable

/-- The part of `out` that the inner loop of `project` fills for one grant,
when `room` entries are left. -/
def grantEntries (g : Grant) (room : Nat) : List Entry :=
  (List.range (min (pagesFor g.len).toNat room)).map (pageEntry g)

/-- What `project` writes into an `out` of length `room`. -/
def project (principal : Principal) : Graph → Nat → List Entry
  | [], _ => []
  | _ :: _, 0 => []
  | none :: g, room + 1 => project principal g (room + 1)
  | some x :: g, room + 1 =>
    if x.principal ≠ principal then project principal g (room + 1)
    else
      let entries := grantEntries x (room + 1)
      entries ++ project principal g (room + 1 - entries.length)

def projectPageTable (g : Graph) (principal : Principal) (room : Nat) : List Entry :=
  match principal with
  | .cpuProcess _ => project principal g room
  | .pciDevice .. => []

def projectIommuTable (g : Graph) (principal : Principal) (room : Nat) : List Entry :=
  match principal with
  | .pciDevice .. => project principal g room
  | .cpuProcess _ => []

def covers (g : Grant) (physPage : UInt64) : Bool :=
  g.physBase ≤ physPage && physPage < g.physBase + pagesFor g.len * pageSize

def isReachable (g : Graph) (principal : Principal) (physPage : UInt64) : Bool :=
  g.any fun slot =>
    match slot with
    | none => false
    | some x => x.principal = principal && covers x physPage

/-! ## The live grants -/

def live (g : Graph) : List Grant := g.reduceOption

@[simp] theorem live_nil : live [] = [] := rfl

@[simp] theorem live_none (g : Graph) : live (none :: g) = live g := rfl

@[simp] theorem live_some (x : Grant) (g : Graph) : live (some x :: g) = x :: live g := rfl

@[simp] theorem live_append (g g' : Graph) : live (g ++ g') = live g ++ live g' :=
  reduceOption_append g g'

variable {g : Graph} {x : Grant}

theorem mem_live : x ∈ live g ↔ some x ∈ g :=
  reduceOption_mem_iff

variable {principal : Principal}

theorem isReachable_iff {physPage : UInt64} : isReachable g principal physPage = true ↔
      ∃ x ∈ live g, x.principal = principal ∧ covers x physPage = true := by
  simp only [isReachable, List.any_eq_true]
  constructor
  · rintro ⟨slot, hslot, h⟩
    cases slot with
    | none => cases h
    | some x =>
      rw [Bool.and_eq_true, decide_eq_true_eq] at h
      exact ⟨x, mem_live.mpr hslot, h⟩
  · rintro ⟨x, hx, hprincipal, hcovers⟩
    refine ⟨some x, mem_live.mp hx, ?_⟩
    rw [Bool.and_eq_true, decide_eq_true_eq]
    exact ⟨hprincipal, hcovers⟩

theorem grant_split {full rest : Graph} (x : Grant) (hfull : ∀ slot ∈ full, slot.isSome) :
    grant (full ++ none :: rest) x = (true, full ++ some x :: rest) := by
  induction full with
  | nil => rfl
  | cons slot full ih =>
    obtain ⟨y, rfl⟩ := isSome_iff_exists.mp (hfull slot mem_cons_self)
    have ih := ih fun s hs => hfull s (mem_cons_of_mem _ hs)
    rw [cons_append, grant, ih]
    rfl

theorem grant_full (hfull : ∀ slot ∈ g, slot.isSome) (x : Grant) : grant g x = (false, g) := by
  induction g with
  | nil => rfl
  | cons slot g ih =>
    obtain ⟨y, rfl⟩ := isSome_iff_exists.mp (hfull slot mem_cons_self)
    rw [grant, ih fun s hs => hfull s (mem_cons_of_mem _ hs)]

/-- The two outcomes of `grant`: a full table left alone, or the first empty
slot filled. -/
theorem grant_cases (g : Graph) (x : Grant) :
    grant g x = (false, g) ∨ ∃ full rest, (∀ slot ∈ full, slot.isSome) ∧ g = full ++ none :: rest ∧
        grant g x = (true, full ++ some x :: rest) := by
  have hfull : ∀ slot ∈ g.takeWhile isSome, slot.isSome :=
    fun _ => mem_takeWhile_imp
  have hsplit := takeWhile_append_dropWhile (p := isSome) (l := g)
  cases hdrop : g.dropWhile isSome with
  | nil =>
    rw [hdrop, append_nil] at hsplit
    left
    exact grant_full (hsplit ▸ hfull) x
  | cons slot rest =>
    have hnone : slot = none := by
      have h := head?_dropWhile_not isSome g
      rw [hdrop] at h
      simpa using h
    subst hnone
    rw [hdrop] at hsplit
    have hgrant : grant (g.takeWhile isSome ++ none :: rest) x = _ :=
      grant_split x hfull
    rw [hsplit] at hgrant
    exact .inr ⟨_, rest, hfull, hsplit.symm, hgrant⟩

theorem mem_live_grant {y : Grant} (h : (grant g x).1 = true) :
    y ∈ live (grant g x).2 ↔ y = x ∨ y ∈ live g := by
  rcases grant_cases g x with hrefused | ⟨full, rest, -, rfl, hadded⟩
  · rw [hrefused] at h
    cases h
  · rw [hadded]
    simp only [live_append, live_some, live_none, mem_append, mem_cons]
    tauto

theorem grant_refused (h : (grant g x).1 = false) : (grant g x).2 = g := by
  rcases grant_cases g x with hrefused | ⟨full, rest, -, -, hadded⟩
  · rw [hrefused]
  · rw [hadded] at h
    cases h

variable {physBase page : UInt64}

theorem revoke_of_no_hit
    (h : (revoke g principal physBase).1 = 0) : (revoke g principal physBase).2 = g := by
  have hmiss : ∀ slot ∈ g, ¬ hit principal physBase slot = true :=
    countP_eq_zero.mp h
  conv_rhs => rw [← List.map_id g]
  apply map_congr_left
  intro slot hslot
  rw [if_neg (hmiss slot hslot)]
  rfl

theorem revoke_fst_pos : 0 < (revoke g principal physBase).1 ↔
      ∃ x ∈ live g, x.principal = principal ∧ x.physBase = physBase := by
  rw [revoke, countP_pos_iff]
  constructor
  · rintro ⟨slot, hslot, h⟩
    cases slot with
    | none => cases h
    | some x =>
      simp only [hit, Bool.and_eq_true, decide_eq_true_eq] at h
      exact ⟨x, mem_live.mpr hslot, h⟩
  · rintro ⟨x, hx, h⟩
    refine ⟨some x, mem_live.mp hx, ?_⟩
    simp only [hit, Bool.and_eq_true, decide_eq_true_eq]
    exact h

/-! ## Projections -/

def allEntries (x : Grant) : List Entry := (List.range (pagesFor x.len).toNat).map (pageEntry x)

def grantsOf (g : Graph) (principal : Principal) : List Grant :=
  (live g).filter fun x => x.principal = principal

theorem mem_grantsOf : x ∈ grantsOf g principal ↔ x ∈ live g ∧ x.principal = principal := by
  rw [grantsOf, mem_filter, decide_eq_true_eq]

theorem grantsOf_grant_first (h : (grant g x).1 = true)
    (hfirst : grantsOf g x.principal = []) : grantsOf (grant g x).2 x.principal = [x] := by
  rcases grant_cases g x with hrefused | ⟨full, rest, -, rfl, hadded⟩
  · rw [hrefused] at h
    cases h
  · simp only [grantsOf, live_append, live_none, filter_append, append_eq_nil_iff] at hfirst
    simp [hadded, grantsOf, hfirst.1, hfirst.2]

theorem grantsOf_grant_of_ne (hne : x.principal ≠ principal) :
    grantsOf (grant g x).2 principal = grantsOf g principal := by
  rcases grant_cases g x with hrefused | ⟨full, rest, -, rfl, hadded⟩
  · rw [hrefused]
  · simp [hadded, grantsOf, hne]

theorem grantEntries_eq (x : Grant) (room : Nat) :
    grantEntries x room = (allEntries x).take room := by
  rw [grantEntries, allEntries, ← map_take, take_range, Nat.min_comm]

/-- **What `project` writes**: the pages of the principal's grants, as many as
there is room for. -/
theorem project_eq (principal : Principal) (g : Graph) (room : Nat) :
    project principal g room = ((grantsOf g principal).flatMap allEntries).take room := by
  fun_induction project principal g room with
  | case1 => simp [grantsOf]
  | case2 => rw [take_zero]
  | case3 g room ih => exact ih
  | case4 x g room hx ih =>
    rw [ih, grantsOf, grantsOf, live_some, filter_cons_of_neg (by simpa using hx)]
  | case5 x g room hx entries ih =>
    rw [ih, grantsOf, grantsOf, live_some, filter_cons_of_pos (by simpa using hx),
      flatMap_cons, take_append]
    have hroom : room + 1 - entries.length = room + 1 - (allEntries x).length := by
      simp only [entries, grantEntries, allEntries, length_map, length_range]
      omega
    rw [hroom]
    exact congrArg (· ++ _) (grantEntries_eq x (room + 1))

theorem live_revoke (g : Graph) (principal : Principal) (physBase : UInt64) :
    live (revoke g principal physBase).2 =
      (live g).filter fun x => !hit principal physBase (some x) := by
  induction g with
  | nil => rfl
  | cons slot g ih =>
    cases slot with
    | none => simpa [revoke, hit] using ih
    | some x =>
      by_cases hx : hit principal physBase (some x)
      · simpa [revoke, hx] using ih
      · simpa [revoke, hx] using ih

theorem mem_live_revoke : x ∈ live (revoke g principal physBase).2 ↔
      x ∈ live g ∧ ¬ (x.principal = principal ∧ x.physBase = physBase) := by
  simp only [live_revoke, mem_filter, hit, Bool.not_eq_true', Bool.and_eq_false_iff,
    decide_eq_false_iff_not, not_and_or]

theorem grantsOf_revoke (g : Graph) (principal other : Principal) (physBase : UInt64) :
    grantsOf (revoke g principal physBase).2 other =
      (grantsOf g other).filter fun x => !hit principal physBase (some x) := by
  rw [grantsOf, grantsOf, live_revoke, filter_comm]

theorem grantsOf_revoke_of_ne {other : Principal} (hne : other ≠ principal) (physBase : UInt64) :
    grantsOf (revoke g principal physBase).2 other = grantsOf g other := by
  rw [grantsOf_revoke, filter_eq_self]
  intro x hx
  have hother : x.principal ≠ principal := by
    rw [(mem_grantsOf.mp hx).2]
    exact hne
  simp only [hit, hother, decide_false, Bool.false_and, Bool.not_false]

/-! ## Pages -/

def pagesOf (g : Graph) (principal : Principal) : List UInt64 :=
  ((grantsOf g principal).flatMap allEntries).map Entry.physPage

theorem mem_pagesOf : page ∈ pagesOf g principal ↔
      ∃ x ∈ live g, x.principal = principal ∧ page ∈ (allEntries x).map Entry.physPage := by
  simp only [pagesOf, List.mem_map, mem_flatMap, mem_grantsOf]
  constructor
  · rintro ⟨e, ⟨x, ⟨hx, hprincipal⟩, he⟩, rfl⟩
    exact ⟨x, hx, hprincipal, e, he, rfl⟩
  · rintro ⟨x, hx, hprincipal, e, he, rfl⟩
    exact ⟨e, ⟨x, ⟨hx, hprincipal⟩, he⟩, rfl⟩

structure Ranged (x : Grant) : Prop where
  aligned : x.physBase.toNat % 4096 = 0
  noWrap : x.physBase.toNat + (pagesFor x.len).toNat * 4096 < 2 ^ 64

theorem Ranged.toNat_page (h : Ranged x) {i : Nat} (hi : i < (pagesFor x.len).toNat) :
    (x.physBase + UInt64.ofNat i * 4096).toNat = x.physBase.toNat + i * 4096 := by
  have hsize : (4096 : UInt64).toNat = 4096 := rfl
  have hbound := h.noWrap
  rw [UInt64.toNat_add, UInt64.toNat_mul, toNat_ofNat', hsize]
  omega

theorem Ranged.toNat_end (h : Ranged x) : (x.physBase + pagesFor x.len * pageSize).toNat =
      x.physBase.toNat + (pagesFor x.len).toNat * 4096 := by
  have hsize : pageSize.toNat = 4096 := rfl
  have hbound := h.noWrap
  rw [UInt64.toNat_add, UInt64.toNat_mul, hsize]
  omega

theorem Ranged.covers_iff (h : Ranged x) (hpage : page.toNat % 4096 = 0) :
    covers x page = true ↔ page ∈ (allEntries x).map Entry.physPage := by
  have haligned := h.aligned
  rw [covers, Bool.and_eq_true, decide_eq_true_eq, decide_eq_true_eq, le_iff_toNat_le,
    lt_iff_toNat_lt, h.toNat_end]
  simp only [allEntries, List.map_map, List.mem_map, mem_range, Function.comp_def, pageEntry]
  constructor
  · rintro ⟨hle, hlt⟩
    have hi : (page.toNat - x.physBase.toNat) / 4096 < (pagesFor x.len).toNat := by omega
    refine ⟨(page.toNat - x.physBase.toNat) / 4096, hi, UInt64.toNat_inj.mp ?_⟩
    refine (h.toNat_page hi).trans ?_
    omega
  · rintro ⟨i, hi, rfl⟩
    have hat := h.toNat_page hi
    rw [show pageSize = 4096 from rfl, hat]
    omega

/-! ## Projections and reachability -/

/-- What the projector for the kind of a principal writes, and what the other one
writes. -/
def projections (g : Graph) (principal : Principal) (room : Nat) : List Entry × List Entry :=
  match principal with
  | .cpuProcess _ => (projectPageTable g principal room, projectIommuTable g principal room)
  | .pciDevice .. => (projectIommuTable g principal room, projectPageTable g principal room)

theorem projections_eq (g : Graph) (principal : Principal) (room : Nat) :
    projections g principal room = (project principal g room, []) := by
  cases principal <;> rfl

def pagesIn (x : Grant) : List (Nat × Bool × Bool) :=
  (List.range ((x.len.toNat + 4095) / 4096)).map fun i =>
    (x.physBase.toNat + i * 4096, x.writable, x.executable)

def pageOf (e : Entry) : Nat × Bool × Bool := (e.physPage.toNat, e.writable, e.executable)

/-- The grant starts at a page, and its pages end below the last address. -/
def InSpace (x : Grant) : Prop :=
  x.physBase.toNat % 4096 = 0 ∧ x.physBase.toNat + (x.len.toNat + 4095) / 4096 * 4096 ≤ 2 ^ 64 - 1

instance (x : Grant) : Decidable (InSpace x) := inferInstanceAs (Decidable (_ ∧ _))

theorem InSpace.toNat_pagesFor (h : InSpace x) :
    (pagesFor x.len).toNat = (x.len.toNat + 4095) / 4096 := by
  have hbound := h.2
  have hsize : pageSize.toNat = 4096 := rfl
  have hone : (1 : UInt64).toNat = 1 := rfl
  rw [pagesFor, UInt64.toNat_div, UInt64.toNat_sub, UInt64.toNat_add, hsize, hone]
  omega

theorem InSpace.ranged (h : InSpace x) : Ranged x where
  aligned := h.1
  noWrap := by
    rw [h.toNat_pagesFor]
    exact Nat.lt_of_le_pred (by decide) h.2

theorem InSpace.map_allEntries (h : InSpace x) : (allEntries x).map pageOf = pagesIn x := by
  rw [allEntries, pagesIn, List.map_map, ← h.toNat_pagesFor]
  apply map_congr_left
  intro i hi
  exact Prod.ext (h.ranged.toNat_page (mem_range.mp hi)) rfl

theorem map_project {room : Nat} (hg : ∀ x ∈ live g, InSpace x)
    (hroom : ((grantsOf g principal).map fun x => (x.len.toNat + 4095) / 4096).sum ≤ room) :
    project principal g room = (grantsOf g principal).flatMap allEntries ∧
      (project principal g room).map pageOf = (grantsOf g principal).flatMap pagesIn := by
  have hspace (x : Grant) (hx : x ∈ grantsOf g principal) : InSpace x :=
    hg x (mem_grantsOf.mp hx).1
  have hlength : ((grantsOf g principal).flatMap allEntries).length ≤ room := by
    rw [length_flatMap]
    refine le_trans (le_of_eq (congrArg sum (map_congr_left fun x hx => ?_))) hroom
    rw [allEntries, length_map, length_range, (hspace x hx).toNat_pagesFor]
  have hall := (project_eq principal g room).trans (take_of_length_le hlength)
  refine ⟨hall, ?_⟩
  rw [hall, map_flatMap]
  exact flatMap_congr fun x hx => (hspace x hx).map_allEntries

/-- **Projections agree with reachability.** With room for all of them, the
projector of a principal writes the pages of its grants in table order, which are
those that are reachable, and the other one writes nothing. Revoking takes the
pages of the grants that start at `b`, and nothing from anyone else. -/
theorem projections_agree {room : Nat} (hg : ∀ x ∈ live g, InSpace x)
    (hroom : ((grantsOf g principal).map fun x => (x.len.toNat + 4095) / 4096).sum ≤ room) :
    (projections g principal room).1.map pageOf = (grantsOf g principal).flatMap pagesIn ∧
      (∀ p : UInt64, p.toNat % 4096 = 0 → (p ∈ (projections g principal room).1.map Entry.physPage ↔
          isReachable g principal p = true)) ∧
      (projections g principal room).2 = [] ∧
      ∀ b, (projections (revoke g principal b).2 principal room).1.map pageOf =
          ((grantsOf g principal).filter fun x => x.physBase ≠ b).flatMap pagesIn ∧
        ∀ other room', other ≠ principal →
          projections (revoke g principal b).2 other room' = projections g other room' := by
  simp only [projections_eq]
  obtain ⟨hall, hpages⟩ := map_project hg hroom
  refine ⟨hpages, fun p hp => ?_, trivial, fun b => ⟨?_, fun other room' hne => ?_⟩⟩
  · rw [hall, isReachable_iff]
    refine (mem_pagesOf (g := g)).trans (exists_congr fun x => and_congr_right fun hx => ?_)
    rw [(hg x hx).ranged.covers_iff hp]
  · have hkept : grantsOf (revoke g principal b).2 principal =
        (grantsOf g principal).filter fun x => x.physBase ≠ b := by
      rw [grantsOf_revoke]
      apply filter_congr
      intro x hx
      simp [hit, (mem_grantsOf.mp hx).2]
    rw [← hkept]
    refine (map_project (fun x hx => hg x (mem_live_revoke.mp hx).1) ?_).2
    rw [hkept]
    exact ((filter_sublist.map _).sum_le_sum fun _ _ => Nat.zero_le _).trans hroom
  · rw [project_eq, project_eq, grantsOf_revoke_of_ne hne]

/-- A process with two grants, a hole in the table and a device. -/
theorem projections_agree_two_grants :
    (projections [some ⟨.cpuProcess 1, 4096, 5000, true, false⟩, none,
        some ⟨.pciDevice 0 1 0, 8192, 4096, true, false⟩,
        some ⟨.cpuProcess 1, 0x10000, 1, false, true⟩] (.cpuProcess 1) 3).1.map pageOf =
      [(4096, true, false), (8192, true, false), (0x10000, false, true)] :=
  (projections_agree (by decide) (by decide)).1

end AuthorityGraph

end AgenticOS
