import AgenticOS.Memory.PageTable

/-!
# DMA domains

The tables of `kernel_rs/src/iommu.rs`: a root table with an entry for each bus,
a context table for each bus with an entry for each device and function, and a
domain of four-level tables for each assignment. What a device can reach is
what a walk of these tables finds, so the caches of the hardware, which the
source flushes after each change, are left out.

Root and context tables are tables without a level below them, domains are
tables with three levels below them, and no two share a frame. So an assignment
changes nothing for the other devices.
-/

namespace AgenticOS

open Foundation List Function

structure Iommu (σ : Type) where
  store : PageStore σ
  rootTable : UInt64
  busContext : UInt8 → UInt64
  nextDomainId : UInt16
  /-- `alloc_page` has returned 0; `iommu.rs` does not look. -/
  exhausted : Bool

namespace Iommu

section

variable {σ : Type} (A : PageSource σ)

def allocPage (u : Iommu σ) : UInt64 × Iommu σ :=
  let (page, store) := u.store.alloc A.toFrameSource pageTableFormat
  (page, { u with store := store, exhausted := u.exhausted || page == 0 })

def writeWord (u : Iommu σ) (table : UInt64) (i : Nat) (w : UInt64) : Iommu σ :=
  { u with store := { u.store with mem := write u.store.mem table i w } }

def init (s : PageStore σ) : Iommu σ :=
  let (root, u) := allocPage A ⟨s, 0, fun _ => 0, 0, false⟩
  { u with rootTable := root }

/-- The word for a table of a domain. -/
def dmaTable (page : UInt64) : UInt64 := page ||| pagePresent ||| pageWritable

/-- The word for a page that a domain maps. -/
def dmaPage (paddr : UInt64) : UInt64 := (paddr &&& addrMask) ||| pagePresent ||| pageWritable

/-- One level of `vmm_map_iommu_page`. -/
def ensureTable (u : Iommu σ) (table : UInt64) (i : Nat) : Iommu σ :=
  if isPresent (u.store.mem table i) then u
  else
    let (new, u) := u.allocPage A
    u.writeWord table i (dmaTable new)

def vmmMapIommuPage (u : Iommu σ) (pml4 vaddr paddr : UInt64) : Iommu σ :=
  let (i4, i3, i2, i1) := splitIndices vaddr
  let u := u.ensureTable A pml4 i4
  let pdpt := u.store.mem pml4 i4 &&& addrMask
  let u := u.ensureTable A pdpt i3
  let pd := u.store.mem pdpt i3 &&& addrMask
  let u := u.ensureTable A pd i2
  let pt := u.store.mem pd i2 &&& addrMask
  u.writeWord pt i1 (dmaPage paddr)

def rangePages (range : UInt64 × UInt64) : List UInt64 :=
  (List.range ((range.2 + 4095) / 4096).toNat).map fun p => range.1 + UInt64.ofNat p * 4096

def newDomain (u : Iommu σ) (physRanges : List (UInt64 × UInt64)) : UInt64 × Iommu σ :=
  let (domainPml4, u) := u.allocPage A
  (domainPml4, physRanges.foldl (fun u range =>
    (rangePages range).foldl (fun u addr => u.vmmMapIommuPage A domainPml4 addr addr) u) u)

/-- The context table of a bus, made for the first device that is assigned
there. -/
def contextTable (u : Iommu σ) (bus : UInt8) : UInt64 × Iommu σ :=
  let existing := u.busContext bus
  if existing ≠ 0 then (existing, u)
  else
    let (fresh, u) := u.allocPage A
    let u := { u with busContext := Function.update u.busContext bus fresh }
    (fresh, u.writeWord u.rootTable (bus.toNat * 2) (fresh ||| 1))

def ctxIndex (device function : UInt8) : Nat :=
  ((device.toNat &&& 0x1F) <<< 3) ||| (function.toNat &&& 0x7)

def writeContext (u : Iommu σ) (context : UInt64) (ctx : Nat) (low high : UInt64) : Iommu σ :=
  (u.writeWord context (ctx * 2) low).writeWord context (ctx * 2 + 1) high

def assignDevice (u : Iommu σ) (bus device function : UInt8)
    (physRanges : List (UInt64 × UInt64)) : UInt16 × Iommu σ :=
  let (domainPml4, u) := u.newDomain A physRanges
  let (context, u) := u.contextTable A bus
  let u := { u with nextDomainId := u.nextDomainId + 1 }
  let domainId := u.nextDomainId
  (domainId, u.writeContext context (ctxIndex device function) (domainPml4 ||| 1)
    ((0b010 : UInt64) ||| (domainId.toUInt64 <<< 8)))

def revokeDevice (u : Iommu σ) (bus device function : UInt8) : Bool × Iommu σ :=
  let context := u.busContext bus
  if context = 0 then (false, u)
  else if u.store.mem context (ctxIndex device function * 2) &&& 1 = 0 then (false, u)
  else (true, u.writeContext context (ctxIndex device function) 0 0)

/-! ## The walk of the hardware -/

def domainOf (u : Iommu σ) (bus device function : UInt8) : Option UInt64 :=
  let rootEntry := u.store.mem u.rootTable (bus.toNat * 2)
  if isPresent rootEntry then
    let low := u.store.mem (rootEntry &&& addrMask) (ctxIndex device function * 2)
    if isPresent low then some (low &&& addrMask) else none
  else none

def dmaEntry (u : Iommu σ) (bus device function : UInt8) (iova : UInt64) : UInt64 :=
  match u.domainOf bus device function with
  | some domain => debugTranslate u.store.mem domain iova
  | none => 0

def Reaches (u : Iommu σ) (bus device function : UInt8) (page : UInt64) : Prop :=
  ∃ iova, isPresent (u.dmaEntry bus device function iova) = true ∧
    u.dmaEntry bus device function iova &&& addrMask = page

end

/-! ## The code as operations on tables

As long as `alloc_page` does not return 0, the functions are the operations of
the library. -/

variable {σ : Type} {A : PageSource σ} {u : Iommu σ} {table r v p : UInt64} {i : Nat}
  {depth depth' : UInt64 → Option Nat} {s' : PageStore σ}
  {bus device function bus' device' function' : UInt8}

theorem allocPage_eq (h : (u.allocPage A).2.exhausted = false) :
    u.exhausted = false ∧ (A.alloc u.store.frames).1 ≠ A.null ∧
      u.allocPage A = ((A.alloc u.store.frames).1,
        { u with store := (u.store.alloc A.toFrameSource pageTableFormat).2 }) := by
  have hflag : (u.exhausted || (A.alloc u.store.frames).1 == 0) = false := h
  rw [Bool.or_eq_false_iff] at hflag
  refine ⟨hflag.1, ?_, ?_⟩
  · rw [A.null_eq]
    exact bne_iff_ne.mp (by rw [bne, hflag.2]; rfl)
  · simp only [allocPage, Store.alloc, hflag.1, hflag.2, Bool.or_false]

theorem ensureTable_eq (h : (u.ensureTable A table i).exhausted = false) :
    u.exhausted = false ∧ ∃ s,
      u.store.ensure A.toFrameSource pageTableFormat dmaTable table i = some s ∧
        u.ensureTable A table i = { u with store := s } := by
  by_cases hpresent : isPresent (u.store.mem table i) = true
  · have heq : u.ensureTable A table i = u := if_pos hpresent
    rw [heq] at h ⊢
    exact ⟨h, u.store, if_pos hpresent, rfl⟩
  · have heq : u.ensureTable A table i =
        (u.allocPage A).2.writeWord table i (dmaTable (u.allocPage A).1) := if_neg hpresent
    rw [heq] at h ⊢
    rcases allocPage_eq h with ⟨hfalse, hnull, halloc⟩
    have hnew : u.store.newTable A.toFrameSource pageTableFormat =
        some (u.store.alloc A.toFrameSource pageTableFormat) := if_neg hnull
    refine ⟨hfalse, _, (if_neg hpresent).trans ?_, by rw [halloc]; rfl⟩
    rw [hnew]
    rfl

theorem vmmMapIommuPage_eq (h : (u.vmmMapIommuPage A r v p).exhausted = false) :
    u.exhausted = false ∧ ∃ pt s,
      u.store.grow A.toFrameSource pageTableFormat dmaTable r (tablePath v) = some (pt, s) ∧
        u.vmmMapIommuPage A r v p =
          { u with store := { s with mem := write s.mem pt (ptIndex v) (dmaPage p) } } := by
  unfold vmmMapIommuPage at h ⊢
  simp only [tablePath, pml4Index, pdptIndex, pdIndex, ptIndex]
  generalize splitIndices v = indices at h ⊢
  rcases indices with ⟨i4, i3, i2, _⟩
  -- from the last level back to the first one
  rcases ensureTable_eq h with ⟨h2, s3, hens3, heq3⟩
  rcases ensureTable_eq h2 with ⟨h1, s2, hens2, heq2⟩
  rcases ensureTable_eq h1 with ⟨h0, s1, hens1, heq1⟩
  rw [heq3]
  rw [heq2] at hens3 ⊢
  rw [heq1] at hens2 hens3 ⊢
  refine ⟨h0, s3.mem (s2.mem (s1.mem r i4 &&& addrMask) i3 &&& addrMask) i2 &&& addrMask, s3, ?_,
    rfl⟩
  simp only [Store.grow, hens1, Option.bind_eq_bind, Option.bind_some]
  exact (congrArg (Option.bind · _) hens2).trans (congrArg (Option.bind · _) hens3)

theorem links_dmaTable : Store.Links A.toFrameSource pageTableFormat dmaTable := by
  intro s hs _
  constructor
  · have hor : dmaTable (A.alloc s).1 = ((A.alloc s).1 ||| pageWritable) ||| pagePresent := by
      rw [dmaTable, UInt64.or_assoc, UInt64.or_assoc, UInt64.or_comm pagePresent]
    show isPresent (dmaTable (A.alloc s).1) = true
    rw [hor]
    exact isPresent_or_present _
  · show frameFromEntry (dmaTable (A.alloc s).1) = (A.alloc s).1
    rw [dmaTable, UInt64.or_assoc]
    exact frameFromEntry_or (A.alloc_isFrame s hs) (by decide)

/-! ## Domains -/

variable {s : PageStore σ} {pages : List UInt64}

theorem vmmMapIommuPage_sets
    (hs : u.store.Tended A.toFrameSource pageTableFormat depth fun _ => False)
    (hr : depth r = some 3) (h : (u.vmmMapIommuPage A r v p).exhausted = false) :
    u.exhausted = false ∧ ∃ s, u.vmmMapIommuPage A r v p = { u with store := s } ∧
      u.store.Sets A.toFrameSource pageTableFormat depth r (tablePath v) (ptIndex v) (dmaPage p)
        s := by
  rcases vmmMapIommuPage_eq h with ⟨hfalse, _, s, hgrow, heq⟩
  exact ⟨hfalse, _, heq, hs.growWrite links_dmaTable hr hgrow⟩

variable (A r depth) in
/-- The pages of the list are mapped to themselves in the domain `r`. -/
structure Maps (pages : List UInt64) (s s' : PageStore σ) : Prop where
  tended : s'.Tended A.toFrameSource pageTableFormat depth fun _ => False
  others : ∀ {r' π j}, depth r' = some π.length → r' ≠ r →
    pageTableFormat.entryAt s'.mem r' π j = pageTableFormat.entryAt s.mem r' π j
  kept : ∀ {v}, (∀ p ∈ pages, pageNumber v ≠ pageNumber p) →
    debugTranslate s'.mem r v = debugTranslate s.mem r v
  mapped : ∀ {v}, (∃ p ∈ pages, pageNumber v = pageNumber p) →
    ∃ p ∈ pages, pageNumber v = pageNumber p ∧ debugTranslate s'.mem r v = dmaPage p

theorem exhausted_foldl
    (h : (pages.foldl (fun u addr => u.vmmMapIommuPage A r addr addr) u).exhausted = false) :
    u.exhausted = false := by
  induction pages generalizing u with
  | nil => exact h
  | cons a pages ih => exact (vmmMapIommuPage_eq (ih h)).1

theorem maps_foldl (hr : depth r = some 3)
    (hs : u.store.Tended A.toFrameSource pageTableFormat depth fun _ => False)
    (h : (pages.foldl (fun u addr => u.vmmMapIommuPage A r addr addr) u).exhausted = false) :
    ∃ s, pages.foldl (fun u addr => u.vmmMapIommuPage A r addr addr) u = { u with store := s } ∧
      Maps A r depth pages u.store s := by
  induction pages generalizing u with
  | nil =>
    refine ⟨u.store, rfl, hs, fun _ _ => rfl, fun _ => rfl, ?_⟩
    rintro v ⟨p, hp, -⟩
    cases hp
  | cons a pages ih =>
    rw [foldl_cons] at h ⊢
    rcases vmmMapIommuPage_sets hs hr (exhausted_foldl h) with ⟨-, s1, heq1, hset⟩
    rw [heq1] at h ⊢
    rcases ih hset.tended h with ⟨s', heq, hmaps⟩
    have hfirst (v : UInt64) : debugTranslate s1.mem r v =
        if pageNumber v = pageNumber a then dmaPage a else debugTranslate u.store.mem r v := by
      rw [debugTranslate_eq, debugTranslate_eq, hset.entries hr]
      simp only [← path_eq_iff, true_and]
    refine ⟨s', heq, hmaps.tended, ?_, ?_, ?_⟩
    · intro _ _ j hd hne
      rw [hmaps.others hd hne, hset.entries hd, if_neg fun hsame => hne hsame.1]
    · intro v hv
      rw [hmaps.kept fun p hp => hv p (mem_cons_of_mem a hp), hfirst, if_neg (hv a mem_cons_self)]
    · rintro v ⟨p, hp, hpage⟩
      by_cases hlater : ∃ p ∈ pages, pageNumber v = pageNumber p
      · rcases hmaps.mapped hlater with ⟨p', hp', hpage', hentry⟩
        exact ⟨p', mem_cons_of_mem a hp', hpage', hentry⟩
      · have hnot : ∀ p ∈ pages, pageNumber v ≠ pageNumber p :=
          fun p hp heq => hlater ⟨p, hp, heq⟩
        rcases mem_cons.mp hp with rfl | hp
        · refine ⟨p, mem_cons_self, hpage, ?_⟩
          rw [hmaps.kept hnot, hfirst, if_pos hpage]
        · exact absurd hpage (hnot p hp)

variable (A depth) in
/-- A domain that maps exactly the pages of the list, apart from all tables
that were there before. -/
structure NewDomain (pages : List UInt64) (domain : UInt64) (s s' : PageStore σ) : Prop where
  unrooted : depth domain = none
  isFrame : IsFrame domain
  tended : s'.Tended A.toFrameSource pageTableFormat (Function.update depth domain (some 3))
    fun _ => False
  others : ∀ {r π j}, depth r = some π.length →
    pageTableFormat.entryAt s'.mem r π j = pageTableFormat.entryAt s.mem r π j
  absent : ∀ {v}, (∀ p ∈ pages, pageNumber v ≠ pageNumber p) →
    debugTranslate s'.mem domain v = 0
  mapped : ∀ {v}, (∃ p ∈ pages, pageNumber v = pageNumber p) →
    ∃ p ∈ pages, pageNumber v = pageNumber p ∧ debugTranslate s'.mem domain v = dmaPage p

theorem newDomain_eq (physRanges : List (UInt64 × UInt64)) :
    u.newDomain A physRanges = ((u.allocPage A).1, (physRanges.flatMap rangePages).foldl
      (fun w addr => w.vmmMapIommuPage A (u.allocPage A).1 addr addr) (u.allocPage A).2) := by
  rw [newDomain, foldl_flatMap]

theorem newDomain_spec {physRanges : List (UInt64 × UInt64)}
    (hs : u.store.Tended A.toFrameSource pageTableFormat depth fun _ => False)
    (h : (u.newDomain A physRanges).2.exhausted = false) :
    ∃ domain s, u.newDomain A physRanges = (domain, { u with store := s }) ∧
      NewDomain A depth (physRanges.flatMap rangePages) domain u.store s := by
  rw [newDomain_eq] at h ⊢
  rcases allocPage_eq (exhausted_foldl h) with ⟨-, hnull, halloc⟩
  rw [halloc] at h ⊢
  rcases hs.newEmptyRoot 3 hnull with ⟨hnone, hroot, hold, hempty⟩
  rcases maps_foldl (update_self ..) hroot h with ⟨s', hloop, hmaps⟩
  refine ⟨_, s', by rw [hloop], hnone, A.alloc_isFrame _ hs.ok, hmaps.tended, ?_, ?_, hmaps.mapped⟩
  · intro r _ j hd
    have hne : r ≠ (A.alloc u.store.frames).1 := by
      rintro rfl
      rw [hnone] at hd
      cases hd
    rw [hmaps.others (by rw [update_of_ne hne]; exact hd) hne]
    exact hold hd
  · intro v hv
    rw [hmaps.kept hv, debugTranslate_eq]
    exact hempty le_rfl

/-! ## Root and context tables -/

variable (A depth) in
/-- The root entries name the context tables of their buses, and these are
tables of their own. -/
structure Wired (u : Iommu σ) : Prop where
  tended : u.store.Tended A.toFrameSource pageTableFormat depth fun _ => False
  root : depth u.rootTable = some 0
  rootEntry : ∀ bus, u.store.mem u.rootTable (bus.toNat * 2) =
    if u.busContext bus = 0 then 0 else u.busContext bus ||| 1
  context : ∀ bus, u.busContext bus ≠ 0 → depth (u.busContext bus) = some 0 ∧
    IsFrame (u.busContext bus) ∧ u.busContext bus ≠ u.rootTable
  apart : ∀ bus bus', u.busContext bus ≠ 0 → u.busContext bus = u.busContext bus' → bus = bus'

variable (A depth) in
/-- Besides, what the context entries name are domains. -/
structure Sound (u : Iommu σ) : Prop extends Wired A depth u where
  domains : ∀ bus device function domain, u.domainOf bus device function = some domain →
    depth domain = some 3

theorem isPresent_or_one (w : UInt64) : isPresent (w ||| 1) = true := isPresent_or_present w

theorem or_one_and_addrMask {f : UInt64} (hf : IsFrame f) : (f ||| 1) &&& addrMask = f :=
  frameFromEntry_or hf (by decide)

theorem isPresent_zero : isPresent 0 = false := rfl

/-- The walk of the hardware, by the table that `BUS_CONTEXT_PHYS` gives. -/
theorem Wired.domainOf_eq (h : Wired A depth u) :
    u.domainOf bus device function = if u.busContext bus ≠ 0 ∧
          isPresent (u.store.mem (u.busContext bus) (ctxIndex device function * 2)) = true then
        some (u.store.mem (u.busContext bus) (ctxIndex device function * 2) &&& addrMask)
      else none := by
  unfold domainOf
  dsimp only
  rw [h.rootEntry]
  by_cases hbus : u.busContext bus = 0
  · simp only [hbus, if_true, isPresent_zero, Bool.false_eq_true, if_false, ne_eq, not_true,
      false_and]
  · rw [if_neg hbus, isPresent_or_one, or_one_and_addrMask (h.context bus hbus).2.1, if_pos rfl]
    simp only [ne_eq, hbus, not_false_iff, true_and]

theorem dmaEntry_of_some {domain v : UInt64} (h : u.domainOf bus device function = some domain) :
    u.dmaEntry bus device function v = debugTranslate u.store.mem domain v := by
  rw [dmaEntry, h]

theorem dmaEntry_of_none {v : UInt64} (h : u.domainOf bus device function = none) :
    u.dmaEntry bus device function v = 0 := by
  rw [dmaEntry, h]

theorem dmaEntry_page {v v' : UInt64} (h : pageNumber v = pageNumber v') :
    u.dmaEntry bus device function v = u.dmaEntry bus device function v' := by
  cases hsome : u.domainOf bus device function with
  | none => rw [dmaEntry_of_none hsome, dmaEntry_of_none hsome]
  | some => rw [dmaEntry_of_some hsome, dmaEntry_of_some hsome, debugTranslate_congr h]

variable {u' : Iommu σ}

theorem dmaEntry_congr {v : UInt64}
    (hdomain : u'.domainOf bus device function = u.domainOf bus device function)
    (hpages : ∀ domain, u.domainOf bus device function = some domain →
      debugTranslate u'.store.mem domain v = debugTranslate u.store.mem domain v) :
    u'.dmaEntry bus device function v = u.dmaEntry bus device function v := by
  cases hsome : u.domainOf bus device function with
  | none => rw [dmaEntry_of_none hsome, dmaEntry_of_none (hdomain.trans hsome)]
  | some domain =>
    rw [dmaEntry_of_some hsome, dmaEntry_of_some (hdomain.trans hsome), hpages domain hsome]

section

variable (h : Sound A depth u)

include h

theorem Sound.of_store (ht : s'.Tended A.toFrameSource pageTableFormat depth' fun _ => False)
    (hdepth : ∀ r d, depth r = some d → depth' r = some d)
    (hold : ∀ {r π j}, depth r = some π.length →
      pageTableFormat.entryAt s'.mem r π j = pageTableFormat.entryAt u.store.mem r π j) :
    Sound A depth' { u with store := s' } ∧ ∀ bus device function v,
      ({ u with store := s' } : Iommu σ).dmaEntry bus device function v =
        u.dmaEntry bus device function v := by
  have hwords (r : UInt64) (j : Nat) (hr : depth r = some 0) : s'.mem r j = u.store.mem r j :=
    hold (π := []) hr
  have hwired : Wired A depth' { u with store := s' } := by
    refine ⟨ht, hdepth _ _ h.root, ?_, ?_, h.apart⟩
    · intro bus
      rw [← h.rootEntry bus]
      exact hwords _ _ h.root
    · intro bus hbus
      rcases h.context bus hbus with ⟨hctx, hframe, hne⟩
      exact ⟨hdepth _ _ hctx, hframe, hne⟩
  have hdomain (bus device function : UInt8) :
      ({ u with store := s' } : Iommu σ).domainOf bus device function =
        u.domainOf bus device function := by
    rw [hwired.domainOf_eq, h.domainOf_eq]
    by_cases hbus : u.busContext bus = 0
    · simp only [hbus, ne_eq, not_true, false_and, if_false]
    · rw [hwords _ _ (h.context bus hbus).1]
  refine ⟨⟨hwired, ?_⟩, ?_⟩
  · intro bus device function domain hsome
    rw [hdomain] at hsome
    exact hdepth _ _ (h.domains bus device function domain hsome)
  · intro bus device function v
    apply dmaEntry_congr (hdomain bus device function)
    intro domain hsome
    rw [debugTranslate_eq, debugTranslate_eq]
    exact hold (h.domains bus device function domain hsome)

theorem Sound.writeContext_entries (hbus : u.busContext bus ≠ 0) (ctx : Nat) (low high : UInt64) :
    (u.writeContext (u.busContext bus) ctx low high).store.Tended A.toFrameSource pageTableFormat
        depth (fun _ => False) ∧
      ∀ {r π j}, depth r = some π.length →
        pageTableFormat.entryAt (u.writeContext (u.busContext bus) ctx low high).store.mem r π j =
          if r = u.busContext bus ∧ π = [] ∧ j = ctx * 2 + 1 then high
          else if r = u.busContext bus ∧ π = [] ∧ j = ctx * 2 then low
          else pageTableFormat.entryAt u.store.mem r π j := by
  rcases h.context bus hbus with ⟨hctx, -, -⟩
  have hlow := h.tended.write (i := ctx * 2) (w := low) (EntryFormat.tableAt_root hctx) hctx
  have hhigh := hlow.tended.write (i := ctx * 2 + 1) (w := high)
    (EntryFormat.tableAt_root hctx) hctx
  refine ⟨hhigh.tended, ?_⟩
  intro r π j hr
  rw [← hlow.entries hr]
  exact hhigh.entries hr

theorem Sound.writeContext (hbus : u.busContext bus ≠ 0)
    (device function : UInt8) {low : UInt64} (high : UInt64)
    (hlow : isPresent low = true → depth (low &&& addrMask) = some 3) :
    Sound A depth (u.writeContext (u.busContext bus) (ctxIndex device function) low high) ∧
      ∀ bus' device' function' v,
        (u.writeContext (u.busContext bus) (ctxIndex device function) low high).dmaEntry
            bus' device' function' v =
          if bus' = bus ∧ ctxIndex device' function' = ctxIndex device function then
            if isPresent low then debugTranslate u.store.mem (low &&& addrMask) v else 0
          else u.dmaEntry bus' device' function' v := by
  rcases h.context bus hbus with ⟨_, _, hroot⟩
  rcases h.writeContext_entries hbus (ctxIndex device function) low high with ⟨htended, hentries⟩
  have hcontexts :
      (u.writeContext (u.busContext bus) (ctxIndex device function) low high).busContext =
        u.busContext := rfl
  have hrootTable :
      (u.writeContext (u.busContext bus) (ctxIndex device function) low high).rootTable =
        u.rootTable := rfl
  generalize u.writeContext (u.busContext bus) (ctxIndex device function) low high = u' at *
  have hpages (r v : UInt64) (hr : depth r = some 3) :
      debugTranslate u'.store.mem r v = debugTranslate u.store.mem r v := by
    rw [debugTranslate_eq, debugTranslate_eq, hentries hr, if_neg, if_neg]
    · rintro ⟨-, hpath, -⟩
      cases hpath
    · rintro ⟨-, hpath, -⟩
      cases hpath
  have hword (r : UInt64) (c : Nat) (hr : depth r = some 0) : u'.store.mem r (c * 2) =
      if r = u.busContext bus ∧ c = ctxIndex device function then low
      else u.store.mem r (c * 2) := by
    have hsame := hentries (π := []) (j := c * 2) hr
    rw [if_neg (by rintro ⟨-, -, hodd⟩; omega)] at hsame
    simp only [true_and, Nat.mul_left_inj (show 2 ≠ 0 by decide)] at hsame
    exact hsame
  have hwired : Wired A depth u' := by
    refine ⟨htended, ?_, ?_, ?_, ?_⟩
    · rw [hrootTable]
      exact h.root
    · intro bus'
      rw [hrootTable, hcontexts, hword _ _ h.root, if_neg fun heq => hroot heq.1.symm, h.rootEntry]
    · rw [hrootTable, hcontexts]
      exact h.context
    · rw [hcontexts]
      exact h.apart
  -- the low word that each device finds
  have hlowWord (bus' device' function' : UInt8) (hbus' : u.busContext bus' ≠ 0) :
      u'.store.mem (u.busContext bus') (ctxIndex device' function' * 2) =
        if bus' = bus ∧ ctxIndex device' function' = ctxIndex device function then low
        else u.store.mem (u.busContext bus') (ctxIndex device' function' * 2) := by
    have hkey : u.busContext bus' = u.busContext bus ↔ bus' = bus :=
      ⟨h.apart bus' bus hbus', fun heq => heq ▸ rfl⟩
    rw [hword _ _ (h.context bus' hbus').1]
    simp only [hkey]
  have hdomain (bus' device' function' : UInt8) : u'.domainOf bus' device' function' =
      if bus' = bus ∧ ctxIndex device' function' = ctxIndex device function then
        if isPresent low then some (low &&& addrMask) else none
      else u.domainOf bus' device' function' := by
    rw [hwired.domainOf_eq, h.domainOf_eq, hcontexts]
    by_cases hbus' : u.busContext bus' = 0
    · have hne : bus' ≠ bus := by
        rintro rfl
        exact hbus hbus'
      simp only [hbus', hne, ne_eq, not_true, false_and, if_false]
    · rw [hlowWord bus' device' function' hbus']
      split_ifs <;> simp_all
  refine ⟨⟨hwired, ?_⟩, ?_⟩
  · intro bus' device' function' domain hsome
    rw [hdomain] at hsome
    split_ifs at hsome with hkey hpresent
    · cases hsome
      exact hlow hpresent
    · exact h.domains bus' device' function' domain hsome
  · intro bus' device' function' v
    have hsame := hdomain bus' device' function'
    split_ifs at hsame ⊢ with hkey hpresent
    · rw [dmaEntry_of_some hsame, hpages _ _ (hlow hpresent)]
    · rw [dmaEntry_of_none hsame]
    · exact dmaEntry_congr hsame fun domain hsome =>
        hpages _ _ (h.domains bus' device' function' domain hsome)

theorem Sound.newContext (hbus : u.busContext bus = 0) {fresh : UInt64}
    (hreal : fresh ≠ 0) (hframe : IsFrame fresh) (hnone : depth fresh = none)
    (ht : s'.Tended A.toFrameSource pageTableFormat (update depth fresh (some 0)) fun _ => False)
    (hold : ∀ {r π j}, depth r = some π.length →
      pageTableFormat.entryAt s'.mem r π j = pageTableFormat.entryAt u.store.mem r π j)
    (hempty : ∀ j, s'.mem fresh j = 0) (hroot : u'.rootTable = u.rootTable)
    (hcontexts : u'.busContext = update u.busContext bus fresh)
    (hstore : u'.store =
      { s' with mem := write s'.mem u.rootTable (bus.toNat * 2) (fresh ||| 1) }) :
    Sound A (update depth fresh (some 0)) u' ∧
      (∀ r d, depth r = some d → update depth fresh (some 0) r = some d) ∧
      (∀ r v, depth r = some 3 → debugTranslate u'.store.mem r v = debugTranslate u.store.mem r v) ∧
      ∀ bus' device' function' v,
        u'.dmaEntry bus' device' function' v = u.dmaEntry bus' device' function' v := by
  have hne {r : UInt64} {d : Nat} (hr : depth r = some d) : r ≠ fresh := by
    rintro rfl
    rw [hnone] at hr
    cases hr
  have hdepth (r : UInt64) (d : Nat) (hr : depth r = some d) :
      update depth fresh (some 0) r = some d := by
    rw [update_of_ne (hne hr)]
    exact hr
  have hset := ht.write (i := bus.toNat * 2) (w := fresh ||| 1)
    (EntryFormat.tableAt_root (hdepth _ _ h.root)) (hdepth _ _ h.root)
  rw [← hstore] at hset
  have hpages (r v : UInt64) (hr : depth r = some 3) :
      debugTranslate u'.store.mem r v = debugTranslate u.store.mem r v := by
    rw [debugTranslate_eq, debugTranslate_eq, hset.entries (hdepth r 3 hr), if_neg]
    · exact hold hr
    · rintro ⟨-, hpath, -⟩
      cases hpath
  have hword (r : UInt64) (j : Nat) (hr : depth r = some 0) : u'.store.mem r j =
      if r = u.rootTable ∧ j = bus.toNat * 2 then fresh ||| 1 else u.store.mem r j := by
    have hsame := hset.entries (π := []) (j := j) (hdepth r 0 hr)
    rw [hold (π := []) hr] at hsame
    simp only [true_and] at hsame
    exact hsame
  have hfresh (j : Nat) : u'.store.mem fresh j = 0 := by
    have hsame := hset.entries (π := []) (j := j) (update_self fresh (some 0) depth)
    rw [if_neg fun heq => hne h.root heq.1.symm] at hsame
    exact hsame.trans (hempty j)
  have hother (bus' : UInt8) (hbus' : bus' ≠ bus) : u'.busContext bus' = u.busContext bus' := by
    rw [hcontexts, update_of_ne hbus']
  have hown : u'.busContext bus = fresh := by rw [hcontexts, update_self]
  have hwired : Wired A (update depth fresh (some 0)) u' := by
    refine ⟨hset.tended, ?_, ?_, ?_, ?_⟩
    · rw [hroot]
      exact hdepth _ _ h.root
    · intro bus'
      rw [hroot, hword _ _ h.root]
      by_cases hbus' : bus' = bus
      · subst hbus'
        rw [hown, if_pos ⟨rfl, rfl⟩, if_neg hreal]
      · have hindex : bus'.toNat * 2 ≠ bus.toNat * 2 := by
          intro heq
          exact hbus' (UInt8.toNat_inj.mp (Nat.eq_of_mul_eq_mul_right (by decide) heq))
        rw [hother bus' hbus', if_neg fun heq => hindex heq.2, h.rootEntry]
    · intro bus' hsome
      rw [hroot]
      by_cases hbus' : bus' = bus
      · subst hbus'
        rw [hown, update_self]
        exact ⟨rfl, hframe, fun heq => hne h.root heq.symm⟩
      · rw [hother bus' hbus'] at hsome ⊢
        rcases h.context bus' hsome with ⟨hctx, hframe', hneRoot⟩
        exact ⟨hdepth _ _ hctx, hframe', hneRoot⟩
    · -- the fresh table is not one of the others
      have hapart (bus' : UInt8) (hbus' : bus' ≠ bus) : u'.busContext bus' ≠ fresh := by
        rw [hother bus' hbus']
        by_cases hzero : u.busContext bus' = 0
        · rw [hzero]
          exact hreal.symm
        · exact hne (h.context bus' hzero).1
      intro bus1 bus2 hsome heq
      by_cases h1 : bus1 = bus
      · by_cases h2 : bus2 = bus
        · rw [h1, h2]
        · rw [h1, hown] at heq
          exact absurd heq.symm (hapart bus2 h2)
      · by_cases h2 : bus2 = bus
        · rw [h2, hown] at heq
          exact absurd heq (hapart bus1 h1)
        · rw [hother bus1 h1] at hsome heq
          rw [hother bus2 h2] at heq
          exact h.apart bus1 bus2 hsome heq
  have hdomain (bus' device' function' : UInt8) :
      u'.domainOf bus' device' function' = u.domainOf bus' device' function' := by
    rw [hwired.domainOf_eq, h.domainOf_eq]
    by_cases hbus' : bus' = bus
    · subst hbus'
      rw [hown, hfresh, hbus]
      simp only [isPresent_zero, Bool.false_eq_true, and_false, ne_eq, not_true, false_and,
        if_false]
    · rw [hother bus' hbus']
      by_cases hzero : u.busContext bus' = 0
      · simp only [hzero, ne_eq, not_true, false_and, if_false]
      · rcases h.context bus' hzero with ⟨hctx, -, hneRoot⟩
        have hkept (j : Nat) :
            u'.store.mem (u.busContext bus') j = u.store.mem (u.busContext bus') j := by
          rw [hword _ _ hctx, if_neg fun heq => hneRoot heq.1]
        rw [hkept]
  refine ⟨⟨hwired, ?_⟩, hdepth, hpages, ?_⟩
  · intro bus' device' function' domain hsome
    rw [hdomain] at hsome
    exact hdepth _ _ (h.domains bus' device' function' domain hsome)
  · intro bus' device' function' v
    exact dmaEntry_congr (hdomain bus' device' function') fun domain hsome =>
      hpages _ _ (h.domains bus' device' function' domain hsome)

end

theorem contextTable_of_present (hbus : u.busContext bus ≠ 0) :
    u.contextTable A bus = (u.busContext bus, u) :=
  if_pos hbus

theorem contextTable_of_absent (hbus : u.busContext bus = 0) :
    u.contextTable A bus = ((u.allocPage A).1, Iommu.writeWord { (u.allocPage A).2 with
          busContext := update (u.allocPage A).2.busContext bus (u.allocPage A).1 }
        (u.allocPage A).2.rootTable (bus.toNat * 2) ((u.allocPage A).1 ||| 1)) :=
  if_neg (not_not.mpr hbus)

theorem exhausted_contextTable (h : (u.contextTable A bus).2.exhausted = false) :
    u.exhausted = false := by
  by_cases hbus : u.busContext bus = 0
  · rw [contextTable_of_absent hbus] at h
    exact (allocPage_eq h).1
  · rw [contextTable_of_present hbus] at h
    exact h

variable {physRanges : List (UInt64 × UInt64)}

theorem exhausted_assignDevice
    (h : (u.assignDevice A bus device function physRanges).2.exhausted = false) :
    u.exhausted = false := by
  have hdomain : (u.newDomain A physRanges).2.exhausted = false := exhausted_contextTable h
  rw [newDomain_eq] at hdomain
  exact (allocPage_eq (exhausted_foldl hdomain)).1

/-- **The context table of a bus.** It is there afterwards, and nothing has
changed for any device. -/
theorem Sound.contextTable (h : Sound A depth u)
    (hmore : (u.contextTable A bus).2.exhausted = false) :
    (u.contextTable A bus).1 = (u.contextTable A bus).2.busContext bus ∧
      (u.contextTable A bus).1 ≠ 0 ∧
      ∃ depth', Sound A depth' (u.contextTable A bus).2 ∧
        (∀ r d, depth r = some d → depth' r = some d) ∧
        (∀ r v, depth r = some 3 → debugTranslate (u.contextTable A bus).2.store.mem r v =
          debugTranslate u.store.mem r v) ∧
        ∀ bus' device' function' v, (u.contextTable A bus).2.dmaEntry bus' device' function' v =
            u.dmaEntry bus' device' function' v := by
  by_cases hbus : u.busContext bus = 0
  · rw [contextTable_of_absent hbus] at hmore ⊢
    rcases allocPage_eq hmore with ⟨-, hnull, halloc⟩
    rcases h.tended.newEmptyRoot 0 hnull with ⟨hnone, hfresh, hold, hempty⟩
    have hreal := A.null_eq ▸ hnull
    rw [halloc]
    dsimp only [Iommu.writeWord]
    refine ⟨by rw [update_self], hreal, update depth (A.alloc u.store.frames).1 (some 0), ?_⟩
    exact h.newContext hbus hreal (A.alloc_isFrame _ h.tended.ok) hnone hfresh hold
      (fun j => hempty (π := []) le_rfl) rfl rfl rfl
  · rw [contextTable_of_present hbus]
    exact ⟨rfl, hbus, depth, h, fun _ _ => id, fun _ _ _ => rfl, fun _ _ _ _ => rfl⟩

/-- **`assign_device`.** The device has the pages of the ranges and nothing
else, and nothing has changed for the devices with other context entries. -/
theorem Sound.assignDevice (h : Sound A depth u)
    (hmore : (u.assignDevice A bus device function physRanges).2.exhausted = false) :
    (∃ depth', Sound A depth' (u.assignDevice A bus device function physRanges).2) ∧
      (∀ bus' device' function' v,
        ¬ (bus' = bus ∧ ctxIndex device' function' = ctxIndex device function) →
          (u.assignDevice A bus device function physRanges).2.dmaEntry bus' device' function' v =
            u.dmaEntry bus' device' function' v) ∧
      (∀ v, (∀ p ∈ physRanges.flatMap rangePages, pageNumber v ≠ pageNumber p) →
        (u.assignDevice A bus device function physRanges).2.dmaEntry bus device function v = 0) ∧
      ∀ v, (∃ p ∈ physRanges.flatMap rangePages, pageNumber v = pageNumber p) →
        ∃ p ∈ physRanges.flatMap rangePages, pageNumber v = pageNumber p ∧
          (u.assignDevice A bus device function physRanges).2.dmaEntry bus device function v =
            dmaPage p := by
  rcases newDomain_spec h.tended (exhausted_contextTable hmore) with
    ⟨domain, s1, hnew, hdomain⟩
  have hmore1 : (({ u with store := s1 } : Iommu σ).contextTable A bus).2.exhausted = false := by
    rw [Iommu.assignDevice, hnew] at hmore
    exact hmore
  have hassign : ∃ id high, (u.assignDevice A bus device function physRanges).2 = Iommu.writeContext
        { (({ u with store := s1 } : Iommu σ).contextTable A bus).2 with nextDomainId := id }
        (({ u with store := s1 } : Iommu σ).contextTable A bus).1 (ctxIndex device function)
        (domain ||| 1) high := by
    rw [Iommu.assignDevice, hnew]
    exact ⟨_, _, rfl⟩
  rcases hassign with ⟨id, high, hassign⟩
  -- the new domain is not yet seen by any device
  have hdepth (r : UInt64) (d : Nat) (hr : depth r = some d) :
      update depth domain (some 3) r = some d := by
    rw [update_of_ne]
    · exact hr
    · rintro rfl
      rw [hdomain.unrooted] at hr
      cases hr
  rcases h.of_store hdomain.tended hdepth hdomain.others with ⟨hsound1, hentry1⟩
  rcases hsound1.contextTable hmore1 with
    ⟨hbus, hreal, depth2, hsound2, hdepth2, hpages2, hentry2⟩
  generalize ({ u with store := s1 } : Iommu σ).contextTable A bus = linked at *
  rcases linked with ⟨context, u2⟩
  dsimp only at hbus hreal hsound2 hpages2 hentry2 hassign
  subst hbus
  have hsound3 : Sound A depth2 { u2 with nextDomainId := id } :=
    ⟨{ hsound2 with }, hsound2.domains⟩
  have hroot : update depth domain (some 3) domain = some 3 := update_self ..
  have hlow : (domain ||| 1) &&& addrMask = domain := or_one_and_addrMask hdomain.isFrame
  rcases hsound3.writeContext hreal device function high
    (fun _ => by rw [hlow]; exact hdepth2 domain 3 hroot) with ⟨hsound, hentry⟩
  rw [hlow] at hentry
  rw [← hassign] at hsound hentry
  have hown (v : UInt64) :
      (u.assignDevice A bus device function physRanges).2.dmaEntry bus device function v =
        debugTranslate s1.mem domain v := by
    rw [hentry, if_pos ⟨rfl, rfl⟩, isPresent_or_one, if_pos rfl]
    exact hpages2 domain v hroot
  refine ⟨⟨depth2, hsound⟩, ?_, ?_, ?_⟩
  · intro bus' device' function' v hother
    rw [hentry, if_neg hother, ← hentry1]
    exact hentry2 bus' device' function' v
  · intro v hv
    rw [hown]
    exact hdomain.absent hv
  · intro v hv
    rw [hown]
    exact hdomain.mapped hv

/-- **`iommu::revoke_device`.** The device has nothing, the others what they
had. -/
theorem Sound.revokeDevice (h : Sound A depth u) (bus device function : UInt8) :
    Sound A depth (u.revokeDevice bus device function).2 ∧ ∀ bus' device' function' v,
        (u.revokeDevice bus device function).2.dmaEntry bus' device' function' v =
          if bus' = bus ∧ ctxIndex device' function' = ctxIndex device function then 0
          else u.dmaEntry bus' device' function' v := by
  have hkept (hnone : u.domainOf bus device function = none) (bus' device' function' : UInt8)
      (v : UInt64) : u.dmaEntry bus' device' function' v =
        if bus' = bus ∧ ctxIndex device' function' = ctxIndex device function then 0
        else u.dmaEntry bus' device' function' v := by
    split_ifs with hkey
    · rcases hkey with ⟨rfl, hctx⟩
      apply dmaEntry_of_none
      rw [← hnone, domainOf, domainOf, hctx]
    · rfl
  unfold Iommu.revokeDevice
  dsimp only
  split_ifs with hbus hlow
  · refine ⟨h, hkept ?_⟩
    rw [h.domainOf_eq, if_neg fun hpresent => hpresent.1 hbus]
  · refine ⟨h, hkept ?_⟩
    rw [h.domainOf_eq, if_neg]
    rintro ⟨-, hpresent⟩
    exact absurd hlow (bne_iff_ne.mp hpresent)
  · have hzero : isPresent 0 = true → depth (0 &&& addrMask) = some 3 := by
      intro hpresent
      cases hpresent
    rcases h.writeContext hbus device function 0 hzero with ⟨hsound, hentry⟩
    exact ⟨hsound, hentry⟩

theorem init_sound {s : PageStore σ} (hok : A.ok s.frames) (h : (init A s).exhausted = false) :
    (∃ depth, Sound A depth (init A s)) ∧
      ∀ bus device function v, (init A s).dmaEntry bus device function v = 0 := by
  have hmore : (allocPage A ⟨s, 0, fun _ => 0, 0, false⟩).2.exhausted = false := h
  rcases allocPage_eq hmore with ⟨-, hnull, halloc⟩
  have hnone {r : UInt64} {π : List Nat} {f : UInt64} :
      ¬ pageTableFormat.TableAt s.mem (fun _ => none) r π f := by
    rintro ⟨d, hd, -⟩
    cases hd
  have hempty : s.Tended A.toFrameSource pageTableFormat (fun _ => none) fun _ => False :=
    ⟨hok, ⟨fun ht => absurd ht hnone⟩, fun ht => absurd ht hnone, fun ht => absurd ht hnone⟩
  rcases hempty.newEmptyRoot 0 hnull with ⟨-, htended, -, hzero⟩
  have hinit : init A s = ⟨(s.alloc A.toFrameSource pageTableFormat).2, (A.alloc s.frames).1,
      fun _ => 0, 0, false⟩ := by
    rw [init, halloc]
  have hwired : Wired A (update (fun _ => none) (A.alloc s.frames).1 (some 0)) (init A s) := by
    rw [hinit]
    refine ⟨htended, update_self .., ?_, ?_, ?_⟩
    · intro bus
      exact hzero (π := []) le_rfl
    · intro bus hbus
      exact absurd rfl hbus
    · intro bus _ hbus
      exact absurd rfl hbus
  have hdomain (bus device function : UInt8) : (init A s).domainOf bus device function = none := by
    rw [hwired.domainOf_eq, hinit, if_neg fun hpresent => hpresent.1 rfl]
  refine ⟨⟨_, hwired, ?_⟩, ?_⟩
  · intro bus device function domain hsome
    rw [hdomain] at hsome
    cases hsome
  · intro bus device function v
    exact dmaEntry_of_none (hdomain bus device function)

end Iommu

end AgenticOS
