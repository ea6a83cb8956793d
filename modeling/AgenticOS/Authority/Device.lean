import AgenticOS.Authority.Graph
import AgenticOS.Foundation.Execution
import AgenticOS.Memory.Iommu

/-!
# Authority of devices over memory

`grant_device`, `revoke_device` and `freeze_envelope_device` of
`kernel_rs/src/authority.rs`: the graph of grants, and the DMA domains that
are made from its projection.

A grant assigns the device a domain with what is projected of all its grants,
and a revocation of one grant clears its whole context entry. So graph and
hardware agree as long as the projection has room for all the pages of the
device, and a revocation leaves it none.
-/

namespace AgenticOS

open Foundation AuthorityGraph List Option
open Iommu (dmaPage ctxIndex rangePages init)

/-! ## The calls -/

structure DeviceAuthority (σ : Type) where
  graph : Graph
  iommu : Iommu σ

inductive DeviceCall where
  | grantDevice (bus device function : UInt8) (physBase len : UInt64)
  | revokeDevice (bus device function : UInt8) (physBase : UInt64)
  | freezeEnvelopeDevice (bus device function : UInt8) (envelope : List UInt64)
  deriving DecidableEq

namespace DeviceAuthority

section

variable {σ : Type} (A : PageSource σ)

def dmaGrant (bus device function : UInt8) (physBase len : UInt64) : Grant where
  principal := .pciDevice bus device function
  physBase := physBase
  len := len
  writable := true
  executable := false

def grantDevice (a : DeviceAuthority σ) (bus device function : UInt8) (physBase len : UInt64) :
    Option UInt16 × DeviceAuthority σ :=
  let principal := Principal.pciDevice bus device function
  let (added, graph) := grant a.graph (dmaGrant bus device function physBase len)
  if !added then (none, { a with graph := graph })
  else
    let entries := projectIommuTable graph principal maxGrants
    if entries.length = 0 then (none, { a with graph := graph })
    else
      let ranges := entries.map fun e => (e.physPage, 4096)
      let (domain, iommu) := a.iommu.assignDevice A bus device function ranges
      (some domain, ⟨graph, iommu⟩)

def revokeDevice (a : DeviceAuthority σ) (bus device function : UInt8) (physBase : UInt64) :
    Bool × DeviceAuthority σ :=
  let principal := Principal.pciDevice bus device function
  let (graphRemoved, graph) := revoke a.graph principal physBase
  let (hwRevoked, iommu) := a.iommu.revokeDevice bus device function
  (graphRemoved > 0 && hwRevoked, ⟨graph, iommu⟩)

def freezeEnvelopeDevice (a : DeviceAuthority σ) (bus device function : UInt8)
    (envelope : List UInt64) : Nat × DeviceAuthority σ :=
  envelope.foldl (fun (granted, a) physPage =>
    let (domain, a) := a.grantDevice A bus device function physPage 4096
    (if domain.isSome then granted + 1 else granted, a)) (0, a)

def call (a : DeviceAuthority σ) : DeviceCall → DeviceAuthority σ
  | .grantDevice bus device function physBase len =>
    (a.grantDevice A bus device function physBase len).2
  | .revokeDevice bus device function physBase =>
    (a.revokeDevice bus device function physBase).2
  | .freezeEnvelopeDevice bus device function envelope =>
    (a.freezeEnvelopeDevice A bus device function envelope).2

/-- A call during which `alloc_page` has a page whenever it is asked. -/
def step (a : DeviceAuthority σ) (c : DeviceCall) : Option (DeviceAuthority σ) :=
  if (a.call A c).iommu.exhausted then none else some (a.call A c)

def start (s : PageStore σ) : DeviceAuthority σ :=
  ⟨List.replicate maxGrants none, Iommu.init A s⟩

/-! ## The property -/

/-- A device and a function that a PCI address can name, and ranges that start
at a page. -/
def Addressed : DeviceCall → Prop
  | .grantDevice _ device function physBase _ =>
    device < 32 ∧ function < 8 ∧ physBase.toNat % 4096 = 0
  | .revokeDevice _ device function _ => device < 32 ∧ function < 8
  | .freezeEnvelopeDevice _ device function envelope =>
    device < 32 ∧ function < 8 ∧ ∀ physPage ∈ envelope, physPage.toNat % 4096 = 0

/-- The graph and the hardware give every device the same pages. -/
def Agrees (a : DeviceAuthority σ) : Prop :=
  ∀ bus device function : UInt8, device < 32 → function < 8 →
    ∀ page : UInt64, page.toNat % 4096 = 0 →
      (isReachable a.graph (.pciDevice bus device function) page = true ↔
        a.iommu.Reaches bus device function page)

/-- The graph is full; or the range is one that DMA can address, and the device
has between one page and as many as are projected. -/
def GrantFits (a : DeviceAuthority σ) (bus device function : UInt8) (physBase len : UInt64) :
    Prop :=
  let added := grant a.graph (dmaGrant bus device function physBase len)
  added.1 = false ∨
    (physBase.toNat + (pagesFor len).toNat * 4096 ≤ 2 ^ 48 ∧
      0 < (pagesOf added.2 (.pciDevice bus device function)).length ∧
      (pagesOf added.2 (.pciDevice bus device function)).length ≤ maxGrants)

def FreezeFits (a : DeviceAuthority σ) (bus device function : UInt8) : List UInt64 → Prop
  | [] => True
  | physPage :: envelope => a.GrantFits bus device function physPage 4096 ∧
      FreezeFits (a.grantDevice A bus device function physPage 4096).2 bus device function envelope

def Fits (a : DeviceAuthority σ) : DeviceCall → Prop
  | .grantDevice bus device function physBase len =>
    a.GrantFits bus device function physBase len
  | .revokeDevice bus device function physBase =>
    pagesOf (revoke a.graph (.pciDevice bus device function) physBase).2
      (.pciDevice bus device function) = []
  | .freezeEnvelopeDevice bus device function envelope =>
    a.FreezeFits A bus device function envelope

end

/-! ## The invariant -/

variable {σ : Type} {A : PageSource σ} {a : DeviceAuthority σ} {x : Grant}
  {bus device function bus' device' function' : UInt8} {physBase len page : UInt64}

structure DmaRange (x : Grant) : Prop where
  aligned : x.physBase.toNat % 4096 = 0
  range : x.physBase.toNat + (pagesFor x.len).toNat * 4096 ≤ 2 ^ 48

theorem DmaRange.ranged (h : DmaRange x) : Ranged x :=
  ⟨h.aligned, h.range.trans_lt (by decide)⟩

theorem DmaRange.of_mem (h : DmaRange x) (hpage : page ∈ (allEntries x).map Entry.physPage) :
    page.toNat % 4096 = 0 ∧ page.toNat < 2 ^ 48 := by
  simp only [allEntries, List.map_map, List.mem_map, mem_range, Function.comp_def,
    pageEntry] at hpage
  rcases hpage with ⟨i, hi, rfl⟩
  have hat := h.ranged.toNat_page hi
  have haligned := h.aligned
  have hrange := h.range
  rw [show pageSize = 4096 from rfl, hat]
  omega

theorem eq_of_pageNumber {p p' : UInt64} (hp : p.toNat % 4096 = 0 ∧ p.toNat < 2 ^ 48)
    (hp' : p'.toNat % 4096 = 0 ∧ p'.toNat < 2 ^ 48) (h : pageNumber p = pageNumber p') :
    p = p' := by
  apply UInt64.toNat_inj.mp
  simp only [pageNumber] at h
  omega

variable (A) in
structure Mirrored (a : DeviceAuthority σ) : Prop where
  sound : ∃ depth, a.iommu.Sound A depth
  ranges : ∀ x ∈ live a.graph, DmaRange x
  absent : ∀ bus device function : UInt8, device < 32 → function < 8 → ∀ v,
    (∀ p ∈ pagesOf a.graph (.pciDevice bus device function), pageNumber v ≠ pageNumber p) →
      a.iommu.dmaEntry bus device function v = 0
  mapped : ∀ bus device function : UInt8, device < 32 → function < 8 →
    ∀ p ∈ pagesOf a.graph (.pciDevice bus device function),
      a.iommu.dmaEntry bus device function p = Iommu.dmaPage p

theorem Mirrored.of_mem (h : Mirrored A a) {principal : Principal}
    (hpage : page ∈ pagesOf a.graph principal) : page.toNat % 4096 = 0 ∧ page.toNat < 2 ^ 48 := by
  rcases mem_pagesOf.mp hpage with ⟨x, hx, -, hpage⟩
  exact (h.ranges x hx).of_mem hpage

theorem dmaPage_and_addrMask (hpage : page.toNat % 4096 = 0 ∧ page.toNat < 2 ^ 48) :
    isPresent (dmaPage page) = true ∧ dmaPage page &&& addrMask = page := by
  have hleaf : dmaPage page = leafEntry page pageWritable := by
    rw [dmaPage, leafEntry, UInt64.or_assoc, UInt64.or_assoc, UInt64.or_comm pagePresent]
  have hflags : pageWritable &&& addrMask = 0 := by decide
  rw [hleaf]
  refine ⟨isPresent_leafEntry _ _, ?_⟩
  rw [leafEntry_and_addrMask, Packed.or_and_right, hflags, UInt64.or_zero]
  apply UInt64.toNat_inj.mp
  rw [toNat_and_addrMask]
  omega

/-- **Graph and hardware agree** where the hardware mirrors the graph. -/
theorem Mirrored.agrees (h : Mirrored A a) : a.Agrees := by
  intro bus device function hdevice hfunction page haligned
  have hreach : isReachable a.graph (.pciDevice bus device function) page = true ↔
      page ∈ pagesOf a.graph (.pciDevice bus device function) := by
    rw [isReachable_iff, mem_pagesOf]
    constructor
    · rintro ⟨x, hx, hprincipal, hcovers⟩
      exact ⟨x, hx, hprincipal, ((h.ranges x hx).ranged.covers_iff haligned).mp hcovers⟩
    · rintro ⟨x, hx, hprincipal, hpage⟩
      exact ⟨x, hx, hprincipal, ((h.ranges x hx).ranged.covers_iff haligned).mpr hpage⟩
  rw [hreach]
  constructor
  · intro hpage
    have hentry := h.mapped bus device function hdevice hfunction page hpage
    refine ⟨page, ?_⟩
    rw [hentry]
    exact dmaPage_and_addrMask (h.of_mem hpage)
  · rintro ⟨v, hpresent, rfl⟩
    by_cases hmatch :
        ∃ p ∈ pagesOf a.graph (.pciDevice bus device function), pageNumber v = pageNumber p
    · rcases hmatch with ⟨p, hp, hsame⟩
      have hentry : a.iommu.dmaEntry bus device function v = dmaPage p := by
        rw [← h.mapped bus device function hdevice hfunction p hp]
        exact Iommu.dmaEntry_page hsame
      rw [hentry, (dmaPage_and_addrMask (h.of_mem hp)).2]
      exact hp
    · rw [h.absent bus device function hdevice hfunction v
        fun p hp hsame => hmatch ⟨p, hp, hsame⟩] at hpresent
      cases hpresent

/-! ## One call -/

theorem ctxIndex_eq (hdevice : device < 32) (hfunction : function < 8) :
    ctxIndex device function = device.toNat * 8 + function.toNat := by
  have hd : device.toNat < 32 := UInt8.lt_iff_toNat_lt.mp hdevice
  have hf : function.toNat < 8 := UInt8.lt_iff_toNat_lt.mp hfunction
  have hmask5 : device.toNat &&& 0x1F = device.toNat := by
    rw [show 0x1F = 2 ^ 5 - 1 from rfl, Nat.and_two_pow_sub_one_eq_mod]
    exact Nat.mod_eq_of_lt hd
  have hmask3 : function.toNat &&& 0x7 = function.toNat := by
    rw [show 0x7 = 2 ^ 3 - 1 from rfl, Nat.and_two_pow_sub_one_eq_mod]
    exact Nat.mod_eq_of_lt hf
  rw [ctxIndex, hmask5, hmask3, ← Nat.shiftLeft_add_eq_or_of_lt hf, Nat.shiftLeft_eq]

theorem principal_eq_iff (hdevice : device < 32) (hfunction : function < 8)
    (hdevice' : device' < 32) (hfunction' : function' < 8) :
    bus' = bus ∧ ctxIndex device' function' = ctxIndex device function ↔
      Principal.pciDevice bus' device' function' = .pciDevice bus device function := by
  rw [Principal.pciDevice.injEq, ctxIndex_eq hdevice hfunction, ctxIndex_eq hdevice' hfunction',
    ← UInt8.toNat_inj (a := device'), ← UInt8.toNat_inj (a := function')]
  have hf : function.toNat < 8 := UInt8.lt_iff_toNat_lt.mp hfunction
  have hf' : function'.toNat < 8 := UInt8.lt_iff_toNat_lt.mp hfunction'
  constructor
  · rintro ⟨hbus, hindex⟩
    exact ⟨hbus, by omega, by omega⟩
  · rintro ⟨hbus, hd, hf⟩
    rw [hd, hf]
    exact ⟨hbus, rfl⟩

theorem flatMap_rangePages (entries : List Entry) :
    (entries.map fun e => (e.physPage, (4096 : UInt64))).flatMap rangePages =
      entries.map Entry.physPage := by
  have hone (e : Entry) : rangePages (e.physPage, 4096) = [e.physPage] := by
    have hcount : (((4096 : UInt64) + 4095) / 4096).toNat = 1 := by decide
    rw [rangePages, hcount]
    simp
  rw [flatMap_map]
  induction entries with
  | nil => rfl
  | cons e entries ih => rw [flatMap_cons, hone, ih, map_cons, singleton_append]

theorem projectIommuTable_all {g : Graph}
    (h : (pagesOf g (.pciDevice bus device function)).length ≤ maxGrants) :
    (projectIommuTable g (.pciDevice bus device function) maxGrants).map Entry.physPage =
      pagesOf g (.pciDevice bus device function) := by
  rw [pagesOf, length_map] at h
  show (project _ _ _).map _ = _
  rw [project_eq, take_of_length_le h, pagesOf]

/-- The outcomes of `grant_device`: it is refused, or there is nothing to
project, or the projection is assigned. -/
theorem grantDevice_cases (a : DeviceAuthority σ) (bus device function : UInt8)
    (physBase len : UInt64) :
    let x := dmaGrant bus device function physBase len
    let principal := Principal.pciDevice bus device function
    let ranges := (projectIommuTable (grant a.graph x).2 principal maxGrants).map
      fun e => (e.physPage, (4096 : UInt64))
    ((grant a.graph x).1 = false ∧ a.grantDevice A bus device function physBase len = (none, a)) ∨
    ((grant a.graph x).1 = true ∧ ranges = [] ∧ a.grantDevice A bus device function physBase len =
        (none, { a with graph := (grant a.graph x).2 })) ∨
    ((grant a.graph x).1 = true ∧ a.grantDevice A bus device function physBase len =
        (some (a.iommu.assignDevice A bus device function ranges).1,
          ⟨(grant a.graph x).2, (a.iommu.assignDevice A bus device function ranges).2⟩)) := by
  unfold grantDevice
  cases hadded : (grant a.graph (dmaGrant bus device function physBase len)).1 with
  | false =>
    left
    simp only [hadded, Bool.not_false, if_true, grant_refused hadded, true_and]
  | true =>
    right
    simp only [hadded, Bool.not_true, Bool.false_eq_true, if_false, true_and]
    split_ifs with hempty
    · left
      refine ⟨?_, rfl⟩
      rw [length_eq_zero_iff.mp hempty]
      rfl
    · right
      rfl

theorem exhausted_grantDevice
    (h : (a.grantDevice A bus device function physBase len).2.iommu.exhausted = false) :
    a.iommu.exhausted = false := by
  rcases grantDevice_cases (A := A) a bus device function physBase len with
    ⟨-, heq⟩ | ⟨-, -, heq⟩ | ⟨-, heq⟩
  · rw [heq] at h
    exact h
  · rw [heq] at h
    exact h
  · rw [heq] at h
    exact Iommu.exhausted_assignDevice h

theorem GrantFits.cases (hfits : a.GrantFits bus device function physBase len) :
    let x := dmaGrant bus device function physBase len
    a.grantDevice A bus device function physBase len = (none, a) ∨
      ((grant a.graph x).1 = true ∧ physBase.toNat + (pagesFor len).toNat * 4096 ≤ 2 ^ 48 ∧
        ∃ ranges : List (UInt64 × UInt64), ranges.flatMap rangePages =
            pagesOf (grant a.graph x).2 (.pciDevice bus device function) ∧
          a.grantDevice A bus device function physBase len =
            (some (a.iommu.assignDevice A bus device function ranges).1,
              ⟨(grant a.graph x).2, (a.iommu.assignDevice A bus device function ranges).2⟩)) := by
  rcases grantDevice_cases (A := A) a bus device function physBase len with
    ⟨-, heq⟩ | ⟨hadded, hempty, -⟩ | ⟨hadded, heq⟩
  · exact .inl heq
  · rcases hfits with hrefused | ⟨-, hpos, hroom⟩
    · rw [hadded] at hrefused
      cases hrefused
    · rw [map_eq_nil_iff] at hempty
      rw [← projectIommuTable_all hroom, hempty] at hpos
      cases hpos
  · rcases hfits with hrefused | ⟨hrange, -, hroom⟩
    · rw [hadded] at hrefused
      cases hrefused
    · refine .inr ⟨hadded, hrange, _, ?_, heq⟩
      rw [flatMap_rangePages, projectIommuTable_all hroom]

variable {a' : DeviceAuthority σ}

theorem Mirrored.update (h : Mirrored A a)
    (hsound : ∃ depth, a'.iommu.Sound A depth) (hranges : ∀ y ∈ live a'.graph, DmaRange y)
    (hothers : ∀ bus' device' function' : UInt8, device' < 32 → function' < 8 →
      Principal.pciDevice bus' device' function' ≠ .pciDevice bus device function →
        grantsOf a'.graph (.pciDevice bus' device' function') =
            grantsOf a.graph (.pciDevice bus' device' function') ∧
          ∀ v, a'.iommu.dmaEntry bus' device' function' v =
            a.iommu.dmaEntry bus' device' function' v)
    (habsent : ∀ v, (∀ p ∈ pagesOf a'.graph (.pciDevice bus device function),
      pageNumber v ≠ pageNumber p) → a'.iommu.dmaEntry bus device function v = 0)
    (hmapped : ∀ p ∈ pagesOf a'.graph (.pciDevice bus device function),
      a'.iommu.dmaEntry bus device function p = dmaPage p) : Mirrored A a' := by
  refine ⟨hsound, hranges, ?_, ?_⟩
  · intro bus' device' function' hdevice' hfunction' v hv
    by_cases hsame : Principal.pciDevice bus' device' function' = .pciDevice bus device function
    · cases hsame
      exact habsent v hv
    · rcases hothers bus' device' function' hdevice' hfunction' hsame with ⟨hgrants, hentry⟩
      rw [pagesOf, hgrants] at hv
      rw [hentry]
      exact h.absent bus' device' function' hdevice' hfunction' v hv
  · intro bus' device' function' hdevice' hfunction' p hp
    by_cases hsame : Principal.pciDevice bus' device' function' = .pciDevice bus device function
    · cases hsame
      exact hmapped p hp
    · rcases hothers bus' device' function' hdevice' hfunction' hsame with ⟨hgrants, hentry⟩
      rw [pagesOf, hgrants] at hp
      rw [hentry]
      exact h.mapped bus' device' function' hdevice' hfunction' p hp

theorem Mirrored.grantDevice (h : Mirrored A a) (hdevice : device < 32) (hfunction : function < 8)
    (haligned : physBase.toNat % 4096 = 0) (hfits : a.GrantFits bus device function physBase len)
    (hmore : (a.grantDevice A bus device function physBase len).2.iommu.exhausted = false) :
    Mirrored A (a.grantDevice A bus device function physBase len).2 := by
  rcases hfits.cases (A := A) with heq | ⟨hadded, hrange, ranges, hpages, heq⟩
  · rw [heq]
    exact h
  rw [heq] at hmore ⊢
  rcases h.sound with ⟨_, hsound⟩
  rcases hsound.assignDevice hmore with ⟨hsound', hothers, habsent, hmapped⟩
  rw [hpages] at habsent hmapped
  have hranges : ∀ y ∈ live (grant a.graph (dmaGrant bus device function physBase len)).2,
      DmaRange y := by
    intro y hy
    rcases (mem_live_grant hadded).mp hy with rfl | hy
    · exact ⟨haligned, hrange⟩
    · exact h.ranges y hy
  have hbound (p : UInt64) (hp : p ∈ pagesOf
      (grant a.graph (dmaGrant bus device function physBase len)).2
        (.pciDevice bus device function)) : p.toNat % 4096 = 0 ∧ p.toNat < 2 ^ 48 := by
    rcases mem_pagesOf.mp hp with ⟨y, hy, -, hpage⟩
    exact (hranges y hy).of_mem hpage
  apply h.update hsound' hranges
  · intro _ _ _ hdevice' hfunction' hne
    constructor
    · exact grantsOf_grant_of_ne fun heq => hne heq.symm
    · intro v
      apply hothers
      rw [principal_eq_iff hdevice hfunction hdevice' hfunction']
      exact hne
  · exact habsent
  · intro p hp
    rcases hmapped p ⟨p, hp, rfl⟩ with ⟨p', hp', hnumber, hentry⟩
    rw [eq_of_pageNumber (hbound p hp) (hbound p' hp') hnumber] at hentry ⊢
    exact hentry

theorem Mirrored.revokeDevice (h : Mirrored A a) (hdevice : device < 32) (hfunction : function < 8)
    (hnone : pagesOf (revoke a.graph (.pciDevice bus device function) physBase).2
      (.pciDevice bus device function) = []) :
    Mirrored A (a.revokeDevice bus device function physBase).2 := by
  rcases h.sound with ⟨depth, hsound⟩
  rcases hsound.revokeDevice bus device function with ⟨hsound', hentry⟩
  apply h.update ⟨depth, hsound'⟩
  · intro y hy
    exact h.ranges y (mem_live_revoke.mp hy).1
  · intro bus' device' function' hdevice' hfunction' hne
    constructor
    · exact grantsOf_revoke_of_ne hne physBase
    · intro v
      refine (hentry bus' device' function' v).trans (if_neg ?_)
      rw [principal_eq_iff hdevice hfunction hdevice' hfunction']
      exact hne
  · intro v _
    exact (hentry bus device function v).trans (if_pos ⟨rfl, rfl⟩)
  · intro p hp
    have hgone : p ∈ ([] : List UInt64) := hnone ▸ hp
    cases hgone

theorem freezeEnvelopeDevice_snd (a : DeviceAuthority σ) (bus device function : UInt8)
    (envelope : List UInt64) :
    (a.freezeEnvelopeDevice A bus device function envelope).2 =
      envelope.foldl (fun a physPage => (a.grantDevice A bus device function physPage 4096).2)
        a := by
  unfold freezeEnvelopeDevice
  generalize 0 = granted
  induction envelope generalizing a granted with
  | nil => rfl
  | cons physPage envelope ih =>
    rw [foldl_cons, foldl_cons]
    exact ih _ _

variable {envelope : List UInt64}

theorem exhausted_freeze (h : (envelope.foldl (fun a physPage =>
      (a.grantDevice A bus device function physPage 4096).2) a).iommu.exhausted = false) :
    a.iommu.exhausted = false := by
  induction envelope generalizing a with
  | nil => exact h
  | cons physPage envelope ih => exact exhausted_grantDevice (ih h)

/-- **An envelope.** One grant after the other. -/
theorem Mirrored.freezeEnvelopeDevice (h : Mirrored A a) (hdevice : device < 32)
    (hfunction : function < 8)
    (haligned : ∀ physPage ∈ envelope, physPage.toNat % 4096 = 0)
    (hfits : a.FreezeFits A bus device function envelope)
    (hmore : (a.freezeEnvelopeDevice A bus device function envelope).2.iommu.exhausted = false) :
    Mirrored A (a.freezeEnvelopeDevice A bus device function envelope).2 := by
  rw [freezeEnvelopeDevice_snd] at hmore ⊢
  induction envelope generalizing a with
  | nil => exact h
  | cons physPage envelope ih =>
    apply ih
    · exact h.grantDevice hdevice hfunction (haligned physPage mem_cons_self) hfits.1
        (exhausted_freeze hmore)
    · exact fun p hp => haligned p (mem_cons_of_mem physPage hp)
    · exact hfits.2
    · exact hmore

theorem Mirrored.step {c : DeviceCall} (h : Mirrored A a)
    (haddressed : Addressed c) (hfits : a.Fits A c) (hstep : a.step A c = some a') :
    Mirrored A a' := by
  unfold DeviceAuthority.step at hstep
  split_ifs at hstep with hexhausted
  rw [Bool.not_eq_true] at hexhausted
  cases hstep
  cases c with
  | grantDevice =>
    rcases haddressed with ⟨hdevice, hfunction, haligned⟩
    exact h.grantDevice hdevice hfunction haligned hfits hexhausted
  | revokeDevice =>
    rcases haddressed with ⟨hdevice, hfunction⟩
    exact h.revokeDevice hdevice hfunction hfits
  | freezeEnvelopeDevice =>
    rcases haddressed with ⟨hdevice, hfunction, haligned⟩
    exact h.freezeEnvelopeDevice hdevice hfunction haligned hfits hexhausted

theorem mirrored_start {s : PageStore σ} (hok : A.ok s.frames)
    (hinit : (init A s).exhausted = false) : Mirrored A (start A s) := by
  rcases Iommu.init_sound hok hinit with ⟨hsound, hentry⟩
  refine ⟨hsound, ?_, ?_, ?_⟩
  · intro x hx
    cases hx
  · intro bus device function _ _ v _
    exact hentry bus device function v
  · intro bus device function _ _ p hp
    cases hp

/-! ## Every run -/

/-- **Software graph and hardware do not drift.** From an empty graph and an
empty root table: if every call is well addressed and fits, then graph and
hardware agree in every state reached, and a grant that fits and returns
`None` has changed nothing. -/
theorem device_authority_mirrored {s : PageStore σ} (hok : A.ok s.frames)
    (hinit : (Iommu.init A s).exhausted = false) {calls : List DeviceCall}
    {a : DeviceAuthority σ}
    (hcalls : Meets (step A) (fun a c => Addressed c ∧ a.Fits A c) (start A s) calls)
    (hrun : attempt (step A) (start A s) calls = some a) :
    a.Agrees ∧ ∀ bus device function physBase len, a.GrantFits bus device function physBase len →
        (a.grantDevice A bus device function physBase len).1 = none →
          (a.grantDevice A bus device function physBase len).2 = a := by
  constructor
  · have h : Mirrored A a := by
      apply attempt_invariant _ (mirrored_start hok hinit) hcalls hrun
      intro a c _ ha hc hstep
      exact ha.step hc.1 hc.2 hstep
    exact h.agrees
  · intro bus device function physBase len hfits hnone
    rcases hfits.cases (A := A) with heq | ⟨-, -, ranges, -, heq⟩
    · rw [heq]
    · rw [heq] at hnone
      cases hnone

def emptyStart : DeviceAuthority Nat := start countingSource ⟨fun _ _ => 0, 0⟩

/-- A page for one device and two for another, until the first one is revoked. -/
theorem device_authority_mirrored_two_devices :
    ∃ a, attempt (step countingSource) emptyStart [.grantDevice 0 3 0 0x10000 4096,
        .grantDevice 0 4 0 0x20000 8192, .revokeDevice 0 3 0 0x10000] = some a ∧
      a.iommu.Reaches 0 4 0 0x21000 ∧ ¬ a.iommu.Reaches 0 3 0 0x10000 := by
  have hcalls : Meets (step countingSource) (fun a c => Addressed c ∧ a.Fits countingSource c)
      emptyStart [.grantDevice 0 3 0 0x10000 4096, .grantDevice 0 4 0 0x20000 8192,
        .revokeDevice 0 3 0 0x10000] := by
    refine ⟨⟨⟨by decide, by decide, by decide⟩, .inr ⟨by decide, by decide, by decide⟩⟩, ?_⟩
    rintro _ ⟨⟩
    refine ⟨⟨⟨by decide, by decide, by decide⟩, .inr ⟨by decide, ?_, ?_⟩⟩, ?_⟩
    · decide +kernel
    · decide +kernel
    rintro _ ⟨⟩
    refine ⟨⟨⟨by decide, by decide⟩, ?_⟩, fun _ _ => trivial⟩
    show _ = []
    decide +kernel
  refine exists_run_imp (Q := fun a => isReachable a.graph (.pciDevice 0 4 0) 0x21000 = true ∧
    ¬ isReachable a.graph (.pciDevice 0 3 0) 0x10000 = true) (by decide +kernel) ?_
  rintro a hrun ⟨hkept, hgone⟩
  have hagrees := (device_authority_mirrored trivial (by decide) hcalls hrun).1
  exact ⟨(hagrees 0 4 0 (by decide) (by decide) 0x21000 (by decide)).mp hkept,
    fun hreach => hgone ((hagrees 0 3 0 (by decide) (by decide) 0x10000 (by decide)).mpr hreach)⟩

/-- With two grants of one device, the revocation of the first one takes the
page of the second one out of the hardware as well. And a grant without pages
returns `None` and stays in the graph. -/
theorem revoke_clears_other_grant : (∃ a, attempt (step countingSource) emptyStart
        [.grantDevice 0 3 0 0x10000 4096, .grantDevice 0 3 0 0x20000 4096,
          .revokeDevice 0 3 0 0x10000] = some a ∧ ¬ a.Agrees) ∧
      (emptyStart.grantDevice countingSource 0 3 0 0x10000 0).1 = none ∧
      (emptyStart.grantDevice countingSource 0 3 0 0x10000 0).2.graph ≠ emptyStart.graph := by
  refine ⟨?_, by decide, by decide⟩
  refine exists_run_imp (Q := fun a => isReachable a.graph (.pciDevice 0 3 0) 0x20000 = true ∧
    a.iommu.domainOf 0 3 0 = none) (by decide +kernel) ?_
  rintro a - ⟨hreach, hdomain⟩ hagrees
  rcases (hagrees 0 3 0 (by decide) (by decide) 0x20000 (by decide)).mp hreach with
    ⟨v, hpresent, -⟩
  rw [Iommu.dmaEntry_of_none hdomain] at hpresent
  cases hpresent

end DeviceAuthority

end AgenticOS
