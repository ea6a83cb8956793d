import AgenticOS.Memory.PageTable
import AgenticOS.Foundation.Execution

/-!
# Address spaces

`kernel_rs/src/vmm.rs`: the kernel's page tables, the address spaces of
processes, and the windows of the kernel half. The state holds physical memory
with its allocator, the kernel's PML4 and the two pages that the MMIO and
framebuffer mappings remember. `spaces` is not a variable of the source: it
lists the PML4s that `new_address_space` has returned and that still stand.

`Vmm.Sound` says that all page tables form one forest, in which only the kernel
half is shared. It holds from `init` on.
-/

namespace AgenticOS

open Foundation List Option UInt64

def physMapBase : UInt64 := 0xFFFF800000000000
def mmioVirtualBase : UInt64 := 0xFFFFFE0000000000

structure KernelSegment where
  vaddr : UInt64
  paddr : UInt64
  len : UInt64
  writable : Bool
  executable : Bool
  deriving DecidableEq

structure Vmm (σ : Type) where
  store : PageStore σ
  kernelPml4 : UInt64
  lastMmioPage : UInt64
  lastFbPage : UInt64
  spaces : List UInt64

variable {σ : Type} {A : PageSource σ} {s s' : PageStore σ} {r r' : UInt64}

namespace Vmm

variable (A)

/-! ## Mapping ranges -/

def rangeEntries (vaddr paddr flags : UInt64) (pages : Nat) : List (UInt64 × UInt64) :=
  (List.range pages).map fun p =>
    (vaddr + UInt64.ofNat p * 4096, leafEntry (paddr + UInt64.ofNat p * 4096) flags)

def mapRange (s : PageStore σ) (pml4 vaddr paddr flags : UInt64) (pages : Nat) :
    Option (PageStore σ) :=
  (List.range pages).foldlM
    (fun s p => mapPage A s pml4 (vaddr + UInt64.ofNat p * 4096)
      (paddr + UInt64.ofNat p * 4096) flags) s

/-! ## The kernel's own tables -/

def kernelDataFlags : UInt64 := pageWritable ||| pageNoExecute ||| pageGlobal

def segmentFlags (seg : KernelSegment) : UInt64 :=
  let flags := pageNoExecute ||| pageGlobal
  let flags := if seg.writable then flags ||| pageWritable else flags
  if seg.executable then flags &&& ~~~pageNoExecute else flags

def mapSegment (pml4 : UInt64) (s : PageStore σ) (seg : KernelSegment) : Option (PageStore σ) :=
  mapRange A s pml4 seg.vaddr seg.paddr (segmentFlags seg) ((seg.len + 4096 - 1) / 4096).toNat

def stackRegionBase (currentStackPtr : UInt64) : UInt64 :=
  let aligned := currentStackPtr &&& ~~~0x1FFFFF
  aligned - 0x200000

/-- `vmm::init`: the segments of the kernel image, the direct map of the
physical span, and six megabytes around the stack, identically mapped. -/
def init (s : PageStore σ) (segments : List KernelSegment)
    (totalPhysicalSpan currentStackPtr : UInt64) : Option (Vmm σ) := do
  let (pml4, s) ← zeroedTable A s
  let s ← segments.foldlM (mapSegment A pml4) s
  let s ← mapRange A s pml4 physMapBase 0 kernelDataFlags (totalPhysicalSpan / 4096).toNat
  let base := stackRegionBase currentStackPtr
  let s ← mapRange A s pml4 base base kernelDataFlags 0x600
  return {
    store := s
    kernelPml4 := pml4
    lastMmioPage := 0xFFFFFFFFFFFFFFFF
    lastFbPage := 0xFFFFFFFFFFFFFFFF
    spaces := [] }

/-! ## Address spaces -/

/-- `new_address_space`: a page from the allocator, whatever it is, gets the
kernel half of the kernel's PML4. 0 is no address space. -/
def newAddressSpace (k : Vmm σ) : UInt64 × Vmm σ :=
  let (new, s) := k.store.alloc A.toFrameSource pageTableFormat
  let mem : PhysicalMemory := fun f i =>
    if f = new ∧ 256 ≤ i ∧ i < 512 then s.mem k.kernelPml4 i else s.mem f i
  (new, { k with
    store := { s with mem := mem }
    spaces := if new = 0 then k.spaces else new :: k.spaces })

/-- One of the nested loops of `destroy_address_space`: what `inner` frees
for each present entry among the first `n`. -/
def freedBelow (mem : PhysicalMemory) (n : Nat) (table : UInt64)
    (inner : UInt64 → List UInt64) : List UInt64 :=
  (List.range n).flatMap fun i =>
    if isPresent (mem table i) then inner (mem table i &&& addrMask) else []

/-- The frames that `destroy_address_space` frees, in its order. It frees
without writing to memory, so the walk sees the tables as they were. -/
def destroyedFrames (mem : PhysicalMemory) (pml4 : UInt64) : List UInt64 :=
  freedBelow mem 256 pml4 (fun pdpt =>
    freedBelow mem 512 pdpt (fun pd =>
      freedBelow mem 512 pd (fun pt =>
        freedBelow mem 512 pt (fun leaf => [leaf]) ++ [pt]) ++ [pd]) ++ [pdpt]) ++ [pml4]

def destroyAddressSpace (k : Vmm σ) (pml4 : UInt64) : Vmm σ :=
  if pml4 = 0 ∨ pml4 = k.kernelPml4 then k
  else { k with
    store := { k.store with
      frames := A.freeAll k.store.frames (destroyedFrames k.store.mem pml4) }
    spaces := k.spaces.filter (· ≠ pml4) }

def mapPageIn (k : Vmm σ) (pml4 vaddr paddr flags : UInt64) : Option (Vmm σ) := do
  let s ← mapPage A k.store pml4 vaddr paddr flags
  return { k with store := s }

def unmapPage (k : Vmm σ) (pml4 vaddr : UInt64) : Vmm σ :=
  { k with store := { k.store with mem := AgenticOS.unmapPage k.store.mem pml4 vaddr } }

/-! ## Windows of the kernel half -/

def mapHeapPage (k : Vmm σ) (vaddr paddr : UInt64) : Option (Vmm σ) :=
  k.mapPageIn A k.kernelPml4 vaddr paddr kernelDataFlags

def mmioFlags : UInt64 := pageWritable ||| pageNoExecute ||| pageCacheDisable ||| pageGlobal

def framebufferFlags : UInt64 := pageWritable ||| pageNoExecute ||| pagePat ||| pageGlobal

/-- `map_mmio_page`: nothing is mapped for the page mapped last. -/
def mapMmioPage (k : Vmm σ) (paddr : UInt64) : Option (UInt64 × Vmm σ) := do
  let page := paddr &&& ~~~0xFFF
  let vaddr := mmioVirtualBase + page
  let k ←
    if k.lastMmioPage ≠ page then do
      let k ← k.mapPageIn A k.kernelPml4 vaddr page mmioFlags
      pure { k with lastMmioPage := page }
    else pure k
  return (vaddr + (paddr &&& 0xFFF), k)

def mapFramebufferPage (k : Vmm σ) (paddr : UInt64) : Option (UInt64 × Vmm σ) := do
  let page := paddr &&& ~~~0xFFF
  let vaddr := mmioVirtualBase + page
  let k ←
    if k.lastFbPage ≠ page then do
      let k ← k.mapPageIn A k.kernelPml4 vaddr page framebufferFlags
      pure { k with lastFbPage := page }
    else pure k
  return (vaddr + (paddr &&& 0xFFF), k)

/-- The number of pages that the loop of `map_framebuffer_range` meets: its
two ends are page-aligned, so it stops at the second one. -/
def framebufferPages (paddr size : UInt64) : Nat :=
  let startPage := paddr &&& ~~~0xFFF
  let endPage := (paddr + size + 0xFFF) &&& ~~~0xFFF
  if startPage < endPage then ((endPage - startPage) / 4096).toNat else 0

def mapFramebufferRange (k : Vmm σ) (paddr size : UInt64) : Option (Vmm σ) := do
  let startPage := paddr &&& ~~~0xFFF
  let s ← mapRange A k.store k.kernelPml4 (mmioVirtualBase + startPage) startPage
    framebufferFlags (framebufferPages paddr size)
  return { k with store := s, lastFbPage := startPage }

/-! ## Calls -/

end Vmm

inductive VmmCall where
  | newAddressSpace
  | destroyAddressSpace (pml4 : UInt64)
  | mapPageIn (pml4 vaddr paddr flags : UInt64)
  | unmapPage (pml4 vaddr : UInt64)
  | mapHeapPage (vaddr paddr : UInt64)
  | mapMmioPage (paddr : UInt64)
  | mapFramebufferPage (paddr : UInt64)
  | mapFramebufferRange (paddr size : UInt64)
  deriving DecidableEq

namespace Vmm

variable (A)

/-- What a call returns (0 if nothing) and the state after it; `none` if the
kernel panics for want of a page table. -/
def call (k : Vmm σ) : VmmCall → Option (UInt64 × Vmm σ)
  | .newAddressSpace => some (k.newAddressSpace A)
  | .destroyAddressSpace pml4 => some (0, k.destroyAddressSpace A pml4)
  | .mapPageIn pml4 vaddr paddr flags => (k.mapPageIn A pml4 vaddr paddr flags).map ((0, ·))
  | .unmapPage pml4 vaddr => some (0, k.unmapPage pml4 vaddr)
  | .mapHeapPage vaddr paddr => (k.mapHeapPage A vaddr paddr).map ((0, ·))
  | .mapMmioPage paddr => k.mapMmioPage A paddr
  | .mapFramebufferPage paddr => k.mapFramebufferPage A paddr
  | .mapFramebufferRange paddr size => (k.mapFramebufferRange A paddr size).map ((0, ·))

def step (k : Vmm σ) (c : VmmCall) : Option (Vmm σ) := (k.call A c).map Prod.snd

/-! ## The invariant -/

def roots (k : Vmm σ) : List UInt64 := k.kernelPml4 :: k.spaces

def Sound (k : Vmm σ) : Prop := PagesSound A k.roots k.store

theorem kernelPml4_mem_roots (k : Vmm σ) : k.kernelPml4 ∈ k.roots := mem_cons_self

theorem mem_roots_of_mem_spaces {k : Vmm σ} {r : UInt64} (h : r ∈ k.spaces) : r ∈ k.roots :=
  mem_cons_of_mem _ h

end Vmm

/-! ### Several pages at once -/

/-- The entries of the list are set below `r`, one after the other. -/
inductive SetsEntries {σ : Type} (A : PageSource σ) (roots : List UInt64) (r : UInt64) :
    List (UInt64 × UInt64) → PageStore σ → PageStore σ → Prop where
  | nil {s : PageStore σ} (hs : PagesSound A roots s) : SetsEntries A roots r [] s s
  | cons {v w : UInt64} {rest : List (UInt64 × UInt64)} {s s₁ s' : PageStore σ}
      (head : SetsEntry A roots r v w s s₁) (tail : SetsEntries A roots r rest s₁ s') :
      SetsEntries A roots r ((v, w) :: rest) s s'

namespace SetsEntries

variable {roots : List UInt64} {s₁ : PageStore σ} {entries : List (UInt64 × UInt64)}

theorem sound (h : SetsEntries A roots r entries s s') : PagesSound A roots s' := by
  induction h with
  | nil hs => exact hs
  | cons _ _ ih => exact ih

theorem single {v w : UInt64} (h : SetsEntries A roots r [(v, w)] s s') :
    SetsEntry A roots r v w s s' := by
  cases h with
  | cons head tail =>
    cases tail
    exact head

/-- Pages that are not in the list keep their entries. -/
theorem others (h : SetsEntries A roots r entries s s') {v' : UInt64} (hr' : r' ∈ roots)
    (hother : ∀ e ∈ entries, pageNumber v' ≠ pageNumber e.1 ∨ (InUserHalf e.1 ∧ r' ≠ r)) :
    debugTranslate s'.mem r' v' = debugTranslate s.mem r' v' := by
  induction h with
  | nil => rfl
  | cons head _ ih =>
    rw [ih fun e he => hother e (mem_cons_of_mem _ he)]
    exact head.others hr' (hother _ mem_cons_self)

theorem entry (h : SetsEntries A roots r entries s s') (hr : r ∈ roots)
    (hnodup : (entries.map fun e => pageNumber e.1).Nodup) {v w : UInt64}
    (hmem : (v, w) ∈ entries) : debugTranslate s'.mem r v = w := by
  induction h with
  | nil => cases hmem
  | @cons v0 w0 rest s s₁ s' head tail ih =>
    rw [map_cons, nodup_cons] at hnodup
    rcases mem_cons.mp hmem with heq | hmem
    · rcases heq with ⟨rfl, rfl⟩
      rw [tail.others hr, head.entry]
      intro e he
      left
      intro hpage
      exact hnodup.1 (List.mem_map.mpr ⟨e, he, hpage.symm⟩)
    · exact ih hnodup.2 hmem

variable {e : UInt64 × UInt64}

section

variable (h : SetsEntries A roots r entries s s')

include h

theorem pages {P : UInt64 → Prop} (hr : r ∈ roots) (hP : ∀ e ∈ entries, P e.2) (he : e ∈ entries) :
    P (debugTranslate s'.mem r e.1) := by
  induction h generalizing e with
  | nil => cases he
  | @cons v0 w0 rest s s₁ s' head tail ih =>
    have hrest : ∀ e ∈ rest, P e.2 := fun e he => hP e (mem_cons_of_mem _ he)
    by_cases hagain : ∃ e' ∈ rest, pageNumber e.1 = pageNumber e'.1
    · rcases hagain with ⟨e', he', hpage⟩
      rw [debugTranslate_congr hpage]
      exact ih hrest he'
    · rw [tail.others hr fun e' he' => .inl fun hpage => hagain ⟨e', he', hpage⟩]
      rcases mem_cons.mp he with rfl | he
      · rw [head.entry]
        exact hP _ mem_cons_self
      · exact absurd ⟨e, he, rfl⟩ hagain

theorem present (hr : r ∈ roots)
    (hpresent : ∀ e ∈ entries, isPresent e.2 = true) (he : e ∈ entries) :
    isPresent (debugTranslate s'.mem r e.1) = true :=
  h.pages hr (P := fun w => isPresent w = true) hpresent he

/-- The words of a PML4 that change are absent ones on the way to a page of
the list. -/
theorem rootWords {i : Nat} (hr' : r' ∈ roots) (hne : s'.mem r' i ≠ s.mem r' i) :
    r' = r ∧ (∃ e ∈ entries, i = pml4Index e.1) ∧ isPresent (s.mem r i) = false := by
  induction h with
  | nil => exact absurd rfl hne
  | @cons v0 w0 rest s s₁ s' head tail ih =>
    by_cases hfirst : s₁.mem r' i = s.mem r' i
    · rw [← hfirst] at hne
      rcases ih hne with ⟨rfl, ⟨e, he, hi⟩, habsent⟩
      rw [hfirst] at habsent
      exact ⟨rfl, ⟨e, mem_cons_of_mem _ he, hi⟩, habsent⟩
    · rcases head.rootWords hr' hfirst with ⟨rfl, hi, habsent⟩
      exact ⟨rfl, ⟨_, mem_cons_self, hi⟩, habsent⟩

end

end SetsEntries

section

variable {roots : List UInt64} {vaddr paddr flags : UInt64}

theorem setsEntries_mapPage (hs : PagesSound A roots s) (hr : r ∈ roots)
    (hmap : mapPage A s r vaddr paddr flags = some s') :
    SetsEntries A roots r [(vaddr, leafEntry paddr flags)] s s' :=
  have h := mapPage_spec hs hr hmap
  .cons h (.nil h.sound)

theorem setsEntries_foldlM {α : Type} {pages : List α} (entry : α → UInt64 × UInt64 × UInt64)
    (hs : PagesSound A roots s) (hr : r ∈ roots)
    (hmap : pages.foldlM (fun s p => mapPage A s r (entry p).1 (entry p).2.1 (entry p).2.2) s =
      some s') :
    SetsEntries A roots r
      (pages.map fun p => ((entry p).1, leafEntry (entry p).2.1 (entry p).2.2)) s s' := by
  induction pages generalizing s with
  | nil =>
    cases hmap
    exact .nil hs
  | cons p pages ih =>
    rcases bind_eq_some_iff.mp hmap with ⟨_, hfirst, hrest⟩
    have h := mapPage_spec hs hr hfirst
    exact .cons h (ih h.sound hrest)

theorem setsEntries_unmap {pages : List UInt64} (hs : PagesSound A roots s) (hr : r ∈ roots) :
    SetsEntries A roots r (pages.map fun v => (v, 0)) s
      { s with mem := pages.foldl (fun mem v => unmapPage mem r v) s.mem } := by
  induction pages generalizing s with
  | nil => exact .nil hs
  | cons v pages ih =>
    have h := unmapPage_spec (v := v) hs hr
    exact .cons h (ih h.sound)

theorem setsEntries_mapRange {pages : Nat} (hs : PagesSound A roots s) (hr : r ∈ roots)
    (hmap : Vmm.mapRange A s r vaddr paddr flags pages = some s') :
    SetsEntries A roots r (Vmm.rangeEntries vaddr paddr flags pages) s s' :=
  setsEntries_foldlM (fun p => (vaddr + ofNat p * 4096, paddr + ofNat p * 4096, flags)) hs hr hmap

theorem pageNumber_add (v : UInt64) (p : Nat) :
    pageNumber (v + UInt64.ofNat p * 4096) = (pageNumber v + p) % 2 ^ 36 := by
  simp only [pageNumber, UInt64.toNat_add, UInt64.toNat_mul, toNat_ofNat']
  have hsize : (4096 : UInt64).toNat = 4096 := rfl
  rw [hsize]
  omega

theorem nodup_rangeEntries {pages : Nat} (h : pages ≤ 2 ^ 36) :
    ((Vmm.rangeEntries vaddr paddr flags pages).map fun e => pageNumber e.1).Nodup := by
  rw [Vmm.rangeEntries, List.map_map]
  apply Nodup.map_on _ nodup_range
  intro p hp q hq heq
  rw [mem_range] at hp hq
  simp only [Function.comp_apply, pageNumber_add] at heq
  omega

end

namespace Vmm

/-! ### The calls that set entries -/

def target (kernelPml4 : UInt64) : VmmCall → UInt64
  | .mapPageIn pml4 _ _ _ => pml4
  | .unmapPage pml4 _ => pml4
  | _ => kernelPml4

def entries {σ : Type} (k : Vmm σ) : VmmCall → List (UInt64 × UInt64)
  | .newAddressSpace => []
  | .destroyAddressSpace _ => []
  | .mapPageIn _ vaddr paddr flags => [(vaddr, leafEntry paddr flags)]
  | .unmapPage _ vaddr => [(vaddr, 0)]
  | .mapHeapPage vaddr paddr => [(vaddr, leafEntry paddr kernelDataFlags)]
  | .mapMmioPage paddr =>
    let page := paddr &&& ~~~0xFFF
    if k.lastMmioPage ≠ page then [(mmioVirtualBase + page, leafEntry page mmioFlags)] else []
  | .mapFramebufferPage paddr =>
    let page := paddr &&& ~~~0xFFF
    if k.lastFbPage ≠ page then [(mmioVirtualBase + page, leafEntry page framebufferFlags)]
    else []
  | .mapFramebufferRange paddr size =>
    rangeEntries (mmioVirtualBase + (paddr &&& ~~~0xFFF)) (paddr &&& ~~~0xFFF)
      framebufferFlags (framebufferPages paddr size)

variable {k k' : Vmm σ} {ret : UInt64} {c : VmmCall}

theorem mapPageIn_sets {v p flags : UInt64} (hs : k.Sound A) (hr : r ∈ k.roots)
    (h : k.mapPageIn A r v p flags = some k') :
    k'.kernelPml4 = k.kernelPml4 ∧ k'.spaces = k.spaces ∧
      SetsEntries A k.roots r [(v, leafEntry p flags)] k.store k'.store := by
  rcases bind_eq_some_iff.mp h with ⟨s, hmap, hk'⟩
  cases hk'
  exact ⟨rfl, rfl, setsEntries_mapPage hs hr hmap⟩

/-- Calls that neither make nor destroy an address space set the entries of
`entries`, and nothing else. -/
theorem call_sets (hs : k.Sound A) (hnew : c ≠ .newAddressSpace)
    (hdestroy : ∀ pml4, c ≠ .destroyAddressSpace pml4)
    (htarget : target k.kernelPml4 c ∈ k.roots) (hcall : k.call A c = some (ret, k')) :
    k'.kernelPml4 = k.kernelPml4 ∧ k'.spaces = k.spaces ∧
      SetsEntries A k.roots (target k.kernelPml4 c) (k.entries c) k.store k'.store := by
  cases c with
  | newAddressSpace => exact absurd rfl hnew
  | destroyAddressSpace pml4 => exact absurd rfl (hdestroy pml4)
  | mapPageIn | mapHeapPage =>
    rcases map_eq_some_iff.mp hcall with ⟨k1, hmap, heq⟩
    cases heq
    exact mapPageIn_sets hs htarget hmap
  | unmapPage pml4 v =>
    cases some_inj.mp hcall
    have h := unmapPage_spec (v := v) hs htarget
    exact ⟨rfl, rfl, .cons h (.nil h.sound)⟩
  | mapMmioPage | mapFramebufferPage =>
    simp only [call, mapMmioPage, mapFramebufferPage, entries] at hcall ⊢
    split_ifs at hcall ⊢ with hcache
    · rcases bind_eq_some_iff.mp hcall with ⟨k1, hmap, heq⟩
      cases heq
      have hsets := mapPageIn_sets hs htarget hmap
      exact hsets
    · cases hcall
      exact ⟨rfl, rfl, .nil hs⟩
  | mapFramebufferRange =>
    rcases map_eq_some_iff.mp hcall with ⟨k1, hmap, heq⟩
    cases heq
    rcases bind_eq_some_iff.mp hmap with ⟨s, hrange, hk1⟩
    cases hk1
    exact ⟨rfl, rfl, setsEntries_mapRange hs htarget hrange⟩

/-! ### New address spaces -/

theorem pml4Depth_cons (r : UInt64) (roots : List UInt64) :
    pml4Depth (r :: roots) = Function.update (pml4Depth roots) r (some 3) := by
  funext f
  rw [Function.update_apply]
  by_cases hf : f = r
  · rw [if_pos hf, pml4Depth, if_pos (hf ▸ mem_cons_self)]
  · simp only [pml4Depth, mem_cons, hf, false_or, if_false]

theorem pml4Depth_perm {roots roots' : List UInt64} (h : ∀ r, r ∈ roots ↔ r ∈ roots') :
    pml4Depth roots = pml4Depth roots' := by
  funext f
  simp only [pml4Depth, h]

variable (A) in
/-- What `new_address_space` does: nothing to the tables there are, and the
new ones are the kernel half of the kernel's. -/
structure Created (k k' : Vmm σ) (new : UInt64) : Prop where
  kernelPml4 : k'.kernelPml4 = k.kernelPml4
  spaces : k'.spaces = if new = 0 then k.spaces else new :: k.spaces
  sound : k'.Sound A
  words : ∀ {r i}, r ∈ k.roots → k'.store.mem r i = k.store.mem r i
  others : ∀ {r v}, r ∈ k.roots →
    debugTranslate k'.store.mem r v = debugTranslate k.store.mem r v
  fresh : new ≠ 0 → new ∉ k.roots
  newWords : ∀ {i}, new ≠ 0 →
    k'.store.mem new i = if 256 ≤ i ∧ i < 512 then k.store.mem k.kernelPml4 i else 0
  newUser : ∀ {v}, new ≠ 0 → InUserHalf v → debugTranslate k'.store.mem new v = 0

def kernelHalf (mem : PhysicalMemory) (pml4 : UInt64) (i : Nat) : UInt64 :=
  if 256 ≤ i ∧ i < 512 then mem pml4 i else 0

theorem newAddressSpace_fst : (k.newAddressSpace A).1 = (A.alloc k.store.frames).1 := rfl

theorem newAddressSpace_store (hs : k.Sound A) (hnull : (A.alloc k.store.frames).1 ≠ 0) :
    (k.newAddressSpace A).2.store =
      ⟨fill k.store.mem (A.alloc k.store.frames).1 (kernelHalf k.store.mem k.kernelPml4),
        (A.alloc k.store.frames).2⟩ := by
  have hnull' : (A.alloc k.store.frames).1 ≠ A.null := by rwa [A.null_eq]
  have hfresh := A.alloc_fresh k.store.frames hs.ok hnull'
  have hkernel : k.kernelPml4 ≠ (A.alloc k.store.frames).1 := by
    intro heq
    apply hfresh
    rw [← heq]
    exact hs.taken (EntryFormat.tableAt_root (pml4Depth_of_mem k.kernelPml4_mem_roots))
  simp only [newAddressSpace, Store.alloc, if_neg hnull', Store.mk.injEq, and_true]
  funext f i
  by_cases hf : f = (A.alloc k.store.frames).1
  · subst hf
    simp only [true_and, fill_same, kernelHalf, fill_of_ne hkernel]
    rfl
  · simp only [hf, false_and, if_false, fill_of_ne hf]

theorem newAddressSpace_store_null (hnull : (A.alloc k.store.frames).1 = 0) {f : UInt64} {i : Nat}
    (hf : f ≠ 0) : (k.newAddressSpace A).2.store.mem f i = k.store.mem f i := by
  have hnull' : (A.alloc k.store.frames).1 = A.null := by rw [hnull, A.null_eq]
  simp only [newAddressSpace, Store.alloc, if_pos hnull']
  rw [if_neg]
  rintro ⟨hf', -⟩
  exact hf (hf'.trans hnull)

theorem kernelHalf_copied (k : Vmm σ) (j : Nat)
    (hj : pageTableFormat.present (kernelHalf k.store.mem k.kernelPml4 j) = true) :
    pml4Depth k.roots k.kernelPml4 = some 3 ∧ IsKernelSlot j ∧
      kernelHalf k.store.mem k.kernelPml4 j = k.store.mem k.kernelPml4 j := by
  unfold kernelHalf at hj ⊢
  split_ifs at hj ⊢ with hrange
  · exact ⟨pml4Depth_of_mem k.kernelPml4_mem_roots, hrange.1, rfl⟩
  · cases hj

theorem mem_newAddressSpace_roots (hnull : (A.alloc k.store.frames).1 ≠ 0) (r : UInt64) :
    r ∈ (A.alloc k.store.frames).1 :: k.roots ↔ r ∈ (k.newAddressSpace A).2.roots := by
  show _ ↔ r ∈ k.kernelPml4 :: (if (A.alloc k.store.frames).1 = 0 then _ else _)
  rw [if_neg hnull, mem_cons, roots, mem_cons, mem_cons, mem_cons]
  tauto

theorem newAddressSpace_spec (hs : k.Sound A) :
    Created A k (k.newAddressSpace A).2 (k.newAddressSpace A).1 := by
  have htable {r : UInt64} (hr : r ∈ k.roots) : IsTable k.roots k.store.mem r [] r :=
    EntryFormat.tableAt_root (pml4Depth_of_mem hr)
  by_cases hnull : (A.alloc k.store.frames).1 = 0
  · have hnull' : (A.alloc k.store.frames).1 = A.null := by rw [hnull, A.null_eq]
    have hroots : (k.newAddressSpace A).2.roots = k.roots := by
      show k.kernelPml4 :: (if (A.alloc k.store.frames).1 = 0 then _ else _) = _
      rw [if_pos hnull]
      rfl
    have hsame {r π f} (ht : IsTable k.roots k.store.mem r π f) (i : Nat) :
        (k.newAddressSpace A).2.store.mem f i = k.store.mem f i := by
      apply newAddressSpace_store_null hnull
      have hreal := hs.real ht
      rwa [A.null_eq] at hreal
    constructor
    · rfl
    · rfl
    · unfold Sound
      rw [hroots]
      have hframes := hs.of_frames (A.alloc_ok _ hs.ok)
        fun ht => (A.alloc_null _ hs.ok hnull' _).mpr (hs.taken ht)
      exact hframes.of_tables_eq hsame
    · exact fun hr => hsame (htable hr) _
    · intro r v hr
      rw [debugTranslate_eq, debugTranslate_eq]
      exact EntryFormat.entryAt_of_tables_eq hsame (pml4Depth_of_mem hr) le_rfl
    all_goals exact fun hne => absurd hnull hne
  · have hnull' : (A.alloc k.store.frames).1 ≠ A.null := by rwa [A.null_eq]
    rcases hs.newRoot hnull' (kernelHalf_copied k) with ⟨hclone, hsound⟩
    have hfresh : (A.alloc k.store.frames).1 ∉ k.roots := fun hr => hclone.fresh _ _ (htable hr)
    constructor
    · rfl
    · rfl
    · unfold Sound PagesSound
      rw [newAddressSpace_store hs hnull, ← pml4Depth_perm (mem_newAddressSpace_roots hnull),
        pml4Depth_cons]
      exact hsound
    · intro r i hr
      rw [newAddressSpace_store hs hnull]
      exact hclone.tables_eq (htable hr) i
    · intro r v hr
      rw [newAddressSpace_store hs hnull, debugTranslate_eq, debugTranslate_eq]
      exact hclone.entryAt_old (pml4Depth_of_mem hr) le_rfl
    · exact fun _ => hfresh
    · intro i _
      rw [newAddressSpace_store hs hnull]
      exact fill_same _ _ _ _
    · intro v _ hv
      have hrow : kernelHalf k.store.mem k.kernelPml4 (pml4Index v) = 0 :=
        if_neg fun hrange => absurd hv (not_lt.mpr hrange.1)
      rw [newAddressSpace_store hs hnull, debugTranslate_eq, newAddressSpace_fst, tablePath,
        hclone.entryAt_new le_rfl, hrow]
      rfl

theorem newAddressSpace_tables (hs : k.Sound A) (hnull : (A.alloc k.store.frames).1 ≠ 0)
    {f : UInt64} {π : List Nat}
    (ht : IsTable (k.newAddressSpace A).2.roots (k.newAddressSpace A).2.store.mem r' π f) :
    (r' ≠ (A.alloc k.store.frames).1 ∧ IsTable k.roots k.store.mem r' π f) ∨
      (r' = (A.alloc k.store.frames).1 ∧ π = [] ∧ f = (A.alloc k.store.frames).1) ∨
      (r' = (A.alloc k.store.frames).1 ∧ ∃ j σ, π = j :: σ ∧ IsKernelSlot j ∧
        IsTable k.roots k.store.mem k.kernelPml4 π f) := by
  have hnull' : (A.alloc k.store.frames).1 ≠ A.null := by rwa [A.null_eq]
  have hc := (hs.newRoot hnull' (kernelHalf_copied k)).1
  rw [newAddressSpace_store hs hnull] at ht
  unfold IsTable at ht
  rw [← pml4Depth_perm (mem_newAddressSpace_roots hnull), pml4Depth_cons] at ht
  rcases hc.tableAt_cases ht with hold | hroot | ⟨hr', -, hshared⟩
  · exact .inl hold
  · exact .inr (.inl hroot)
  · exact .inr (.inr ⟨hr', hshared⟩)

theorem call_creates (hs : k.Sound A) (hcall : k.call A .newAddressSpace = some (ret, k')) :
    Created A k k' ret := by
  have hpair : k.newAddressSpace A = (ret, k') := some_inj.mp hcall
  have hcreated := newAddressSpace_spec hs
  rwa [hpair] at hcreated

/-! ### Destroyed address spaces -/

theorem mem_destroyed_roots (hr : r ≠ k.kernelPml4) :
    r' ∈ k.kernelPml4 :: k.spaces.filter (· ≠ r) ↔ r' ∈ k.roots ∧ r' ≠ r := by
  simp only [roots, mem_cons, mem_filter, decide_eq_true_eq]
  constructor
  · rintro (rfl | ⟨hmem, hne⟩)
    · exact ⟨.inl rfl, hr.symm⟩
    · exact ⟨.inr hmem, hne⟩
  · rintro ⟨rfl | hmem, hne⟩
    · exact .inl rfl
    · exact .inr ⟨hmem, hne⟩

theorem destroyAddressSpace_sound_of_taken (hs : k.Sound A) (hzero : r ≠ 0) (hr : r ≠ k.kernelPml4)
    (htaken : ∀ r' ∈ k.roots, r' ≠ r → ∀ π f, IsTable k.roots k.store.mem r' π f →
      A.taken (A.freeAll k.store.frames (destroyedFrames k.store.mem r)) f) :
    (k.destroyAddressSpace A r).Sound A := by
  have hdepth : ∀ r' d, pml4Depth (k.kernelPml4 :: k.spaces.filter (· ≠ r)) r' = some d →
      pml4Depth k.roots r' = some d ∧ r' ≠ r := by
    intro r' d hd
    rcases mem_of_pml4Depth hd with ⟨hmem, rfl⟩
    rw [mem_destroyed_roots hr] at hmem
    exact ⟨pml4Depth_of_mem hmem.1, hmem.2⟩
  rw [destroyAddressSpace, if_neg (not_or.mpr ⟨hzero, hr⟩)]
  have hfewer := hs.mono fun r' d hd => (hdepth r' d hd).1
  apply hfewer.of_frames (FrameSource.freeAll_ok hs.ok)
  rintro r' π f ⟨d, hd, hlen, ht⟩
  rcases hdepth r' d hd with ⟨hd, hne⟩
  exact htaken r' (mem_of_pml4Depth hd).1 hne π f ⟨d, hd, hlen, ht⟩

theorem destroyAddressSpace_sound (hs : k.Sound A) (hzero : r ≠ 0) (hr : r ≠ k.kernelPml4)
    (hfreed : ∀ f ∈ destroyedFrames k.store.mem r, ∀ r' ∈ k.roots, r' ≠ r →
      ∀ π, ¬ IsTable k.roots k.store.mem r' π f) :
    (k.destroyAddressSpace A r).Sound A := by
  apply destroyAddressSpace_sound_of_taken hs hzero hr
  intro r' hr' hne π f ht
  rw [FrameSource.freeAll_taken hs.ok fun hf => hfreed f hf r' hr' hne π ht]
  exact hs.taken ht

/-! ### From the start -/

theorem zeroedTable_sound (hok : A.ok s.frames)
    (h : zeroedTable A s = some (r, s')) : PagesSound A [r] s' := by
  unfold zeroedTable Store.newTable at h
  split_ifs at h with hnull
  have hdepth (f : UInt64) : pml4Depth [] f = none := if_neg not_mem_nil
  have hno {f : UInt64} {π : List Nat} {g : UInt64} : ¬ IsTable [] s.mem f π g := by
    rintro ⟨d, hd, -⟩
    cases hd
  have hempty : PagesSound A [] s :=
    ⟨hok, ⟨fun ht => absurd ht hno⟩, fun ht => absurd ht hno, fun ht => absurd ht hno⟩
  have hcopied : ∀ j : Nat, pageTableFormat.present 0 = true →
      pml4Depth [] 0 = some 3 ∧ IsKernelSlot j ∧ (0 : UInt64) = s.mem 0 j :=
    fun _ hpresent => absurd hpresent Bool.false_ne_true
  have hroot := (hempty.newRoot hnull hcopied).2
  simp only [Store.alloc, if_neg hnull, some_inj, Prod.mk.injEq] at h
  rcases h with ⟨rfl, rfl⟩
  unfold PagesSound
  rw [pml4Depth_cons]
  exact hroot

variable {segments : List KernelSegment}

theorem mapSegments_sound {roots : List UInt64} (hs : PagesSound A roots s) (hr : r ∈ roots)
    (h : segments.foldlM (mapSegment A r) s = some s') : PagesSound A roots s' := by
  induction segments generalizing s with
  | nil =>
    cases h
    exact hs
  | cons seg segments ih =>
    rcases bind_eq_some_iff.mp h with ⟨_, hseg, hrest⟩
    exact ih (setsEntries_mapRange hs hr hseg).sound hrest

variable {span stackPtr : UInt64}

/-- **`init`.** There are no address spaces yet, and the stack region is what
is mapped last. -/
theorem init_cases (hok : A.ok s.frames) (h : init A s segments span stackPtr = some k) :
    k.spaces = [] ∧ ∃ s₁, SetsEntries A k.roots k.kernelPml4
        (rangeEntries (stackRegionBase stackPtr) (stackRegionBase stackPtr) kernelDataFlags 0x600)
        s₁ k.store := by
  rcases bind_eq_some_iff.mp h with ⟨⟨pml4, s₁⟩, htable, h⟩
  rcases bind_eq_some_iff.mp h with ⟨_, hsegments, h⟩
  rcases bind_eq_some_iff.mp h with ⟨s3, hdirect, h⟩
  rcases bind_eq_some_iff.mp h with ⟨_, hstack, h⟩
  cases h
  have hr : pml4 ∈ [pml4] := mem_cons_self
  have hs2 := mapSegments_sound (zeroedTable_sound hok htable) hr hsegments
  have hs3 := (setsEntries_mapRange hs2 hr hdirect).sound
  exact ⟨rfl, s3, setsEntries_mapRange hs3 hr hstack⟩

theorem init_stack (hok : A.ok s.frames) (h : init A s segments span stackPtr = some k) {n : Nat}
    (hn : n < 0x600) :
    debugTranslate k.store.mem k.kernelPml4 (stackRegionBase stackPtr + UInt64.ofNat n * 4096) =
      leafEntry (stackRegionBase stackPtr + UInt64.ofNat n * 4096) kernelDataFlags := by
  rcases init_cases hok h with ⟨-, _, hset⟩
  apply hset.entry k.kernelPml4_mem_roots (nodup_rangeEntries (by norm_num))
  exact List.mem_map.mpr ⟨n, mem_range.mpr hn, rfl⟩

variable (A) in
def Booted (k : Vmm σ) : Prop :=
  ∃ s segments span stackPtr, A.ok s.frames ∧ init A s segments span stackPtr = some k

theorem Booted.sound (h : Booted A k) : k.Sound A ∧ k.spaces = [] := by
  rcases h with ⟨s, _, _, _, hok, hinit⟩
  rcases init_cases hok hinit with ⟨hspaces, _, hset⟩
  exact ⟨hset.sound, hspaces⟩

/-! ### Plenty of pages

With the plainest allocator, three more pages are enough to map one. -/

section

theorem exists_ensureTable (s : PageStore Nat) (r : UInt64) (i : Nat) (h : s.frames + 1 < 2 ^ 40) :
    ∃ s', ensureTable countingSource s r i = some s' ∧ s'.frames ≤ s.frames + 1 := by
  unfold ensureTable
  split_ifs with hpresent
  · exact ⟨s, rfl, Nat.le_succ _⟩
  · have hne := page_ne_zero h (Nat.succ_ne_zero _)
    simp only [zeroedTable, Store.newTable, Store.alloc, countingSource, if_pos h, if_neg hne]
    exact ⟨_, rfl, le_rfl⟩

theorem exists_mapPage (s : PageStore Nat) (r v p flags : UInt64) (h : s.frames + 3 < 2 ^ 40) :
    ∃ s', mapPage countingSource s r v p flags = some s' ∧ s'.frames ≤ s.frames + 3 := by
  unfold mapPage
  rcases splitIndices v with ⟨i4, i3, i2, _⟩
  rcases exists_ensureTable s r i4 (by omega) with ⟨s₁, h1, _⟩
  rcases exists_ensureTable s₁ (s₁.mem r i4 &&& addrMask) i3 (by omega) with ⟨s2, h2, _⟩
  rcases exists_ensureTable s2 (s2.mem (s₁.mem r i4 &&& addrMask) i3 &&& addrMask) i2
    (by omega) with ⟨_, h3, _⟩
  simp only [h1, h2, h3, bind_eq_bind, bind_some, Option.pure_def]
  exact ⟨_, rfl, by dsimp only; omega⟩

theorem exists_mapPages {α : Type} (entry : α → UInt64 × UInt64 × UInt64) (r : UInt64)
    (xs : List α) (s : PageStore Nat) (h : s.frames + 3 * xs.length < 2 ^ 40) :
    ∃ s', xs.foldlM (fun s x => mapPage countingSource s r (entry x).1 (entry x).2.1
        (entry x).2.2) s = some s' ∧ s'.frames ≤ s.frames + 3 * xs.length := by
  induction xs generalizing s with
  | nil => exact ⟨s, rfl, le_rfl⟩
  | cons x xs ih =>
    rw [length_cons] at h ⊢
    rcases exists_mapPage s r (entry x).1 (entry x).2.1 (entry x).2.2 (by omega) with
      ⟨s₁, hmap1, hle1⟩
    rcases ih s₁ (by omega) with ⟨s', hmap, _⟩
    refine ⟨s', ?_, by omega⟩
    rw [foldlM_cons, hmap1]
    exact hmap

theorem exists_mapRange (s : PageStore Nat) (r v p flags : UInt64) (pages : Nat)
    (h : s.frames + 3 * pages < 2 ^ 40) :
    ∃ s', mapRange countingSource s r v p flags pages = some s' ∧
      s'.frames ≤ s.frames + 3 * pages := by
  have hmap := exists_mapPages (fun n => (v + ofNat n * 4096, p + ofNat n * 4096, flags)) r
    (range pages) s
  rw [length_range] at hmap
  exact hmap h

/-- The kernel boots, with nothing but its stack mapped. -/
theorem exists_init (stackPtr : UInt64) :
    ∃ k, init countingSource ⟨fun _ _ => 0, 0⟩ [] 0 stackPtr = some k ∧ k.store.frames ≤ 2 ^ 13 ∧
      ∀ i, k.store.mem k.kernelPml4 i ≠ 0 →
        ∃ n < 0x600, i = pml4Index (stackRegionBase stackPtr + UInt64.ofNat n * 4096) := by
  have htable : zeroedTable countingSource ⟨fun _ _ => 0, 0⟩ =
      some (4096, ⟨fill (fun _ _ => 0) 4096 fun _ => 0, 1⟩) := rfl
  rcases exists_mapRange ⟨fill (fun _ _ => 0) 4096 fun _ => 0, 1⟩ 4096
    (stackRegionBase stackPtr) (stackRegionBase stackPtr) kernelDataFlags 0x600 (by decide) with
    ⟨s, hmap, hle⟩
  simp only [init, htable, bind_eq_bind, bind_some, foldlM_nil, Option.pure_def]
  have hdirect : mapRange countingSource ⟨fill (fun _ _ => 0) 4096 fun _ => 0, 1⟩ 4096
      physMapBase 0 kernelDataFlags ((0 : UInt64) / 4096).toNat =
        some ⟨fill (fun _ _ => 0) 4096 fun _ => 0, 1⟩ := rfl
  simp only [hdirect, bind_some, hmap]
  refine ⟨_, rfl, hle.trans (by decide), ?_⟩
  intro i hi
  have hr : (4096 : UInt64) ∈ [(4096 : UInt64)] := mem_cons_self
  have hset := setsEntries_mapRange (zeroedTable_sound trivial htable) hr hmap
  rcases (hset.rootWords hr hi).2.1 with ⟨e, he, rfl⟩
  rcases List.mem_map.mp he with ⟨n, hn, rfl⟩
  exact ⟨n, mem_range.mp hn, rfl⟩

theorem newAddressSpace_counting (k : Vmm Nat) (h : k.store.frames + 1 < 2 ^ 40) :
    (k.newAddressSpace countingSource).1 ≠ 0 ∧
      (k.newAddressSpace countingSource).2.store.frames = k.store.frames + 1 := by
  simp only [newAddressSpace, Store.alloc, countingSource, if_pos h, and_true]
  exact page_ne_zero h (Nat.succ_ne_zero _)

end

end Vmm

end AgenticOS
