import AgenticOS.Memory.Elf
import AgenticOS.Memory.Heap
import AgenticOS.Memory.PmmSource
import AgenticOS.Memory.UserMappings
import AgenticOS.Foundation.TableWalk

/-!
# Tearing an address space down

`destroy_address_space` gives back every frame that the user half of a PML4
names, and an entry does not say whose frame it names. So what the walk frees
is tied here to how the entries came about: a ledger beside the page tables
records the frames allocated for each process, and `Tidy` says that of all
pages in the user half of an address space, these are the ones that
`free_page` can give back.

Pages of a device or of a window buffer are mapped by the same kind of entry.
The invariant survives them only as long as `free_page` refuses their frames,
and for a window buffer, which lies on the kernel heap, it does not.
-/

namespace AgenticOS

open Foundation List Option UInt64
open EntryFormat (within_nil count_postorder)

/-! ## What the user half names -/

/-- The page of `v` below `r` is mapped, to the frame `f`. -/
def Leaf (mem : PhysicalMemory) (r v f : UInt64) : Prop :=
  isPresent (debugTranslate mem r v) = true ∧ frameFromEntry (debugTranslate mem r v) = f

/-- A table below the first half of the PML4, or the PML4 itself. -/
def IsUserTable (mem : PhysicalMemory) (r f : UInt64) : Prop :=
  ∃ π, EntryFormat.Within [256, 512, 512] π ∧ pageTableFormat.descend mem r π = some f

variable {mem mem' : PhysicalMemory} {r v v' f r' w g p flags : UInt64} {π pages : List Nat}
  {k : Vmm Pmm}
  {owned : List (UInt64 × UInt64)} {s' s : PageStore Pmm}

theorem leaf_congr (h : debugTranslate mem' r v' = debugTranslate mem r v) :
    Leaf mem' r v' f ↔ Leaf mem r v f := by
  rw [Leaf, Leaf, h]

theorem exists_page_of_within (h : EntryFormat.Within [256, 512, 512, 512] π) :
    EntryFormat.Within [256, 512, 512] π ∨ ∃ v, InUserHalf v ∧ π = tablePath v ++ [ptIndex v] := by
  rcases π with _ | ⟨i4, _ | ⟨i3, _ | ⟨i2, _ | ⟨i1, _ | ⟨i, π⟩⟩⟩⟩⟩
  · exact .inl within_nil
  · exact .inl ⟨h.1, within_nil⟩
  · exact .inl ⟨h.1, h.2.1, within_nil⟩
  · exact .inl ⟨h.1, h.2.1, h.2.2.1, within_nil⟩
  · rcases h with ⟨_, _, _, _, -⟩
    right
    have hv : (ofNat (i4 * 2 ^ 39 + i3 * 2 ^ 30 + i2 * 2 ^ 21 + i1 * 2 ^ 12)).toNat =
        i4 * 2 ^ 39 + i3 * 2 ^ 30 + i2 * 2 ^ 21 + i1 * 2 ^ 12 := by
      apply toNat_ofNat_of_lt'
      show _ < 2 ^ 64
      omega
    refine ⟨ofNat (i4 * 2 ^ 39 + i3 * 2 ^ 30 + i2 * 2 ^ 21 + i1 * 2 ^ 12), ?_, ?_⟩
    · rw [inUserHalf_iff, hv]
      omega
    · simp only [tablePath, ptIndex, pml4Index, pdptIndex, pdIndex, splitIndices_eq, hv,
        cons_append, nil_append, List.cons.injEq, and_true]
      omega
  · exact h.2.2.2.2.elim

theorem within_page (hv : InUserHalf v) :
    EntryFormat.Within [256, 512, 512, 512] (tablePath v ++ [ptIndex v]) :=
  ⟨hv, pdptIndex_lt v, pdIndex_lt v, ptIndex_lt v, within_nil⟩

theorem descend_page_iff :
    pageTableFormat.descend mem r (tablePath v ++ [ptIndex v]) = some f ↔ Leaf mem r v f := by
  unfold Leaf
  rw [debugTranslate_eq, EntryFormat.descend_append]
  cases ht : pageTableFormat.descend mem r (tablePath v) with
  | none =>
    rw [EntryFormat.entryAt_of_none ht, bind_none]
    constructor
    · intro h
      cases h
    · rintro ⟨h, -⟩
      cases h
  | some pt =>
    rw [EntryFormat.entryAt_of_some ht, bind_some]
    by_cases hp : pageTableFormat.present (mem pt (ptIndex v)) = true
    · rw [EntryFormat.descend_cons_of_present hp, EntryFormat.descend_nil, some_inj]
      exact ⟨fun hf => ⟨hp, hf⟩, And.right⟩
    · rw [EntryFormat.descend_cons_of_absent (Bool.eq_false_iff.mpr hp)]
      constructor
      · intro h
        cases h
      · rintro ⟨h, -⟩
        exact absurd h hp

theorem destroyedFrames_eq (mem : PhysicalMemory) (r : UInt64) :
    Vmm.destroyedFrames mem r = pageTableFormat.postorder mem [256, 512, 512, 512] r := rfl

/-- **What `destroy_address_space` frees**: the tables of the user half and the
frames of its pages. -/
theorem mem_destroyedFrames :
    f ∈ Vmm.destroyedFrames mem r ↔ IsUserTable mem r f ∨ ∃ v, InUserHalf v ∧ Leaf mem r v f := by
  rw [destroyedFrames_eq, EntryFormat.mem_postorder]
  constructor
  · rintro ⟨π, hπ, hf⟩
    rcases exists_page_of_within hπ with hπ | ⟨v, hv, rfl⟩
    · exact .inl ⟨π, hπ, hf⟩
    · exact .inr ⟨v, hv, descend_page_iff.mp hf⟩
  · rintro (⟨π, hπ, hf⟩ | ⟨v, hv, hf⟩)
    · exact ⟨π, hπ.append, hf⟩
    · exact ⟨_, within_page hv, descend_page_iff.mpr hf⟩

variable {roots : List UInt64}

theorem IsUserTable.isTable (hr : r ∈ roots) (h : IsUserTable mem r f) :
    ∃ π, EntryFormat.Within [256, 512, 512] π ∧ IsTable roots mem r π f := by
  rcases h with ⟨π, hπ, hf⟩
  exact ⟨π, hπ, 3, pml4Depth_of_mem hr, hπ.length_le, hf⟩

theorem isUserTable_of_isTable (hπ : EntryFormat.Within [256, 512, 512] π)
    (h : IsTable roots mem r π f) : IsUserTable mem r f := by
  rcases h with ⟨d, -, -, hf⟩
  exact ⟨π, hπ, hf⟩

/-! ## The invariant -/

/-- The pages of the direct map, which is a window onto all of physical
memory. -/
def InDirectMap (p : Pmm) (v : UInt64) : Prop :=
  ∃ n < p.totalSpanPages, pageNumber v = pageNumber (physMapBase + UInt64.ofNat n * 4096)

/-- The kernel half maps the frame, and not only in the direct map: the kernel
image, the heap, device registers, the framebuffer. -/
def KernelMapped (k : Vmm Pmm) (f : UInt64) : Prop :=
  ∃ v, ¬ InUserHalf v ∧ ¬ InDirectMap k.store.frames v ∧ Leaf k.store.mem k.kernelPml4 v f

/-- The frames of `owned`, each with its address space, are what `free_page`
can give back among the pages of the user halves. Each of them is mapped at one
page, is no table, and the kernel has no use for it. -/
structure Tidy (k : Vmm Pmm) (owned : List (UInt64 × UInt64)) : Prop where
  sound : k.Sound Pmm.source
  kernel : k.kernelPml4 ∉ k.spaces
  tables : ∀ {r f}, r ∈ k.spaces → IsUserTable k.store.mem r f → k.store.frames.Releasable f
  held : ∀ {r f}, (r, f) ∈ owned → r ∈ k.spaces ∧ ¬ k.store.frames.Free f ∧
    k.store.frames.Releasable f ∧ ∃ v, InUserHalf v ∧ Leaf k.store.mem r v f
  apart : ∀ {r f}, (r, f) ∈ owned → ∀ r' π, ¬ IsTable k.roots k.store.mem r' π f
  once : (owned.map Prod.snd).Nodup
  leaves : ∀ {r v f}, r ∈ k.spaces → InUserHalf v → Leaf k.store.mem r v f →
    k.store.frames.Releasable f → (r, f) ∈ owned
  single : ∀ {r v v' f}, r ∈ k.spaces → InUserHalf v → InUserHalf v' →
    Leaf k.store.mem r v f → Leaf k.store.mem r v' f → k.store.frames.Releasable f →
    pageNumber v = pageNumber v'
  pinned : ∀ {f}, KernelMapped k f → ¬ k.store.frames.Free f ∧ (∀ r, (r, f) ∉ owned) ∧
    ∀ r ∈ k.spaces, ¬ IsUserTable k.store.mem r f

/-! ### Mapping a page -/

/-- A page is put where none was, with the frame `g`. -/
structure Adds (k : Vmm Pmm) (r v w g : UInt64) (s' : PageStore Pmm) : Prop where
  sets : SetsEntry Pmm.source k.roots r v w k.store s'
  layout : Pmm.SameLayout k.store.frames s'.frames
  space : r ∈ k.spaces
  user : InUserHalf v
  absent : isPresent (debugTranslate k.store.mem r v) = false
  present : isPresent w = true
  frame : frameFromEntry w = g

section

variable (ha : Adds k r v w g s')

include ha

theorem Adds.leaf_new : Leaf s'.mem r v g := by
  rw [Leaf, ha.sets.entry]
  exact ⟨ha.present, ha.frame⟩

theorem Adds.leaf_iff (hr' : r' ∈ k.spaces) (hv' : InUserHalf v') : Leaf s'.mem r' v' f ↔
      Leaf k.store.mem r' v' f ∨ (r' = r ∧ pageNumber v' = pageNumber v ∧ f = g) := by
  have huser := ha.sets.user (Vmm.mem_roots_of_mem_spaces hr') hv'
  by_cases hsame : r' = r ∧ pageNumber v' = pageNumber v
  · rw [if_pos hsame] at huser
    rcases hsame with ⟨rfl, hpage⟩
    have hold : ¬ Leaf k.store.mem r' v' f := by
      rintro ⟨hpresent, -⟩
      rw [debugTranslate_congr hpage, ha.absent] at hpresent
      cases hpresent
    rw [Leaf, huser, ha.frame]
    constructor
    · rintro ⟨-, rfl⟩
      exact .inr ⟨rfl, hpage, rfl⟩
    · rintro (hleaf | ⟨-, -, rfl⟩)
      · exact absurd hleaf hold
      · exact ⟨ha.present, rfl⟩
  · rw [if_neg hsame] at huser
    rw [leaf_congr huser]
    constructor
    · exact .inl
    · rintro (hleaf | ⟨hr', hpage, -⟩)
      · exact hleaf
      · exact absurd ⟨hr', hpage⟩ hsame

theorem Adds.kernel_eq (hkernel : k.kernelPml4 ∉ k.spaces) (v' : UInt64) :
    debugTranslate s'.mem k.kernelPml4 v' = debugTranslate k.store.mem k.kernelPml4 v' := by
  apply ha.sets.others k.kernelPml4_mem_roots
  right
  refine ⟨ha.user, ?_⟩
  rintro rfl
  exact hkernel ha.space

theorem Adds.kernelMapped_iff (hkernel : k.kernelPml4 ∉ k.spaces) :
    KernelMapped { k with store := s' } f ↔ KernelMapped k f := by
  unfold KernelMapped InDirectMap
  simp only [ha.layout.1, leaf_congr (ha.kernel_eq hkernel _)]

theorem Adds.userTable (hr' : r' ∈ k.spaces) (ht : IsUserTable s'.mem r' f) :
    IsUserTable k.store.mem r' f ∨ (f ≠ 0 ∧ k.store.frames.Free f) := by
  rcases ht.isTable (Vmm.mem_roots_of_mem_spaces hr') with ⟨_, hπ, ht⟩
  rcases ha.sets.fresh ht with hold | hfree
  · exact .inl (isUserTable_of_isTable hπ hold)
  · exact .inr ⟨ha.sets.sound.real ht, not_not.mp hfree⟩

end

/-- What a page may be mapped to: a frame that cannot be given back, or one
that was free before and is recorded now. -/
inductive Recorded (k : Vmm Pmm) (r g : UInt64) (s' : PageStore Pmm)
    (owned : List (UInt64 × UInt64)) : List (UInt64 × UInt64) → Prop where
  | foreign (h : ¬ k.store.frames.Releasable g) : Recorded k r g s' owned owned
  | fresh (hne : g ≠ 0) (hfree : k.store.frames.Free g) (htaken : ¬ s'.frames.Free g)
      (happart : ∀ r' π, ¬ IsTable k.roots s'.mem r' π g) :
      Recorded k r g s' owned (owned ++ [(r, g)])

variable {owned' : List (UInt64 × UInt64)}

theorem Recorded.mem_iff (h : Recorded k r g s' owned owned') (hok : k.store.frames.Ok) :
    (r', f) ∈ owned' ↔ (r', f) ∈ owned ∨ (k.store.frames.Releasable g ∧ r' = r ∧ f = g) := by
  cases h with
  | foreign hforeign =>
    constructor
    · exact .inl
    · rintro (hold | ⟨hrel, -⟩)
      · exact hold
      · exact absurd hrel hforeign
  | fresh hne hfree =>
    have hrel := hok.releasable hne hfree
    rw [mem_append, mem_singleton, Prod.mk.injEq]
    constructor
    · exact Or.imp_right fun h => ⟨hrel, h⟩
    · exact Or.imp_right And.right

theorem Tidy.adds (h : Tidy k owned) (ha : Adds k r v w g s')
    (hrec : Recorded k r g s' owned owned') : Tidy { k with store := s' } owned' := by
  have hok : k.store.frames.Ok := h.sound.ok.1
  have hrel (f : UInt64) : s'.frames.Releasable f ↔ k.store.frames.Releasable f :=
    ha.layout.releasable_iff
  have hfree {f : UInt64} (hf : ¬ k.store.frames.Free f) : ¬ s'.frames.Free f := ha.sets.taken hf
  -- a frame that is recorded now was free, so no table, page or kernel mapping has it
  have hgfresh (hg : k.store.frames.Releasable g) : k.store.frames.Free g ∧ ¬ s'.frames.Free g ∧
      ∀ r' π, ¬ IsTable k.roots s'.mem r' π g := by
    cases hrec with
    | foreign hforeign => exact absurd hg hforeign
    | fresh _ hfree htaken hapart => exact ⟨hfree, htaken, hapart⟩
  have hgnew (hg : k.store.frames.Releasable g) (r' : UInt64) : (r', g) ∉ owned :=
    fun hmem => (h.held hmem).2.1 (hgfresh hg).1
  constructor
  · exact ha.sets.sound
  · exact h.kernel
  · intro r' f hr' ht
    rw [hrel]
    rcases ha.userTable hr' ht with hold | ⟨hne, hf⟩
    · exact h.tables hr' hold
    · exact hok.releasable hne hf
  · intro r' f hmem
    rcases (hrec.mem_iff hok).mp hmem with hold | ⟨hg, rfl, rfl⟩
    · rcases h.held hold with ⟨hr', htaken, hf, v', hv', hleaf⟩
      refine ⟨hr', hfree htaken, (hrel f).mpr hf, v', hv', ?_⟩
      exact (ha.leaf_iff hr' hv').mpr (.inl hleaf)
    · exact ⟨ha.space, (hgfresh hg).2.1, (hrel _).mpr hg, v, ha.user, ha.leaf_new⟩
  · intro r' f hmem r'' π ht
    rcases (hrec.mem_iff hok).mp hmem with hold | ⟨hg, rfl, rfl⟩
    · rcases ha.sets.fresh ht with ht | hnew
      · exact h.apart hold r'' π ht
      · exact hnew (h.held hold).2.1
    · exact (hgfresh hg).2.2 r'' π ht
  · cases hrec with
    | foreign => exact h.once
    | fresh hne hf _ _ =>
      rw [map_append, nodup_append]
      refine ⟨h.once, nodup_singleton _, ?_⟩
      rintro f hf' f' hf'' rfl
      rcases List.mem_map.mp hf' with ⟨⟨r', f'⟩, hmem, rfl⟩
      rcases mem_singleton.mp hf'' with rfl
      exact hgnew (hok.releasable hne hf) r' hmem
  · intro r' v' f hr' hv' hleaf hf
    rw [hrel] at hf
    rw [hrec.mem_iff hok]
    rcases (ha.leaf_iff hr' hv').mp hleaf with hold | ⟨hr', -, rfl⟩
    · exact .inl (h.leaves hr' hv' hold hf)
    · exact .inr ⟨hf, hr', rfl⟩
  · intro r' _ _ f hr' hv1 hv2 h1 h2 hf
    rw [hrel] at hf
    rcases (ha.leaf_iff hr' hv1).mp h1 with h1 | ⟨-, hpage1, hfg⟩
    · rcases (ha.leaf_iff hr' hv2).mp h2 with h2 | ⟨-, -, rfl⟩
      · exact h.single hr' hv1 hv2 h1 h2 hf
      · exact absurd (h.leaves hr' hv1 h1 hf) (hgnew hf r')
    · rcases (ha.leaf_iff hr' hv2).mp h2 with h2 | ⟨-, hpage2, -⟩
      · rw [hfg] at h2 hf
        exact absurd (h.leaves hr' hv2 h2 hf) (hgnew hf r')
      · rw [hpage1, hpage2]
  · intro f hf
    rcases h.pinned ((ha.kernelMapped_iff h.kernel).mp hf) with ⟨htaken, hunowned, htables⟩
    refine ⟨hfree htaken, ?_, ?_⟩
    · intro r' hmem
      rcases (hrec.mem_iff hok).mp hmem with hold | ⟨hg, -, rfl⟩
      · exact hunowned r' hold
      · exact htaken (hgfresh hg).1
    · intro r' hr' ht
      rcases ha.userTable hr' ht with hold | ⟨-, hfree⟩
      · exact htables r' hr' hold
      · exact htaken hfree

/-! ### Stores between two steps -/

/-- The tables are as they were, no frame has become free, and no page
reserved. -/
structure Prepared (k : Vmm Pmm) (s : PageStore Pmm) : Prop
    extends Undisturbed Pmm.source k.roots k.store s where
  layout : Pmm.SameLayout k.store.frames s.frames

theorem Prepared.refl (hs : k.Sound Pmm.source) : Prepared k k.store :=
  ⟨⟨hs.ok, fun _ _ => rfl, id⟩, rfl, rfl⟩

theorem sameLayout_mapPage (hmap : mapPage Pmm.source s r v p flags = some s') :
    Pmm.SameLayout s.frames s'.frames := by
  have halloc (q : Pmm) (hq : Pmm.SameLayout s.frames q) :
      Pmm.SameLayout s.frames (Pmm.source.alloc q).2 :=
    hq.trans (Pmm.sameLayout_allocPage q)
  exact mapPage_frames halloc hmap ⟨rfl, rfl⟩

theorem Prepared.adds (hp : Prepared k s) (hs : k.Sound Pmm.source) (hr : r ∈ k.spaces)
    (hv : InUserHalf v) (habsent : isPresent (debugTranslate k.store.mem r v) = false)
    (hg : frameFromEntry (leafEntry p flags) = g)
    (hmap : mapPage Pmm.source s r v p flags = some s') :
    Adds k r v (leafEntry p flags) g s' where
  sets := hp.sets (mapPage_spec (hp.sound hs) (Vmm.mem_roots_of_mem_spaces hr) hmap)
  layout := hp.layout.trans (sameLayout_mapPage hmap)
  space := hr
  user := hv
  absent := habsent
  present := isPresent_leafEntry p flags
  frame := hg

theorem prepared_alloc (hs : k.Sound Pmm.source)
    (hmem : ∀ f, f ≠ (Pmm.source.alloc k.store.frames).1 → ∀ i, mem f i = k.store.mem f i) :
    Prepared k ⟨mem, (Pmm.source.alloc k.store.frames).2⟩ :=
  ⟨undisturbed_alloc hs hmem, Pmm.sameLayout_allocPage _⟩

def allocatedFor (pml4 : UInt64) (frames : List UInt64) : List (UInt64 × UInt64) :=
  (frames.filter (· ≠ 0)).map (pml4, ·)

theorem allocatedFor_append (pml4 : UInt64) (frames frames' : List UInt64) :
    allocatedFor pml4 (frames ++ frames') =
      allocatedFor pml4 frames ++ allocatedFor pml4 frames' := by
  rw [allocatedFor, filter_append, map_append]
  rfl

theorem Tidy.mapFresh (h : Tidy k owned) (hr : r ∈ k.spaces) (hv : InUserHalf v)
    (habsent : isPresent (debugTranslate k.store.mem r v) = false)
    (hflags : flags &&& addrMask = 0)
    (hmem : ∀ f, f ≠ (Pmm.source.alloc k.store.frames).1 → ∀ i, mem f i = k.store.mem f i)
    (hmap : mapPage Pmm.source ⟨mem, (Pmm.source.alloc k.store.frames).2⟩ r v
      (Pmm.source.alloc k.store.frames).1 flags = some s') :
    Adds k r v (leafEntry (Pmm.source.alloc k.store.frames).1 flags)
        (Pmm.source.alloc k.store.frames).1 s' ∧
      Tidy { k with store := s' }
        (owned ++ allocatedFor r [(Pmm.source.alloc k.store.frames).1]) := by
  have hs := h.sound
  have hframe : frameFromEntry (leafEntry (Pmm.source.alloc k.store.frames).1 flags) =
      (Pmm.source.alloc k.store.frames).1 := by
    rw [frameFromEntry_leafEntry hflags]
    exact Pmm.source.alloc_isFrame _ hs.ok
  have ha := (prepared_alloc hs hmem).adds hs hr hv habsent hframe hmap
  refine ⟨ha, h.adds ha ?_⟩
  by_cases hnull : (Pmm.source.alloc k.store.frames).1 = 0
  · have hnone : allocatedFor r [(Pmm.source.alloc k.store.frames).1] = [] := by
      rw [hnull]
      rfl
    rw [hnone, append_nil]
    exact .foreign fun hrel => hrel.1 hnull
  · have hone : allocatedFor r [(Pmm.source.alloc k.store.frames).1] =
        [(r, (Pmm.source.alloc k.store.frames).1)] := by
      simp [allocatedFor, hnull]
    rw [hone]
    have hfree := hs.ok.1.free_allocPage hnull
    have hsound := (prepared_alloc hs hmem).sound hs
    have hset := mapPage_spec hsound (Vmm.mem_roots_of_mem_spaces hr) hmap
    -- the frame is taken before the tables are put in
    have htaken : ¬ (Pmm.source.alloc k.store.frames).2.Free (Pmm.source.alloc k.store.frames).1 :=
      fun hf => ((hfree.2 _).mp hf).2 rfl
    refine .fresh hnull hfree.1 (hset.taken htaken) ?_
    intro _ _ ht
    rcases hset.fresh ht with ht | hnew
    · exact hs.alloc_not_table ((prepared_alloc hs hmem).isTable_iff.mp ht)
    · exact hnew htaken

theorem Tidy.mapForeign (h : Tidy k owned) (hr : r ∈ k.spaces) (hv : InUserHalf v)
    (habsent : isPresent (debugTranslate k.store.mem r v) = false)
    (hflags : flags &&& addrMask = 0) (hforeign : ¬ k.store.frames.Releasable (frameFromEntry p))
    (hmap : mapPage Pmm.source k.store r v p flags = some s') :
    Adds k r v (leafEntry p flags) (frameFromEntry p) s' ∧ Tidy { k with store := s' } owned := by
  have ha := (Prepared.refl h.sound).adds h.sound hr hv habsent
    (frameFromEntry_leafEntry hflags p) hmap
  exact ⟨ha, h.adds ha (.foreign hforeign)⟩

/-! ### Several pages

Each loop needs places for all its pages: in the user half, empty, and no two
of them the same. -/

/-- The pages can be mapped below `r` one after the other. -/
structure Vacant (mem : PhysicalMemory) (r : UInt64) (pages : List UInt64) : Prop where
  empty : ∀ v ∈ pages, InUserHalf v ∧ isPresent (debugTranslate mem r v) = false
  nodup : (pages.map pageNumber).Nodup

theorem Vacant.tail {k : Vmm Pmm} {s' : PageStore Pmm} {r v w g : UInt64} {pages : List UInt64}
    (h : Vacant k.store.mem r (v :: pages)) (ha : Adds k r v w g s') : Vacant s'.mem r pages := by
  rcases nodup_cons.mp h.nodup with ⟨hnotin, hnodup⟩
  refine ⟨fun v' hv' => ?_, hnodup⟩
  rcases h.empty v' (mem_cons_of_mem v hv') with ⟨huser, habsent⟩
  have hother : pageNumber v' ≠ pageNumber v := by
    intro hpage
    exact hnotin (List.mem_map.mpr ⟨v', hv', hpage⟩)
  rw [ha.sets.others (Vmm.mem_roots_of_mem_spaces ha.space) (.inl hother)]
  exact ⟨huser, habsent⟩

theorem Tidy.loadPages (hr : r ∈ k.spaces) {bytes : List UInt8} {pages : List (Elf64Phdr × Nat)}
    {frames frames' : List UInt64} (h : Tidy k (owned ++ allocatedFor r frames))
    (hvacant : Vacant k.store.mem r (pages.map fun x => Elf.pageVaddr x.1 x.2))
    (hload : Elf.loadPages Pmm.source r bytes pages (frames, k.store) = some (frames', s')) :
    Pmm.SameLayout k.store.frames s'.frames ∧
      Tidy { k with store := s' } (owned ++ allocatedFor r frames') := by
  induction pages generalizing k frames with
  | nil =>
    cases hload
    exact ⟨⟨rfl, rfl⟩, h⟩
  | cons x pages ih =>
    rcases x with ⟨ph, p⟩
    rcases bind_eq_some_iff.mp hload with ⟨⟨_, s1⟩, hfirst, hrest⟩
    rcases bind_eq_some_iff.mp hfirst with ⟨⟨_, _⟩, hpage, hst⟩
    cases hst
    rcases Elf.loadPage_eq hpage with ⟨rfl, hmap⟩
    rcases hvacant.empty _ mem_cons_self with ⟨hv, habsent⟩
    have hframe := isFrame_mod (Pmm.source.alloc_isFrame _ h.sound.ok)
    have hmem (f : UInt64) (hf : f ≠ (Pmm.source.alloc k.store.frames).1) (i : Nat) :
        Elf.pageImage k.store.mem bytes ph p (Pmm.source.alloc k.store.frames).1 f i =
          k.store.mem f i :=
      Elf.pageImage_of_ne hframe hf i
    rcases h.mapFresh hr hv habsent (Elf.segmentFlags_addrMask ph) hmem hmap with ⟨ha, htidy⟩
    rw [append_assoc, ← allocatedFor_append] at htidy
    rcases ih (k := { k with store := s1 }) hr htidy (hvacant.tail ha) hrest with ⟨hlayout, h'⟩
    exact ⟨ha.layout.trans hlayout, h'⟩

section

variable (h : Tidy k owned)

include h

theorem Tidy.mapRange (hr : r ∈ k.spaces) {vaddr paddr flags : UInt64}
    (hflags : flags &&& addrMask = 0)
    (hvacant : Vacant k.store.mem r (pages.map fun p => vaddr + UInt64.ofNat p * 4096))
    (hforeign : ∀ p ∈ pages,
      ¬ k.store.frames.Releasable (frameFromEntry (paddr + UInt64.ofNat p * 4096)))
    (hmap : pages.foldlM (fun s p => mapPage Pmm.source s r (vaddr + UInt64.ofNat p * 4096)
      (paddr + UInt64.ofNat p * 4096) flags) k.store = some s') :
    Pmm.SameLayout k.store.frames s'.frames ∧ Tidy { k with store := s' } owned := by
  induction pages generalizing k with
  | nil =>
    cases hmap
    exact ⟨⟨rfl, rfl⟩, h⟩
  | cons p pages ih =>
    rcases bind_eq_some_iff.mp hmap with ⟨s1, hfirst, hrest⟩
    rcases hvacant.empty _ mem_cons_self with ⟨hv, habsent⟩
    rcases h.mapForeign hr hv habsent hflags (hforeign p mem_cons_self) hfirst with
      ⟨ha, htidy⟩
    have hforeign1 : ∀ q ∈ pages,
        ¬ s1.frames.Releasable (frameFromEntry (paddr + ofNat q * 4096)) := by
      intro q hq
      rw [ha.layout.releasable_iff]
      exact hforeign q (mem_cons_of_mem p hq)
    rcases ih (k := { k with store := s1 }) htidy hr (hvacant.tail ha) hforeign1 hrest with
      ⟨hlayout, h'⟩
    exact ⟨ha.layout.trans hlayout, h'⟩

theorem Tidy.mapBufferPages (hr : r ∈ k.spaces) {base buffer : UInt64} {mapped : Bool}
    (hvacant : Vacant k.store.mem r (pages.map fun p => base + UInt64.ofNat p * 4096))
    (hforeign : ∀ p ∈ pages, ∀ phys,
      virtToPhys k.store.mem k.kernelPml4 (buffer + UInt64.ofNat p * 4096) = some phys →
        ¬ k.store.frames.Releasable (frameFromEntry phys))
    (hmap : WindowManager.mapBufferPages Pmm.source k.kernelPml4 r base buffer pages k.store =
      some (mapped, s')) :
    Pmm.SameLayout k.store.frames s'.frames ∧ Tidy { k with store := s' } owned := by
  induction pages generalizing k with
  | nil =>
    cases hmap
    exact ⟨⟨rfl, rfl⟩, h⟩
  | cons p pages ih =>
    rw [WindowManager.mapBufferPages] at hmap
    cases hphys : virtToPhys k.store.mem k.kernelPml4 (buffer + ofNat p * 4096) with
    | none =>
      rw [hphys] at hmap
      cases hmap
      exact ⟨⟨rfl, rfl⟩, h⟩
    | some phys =>
      rw [hphys] at hmap
      rcases bind_eq_some_iff.mp hmap with ⟨s1, hfirst, hrest⟩
      rcases hvacant.empty _ mem_cons_self with ⟨hv, habsent⟩
      have hphys' := hforeign p mem_cons_self phys hphys
      rcases h.mapForeign hr hv habsent (by decide) hphys' hfirst with ⟨ha, htidy⟩
      -- the kernel's own translations are as before
      have hforeign1 : ∀ q ∈ pages, ∀ phys,
          virtToPhys s1.mem k.kernelPml4 (buffer + ofNat q * 4096) = some phys →
            ¬ s1.frames.Releasable (frameFromEntry phys) := by
        intro q hq phys hphys
        rw [virtToPhys_eq, ha.kernel_eq h.kernel, ← virtToPhys_eq] at hphys
        rw [ha.layout.releasable_iff]
        exact hforeign q (mem_cons_of_mem p hq) phys hphys
      rcases ih (k := { k with store := s1 }) htidy hr (hvacant.tail ha) hforeign1 hrest with
        ⟨hlayout, h'⟩
      exact ⟨ha.layout.trans hlayout, h'⟩

/-! ### New address spaces -/

theorem Tidy.prepared (hp : Prepared k s) : Tidy { k with store := s } owned := by
  have hrel (f : UInt64) : s.frames.Releasable f ↔ k.store.frames.Releasable f :=
    hp.layout.releasable_iff
  have hleaf {r v f : UInt64} (hr : r ∈ k.roots) : Leaf s.mem r v f ↔ Leaf k.store.mem r v f :=
    leaf_congr (hp.debugTranslate_eq hr)
  have huser {r f : UInt64} (hr : r ∈ k.spaces) (ht : IsUserTable s.mem r f) :
      IsUserTable k.store.mem r f := by
    rcases ht.isTable (Vmm.mem_roots_of_mem_spaces hr) with ⟨π, hπ, ht⟩
    exact isUserTable_of_isTable hπ (hp.isTable_iff.mp ht)
  constructor
  · exact hp.sound h.sound
  · exact h.kernel
  · exact fun hr ht => (hrel _).mpr (h.tables hr (huser hr ht))
  · intro r f hmem
    rcases h.held hmem with ⟨hr, htaken, hf, v, hv, hvf⟩
    refine ⟨hr, hp.taken htaken, (hrel f).mpr hf, v, hv, ?_⟩
    exact (hleaf (Vmm.mem_roots_of_mem_spaces hr)).mpr hvf
  · exact fun hmem r' π ht => h.apart hmem r' π (hp.isTable_iff.mp ht)
  · exact h.once
  · intro r v f hr hv hvf hf
    exact h.leaves hr hv ((hleaf (Vmm.mem_roots_of_mem_spaces hr)).mp hvf) ((hrel f).mp hf)
  · intro r v _ f hr hv hv' hvf hvf' hf
    rw [hleaf (Vmm.mem_roots_of_mem_spaces hr)] at hvf hvf'
    exact h.single hr hv hv' hvf hvf' ((hrel f).mp hf)
  · rintro f ⟨v, hv, hdirect, hvf⟩
    rw [hleaf k.kernelPml4_mem_roots] at hvf
    have hdirect' : ¬ InDirectMap k.store.frames v := by
      rintro ⟨n, hn, hpage⟩
      exact hdirect ⟨n, by rw [hp.layout.1]; exact hn, hpage⟩
    rcases h.pinned ⟨v, hv, hdirect', hvf⟩ with ⟨htaken, hunowned, hno⟩
    exact ⟨hp.taken htaken, hunowned, fun r hr ht => hno r hr (huser hr ht)⟩

theorem Tidy.newAddressSpace :
    Pmm.SameLayout k.store.frames (k.newAddressSpace Pmm.source).2.store.frames ∧
      Tidy (k.newAddressSpace Pmm.source).2 owned := by
  have hs := h.sound
  have hcreated := Vmm.newAddressSpace_spec hs
  refine ⟨Pmm.sameLayout_allocPage _, ?_⟩
  by_cases hnull : (Pmm.source.alloc k.store.frames).1 = 0
  · have hk : (k.newAddressSpace Pmm.source).2 =
        { k with store := (k.newAddressSpace Pmm.source).2.store } := by
      show Vmm.mk _ _ _ _ (if (Pmm.source.alloc k.store.frames).1 = 0 then k.spaces else _) = _
      rw [if_pos hnull]
      rfl
    rw [hk]
    apply h.prepared
    apply prepared_alloc hs
    intro f hf i
    rw [hnull] at hf
    exact Vmm.newAddressSpace_store_null hnull hf
  · have hfree := hs.ok.1.free_allocPage hnull
    have hmono {f : UInt64} (hf : ¬ k.store.frames.Free f) :
        ¬ (k.newAddressSpace Pmm.source).2.store.frames.Free f :=
      fun hfree' => hf ((hfree.2 f).mp hfree').1
    have hrel (f : UInt64) : (k.newAddressSpace Pmm.source).2.store.frames.Releasable f ↔
        k.store.frames.Releasable f :=
      (Pmm.sameLayout_allocPage k.store.frames).releasable_iff
    have hspaces : (k.newAddressSpace Pmm.source).2.spaces =
        (Pmm.source.alloc k.store.frames).1 :: k.spaces := by
      rw [hcreated.spaces]
      exact if_neg hnull
    have hnew : (Pmm.source.alloc k.store.frames).1 ∉ k.roots := hcreated.fresh hnull
    have hleaf {r v f : UInt64} (hr : r ∈ k.roots) :
        Leaf (k.newAddressSpace Pmm.source).2.store.mem r v f ↔ Leaf k.store.mem r v f :=
      leaf_congr (hcreated.others hr)
    -- nothing is mapped in the new user half
    have hold {r v f : UInt64} (hr : r ∈ (k.newAddressSpace Pmm.source).2.spaces)
        (hv : InUserHalf v) (hvf : Leaf (k.newAddressSpace Pmm.source).2.store.mem r v f) :
        r ∈ k.spaces ∧ Leaf k.store.mem r v f := by
      rw [hspaces] at hr
      rcases mem_cons.mp hr with rfl | hr
      · have hzero := hcreated.newUser hnull hv
        rw [Vmm.newAddressSpace_fst] at hzero
        rw [Leaf, hzero] at hvf
        cases hvf.1
      · exact ⟨hr, (hleaf (Vmm.mem_roots_of_mem_spaces hr)).mp hvf⟩
    have huser {r f : UInt64} (hr : r ∈ (k.newAddressSpace Pmm.source).2.spaces)
        (ht : IsUserTable (k.newAddressSpace Pmm.source).2.store.mem r f) :
        (r ∈ k.spaces ∧ IsUserTable k.store.mem r f) ∨ f = (Pmm.source.alloc k.store.frames).1 := by
      rcases ht.isTable (Vmm.mem_roots_of_mem_spaces hr) with ⟨π, hπ, ht⟩
      rw [hspaces] at hr
      rcases Vmm.newAddressSpace_tables hs hnull ht with
        ⟨hne, ht⟩ | ⟨-, -, hf⟩ | ⟨-, j, σ, rfl, hj, -⟩
      · exact .inl ⟨(mem_cons.mp hr).resolve_left hne, isUserTable_of_isTable hπ ht⟩
      · exact .inr hf
      · exact absurd hπ.1 (not_lt.mpr hj)
    constructor
    · exact hcreated.sound
    · rw [hspaces, hcreated.kernelPml4, mem_cons, not_or]
      refine ⟨?_, h.kernel⟩
      intro heq
      rw [← heq] at hnew
      exact hnew k.kernelPml4_mem_roots
    · intro r f hr ht
      rw [hrel]
      rcases huser hr ht with ⟨hr, ht⟩ | rfl
      · exact h.tables hr ht
      · exact hs.ok.1.releasable hnull hfree.1
    · intro r f hmem
      rcases h.held hmem with ⟨hr, htaken, hf, v, hv, hvf⟩
      rw [hspaces]
      refine ⟨mem_cons_of_mem _ hr, hmono htaken, (hrel f).mpr hf, v, hv, ?_⟩
      exact (hleaf (Vmm.mem_roots_of_mem_spaces hr)).mpr hvf
    · intro r f hmem _ π ht
      rcases Vmm.newAddressSpace_tables hs hnull ht with
        ⟨-, ht⟩ | ⟨-, -, rfl⟩ | ⟨-, -, -, -, -, ht⟩
      · exact h.apart hmem _ _ ht
      · exact (h.held hmem).2.1 hfree.1
      · exact h.apart hmem _ _ ht
    · exact h.once
    · intro r v f hr hv hvf hf
      rcases hold hr hv hvf with ⟨hr, hvf⟩
      exact h.leaves hr hv hvf ((hrel f).mp hf)
    · intro r v _ f hr hv hv' hvf hvf' hf
      rcases hold hr hv hvf with ⟨hr', hvf⟩
      rcases hold hr hv' hvf' with ⟨-, hvf'⟩
      exact h.single hr' hv hv' hvf hvf' ((hrel f).mp hf)
    · rintro f ⟨v, hv, hdirect, hvf⟩
      rw [hcreated.kernelPml4, hleaf k.kernelPml4_mem_roots] at hvf
      have hdirect' : ¬ InDirectMap k.store.frames v := by
        rintro ⟨n, hn, hpage⟩
        refine hdirect ⟨n, ?_, hpage⟩
        exact hn.trans_eq (Pmm.sameLayout_allocPage k.store.frames).1.symm
      rcases h.pinned ⟨v, hv, hdirect', hvf⟩ with ⟨htaken, hunowned, hno⟩
      refine ⟨hmono htaken, hunowned, ?_⟩
      intro r hr ht
      rcases huser hr ht with ⟨hr, ht⟩ | rfl
      · exact hno r hr ht
      · exact htaken hfree.1

end

/-! ### Teardown -/

/-- `destroy_address_space` gives the frame back. -/
def Frees (k : Vmm Pmm) (r f : UInt64) : Prop :=
  f ∈ Vmm.destroyedFrames k.store.mem r ∧ k.store.frames.Releasable f

theorem Tidy.frees_iff (h : Tidy k owned) (hr : r ∈ k.spaces) :
    Frees k r f ↔ IsUserTable k.store.mem r f ∨ (r, f) ∈ owned := by
  unfold Frees
  rw [mem_destroyedFrames]
  constructor
  · rintro ⟨ht | ⟨v, hv, hleaf⟩, hf⟩
    · exact .inl ht
    · exact .inr (h.leaves hr hv hleaf hf)
  · rintro (ht | hmem)
    · exact ⟨.inl ht, h.tables hr ht⟩
    · rcases h.held hmem with ⟨-, -, hf, v, hv, hleaf⟩
      exact ⟨.inr ⟨v, hv, hleaf⟩, hf⟩

theorem Tidy.owner_unique (h : Tidy k owned) (hmem : (r, f) ∈ owned) (hmem' : (r', f) ∈ owned) :
    r = r' :=
  congrArg Prod.fst (inj_on_of_nodup_map h.once hmem hmem' rfl)

section

variable (h : Tidy k owned) (hr : r ∈ k.spaces)

include h hr

theorem Tidy.owned_kept (hne : r' ≠ r) (hmem : (r', f) ∈ owned) : ¬ Frees k r f := by
  rw [h.frees_iff hr]
  rintro (ht | hmem')
  · rcases ht.isTable (Vmm.mem_roots_of_mem_spaces hr) with ⟨π, -, ht⟩
    exact h.apart hmem r π ht
  · exact hne (h.owner_unique hmem hmem')

theorem Tidy.leaf_kept (hr' : r' ∈ k.spaces)
    (hne : r' ≠ r) (hv : InUserHalf v) (hleaf : Leaf k.store.mem r' v f) : ¬ Frees k r f := by
  intro hfrees
  exact h.owned_kept hr hne (h.leaves hr' hv hleaf hfrees.2) hfrees

theorem Tidy.table_kept (hne : r' ≠ r)
    (ht : IsTable k.roots k.store.mem r' π f) : ¬ Frees k r f := by
  rw [h.frees_iff hr]
  rintro (ht' | hmem)
  · -- one frame is one path, which the two roots do not share
    rcases ht'.isTable (Vmm.mem_roots_of_mem_spaces hr) with ⟨_, hπ', ht'⟩
    rcases h.sound.forest.unique ht' ht with ⟨-, -, hroot | ⟨i, _, rfl, hi⟩⟩
    · exact hne hroot.symm
    · exact absurd hπ'.1 (not_lt.mpr hi)
  · exact h.apart hmem r' π ht

theorem Tidy.kernel_kept (hf : KernelMapped k f) : ¬ Frees k r f := by
  rcases h.pinned hf with ⟨-, hunowned, hno⟩
  rw [h.frees_iff hr]
  rintro (ht | hmem)
  · exact hno r hr ht
  · exact hunowned r hmem

theorem Tidy.count_eq_one (hf : Frees k r f) : (Vmm.destroyedFrames k.store.mem r).count f = 1 := by
  have hroot := Vmm.mem_roots_of_mem_spaces hr
  rw [destroyedFrames_eq]
  rcases (h.frees_iff hr).mp hf with ht | hmem
  · rcases ht with ⟨π, hπ, hdesc⟩
    have hwidths : EntryFormat.Within [256, 512, 512, 512] π := hπ.append
    apply count_postorder hwidths hdesc
    intro π' hπ' hdesc'
    have ht : IsTable k.roots k.store.mem r π f :=
      ⟨3, pml4Depth_of_mem hroot, hπ.length_le, hdesc⟩
    rcases exists_page_of_within hπ' with hπ' | ⟨v, hv, rfl⟩
    · exact (h.sound.forest.unique ⟨3, pml4Depth_of_mem hroot, hπ'.length_le, hdesc'⟩ ht).1
    · have hmem := h.leaves hr hv (descend_page_iff.mp hdesc') hf.2
      exact absurd ht (h.apart hmem r π)
  · rcases h.held hmem with ⟨-, -, -, v, hv, hleaf⟩
    apply count_postorder (within_page hv) (descend_page_iff.mpr hleaf)
    intro π' hπ' hdesc'
    rcases exists_page_of_within hπ' with hπ' | ⟨v', hv', rfl⟩
    · exact absurd ⟨3, pml4Depth_of_mem hroot, hπ'.length_le, hdesc'⟩ (h.apart hmem r π')
    · have hpage := h.single hr hv' hv (descend_page_iff.mp hdesc') hleaf hf.2
      rcases path_eq_iff.mpr hpage with ⟨hpath, hindex⟩
      rw [hpath, hindex]

theorem Tidy.ne_zero : r ≠ 0 :=
  h.sound.real (EntryFormat.tableAt_root (pml4Depth_of_mem (Vmm.mem_roots_of_mem_spaces hr)))

theorem Tidy.ne_kernel : r ≠ k.kernelPml4 := by
  rintro rfl
  exact h.kernel hr

end

section

variable (h : Tidy k owned)

include h

section

variable (hr : r ∈ k.spaces)

include hr

theorem Tidy.destroyAddressSpace_eq :
    k.destroyAddressSpace Pmm.source r = { k with
        store := { k.store with
          frames := Pmm.source.freeAll k.store.frames (Vmm.destroyedFrames k.store.mem r) }
        spaces := k.spaces.filter (· ≠ r) } :=
  if_neg (not_or.mpr ⟨h.ne_zero hr, h.ne_kernel hr⟩)

theorem Tidy.free_destroy : (k.destroyAddressSpace Pmm.source r).store.frames.Free f ↔
      k.store.frames.Free f ∨ Frees k r f := by
  rw [h.destroyAddressSpace_eq hr]
  exact Pmm.free_freeAll _ _ f

theorem Tidy.sameLayout_destroy :
    Pmm.SameLayout k.store.frames (k.destroyAddressSpace Pmm.source r).store.frames := by
  rw [h.destroyAddressSpace_eq hr]
  exact Pmm.sameLayout_freeAll _ _

theorem Tidy.destroyAddressSpace :
    Tidy (k.destroyAddressSpace Pmm.source r) (owned.filter (·.1 ≠ r)) := by
  have heq := h.destroyAddressSpace_eq hr
  have hmem : (k.destroyAddressSpace Pmm.source r).store.mem = k.store.mem := by rw [heq]
  have hkernel : (k.destroyAddressSpace Pmm.source r).kernelPml4 = k.kernelPml4 := by rw [heq]
  have hspaces {r' : UInt64} : r' ∈ (k.destroyAddressSpace Pmm.source r).spaces ↔
      r' ∈ k.spaces ∧ r' ≠ r := by
    rw [heq, mem_filter, decide_eq_true_eq]
  have hroots {r' : UInt64} : r' ∈ (k.destroyAddressSpace Pmm.source r).roots ↔
      r' ∈ k.roots ∧ r' ≠ r := by
    rw [Vmm.roots, heq]
    exact Vmm.mem_destroyed_roots (h.ne_kernel hr)
  have hrel (f : UInt64) : (k.destroyAddressSpace Pmm.source r).store.frames.Releasable f ↔
      k.store.frames.Releasable f :=
    (h.sameLayout_destroy hr).releasable_iff
  have howned {r' f : UInt64} : (r', f) ∈ owned.filter (·.1 ≠ r) ↔ (r', f) ∈ owned ∧ r' ≠ r := by
    rw [mem_filter, decide_eq_true_eq]
  have htaken {f : UInt64} (hf : ¬ k.store.frames.Free f) (hkept : ¬ Frees k r f) :
      ¬ (k.destroyAddressSpace Pmm.source r).store.frames.Free f := by
    rw [h.free_destroy hr]
    exact not_or.mpr ⟨hf, hkept⟩
  have htable {r' : UInt64} {π : List Nat} {f : UInt64}
      (ht : IsTable (k.destroyAddressSpace Pmm.source r).roots
        (k.destroyAddressSpace Pmm.source r).store.mem r' π f) :
      IsTable k.roots k.store.mem r' π f := by
    rcases ht with ⟨d, hd, hπ, hf⟩
    rcases mem_of_pml4Depth hd with ⟨hr', rfl⟩
    rw [hmem] at hf
    exact ⟨3, pml4Depth_of_mem (hroots.mp hr').1, hπ, hf⟩
  constructor
  · apply Vmm.destroyAddressSpace_sound_of_taken h.sound (h.ne_zero hr) (h.ne_kernel hr)
    intro r' _ hne π f ht
    have hkept := htaken (h.sound.taken ht) (h.table_kept hr hne ht)
    rwa [heq] at hkept
  · rw [hkernel, hspaces]
    exact fun hin => h.kernel hin.1
  · intro r' f hr' ht
    rw [hmem] at ht
    rw [hrel]
    exact h.tables (hspaces.mp hr').1 ht
  · intro r' f hin
    rcases howned.mp hin with ⟨hold, hne⟩
    rcases h.held hold with ⟨hr', hfree, hf, v, hv, hleaf⟩
    rw [hspaces, hrel, hmem]
    exact ⟨⟨hr', hne⟩, htaken hfree (h.owned_kept hr hne hold), hf, v, hv, hleaf⟩
  · exact fun hin r' π ht => h.apart (howned.mp hin).1 r' π (htable ht)
  · exact h.once.sublist (filter_sublist.map Prod.snd)
  · intro r' v f hr' hv hleaf hf
    rw [hspaces] at hr'
    rw [hmem] at hleaf
    rw [hrel] at hf
    exact howned.mpr ⟨h.leaves hr'.1 hv hleaf hf, hr'.2⟩
  · intro r' v _ f hr' hv hv' hleaf hleaf' hf
    rw [hmem] at hleaf hleaf'
    exact h.single (hspaces.mp hr').1 hv hv' hleaf hleaf' ((hrel f).mp hf)
  · rintro f ⟨v, hv, hdirect, hleaf⟩
    rw [hmem, hkernel] at hleaf
    have hdirect' : ¬ InDirectMap k.store.frames v := by
      rintro ⟨n, hn, hpage⟩
      exact hdirect ⟨n, hn.trans_eq (h.sameLayout_destroy hr).1.symm, hpage⟩
    have hf : KernelMapped k f := ⟨v, hv, hdirect', hleaf⟩
    rcases h.pinned hf with ⟨hfree, hunowned, hno⟩
    refine ⟨htaken hfree (h.kernel_kept hr hf), ?_, ?_⟩
    · exact fun r' hin => hunowned r' (howned.mp hin).1
    · intro r' hr' ht
      rw [hmem] at ht
      exact hno r' (hspaces.mp hr').1 ht

end

end

/-! ## Runs -/

/-- The address spaces with `NEXT_USER_MMIO_OFFSET`. The two lists are not
variables of the source: the frames allocated for each address space, and the
frames of device ranges that have been mapped. -/
structure SpaceLedger where
  vmm : Vmm Pmm
  nextUserMmioOffset : UInt64
  owned : List (UInt64 × UInt64)
  devices : List UInt64

/-- The calls that build up and tear down address spaces, each with all it
reads. `mapFresh` is `map_page_in` of a page from `alloc_page`. -/
inductive SpaceCall where
  | newAddressSpace
  | mapFresh (pml4 vaddr flags : UInt64)
  | elfLoad (pml4 : UInt64) (bytes : List UInt8)
  | mapMmio (pml4 : UInt64) (core : Core) (table : CapabilityTable) (capId : CapId)
  | mapWindowBuffer (pml4 : UInt64) (windows : List Window) (surfaceObject : ObjectId)
  | destroyAddressSpace (pml4 : UInt64)

namespace SpaceLedger

def devicePages (core : Core) (table : CapabilityTable) (capId : CapId) : List UInt64 :=
  match (Driver.mmioRegion table capId core).1 with
  | .error _ => []
  | .ok (physBase, size) =>
    (List.range (Driver.mmioPages size).toNat).map fun p => physBase + UInt64.ofNat p * 4096

def step (l : SpaceLedger) : SpaceCall → Option SpaceLedger
  | .newAddressSpace => some { l with vmm := (l.vmm.newAddressSpace Pmm.source).2 }
  | .mapFresh pml4 vaddr flags => do
    let (frame, s) := l.vmm.store.alloc Pmm.source.toFrameSource pageTableFormat
    let s ← mapPage Pmm.source s pml4 vaddr frame flags
    return { l with
      vmm := { l.vmm with store := s }
      owned := l.owned ++ allocatedFor pml4 [frame] }
  | .elfLoad pml4 bytes => do
    let (_, frames, s) ← Elf.load Pmm.source l.vmm.store pml4 bytes
    return { l with
      vmm := { l.vmm with store := s }
      owned := l.owned ++ allocatedFor pml4 frames }
  | .mapMmio pml4 core table capId => do
    let (_, _, offset, s) ←
      Driver.mapMmio Pmm.source table capId pml4 core l.nextUserMmioOffset l.vmm.store
    return { l with
      vmm := { l.vmm with store := s }
      nextUserMmioOffset := offset
      devices := l.devices ++ (devicePages core table capId).map frameFromEntry }
  | .mapWindowBuffer pml4 windows surfaceObject => do
    let (_, s) ← WindowManager.mapWindowBufferToUser Pmm.source windows l.vmm.kernelPml4
      surfaceObject pml4 l.vmm.store
    return { l with vmm := { l.vmm with store := s } }
  | .destroyAddressSpace pml4 =>
    some { l with
      vmm := l.vmm.destroyAddressSpace Pmm.source pml4
      owned :=
        if pml4 = 0 ∨ pml4 = l.vmm.kernelPml4 then l.owned
        else l.owned.filter (·.1 ≠ pml4) }

/-- The calls name address spaces that stand. `destroy_address_space` takes 0
and the kernel's PML4 as well. -/
def Addressed (l : SpaceLedger) : SpaceCall → Prop
  | .newAddressSpace => True
  | .mapFresh pml4 _ _ | .elfLoad pml4 _ | .mapMmio pml4 _ _ _ | .mapWindowBuffer pml4 _ _ =>
    pml4 ∈ l.vmm.spaces
  | .destroyAddressSpace pml4 => pml4 = 0 ∨ pml4 ∈ l.vmm.roots

/-- Every page that the call maps has a place in the user half where none is
mapped yet, and unless it is a fresh one `free_page` would refuse it. -/
def Fits (l : SpaceLedger) : SpaceCall → Prop
  | .newAddressSpace => True
  | .mapFresh pml4 vaddr flags =>
    Vacant l.vmm.store.mem pml4 [vaddr] ∧ flags &&& addrMask = 0
  | .elfLoad pml4 bytes =>
    Vacant l.vmm.store.mem pml4 ((Elf.loadedPages bytes).map fun x => Elf.pageVaddr x.1 x.2)
  | .mapMmio pml4 core table capId =>
    Vacant l.vmm.store.mem pml4 ((List.range (devicePages core table capId).length).map fun p =>
      Driver.userMmioWindowBase + l.nextUserMmioOffset + UInt64.ofNat p * 4096) ∧
    ∀ page ∈ devicePages core table capId,
      ¬ l.vmm.store.frames.Releasable (frameFromEntry page)
  | .mapWindowBuffer pml4 windows surfaceObject =>
    ∀ w, windows.find? (·.surfaceObject = surfaceObject) = some w →
      Vacant l.vmm.store.mem pml4 ((List.range (WindowManager.pageCount w)).map fun p =>
        WindowManager.userBase surfaceObject + UInt64.ofNat p * 4096) ∧
      ∀ p < WindowManager.pageCount w, ∀ phys,
        virtToPhys l.vmm.store.mem l.vmm.kernelPml4 (w.buffer + UInt64.ofNat p * 4096) =
          some phys → ¬ l.vmm.store.frames.Releasable (frameFromEntry phys)
  | .destroyAddressSpace _ => True

/-- Before the first address space: the page tables are sound, and the kernel
half maps no free page but for the direct map. -/
structure Start (l : SpaceLedger) : Prop where
  sound : l.vmm.Sound Pmm.source
  spaces : l.vmm.spaces = []
  owned : l.owned = []
  devices : l.devices = []
  kernel : ∀ f, KernelMapped l.vmm f → ¬ l.vmm.store.frames.Free f

def Ok (l : SpaceLedger) : Prop :=
  Tidy l.vmm l.owned ∧ ∀ f ∈ l.devices, ¬ l.vmm.store.frames.Releasable f

/-- What the process alone has: the tables of its user half, the PML4, and the
frames allocated for it. -/
def OwnedBy (l : SpaceLedger) (pml4 f : UInt64) : Prop :=
  IsUserTable l.vmm.store.mem pml4 f ∨ (pml4, f) ∈ l.owned

/-- What somebody else has: a device, the kernel half, or another address
space with its tables. -/
def NeededWithout (l : SpaceLedger) (pml4 f : UInt64) : Prop :=
  f ∈ l.devices ∨ KernelMapped l.vmm f ∨
    (∃ r ∈ l.vmm.spaces, r ≠ pml4 ∧ ∃ v, InUserHalf v ∧ Leaf l.vmm.store.mem r v f) ∨
    ∃ r π, r ≠ pml4 ∧ IsTable l.vmm.roots l.vmm.store.mem r π f

/-- **Teardown frees exactly what the process owned.** -/
structure TearsDown (l : SpaceLedger) (pml4 : UInt64) : Prop where
  freed : ∀ f, l.OwnedBy pml4 f →
    (Vmm.destroyedFrames l.vmm.store.mem pml4).count f = 1 ∧ l.vmm.store.frames.Accepts f ∧
      (l.vmm.destroyAddressSpace Pmm.source pml4).store.frames.Free f
  kept : ∀ f, l.NeededWithout pml4 f →
    ¬ (f ∈ Vmm.destroyedFrames l.vmm.store.mem pml4 ∧ l.vmm.store.frames.Accepts f) ∧
      ((l.vmm.destroyAddressSpace Pmm.source pml4).store.frames.Free f ↔
        l.vmm.store.frames.Free f)
  translations : ∀ r ∈ l.vmm.roots, ∀ v, r ≠ pml4 ∨ ¬ InUserHalf v →
    debugTranslate (l.vmm.destroyAddressSpace Pmm.source pml4).store.mem r v =
      debugTranslate l.vmm.store.mem r v

variable {l l' : SpaceLedger} {c : SpaceCall}

theorem Start.ok (h : l.Start) : l.Ok := by
  have hnone {r : UInt64} : r ∉ l.vmm.spaces := by
    rw [h.spaces]
    exact not_mem_nil
  have howned {x : UInt64 × UInt64} : x ∉ l.owned := by
    rw [h.owned]
    exact not_mem_nil
  constructor
  · constructor
    · exact h.sound
    · exact hnone
    · exact fun hr => absurd hr hnone
    · exact fun hmem => absurd hmem howned
    · exact fun hmem => absurd hmem howned
    · rw [h.owned]
      exact nodup_nil
    · exact fun hr => absurd hr hnone
    · exact fun hr => absurd hr hnone
    · intro f hf
      exact ⟨h.kernel f hf, fun r hmem => howned hmem, fun r hr => absurd hr hnone⟩
  · rw [h.devices]
    exact fun f hf => absurd hf not_mem_nil

theorem Ok.of_layout {vmm' : Vmm Pmm} {offset : UInt64} {owned' : List (UInt64 × UInt64)}
    {devices' : List UInt64} (h : l.Ok)
    (hlayout : Pmm.SameLayout l.vmm.store.frames vmm'.store.frames) (htidy : Tidy vmm' owned')
    (hdevices : ∀ f ∈ devices', f ∈ l.devices ∨ ¬ l.vmm.store.frames.Releasable f) :
    Ok ⟨vmm', offset, owned', devices'⟩ := by
  refine ⟨htidy, fun f hf hrel => ?_⟩
  rw [hlayout.releasable_iff] at hrel
  rcases hdevices f hf with hold | hnew
  · exact h.2 f hold hrel
  · exact hnew hrel

theorem Ok.step (h : l.Ok) (haddr : l.Addressed c) (hfits : l.Fits c)
    (hstep : l.step c = some l') : l'.Ok := by
  rcases h with ⟨htidy, hdevices⟩
  cases c with
  | newAddressSpace =>
    cases hstep
    rcases htidy.newAddressSpace with ⟨hlayout, h'⟩
    exact Ok.of_layout ⟨htidy, hdevices⟩ hlayout h' fun _ => .inl
  | mapFresh pml4 v =>
    rcases hfits with ⟨hvacant, hflags⟩
    rcases hvacant.empty v mem_cons_self with ⟨hv, habsent⟩
    rcases bind_eq_some_iff.mp hstep with ⟨s, hmap, hl'⟩
    cases hl'
    rcases htidy.mapFresh haddr hv habsent hflags (fun _ => Store.alloc_mem_of_ne) hmap with
      ⟨ha, h'⟩
    exact Ok.of_layout ⟨htidy, hdevices⟩ ha.layout h' fun _ => .inl
  | elfLoad pml4 =>
    rcases bind_eq_some_iff.mp hstep with ⟨⟨result, frames, s⟩, hload, hl'⟩
    cases hl'
    have hnone : l.owned ++ allocatedFor pml4 [] = l.owned := append_nil _
    rw [← hnone] at htidy
    rcases htidy.loadPages haddr hfits (Elf.load_eq hload) with ⟨hlayout, h'⟩
    rw [hnone] at htidy
    exact Ok.of_layout ⟨htidy, hdevices⟩ hlayout h' fun _ => .inl
  | mapMmio pml4 core table capId =>
    rcases hfits with ⟨hvacant, hforeign⟩
    rcases bind_eq_some_iff.mp hstep with ⟨⟨result, _, _, s⟩, hmap, hl'⟩
    cases hl'
    have hframes : ∀ f ∈ l.devices ++ (devicePages core table capId).map frameFromEntry,
        f ∈ l.devices ∨ ¬ l.vmm.store.frames.Releasable f := by
      intro f hf
      rcases mem_append.mp hf with hold | hnew
      · exact .inl hold
      · rcases List.mem_map.mp hnew with ⟨page, hpage, rfl⟩
        exact .inr (hforeign page hpage)
    unfold Driver.mapMmio at hmap
    unfold devicePages at hvacant hforeign
    rcases hregion : Driver.mmioRegion table capId core with ⟨_ | ⟨physBase, size⟩, _⟩
    · rw [hregion] at hmap
      cases hmap
      exact Ok.of_layout ⟨htidy, hdevices⟩ ⟨rfl, rfl⟩ htidy hframes
    · rw [hregion] at hmap hvacant hforeign
      rcases bind_eq_some_iff.mp hmap with ⟨s1, hrange, hs1⟩
      cases hs1
      rw [length_map, length_range] at hvacant
      have hforeign' : ∀ p ∈ range (Driver.mmioPages size).toNat,
          ¬ l.vmm.store.frames.Releasable (frameFromEntry (physBase + ofNat p * 4096)) :=
        fun p hp => hforeign _ (List.mem_map.mpr ⟨p, hp, rfl⟩)
      rcases htidy.mapRange haddr (by decide) hvacant hforeign' hrange with ⟨hlayout, h'⟩
      exact Ok.of_layout ⟨htidy, hdevices⟩ hlayout h' hframes
  | mapWindowBuffer pml4 windows surfaceObject =>
    rcases bind_eq_some_iff.mp hstep with ⟨⟨result, s⟩, hmap, hl'⟩
    cases hl'
    unfold WindowManager.mapWindowBufferToUser at hmap
    cases hw : windows.find? (·.surfaceObject = surfaceObject) with
    | none =>
      rw [hw] at hmap
      cases hmap
      exact ⟨htidy, hdevices⟩
    | some w =>
      rw [hw] at hmap
      rcases bind_eq_some_iff.mp hmap with ⟨⟨_, s1⟩, hpages, hs1⟩
      cases hs1
      rcases hfits w hw with ⟨hvacant, hforeign⟩
      rcases htidy.mapBufferPages haddr hvacant
        (fun p hp => hforeign p (mem_range.mp hp)) hpages with ⟨hlayout, h'⟩
      exact Ok.of_layout ⟨htidy, hdevices⟩ hlayout h' fun _ => .inl
  | destroyAddressSpace pml4 =>
    cases hstep
    by_cases hnone : pml4 = 0 ∨ pml4 = l.vmm.kernelPml4
    · rw [if_pos hnone, Vmm.destroyAddressSpace, if_pos hnone]
      exact ⟨htidy, hdevices⟩
    · rw [if_neg hnone]
      rcases not_or.mp hnone with ⟨hzero, hkernel⟩
      have hr := (mem_cons.mp (haddr.resolve_left hzero)).resolve_left hkernel
      exact Ok.of_layout ⟨htidy, hdevices⟩ (htidy.sameLayout_destroy hr)
        (htidy.destroyAddressSpace hr) fun _ => .inl

theorem Ok.tearsDown (h : l.Ok) (hr : r ∈ l.vmm.spaces) : l.TearsDown r := by
  rcases h with ⟨htidy, hdevices⟩
  constructor
  · intro f hf
    have hfrees := (htidy.frees_iff hr).mpr hf
    have htaken : ¬ l.vmm.store.frames.Free f := by
      rcases hf with ht | hmem
      · rcases ht.isTable (Vmm.mem_roots_of_mem_spaces hr) with ⟨π, -, ht⟩
        exact htidy.sound.taken ht
      · exact (htidy.held hmem).2.1
    refine ⟨htidy.count_eq_one hr hfrees, Pmm.accepts_iff.mpr ⟨hfrees.2, htaken⟩, ?_⟩
    exact (htidy.free_destroy hr).mpr (.inr hfrees)
  · intro f hf
    have hkept : ¬ Frees l.vmm r f := by
      rcases hf with hdev | hmapped | ⟨r', hr', hne, v, hv, hleaf⟩ | ⟨r', π, hne, ht⟩
      · exact fun hfrees => hdevices f hdev hfrees.2
      · exact htidy.kernel_kept hr hmapped
      · exact htidy.leaf_kept hr hr' hne hv hleaf
      · exact htidy.table_kept hr hne ht
    constructor
    · rintro ⟨hmem, haccepts⟩
      exact hkept ⟨hmem, (Pmm.accepts_iff.mp haccepts).1⟩
    · rw [htidy.free_destroy hr]
      exact or_iff_left hkept
  · intro r' _ v _
    rw [htidy.destroyAddressSpace_eq hr]

/-- **Teardown is exact in every state of a run** whose calls map pages to
vacant places only, and no page of somebody else that `free_page` would take. -/
theorem teardown_exact {calls : List SpaceCall} (hstart : l.Start)
    (hcalls : Meets step (fun l c => l.Addressed c ∧ l.Fits c) l calls)
    (hrun : attempt step l calls = some l') : ∀ r ∈ l'.vmm.spaces, l'.TearsDown r := by
  have hok : l'.Ok := attempt_invariant
    (fun _ _ _ hok hc hstep => hok.step hc.1 hc.2 hstep) hstart.ok hcalls hrun
  exact fun r hr => hok.tearsDown hr

/-! ### Sixteen pages of memory -/

section

def smallPmm : Pmm := ⟨[63, 0], [63, 0], 16, 0, ⟨65536, 61440, 24576, 10, 0⟩⟩

/-- The kernel's PML4 on the first of them, and nothing mapped. -/
def kernelOnly : Vmm Pmm where
  store := ⟨fill (fun _ _ => 0) 0x6000 fun _ => 0, smallPmm.allocPage.2⟩
  kernelPml4 := 0x6000
  lastMmioPage := 0xFFFFFFFFFFFFFFFF
  lastFbPage := 0xFFFFFFFFFFFFFFFF
  spaces := []

theorem smallPmm_ok : Pmm.source.ok smallPmm := by
  have hmap : WellFormedMap Pmm.smallBoot.memoryMap := by
    constructor
    · decide
    · decide
    · exact pairwise_singleton _ _
  have hinit : Pmm.init Pmm.smallBoot = some smallPmm := by decide +kernel
  rcases Pmm.init_started hmap (by decide) with ⟨_, hinit', hstarted⟩
  rw [hinit] at hinit'
  cases hinit'
  exact ⟨hstarted.toOk, by decide⟩

theorem kernelOnly_sound : kernelOnly.Sound Pmm.source := by
  have htable : zeroedTable Pmm.source ⟨fun _ _ => 0, smallPmm⟩ =
      some (0x6000, kernelOnly.store) := by
    have halloc : (Pmm.source.alloc smallPmm).1 = 0x6000 := by decide +kernel
    have hne : (0x6000 : UInt64) ≠ Pmm.source.null := by decide
    simp only [zeroedTable, Store.newTable, Store.alloc, halloc, if_neg hne]
    rfl
  exact Vmm.zeroedTable_sound smallPmm_ok htable

theorem debugTranslate_kernelOnly (v : UInt64) :
    debugTranslate kernelOnly.store.mem kernelOnly.kernelPml4 v = 0 := by
  have hmem (f : UInt64) (i : Nat) : kernelOnly.store.mem f i = 0 := by
    show fill (fun _ _ => (0 : UInt64)) 0x6000 (fun _ => 0) f i = 0
    unfold fill
    split_ifs
    · rfl
    · rfl
  have hempty : isPresent 0 = false := rfl
  simp only [debugTranslate, hmem, hempty, Bool.not_false, if_true]

theorem kernelOnly_start : Start ⟨kernelOnly, 0, [], []⟩ where
  sound := kernelOnly_sound
  spaces := rfl
  owned := rfl
  devices := rfl
  kernel := by
    rintro f ⟨v, -, -, hpresent, -⟩
    dsimp only at hpresent
    rw [debugTranslate_kernelOnly v] at hpresent
    cases hpresent

/-- A process with one page of its own. -/
theorem teardown_exact_one_page :
    ∃ l', attempt step ⟨kernelOnly, 0, [], []⟩
        [.newAddressSpace, .mapFresh 0x7000 0x400000 pageUser] = some l' ∧
      l'.vmm.spaces = [0x7000] ∧ l'.owned = [(0x7000, 0x8000)] ∧ l'.TearsDown 0x7000 := by
  refine exists_run_imp (Q := fun l => l.vmm.spaces = [0x7000] ∧ l.owned = [(0x7000, 0x8000)])
    (by decide +kernel) ?_
  rintro l' hrun ⟨hspaces, howned⟩
  refine ⟨hspaces, howned, ?_⟩
  refine teardown_exact kernelOnly_start ?_ hrun 0x7000 (hspaces ▸ mem_cons_self)
  refine ⟨⟨trivial, trivial⟩, ?_⟩
  intro _ hl1
  cases hl1
  have hlive : (0x7000 : UInt64) ∈ (kernelOnly.newAddressSpace Pmm.source).2.spaces := by
    decide +kernel
  refine ⟨⟨hlive, ⟨?_, nodup_singleton _⟩, by decide⟩, fun _ _ => trivial⟩
  intro v hv
  rcases mem_singleton.mp hv with rfl
  exact ⟨by decide, by decide +kernel⟩

open LockedHeap (heapVirtualBase)

def heapOnly : Option (Vmm Pmm) :=
  let (frame, s) := kernelOnly.store.alloc Pmm.source.toFrameSource pageTableFormat
  { kernelOnly with store := s }.mapHeapPage Pmm.source heapVirtualBase frame

theorem heapOnly_start {k : Vmm Pmm} (h : heapOnly = some k) : Start ⟨k, 0, [], []⟩ := by
  have hheap : Vmm.mapPageIn Pmm.source
      { kernelOnly with
        store := (kernelOnly.store.alloc Pmm.source.toFrameSource pageTableFormat).2 }
      0x6000 heapVirtualBase (Pmm.source.alloc kernelOnly.store.frames).1
      Vmm.kernelDataFlags = some k := h
  unfold Vmm.mapPageIn at hheap
  rcases bind_eq_some_iff.mp hheap with ⟨s, hmap, hk⟩
  cases hk
  have hp : Prepared kernelOnly
      (kernelOnly.store.alloc Pmm.source.toFrameSource pageTableFormat).2 :=
    prepared_alloc kernelOnly_sound fun _ => Store.alloc_mem_of_ne
  have hset := mapPage_spec (hp.sound kernelOnly_sound) kernelOnly.kernelPml4_mem_roots hmap
  constructor
  · exact hset.sound
  · rfl
  · rfl
  · rfl
  · rintro f ⟨v, -, -, hleaf⟩
    have hleaf : Leaf s.mem kernelOnly.kernelPml4 v f := hleaf
    by_cases hpage : pageNumber v = pageNumber heapVirtualBase
    · have hnull : (Pmm.source.alloc kernelOnly.store.frames).1 ≠ 0 := by decide +kernel
      have hframe : f = (Pmm.source.alloc kernelOnly.store.frames).1 := by
        rw [← hleaf.2, debugTranslate_congr hpage, hset.entry, frameFromEntry_leafEntry (by decide)]
        exact Pmm.source.alloc_isFrame _ kernelOnly_sound.ok
      rw [hframe]
      apply hset.taken
      intro hfree
      exact (((kernelOnly_sound.ok.1.free_allocPage hnull).2 _).mp hfree).2 rfl
    · have hpresent := hleaf.1
      rw [hset.others kernelOnly.kernelPml4_mem_roots (.inl hpage),
        hp.debugTranslate_eq kernelOnly.kernelPml4_mem_roots, debugTranslate_kernelOnly v]
        at hpresent
      cases hpresent

def heapWindow : Window := ⟨1, 32, 32, heapVirtualBase⟩

/-- **The buffer of a window is freed with the process it was mapped into**,
while the kernel goes on using it. -/
theorem teardown_frees_window_buffer :
    ∃ k l', heapOnly = some k ∧ Start ⟨k, 0, [], []⟩ ∧ attempt step ⟨k, 0, [], []⟩
        [.newAddressSpace, .mapWindowBuffer 0xB000 [heapWindow] 1] = some l' ∧
      0xB000 ∈ l'.vmm.spaces ∧ KernelMapped l'.vmm 0x7000 ∧
      0x7000 ∈ Vmm.destroyedFrames l'.vmm.store.mem 0xB000 ∧
      l'.vmm.store.frames.Accepts 0x7000 ∧
      (l'.vmm.destroyAddressSpace Pmm.source 0xB000).store.frames.Free 0x7000 := by
  simp only [exists_and_left]
  refine exists_run_imp (Q := fun k => ∃ l, attempt step ⟨k, 0, [], []⟩
      [.newAddressSpace, .mapWindowBuffer 0xB000 [heapWindow] 1] = some l ∧
        l.vmm.spaces = [0xB000] ∧ l.vmm.kernelPml4 = 0x6000 ∧
        l.vmm.store.frames.totalSpanPages = 16 ∧
        debugTranslate l.vmm.store.mem l.vmm.kernelPml4 heapVirtualBase =
          leafEntry 0x7000 Vmm.kernelDataFlags ∧
        debugTranslate l.vmm.store.mem 0xB000 (WindowManager.userBase 1) =
          leafEntry 0x7000 WindowManager.surfaceFlags ∧ l.vmm.store.frames.Accepts 0x7000)
    (by decide +kernel) ?_
  rintro k hk ⟨l', hrun, hspaces, hkernel, hspan, hheap, huser, haccepts⟩
  have hdirect : ¬ InDirectMap l'.vmm.store.frames heapVirtualBase := by
    rintro ⟨n, hn, hpage⟩
    rw [hspan] at hn
    interval_cases n <;> revert hpage <;> decide
  have hleaf : Leaf l'.vmm.store.mem 0xB000 (WindowManager.userBase 1) 0x7000 := by
    rw [Leaf, huser]
    decide
  have hmem : 0x7000 ∈ Vmm.destroyedFrames l'.vmm.store.mem 0xB000 :=
    mem_destroyedFrames.mpr (.inr ⟨_, by decide, hleaf⟩)
  refine ⟨heapOnly_start hk, l', hrun, ?_, ?_, hmem, haccepts, ?_⟩
  · rw [hspaces]
    exact mem_cons_self
  · refine ⟨heapVirtualBase, by decide, hdirect, ?_⟩
    rw [Leaf, hheap]
    decide
  · rw [Vmm.destroyAddressSpace, if_neg (by rw [hkernel]; decide)]
    exact (Pmm.free_freeAll _ _ _).mpr (.inr ⟨hmem, (Pmm.accepts_iff.mp haccepts).1⟩)

end

end SpaceLedger

end AgenticOS
