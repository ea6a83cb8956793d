import AgenticOS.Foundation.TableGrowth
import AgenticOS.Foundation.Packed

/-!
# Four-level page tables

`kernel_common/src/pagetable.rs` and the walks of `kernel_rs/src/vmm.rs`.
Physical memory is a word for each index of each frame; `vmm.rs` reaches it
through the direct map, so a frame is named by its physical address.

The walks are translated level by level, as the source has them. Each one is
then shown to be `entryAt` or `grow` of the library at the path that the
address spells, and `mapPage_spec` and `unmapPage_spec` say what the two
updates do to a forest of page tables.
-/

namespace AgenticOS

open Foundation Option
open UInt64 (toNat_inj toNat_and or_zero ofNat)
open EntryFormat (descend tableAt_root)

/-! ## Entries -/

def pagePresent : UInt64 := (1 : UInt64) <<< 0
def pageWritable : UInt64 := (1 : UInt64) <<< 1
def pageUser : UInt64 := (1 : UInt64) <<< 2
def pageCacheDisable : UInt64 := (1 : UInt64) <<< 4
def pagePat : UInt64 := (1 : UInt64) <<< 7
def pageGlobal : UInt64 := (1 : UInt64) <<< 8
def pageNoExecute : UInt64 := (1 : UInt64) <<< 63

def addrMask : UInt64 := 0x000FFFFFFFFFF000

def offsetMask : UInt64 := 0xFFF

def isPresent (entry : UInt64) : Bool := entry &&& pagePresent != 0

def frameFromEntry (entry : UInt64) : UInt64 := entry &&& addrMask

def intermediateFlags : UInt64 := pagePresent ||| pageWritable ||| pageUser

def leafEntry (paddr flags : UInt64) : UInt64 := (paddr &&& addrMask) ||| flags ||| pagePresent

theorem isPresent_or_present (w : UInt64) : isPresent (w ||| pagePresent) = true := by
  have hbit : (w ||| pagePresent) &&& pagePresent = pagePresent := by
    rw [Packed.or_and_right]
    apply toNat_inj.mp
    rw [UInt64.toNat_or, toNat_and, toNat_and]
    show w.toNat &&& 1 ||| 1 &&& 1 = 1
    rw [Nat.and_one_is_mod]
    rcases Nat.mod_two_eq_zero_or_one w.toNat with h | h <;> rw [h] <;> rfl
  rw [isPresent, hbit]
  rfl

@[simp] theorem isPresent_leafEntry (paddr flags : UInt64) :
    isPresent (leafEntry paddr flags) = true :=
  isPresent_or_present _

/-- The page that an entry made by `map_page` names. -/
theorem leafEntry_and_addrMask (paddr flags : UInt64) :
    leafEntry paddr flags &&& addrMask = (paddr ||| flags) &&& addrMask := by
  have hpresent : pagePresent &&& addrMask = 0 := by decide
  rw [leafEntry, Packed.or_and_right, Packed.or_and_right, Packed.or_and_right, hpresent,
    or_zero, UInt64.and_assoc, UInt64.and_self]

def IsFrame (f : UInt64) : Prop := f &&& addrMask = f

instance (f : UInt64) : Decidable (IsFrame f) := inferInstanceAs (Decidable (_ = _))

variable {f flags v v' : UInt64}

theorem frameFromEntry_or (hf : IsFrame f) (hflags : flags &&& addrMask = 0) :
    frameFromEntry (f ||| flags) = f := by
  rw [frameFromEntry, Packed.or_and_right, hf, hflags, or_zero]

theorem frameFromEntry_leafEntry (hflags : flags &&& addrMask = 0)
    (paddr : UInt64) : frameFromEntry (leafEntry paddr flags) = frameFromEntry paddr := by
  rw [frameFromEntry, leafEntry_and_addrMask, Packed.or_and_right, hflags, or_zero]
  rfl

/-! ## Addresses -/

def splitIndices (vaddr : UInt64) : Nat × Nat × Nat × Nat :=
  let pt := ((vaddr >>> 12) &&& 0x1ff).toNat
  let pd := ((vaddr >>> 21) &&& 0x1ff).toNat
  let pdpt := ((vaddr >>> 30) &&& 0x1ff).toNat
  let pml4 := ((vaddr >>> 39) &&& 0x1ff).toNat
  (pml4, pdpt, pd, pt)

def pml4Index (vaddr : UInt64) : Nat := (splitIndices vaddr).1
def pdptIndex (vaddr : UInt64) : Nat := (splitIndices vaddr).2.1
def pdIndex (vaddr : UInt64) : Nat := (splitIndices vaddr).2.2.1
def ptIndex (vaddr : UInt64) : Nat := (splitIndices vaddr).2.2.2

def tablePath (vaddr : UInt64) : List Nat := [pml4Index vaddr, pdptIndex vaddr, pdIndex vaddr]

/-- The 36 bits of an address that the tables look at. -/
def pageNumber (vaddr : UInt64) : Nat := vaddr.toNat / 2 ^ 12 % 2 ^ 36

/-- Half of the entries of a PML4 are the process's own. -/
def InUserHalf (vaddr : UInt64) : Prop := pml4Index vaddr < 256

instance (vaddr : UInt64) : Decidable (InUserHalf vaddr) := inferInstanceAs (Decidable (_ < _))

theorem splitIndices_eq (vaddr : UInt64) :
    splitIndices vaddr = (vaddr.toNat / 2 ^ 39 % 2 ^ 9, vaddr.toNat / 2 ^ 30 % 2 ^ 9,
        vaddr.toNat / 2 ^ 21 % 2 ^ 9, vaddr.toNat / 2 ^ 12 % 2 ^ 9) := by
  have hfield (n : Nat) (hn : n < 64) :
      ((vaddr >>> ofNat n) &&& 0x1ff).toNat = vaddr.toNat / 2 ^ n % 2 ^ 9 :=
    Packed.toNat_field hn 9 rfl vaddr
  rw [← hfield 39 (by decide), ← hfield 30 (by decide), ← hfield 21 (by decide),
    ← hfield 12 (by decide)]
  rfl

/-- The walk of an address depends on its page number, and spells it. -/
theorem path_eq_iff :
    tablePath v = tablePath v' ∧ ptIndex v = ptIndex v' ↔ pageNumber v = pageNumber v' := by
  simp only [tablePath, ptIndex, pml4Index, pdptIndex, pdIndex, splitIndices_eq, pageNumber,
    List.cons.injEq, and_true]
  omega

theorem inUserHalf_iff : InUserHalf v ↔ v.toNat / 2 ^ 12 % 2 ^ 36 < 2 ^ 35 := by
  simp only [InUserHalf, pml4Index, splitIndices_eq]
  omega

theorem inUserHalf_congr (h : pageNumber v = pageNumber v') : InUserHalf v ↔ InUserHalf v' := by
  rw [inUserHalf_iff, inUserHalf_iff, ← pageNumber, ← pageNumber, h]

theorem pml4Index_lt (v : UInt64) : pml4Index v < 512 := by
  simp only [pml4Index, splitIndices_eq]
  exact Nat.mod_lt _ (by decide)

theorem pdptIndex_lt (v : UInt64) : pdptIndex v < 512 := by
  simp only [pdptIndex, splitIndices_eq]
  exact Nat.mod_lt _ (by decide)

theorem pdIndex_lt (v : UInt64) : pdIndex v < 512 := by
  simp only [pdIndex, splitIndices_eq]
  exact Nat.mod_lt _ (by decide)

theorem ptIndex_lt (v : UInt64) : ptIndex v < 512 := by
  simp only [ptIndex, splitIndices_eq]
  exact Nat.mod_lt _ (by decide)

/-! ## Walks -/

abbrev PhysicalMemory := UInt64 → Nat → UInt64

/-- The raw entry of the last table, 0 if a table is missing. -/
def debugTranslate (mem : PhysicalMemory) (pml4 vaddr : UInt64) : UInt64 :=
  let (i4, i3, i2, i1) := splitIndices vaddr
  if !isPresent (mem pml4 i4) then 0
  else
    let pdpt := mem pml4 i4 &&& addrMask
    if !isPresent (mem pdpt i3) then 0
    else
      let pd := mem pdpt i3 &&& addrMask
      if !isPresent (mem pd i2) then 0
      else
        let pt := mem pd i2 &&& addrMask
        mem pt i1

def virtToPhys (mem : PhysicalMemory) (pml4 vaddr : UInt64) : Option UInt64 :=
  let (i4, i3, i2, i1) := splitIndices vaddr
  if !isPresent (mem pml4 i4) then none
  else
    let pdpt := mem pml4 i4 &&& addrMask
    if !isPresent (mem pdpt i3) then none
    else
      let pd := mem pdpt i3 &&& addrMask
      if !isPresent (mem pd i2) then none
      else
        let pt := mem pd i2 &&& addrMask
        let pte := mem pt i1
        if !isPresent pte then none
        else some ((pte &&& addrMask) ||| (vaddr &&& offsetMask))

/-- `unmap_page`: the entry is cleared if the tables reach it. Cached
translations are not modelled, so this is `unmap_page_shootdown` as well. -/
def unmapPage (mem : PhysicalMemory) (pml4 vaddr : UInt64) : PhysicalMemory :=
  let (i4, i3, i2, i1) := splitIndices vaddr
  if !isPresent (mem pml4 i4) then mem
  else
    let pdpt := mem pml4 i4 &&& addrMask
    if !isPresent (mem pdpt i3) then mem
    else
      let pd := mem pdpt i3 &&& addrMask
      if !isPresent (mem pd i2) then mem
      else
        let pt := mem pd i2 &&& addrMask
        write mem pt i1 0

/-! ## Page tables as tables of the library -/

def pageTableFormat : EntryFormat UInt64 UInt64 where
  present := isPresent
  target := frameFromEntry
  empty := 0
  present_empty := rfl

section

variable {mem : PhysicalMemory} {pml4 vaddr : UInt64}

theorem debugTranslate_eq : debugTranslate mem pml4 vaddr =
      pageTableFormat.entryAt mem pml4 (tablePath vaddr) (ptIndex vaddr) := by
  simp only [debugTranslate, tablePath, pml4Index, pdptIndex, pdIndex, ptIndex,
    EntryFormat.entryAt, descend, pageTableFormat, frameFromEntry]
  rcases splitIndices vaddr with ⟨i4, i3, i2, _⟩
  by_cases h4 : isPresent (mem pml4 i4)
  · by_cases h3 : isPresent (mem (mem pml4 i4 &&& addrMask) i3)
    · by_cases h2 : isPresent (mem (mem (mem pml4 i4 &&& addrMask) i3 &&& addrMask) i2)
      · simp [h4, h3, h2]
      · simp [h4, h3, h2]
    · simp [h4, h3]
  · simp [h4]

theorem virtToPhys_eq :
    virtToPhys mem pml4 vaddr = if isPresent (debugTranslate mem pml4 vaddr) then
        some ((debugTranslate mem pml4 vaddr &&& addrMask) ||| (vaddr &&& offsetMask))
      else none := by
  have hempty : isPresent 0 = false := rfl
  simp only [virtToPhys, debugTranslate]
  rcases splitIndices vaddr with ⟨i4, i3, i2, i1⟩
  by_cases h4 : isPresent (mem pml4 i4)
  · by_cases h3 : isPresent (mem (mem pml4 i4 &&& addrMask) i3)
    · by_cases h2 : isPresent (mem (mem (mem pml4 i4 &&& addrMask) i3 &&& addrMask) i2)
      · by_cases h1 : isPresent
            (mem (mem (mem (mem pml4 i4 &&& addrMask) i3 &&& addrMask) i2 &&& addrMask) i1)
        · simp [h4, h3, h2, h1]
        · simp [h4, h3, h2, h1]
      · simp [h4, h3, h2, hempty]
    · simp [h4, h3, hempty]
  · simp [h4, hempty]

theorem unmapPage_eq :
    unmapPage mem pml4 vaddr = match pageTableFormat.descend mem pml4 (tablePath vaddr) with
      | some pt => write mem pt (ptIndex vaddr) 0
      | none => mem := by
  simp only [unmapPage, tablePath, pml4Index, pdptIndex, pdIndex, ptIndex,
    descend, pageTableFormat, frameFromEntry]
  rcases splitIndices vaddr with ⟨i4, i3, i2, _⟩
  by_cases h4 : isPresent (mem pml4 i4)
  · by_cases h3 : isPresent (mem (mem pml4 i4 &&& addrMask) i3)
    · by_cases h2 : isPresent (mem (mem (mem pml4 i4 &&& addrMask) i3 &&& addrMask) i2)
      · simp [h4, h3, h2]
      · simp [h4, h3, h2]
    · simp [h4, h3]
  · simp [h4]

end

/-! ## Mapping a page -/

/-- An allocator of physical pages: 0 says that none is left, and the
addresses it hands out fit into an entry. `pmm.rs` is one. -/
structure PageSource (σ : Type) extends FrameSource σ UInt64 where
  null_eq : null = 0
  alloc_isFrame : ∀ s, ok s → IsFrame (alloc s).1

abbrev PageStore (σ : Type) := Store σ UInt64 Nat UInt64

theorem toNat_page {n : Nat} (hn : n < 2 ^ 40) : (ofNat (n * 4096)).toNat = n * 4096 := by
  apply UInt64.toNat_ofNat_of_lt'
  show n * 4096 < 2 ^ 64
  omega

theorem page_ne_zero {n : Nat} (hn : n < 2 ^ 40) (hpos : n ≠ 0) : ofNat (n * 4096) ≠ 0 := by
  intro heq
  have hpage := toNat_page hn
  rw [heq, UInt64.toNat_zero] at hpage
  omega

theorem toNat_and_addrMask (w : UInt64) :
    (w &&& addrMask).toNat = w.toNat / 2 ^ 12 % 2 ^ 40 * 2 ^ 12 :=
  Packed.toNat_and_field rfl w

theorem isFrame_mod (hf : IsFrame f) : f.toNat % 4096 = 0 := by
  rw [← hf, toNat_and_addrMask]
  exact Nat.mul_mod_left _ _

theorem isFrame_page {n : Nat} (hn : n < 2 ^ 40) : IsFrame (ofNat (n * 4096)) := by
  apply toNat_inj.mp
  rw [toNat_and_addrMask, toNat_page hn]
  omega

/-- The plainest allocator: the pages below 2^52 in their order, and none
taken back. Its state is the number of the last page handed out. -/
def countingSource : PageSource Nat where
  alloc n := if n + 1 < 2 ^ 40 then (UInt64.ofNat ((n + 1) * 4096), n + 1) else (0, n)
  free n _ := n
  null := 0
  ok _ := True
  taken n f := f.toNat % 4096 = 0 ∧ f.toNat ≤ n * 4096
  alloc_ok _ _ := trivial
  alloc_fresh := by
    intro n _ hnull
    split_ifs at hnull ⊢ with hn
    · rw [toNat_page hn]
      omega
    · exact absurd rfl hnull
  alloc_taken := by
    intro n _ hnull f
    split_ifs at hnull ⊢ with hn
    · rw [← UInt64.toNat_inj, toNat_page hn]
      dsimp only
      omega
    · exact absurd rfl hnull
  alloc_null := by
    intro n _ hnull f
    split_ifs at hnull ⊢ with hn
    · exact absurd hnull (page_ne_zero hn (Nat.succ_ne_zero _))
    · exact Iff.rfl
  free_ok _ _ _ := trivial
  free_taken _ _ _ _ _ := Iff.rfl
  null_eq := rfl
  alloc_isFrame := by
    intro n _
    split_ifs with hn
    · exact isFrame_page hn
    · exact (rfl : (0 : UInt64) &&& addrMask = 0)

section

variable {σ : Type} (A : PageSource σ)

/-- `zeroed_table`; `none` is its panic. -/
def zeroedTable (s : PageStore σ) : Option (UInt64 × PageStore σ) :=
  s.newTable A.toFrameSource pageTableFormat

/-- One level of `map_page`: a missing table is put in. -/
def ensureTable (s : PageStore σ) (table : UInt64) (i : Nat) : Option (PageStore σ) :=
  if isPresent (s.mem table i) then some s
  else do
    let (new, s) ← zeroedTable A s
    return { s with mem := write s.mem table i (new ||| intermediateFlags) }

/-- `map_page`; `none` if a table cannot be allocated. -/
def mapPage (s : PageStore σ) (pml4 vaddr paddr flags : UInt64) : Option (PageStore σ) := do
  let (i4, i3, i2, i1) := splitIndices vaddr
  let s ← ensureTable A s pml4 i4
  let pdpt := s.mem pml4 i4 &&& addrMask
  let s ← ensureTable A s pdpt i3
  let pd := s.mem pdpt i3 &&& addrMask
  let s ← ensureTable A s pd i2
  let pt := s.mem pd i2 &&& addrMask
  return { s with mem := write s.mem pt i1 (leafEntry paddr flags) }

variable {A}

theorem mapPage_eq (s : PageStore σ) (pml4 vaddr paddr flags : UInt64) :
    mapPage A s pml4 vaddr paddr flags =
      (s.grow A.toFrameSource pageTableFormat (· ||| intermediateFlags) pml4
        (tablePath vaddr)).map fun (pt, s) =>
          { s with mem := write s.mem pt (ptIndex vaddr) (leafEntry paddr flags) } := by
  simp only [mapPage, tablePath, pml4Index, pdptIndex, pdIndex, ptIndex, Store.grow]
  rcases splitIndices vaddr with ⟨_, _, _, _⟩
  simp only [bind_eq_bind, Option.map_bind, Function.comp_def, map_some, Option.pure_def]
  rfl

theorem exists_mapPage_of_supplies {n : Nat} {s : PageStore σ}
    (h : A.Supplies (n + 3) s.frames) (pml4 vaddr paddr flags : UInt64) :
    ∃ s', mapPage A s pml4 vaddr paddr flags = some s' ∧ A.Supplies n s'.frames := by
  have hgrow : ∃ pt s₁, s.grow A.toFrameSource pageTableFormat (· ||| intermediateFlags) pml4
      (tablePath vaddr) = some (pt, s₁) ∧ A.Supplies n s₁.frames :=
    Store.exists_grow pml4 (tablePath vaddr) h
  rcases hgrow with ⟨pt, s₁, hgrow, hsupply⟩
  rw [mapPage_eq, hgrow]
  exact ⟨_, rfl, hsupply⟩

theorem mapPage_frames {P : σ → Prop} (halloc : ∀ q, P q → P (A.alloc q).2)
    {s s' : PageStore σ} {pml4 vaddr paddr flags : UInt64}
    (hmap : mapPage A s pml4 vaddr paddr flags = some s') (hs : P s.frames) : P s'.frames := by
  have hensure {s s' : PageStore σ} {table : UInt64} {i : Nat}
      (h : ensureTable A s table i = some s') (hs : P s.frames) : P s'.frames := by
    unfold ensureTable zeroedTable Store.newTable at h
    split_ifs at h
    · cases h
      exact hs
    · cases h
    · cases h
      exact halloc _ hs
  rcases bind_eq_some_iff.mp hmap with ⟨_, h1, hmap⟩
  rcases bind_eq_some_iff.mp hmap with ⟨_, h2, hmap⟩
  rcases bind_eq_some_iff.mp hmap with ⟨_, h3, hmap⟩
  have hs3 := hensure h3 (hensure h2 (hensure h1 hs))
  cases hmap
  exact hs3

/-- Words for tables name the frames that the allocator hands out. -/
theorem links_intermediate :
    Store.Links A.toFrameSource pageTableFormat (· ||| intermediateFlags) := by
  intro s hs _
  constructor
  · have hor : (A.alloc s).1 ||| intermediateFlags =
        ((A.alloc s).1 ||| (pageWritable ||| pageUser)) ||| pagePresent := by
      rw [UInt64.or_assoc]
      rfl
    show isPresent ((A.alloc s).1 ||| intermediateFlags) = true
    rw [hor]
    exact isPresent_or_present _
  · exact frameFromEntry_or (A.alloc_isFrame s hs) (by decide)

end

/-! ## What mapping and unmapping do to the tables -/

/-- Every root is a PML4, with three levels of tables below it. -/
def pml4Depth (roots : List UInt64) : UInt64 → Option Nat :=
  fun r => if r ∈ roots then some 3 else none

/-- The entries of a PML4 that address spaces may share. -/
def IsKernelSlot (i : Nat) : Prop := 256 ≤ i

/-- `f` is the table at the end of `path` below the PML4 `r`. -/
abbrev IsTable (roots : List UInt64) (mem : PhysicalMemory) (r : UInt64) (path : List Nat)
    (f : UInt64) : Prop :=
  pageTableFormat.TableAt mem (pml4Depth roots) r path f

section

variable {σ : Type} {A : PageSource σ} {roots : List UInt64} {s s₁ s' : PageStore σ}
  {r pt w : UInt64}

variable (A roots) in
/-- The page tables below the roots form a forest on allocated frames. -/
abbrev PagesSound (s : PageStore σ) : Prop :=
  s.Tended A.toFrameSource pageTableFormat (pml4Depth roots) IsKernelSlot

theorem pml4Depth_of_mem (hr : r ∈ roots) : pml4Depth roots r = some 3 := if_pos hr

theorem mem_of_pml4Depth {d : Nat} (h : pml4Depth roots r = some d) : r ∈ roots ∧ d = 3 := by
  unfold pml4Depth at h
  split_ifs at h with hr
  exact ⟨hr, (some_inj.mp h).symm⟩

variable (A roots) in
/-- The entry of `v` below `r` becomes `w`. No other entry of any root
changes, apart from that of `v` where another root shares it; tables may be
put in, which in a root itself happens at an absent word on the way to `v`
only. -/
structure SetsEntry (r v w : UInt64) (s s' : PageStore σ) : Prop where
  sound : PagesSound A roots s'
  tables : ∀ {r' π f}, IsTable roots s.mem r' π f → IsTable roots s'.mem r' π f
  fresh : ∀ {r' π f}, IsTable roots s'.mem r' π f →
    IsTable roots s.mem r' π f ∨ ¬ A.taken s.frames f
  taken : ∀ {f}, A.taken s.frames f → A.taken s'.frames f
  entry : debugTranslate s'.mem r v = w
  others : ∀ {r' v'}, r' ∈ roots → pageNumber v' ≠ pageNumber v ∨ (InUserHalf v ∧ r' ≠ r) →
    debugTranslate s'.mem r' v' = debugTranslate s.mem r' v'
  rootWords : ∀ {r' i}, r' ∈ roots → s'.mem r' i ≠ s.mem r' i →
    r' = r ∧ i = pml4Index v ∧ isPresent (s.mem r i) = false

variable {mem : PhysicalMemory} {r' p : UInt64}

theorem debugTranslate_congr {v : UInt64}
    (h : pageNumber v = pageNumber v') : debugTranslate mem r v = debugTranslate mem r v' := by
  rcases path_eq_iff.mpr h with ⟨hpath, hindex⟩
  rw [debugTranslate_eq, debugTranslate_eq, hpath, hindex]

theorem SetsEntry.user (h : SetsEntry A roots r v w s s') (hr' : r' ∈ roots) (hv' : InUserHalf v') :
    debugTranslate s'.mem r' v' =
      if r' = r ∧ pageNumber v' = pageNumber v then w else debugTranslate s.mem r' v' := by
  split_ifs with hsame
  · rcases hsame with ⟨rfl, hpage⟩
    rw [debugTranslate_congr hpage, h.entry]
  · apply h.others hr'
    by_cases hpage : pageNumber v' = pageNumber v
    · exact .inr ⟨(inUserHalf_congr hpage).mp hv', fun hr => hsame ⟨hr, hpage⟩⟩
    · exact .inl hpage

section

variable (hs : PagesSound A roots s)

include hs

section

variable (hr : r ∈ roots)

include hr

theorem PagesSound.root_unique {π : List Nat} (ht : IsTable roots s.mem r' π r) : π = [] ∧ r' = r :=
  hs.forest.root_unique (pml4Depth_of_mem hr) ht

theorem setsEntry_writeLeaf (hpt : IsTable roots s.mem r (tablePath v) pt) :
    SetsEntry A roots r v w s { s with mem := write s.mem pt (ptIndex v) w } := by
  have hleaf : pml4Depth roots r = some (tablePath v).length := pml4Depth_of_mem hr
  have htables {r' π f} : IsTable roots (write s.mem pt (ptIndex v) w) r' π f ↔
      IsTable roots s.mem r' π f :=
    hs.forest.tableAt_writeLeaf hpt hleaf
  have hentry {r' v' : UInt64} (hr' : r' ∈ roots) :
      debugTranslate (write s.mem pt (ptIndex v) w) r' v' =
        if pageTableFormat.descend s.mem r' (tablePath v') = some pt ∧ ptIndex v' = ptIndex v
        then w else debugTranslate s.mem r' v' := by
    rw [debugTranslate_eq, debugTranslate_eq]
    exact hs.forest.entryAt_writeLeaf hpt hleaf (pml4Depth_of_mem hr') le_rfl
  have hpath : pageTableFormat.descend s.mem r (tablePath v) = some pt := by
    rcases hpt with ⟨d, -, -, hpt⟩
    exact hpt
  constructor
  · constructor
    · exact hs.ok
    · exact hs.forest.writeLeaf hpt hleaf
    · exact fun ht => hs.taken (htables.mp ht)
    · exact fun ht => hs.real (htables.mp ht)
  · exact fun ht => htables.mpr ht
  · exact fun ht => .inl (htables.mp ht)
  · exact id
  · rw [hentry hr, if_pos ⟨hpath, rfl⟩]
  · intro r' v' hr' hother
    rw [hentry hr', if_neg]
    rintro ⟨hpt', hindex⟩
    -- the same table is the same path, from the same root in the user half
    rcases hs.forest.unique ⟨3, pml4Depth_of_mem hr', le_rfl, hpt'⟩ hpt with ⟨hsame, -, hroot⟩
    rcases hother with hpage | ⟨huser, hne⟩
    · exact hpage (path_eq_iff.mp ⟨hsame, hindex⟩)
    · rcases hroot with rfl | ⟨i, σ', hcons, hi⟩
      · exact hne rfl
      · rw [hsame, tablePath, List.cons.injEq] at hcons
        rw [← hcons.1] at hi
        exact absurd huser (not_lt.mpr hi)
  · intro r' i hr' hne
    refine absurd (write_of_ne ?_) hne
    rintro ⟨rfl, -⟩
    cases (hs.root_unique hr' hpt).1

theorem SetsEntry.of_grows
    (hgrows : Store.Grows A.toFrameSource pageTableFormat (pml4Depth roots) r (tablePath v) s s₁)
    (h : SetsEntry A roots r v w s₁ s') : SetsEntry A roots r v w s s' where
  sound := h.sound
  tables := fun ht => h.tables (hgrows.tables ht)
  fresh := by
    intro r' π f ht
    rcases h.fresh ht with ht | hnew
    · exact hgrows.fresh ht
    · exact .inr fun hold => hnew (hgrows.taken hold)
  taken := fun hf => h.taken (hgrows.taken hf)
  entry := h.entry
  others := by
    intro r' _ hr' hother
    rw [h.others hr' hother, debugTranslate_eq, debugTranslate_eq]
    exact hgrows.entries (pml4Depth_of_mem hr')
  rootWords := by
    intro r' i hr' hne
    have hroot : IsTable roots s.mem r' [] r' := tableAt_root (pml4Depth_of_mem hr')
    by_cases hfirst : s₁.mem r' i = s.mem r' i
    · rw [← hfirst] at hne
      rcases h.rootWords hr' hne with ⟨rfl, hi, habsent⟩
      exact ⟨rfl, hi, by rwa [hfirst] at habsent⟩
    · rcases hgrows.words (hs.taken hroot) hfirst with ⟨habsent, π, ht, hpath⟩
      rcases hs.root_unique hr' ht with ⟨rfl, rfl⟩
      rcases hpath with ⟨_, hpath⟩
      exact ⟨rfl, (List.cons.inj hpath).1, habsent⟩

theorem mapPage_spec (hmap : mapPage A s r v p flags = some s') :
    SetsEntry A roots r v (leafEntry p flags) s s' := by
  rw [mapPage_eq] at hmap
  rcases map_eq_some_iff.mp hmap with ⟨⟨_, _⟩, hgrow, rfl⟩
  have hroot : IsTable roots s.mem r [] r := tableAt_root (pml4Depth_of_mem hr)
  rcases Store.grow_spec links_intermediate (pml4Depth_of_mem hr) hs hroot le_rfl hgrow
    with ⟨hs1, hgrows, hpt⟩
  exact SetsEntry.of_grows hs hr hgrows (setsEntry_writeLeaf hs1 hr hpt)

theorem unmapPage_spec : SetsEntry A roots r v 0 s { s with mem := unmapPage s.mem r v } := by
  rw [unmapPage_eq]
  cases hpt : pageTableFormat.descend s.mem r (tablePath v) with
  | some => exact setsEntry_writeLeaf hs hr ⟨3, pml4Depth_of_mem hr, le_rfl, hpt⟩
  | none =>
    constructor
    · exact hs
    · exact id
    · exact .inl
    · exact id
    · rw [debugTranslate_eq, EntryFormat.entryAt_of_none hpt]
      rfl
    · exact fun _ _ => rfl
    · exact fun _ hne => absurd rfl hne

end

end

theorem mapPage_words {f : UInt64} {i : Nat} (hs : PagesSound A roots s) (hr : r ∈ roots)
    (hmap : mapPage A s r v p flags = some s') (htaken : A.taken s.frames f)
    (hf : ∀ r' π, ¬ IsTable roots s.mem r' π f) : s'.mem f i = s.mem f i := by
  rw [mapPage_eq] at hmap
  rcases map_eq_some_iff.mp hmap with ⟨⟨pt, _⟩, hgrow, rfl⟩
  have hroot : IsTable roots s.mem r [] r := tableAt_root (pml4Depth_of_mem hr)
  rcases Store.grow_spec links_intermediate (pml4Depth_of_mem hr) hs hroot le_rfl hgrow
    with ⟨-, hgrows, hpt⟩
  have hne : f ≠ pt := by
    rintro rfl
    rcases hgrows.fresh hpt with ht | hnew
    · exact hf _ _ ht
    · exact hnew htaken
  dsimp only
  rw [write_of_ne fun h => hne h.1]
  by_contra hword
  rcases hgrows.words htaken hword with ⟨-, π, ht, -⟩
  exact hf _ _ ht

theorem mapPage_interior {S : UInt64 → List Nat → Prop} {P : UInt64 → Prop}
    (hP : ∀ f, IsFrame f → P (f ||| intermediateFlags)) (hs : PagesSound A roots s)
    (hr : r ∈ roots) (hmap : mapPage A s r v p flags = some s')
    (h : Store.Interior pageTableFormat (pml4Depth roots) S P s.mem) :
    Store.Interior pageTableFormat (pml4Depth roots) S P s'.mem := by
  rw [mapPage_eq] at hmap
  rcases map_eq_some_iff.mp hmap with ⟨⟨_, _⟩, hgrow, rfl⟩
  have hdepth := pml4Depth_of_mem hr
  have hroot : IsTable roots s.mem r [] r := tableAt_root hdepth
  rcases Store.grow_spec links_intermediate hdepth hs hroot le_rfl hgrow with ⟨hs1, -, hpt⟩
  have h1 := Store.Interior.grow links_intermediate (fun q hq => hP _ (A.alloc_isFrame q hq))
    hdepth h hs hroot le_rfl hgrow
  exact h1.writeLeaf hs1 hpt hdepth _ _

/-! ### Stores between two updates

Before a page is mapped its frame is taken from the allocator and filled. -/

variable (A roots) in
/-- The tables are as they were, and what was taken still is. -/
structure Undisturbed (s s₁ : PageStore σ) : Prop where
  ok : A.ok s₁.frames
  words : ∀ {r π f}, IsTable roots s.mem r π f → ∀ i, s₁.mem f i = s.mem f i
  taken : ∀ {f}, A.taken s.frames f → A.taken s₁.frames f

section

variable (h : Undisturbed A roots s s₁)

include h

theorem Undisturbed.sound (hs : PagesSound A roots s) : PagesSound A roots s₁ := by
  have hframes := hs.of_frames h.ok fun ht => h.taken (hs.taken ht)
  exact hframes.of_tables_eq h.words

theorem Undisturbed.debugTranslate_eq (hr : r ∈ roots) :
    debugTranslate s₁.mem r v = debugTranslate s.mem r v := by
  rw [AgenticOS.debugTranslate_eq, AgenticOS.debugTranslate_eq]
  exact EntryFormat.entryAt_of_tables_eq h.words (pml4Depth_of_mem hr) le_rfl

theorem Undisturbed.isTable_iff {π : List Nat} {f : UInt64} :
    IsTable roots s₁.mem r π f ↔ IsTable roots s.mem r π f :=
  EntryFormat.tableAt_of_tables_eq h.words

theorem Undisturbed.sets (hset : SetsEntry A roots r v w s₁ s') : SetsEntry A roots r v w s s' := by
  have hroot {r' : UInt64} (hr' : r' ∈ roots) (i : Nat) : s₁.mem r' i = s.mem r' i :=
    h.words (tableAt_root (pml4Depth_of_mem hr')) i
  constructor
  · exact hset.sound
  · exact fun ht => hset.tables (h.isTable_iff.mpr ht)
  · intro r' _ f ht
    rcases hset.fresh ht with ht | hnew
    · exact .inl (h.isTable_iff.mp ht)
    · exact .inr fun htaken => hnew (h.taken htaken)
  · exact fun htaken => hset.taken (h.taken htaken)
  · exact hset.entry
  · intro r' _ hr' hother
    rw [hset.others hr' hother, h.debugTranslate_eq hr']
  · intro r' i hr' hne
    rw [← hroot hr'] at hne
    rcases hset.rootWords hr' hne with ⟨rfl, hi, habsent⟩
    rw [hroot hr'] at habsent
    exact ⟨rfl, hi, habsent⟩

end

theorem PagesSound.alloc_not_table (hs : PagesSound A roots s) {π : List Nat} :
    ¬ IsTable roots s.mem r π (A.alloc s.frames).1 := by
  intro ht
  by_cases hnull : (A.alloc s.frames).1 = A.null
  · exact hs.real ht hnull
  · exact A.alloc_fresh _ hs.ok hnull (hs.taken ht)

theorem undisturbed_alloc (hs : PagesSound A roots s)
    (hmem : ∀ f, f ≠ (A.alloc s.frames).1 → ∀ i, mem f i = s.mem f i) :
    Undisturbed A roots s ⟨mem, (A.alloc s.frames).2⟩ := by
  constructor
  · exact A.alloc_ok _ hs.ok
  · intro r _ f ht i
    apply hmem
    rintro rfl
    exact hs.alloc_not_table ht
  · intro f hf
    by_cases hnull : (A.alloc s.frames).1 = A.null
    · exact (A.alloc_null _ hs.ok hnull f).mpr hf
    · exact (A.alloc_taken _ hs.ok hnull f).mpr (.inl hf)

end

end AgenticOS
