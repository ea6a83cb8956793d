import AgenticOS.Memory.HeapList

/-!
# Heap safety

Every run of the global allocator together with its clients, which write into
the blocks they hold and give each one back once. As long as the heap window has
room for what is asked, no two blocks overlap, no block overlaps a free one, and
the free list stays sorted and merged.

The window is the last 2^40 bytes of the address space and `grow_by` does not
check for its end, so a heap that has grown through all of it goes on at low
addresses.
-/

namespace AgenticOS

open Foundation Region Option
open List hiding Disjoint

/-! ## Layouts -/

variable {h h' : LockedHeap} {l l' : List Region} {layout : Layout}

namespace Layout

theorem toNat_bytes : layout.bytes.toNat = max layout.size.toNat 16 :=
  UInt64.toNat_max layout.size LockedHeap.nodeBytes

theorem sixteen_le_bytes : 16 ≤ layout.bytes.toNat := by
  rw [toNat_bytes]
  exact le_max_right _ _

/-- The alignment is a power of two and a multiple of what is asked. -/
theorem exists_alignment : ∃ k, k < 64 ∧ layout.alignment.toNat = 2 ^ k ∧
    layout.align.toNat ∣ 2 ^ k := by
  obtain ⟨k, hk, halign⟩ := layout.align_pow
  have hmax : layout.alignment.toNat = max (2 ^ k) (2 ^ 3) := by
    rw [← halign]
    exact UInt64.toNat_max layout.align 8
  obtain hle | hle := le_total k 3
  · refine ⟨3, by decide, ?_, halign ▸ Nat.pow_dvd_pow 2 hle⟩
    rw [hmax, max_eq_right (Nat.pow_le_pow_right (by decide) hle)]
  · refine ⟨k, hk, ?_, halign ▸ dvd_rfl⟩
    rw [hmax, max_eq_left (Nat.pow_le_pow_right (by decide) hle)]

theorem pages_pos : 1 ≤ layout.pages.toNat := by
  unfold pages
  rw [UInt64.toNat_max]
  exact le_max_of_le_right (by decide)

end Layout

namespace LockedHeap

variable {pages ptr : UInt64} {available : Nat} {frames : ByteMemory}

/-! ## The operations -/

/-- `h'` may have grown, and may cover anything that it has grown by. -/
structure Grown (h : LockedHeap) (l : List Region) (h' : LockedHeap) (l' : List Region) :
    Prop where
  tracks : Tracks h' l'
  heapEnd_le : h.heapEnd.toNat ≤ h'.heapEnd.toNat
  covered_subset : covered l' ⊆ covered l ∪ Set.Ico h.heapEnd.toNat h'.heapEnd.toNat
  frame : ∀ x : UInt64, x.toNat < h.heapEnd.toNat → x.toNat ∉ covered l → h'.mem x = h.mem x

theorem Tracks.growBy (ht : Tracks h l) (hbelow : covered l ⊆ Set.Iio h.heapEnd.toNat)
    (hstart : 0 < h.heapEnd.toNat) (hpages : 1 ≤ pages.toNat)
    (hroom : h.heapEnd.toNat + pages.toNat * 4096 < 2 ^ 64) :
    ∃ h' l', h.growBy pages available frames = some h' ∧ Grown h l h' l' ∧
      h'.heapEnd.toNat ≤ h.heapEnd.toNat + pages.toNat * 4096 ∧
      covered l ∪ Set.Ico h.heapEnd.toNat h'.heapEnd.toNat ⊆ covered l' := by
  let mem : ByteMemory := fun x =>
    if (x - h.heapEnd).toNat < min pages.toNat available * 4096 then frames x else h.mem x
  -- the new pages lie behind everything that is in use
  have hmem (x : UInt64) (hx : x.toNat < h.heapEnd.toNat) : mem x = h.mem x := by
    refine if_neg fun hlt => ?_
    rw [UInt64.toNat_sub] at hlt
    omega
  have hchain : Chain mem h.head l 0 := ht.chain.congr ht.separated.large
    (fun r hr => (ht.mem_bounds hr).2.2) fun x hx => hmem x (hbelow hx)
  have hbytes : (pages * pageBytes).toNat = pages.toNat * 4096 := by
    rw [UInt64.toNat_mul]
    exact Nat.mod_eq_of_lt (lt_of_le_of_lt (Nat.le_add_left _ _) hroom)
  have hend : (h.heapEnd + pages * pageBytes).toNat = h.heapEnd.toNat + pages.toNat * 4096 := by
    rw [UInt64.toNat_add, hbytes]
    exact Nat.mod_eq_of_lt hroom
  unfold LockedHeap.growBy
  split_ifs with hout
  · exact ⟨_, l, rfl, ⟨⟨hchain, ht.separated, ht.bounds⟩, le_rfl, Set.subset_union_left,
      fun x hx _ => hmem x hx⟩, Nat.le_add_right _ _, by simp⟩
  · have hregion : (⟨h.heapEnd.toNat, (pages * pageBytes).toNat⟩ : Region).bytes =
        Set.Ico h.heapEnd.toNat (h.heapEnd + pages * pageBytes).toNat := by
      rw [bytes, stop, hbytes, hend]
    have ht' : Tracks { h with heapEnd := h.heapEnd + pages * pageBytes, mem := mem } l :=
      ⟨hchain, ht.separated, ht.bounds⟩
    have hbounds : (⟨h.heapEnd.toNat, (pages * pageBytes).toNat⟩ : Region).bytes ⊆
        Set.Ioo 0 (2 ^ 64 - 1) := by
      rw [hregion, hend]
      rintro x ⟨hle, hlt⟩
      exact ⟨hstart.trans_le hle, by omega⟩
    have hdisj : Disjoint (⟨h.heapEnd.toNat, (pages * pageBytes).toNat⟩ : Region).bytes
        (covered l) := by
      rw [hregion]
      exact Set.disjoint_left.mpr fun x hx hxl => not_le.mpr (hbelow hxl) hx.1
    obtain ⟨h', l', hadd, hadded⟩ := ht'.addFreeRegion (by omega) hbounds hdisj
    have hgrown : h'.heapEnd = h.heapEnd + pages * pageBytes := hadded.heapEnd
    refine ⟨h', l', hadd, ⟨hadded.tracks, ?_, ?_, ?_⟩, ?_, ?_⟩
    · rw [hgrown, hend]
      exact Nat.le_add_right _ _
    · rw [hadded.covered_eq, hregion, hgrown]
    · intro x hx hxl
      rw [hadded.frame x]
      · exact hmem x hx
      · rw [hregion]
        exact fun hin => hin.elim hxl fun hin => not_le.mpr hx hin.1
    · rw [hgrown, hend]
    · rw [hadded.covered_eq, hregion, hgrown]

def growth (h : LockedHeap) (layout : Layout) : Nat :=
  match h.findAndRemove layout.bytes layout.alignment with
  | some (none, _) => layout.pages.toNat * 4096
  | _ => 0

/-- The heap has room for a layout before the end of the address space. -/
def Room (h : LockedHeap) (layout : Layout) : Prop :=
  h.heapEnd.toNat + h.growth layout + layout.bytes.toNat + layout.alignment.toNat ≤ 2 ^ 64

instance (h : LockedHeap) (layout : Layout) : Decidable (h.Room layout) :=
  inferInstanceAs (Decidable (_ ≤ _))

def blockOf (ptr : UInt64) (layout : Layout) : Region := ⟨ptr.toNat, layout.bytes.toNat⟩

structure Served (h : LockedHeap) (l : List Region) (layout : Layout) (ptr : UInt64)
    (h' : LockedHeap) (l' : List Region) : Prop where
  grown : Grown h l h' l'
  aligned : ptr ≠ 0 → layout.align.toNat ∣ ptr.toNat
  block_subset : ptr ≠ 0 →
    (blockOf ptr layout).bytes ⊆ covered l ∪ Set.Ico h.heapEnd.toNat h'.heapEnd.toNat
  disjoint : ptr ≠ 0 → Disjoint (blockOf ptr layout).bytes (covered l')
  dropped : ∃ d, Scraps 2 d ∧ covered l ∪ Set.Ico h.heapEnd.toNat h'.heapEnd.toNat ⊆
    covered l' ∪ { x | ptr ≠ 0 ∧ x ∈ (blockOf ptr layout).bytes } ∪ covered d

theorem Taken.served (hl : Tracks h l) (ht : Taken h l (blockOf ptr layout) h' l')
    (haligned : layout.align.toNat ∣ ptr.toNat) : Served h l layout ptr h' l' where
  grown := {
    tracks := ht.tracks
    heapEnd_le := ht.heapEnd ▸ le_rfl
    covered_subset := fun _ hx => .inl (ht.covered_subset hx).1
    frame := fun x _ hx => ht.frame x hx }
  aligned _ := haligned
  block_subset _ := ht.block.trans Set.subset_union_left
  disjoint _ := Set.disjoint_right.mpr fun _ hx => (ht.covered_subset hx).2
  dropped := by
    have hptr : ptr ≠ 0 := by
      rintro rfl
      have hlarge := layout.sixteen_le_bytes
      exact lt_irrefl 0 (hl.bounds (ht.block (mem_bytes.mpr ⟨le_rfl, by
        show 0 < 0 + layout.bytes.toNat
        omega⟩))).1
    obtain ⟨d, hscraps, hcov⟩ := ht.dropped
    refine ⟨d, hscraps, ?_⟩
    rw [ht.heapEnd, Set.Ico_self, Set.union_empty]
    simpa only [hptr, ne_eq, not_false_eq_true, true_and, Set.ofPred_mem_eq] using hcov

theorem Grown.served {h1 : LockedHeap} {l1 : List Region} (hg : Grown h l h1 l1)
    (hcov : covered l ∪ Set.Ico h.heapEnd.toNat h1.heapEnd.toNat ⊆ covered l1)
    (hs : Served h1 l1 layout ptr h' l') : Served h l layout ptr h' l' := by
  have hle := hg.heapEnd_le
  have hle' := hs.grown.heapEnd_le
  have hsub : covered l1 ∪ Set.Ico h1.heapEnd.toNat h'.heapEnd.toNat ⊆
      covered l ∪ Set.Ico h.heapEnd.toNat h'.heapEnd.toNat := by
    rintro x (hx | hx)
    · obtain hx | hx := hg.covered_subset hx
      · exact .inl hx
      · exact .inr ⟨hx.1, hx.2.trans_le hle'⟩
    · exact .inr ⟨hle.trans hx.1, hx.2⟩
  refine ⟨⟨hs.grown.tracks, hle.trans hle', hs.grown.covered_subset.trans hsub, ?_⟩, hs.aligned,
    fun hne => (hs.block_subset hne).trans hsub, hs.disjoint, ?_⟩
  · intro x hx hxl
    rw [hs.grown.frame x (hx.trans_le hle), hg.frame x hx hxl]
    intro hin
    obtain hin | hin := hg.covered_subset hin
    · exact hxl hin
    · exact not_le.mpr hx hin.1
  · obtain ⟨d, hscraps, hkept⟩ := hs.dropped
    refine ⟨d, hscraps, fun x hx => ?_⟩
    by_cases hold : x < h1.heapEnd.toNat
    · exact hkept (.inl (hcov (hx.imp_right fun hx => ⟨hx.1, hold⟩)))
    · obtain hx | hx := hx
      · exact hkept (.inl (hcov (.inl hx)))
      · exact hkept (.inr ⟨not_lt.mp hold, hx.2⟩)

/-- **`alloc`** returns, and what it returns is a free block or null. -/
theorem Tracks.alloc (ht : Tracks h l) (hbelow : covered l ⊆ Set.Iio h.heapEnd.toNat)
    (hstart : 0 < h.heapEnd.toNat) (hroom : h.Room layout) :
    ∃ ptr h' l', h.alloc layout available frames = some (ptr, h') ∧
      Served h l layout ptr h' l' := by
  obtain ⟨k, hk, halign, hdvd⟩ := layout.exists_alignment
  have hlarge := layout.sixteen_le_bytes
  unfold Room at hroom
  have hstop {h : LockedHeap} {l : List Region} (ht : Tracks h l)
      (hbelow : covered l ⊆ Set.Iio h.heapEnd.toNat) (r : Region) (hr : r ∈ l) :
      r.stop ≤ h.heapEnd.toNat := by
    have hsize := (ht.mem_bounds hr).1
    have hrstop : r.stop = r.addr + r.size := rfl
    have hlast : r.stop - 1 ∈ r.bytes := mem_bytes.mpr ⟨by omega, by omega⟩
    have hlt : r.stop - 1 < h.heapEnd.toNat := hbelow (bytes_subset_covered hr hlast)
    omega
  unfold LockedHeap.alloc
  have hfits (r : Region) (hr : r ∈ l) : r.stop + layout.bytes.toNat + 2 ^ k ≤ 2 ^ 64 := by
    have := hstop ht hbelow r hr
    omega
  obtain hfind | ⟨start, h1, l1, hfind, haligned, htaken⟩ := ht.findAndRemove hk halign hfits
  · rw [hfind]
    have hgrowth : h.growth layout = layout.pages.toNat * 4096 := by rw [growth, hfind]
    obtain ⟨h1, l1, hgrow, hgrown, hgrew, hcov⟩ : ∃ h' l',
        h.growBy layout.pages available frames = some h' ∧ _ :=
      ht.growBy hbelow hstart layout.pages_pos (by omega)
    have hbelow1 : covered l1 ⊆ Set.Iio h1.heapEnd.toNat := fun x hx => by
      obtain hx | hx := hgrown.covered_subset hx
      · exact (hbelow hx).trans_le hgrown.heapEnd_le
      · exact hx.2
    simp only [bind_eq_bind, bind_some, hgrow]
    have hfits1 (r : Region) (hr : r ∈ l1) : r.stop + layout.bytes.toNat + 2 ^ k ≤ 2 ^ 64 := by
      have := hstop hgrown.tracks hbelow1 r hr
      omega
    obtain hfind1 | ⟨start, h2, l2, hfind1, haligned, htaken⟩ :=
      hgrown.tracks.findAndRemove hk halign hfits1
    · rw [hfind1]
      exact ⟨0, h1, l1, rfl, hgrown, fun hne => absurd rfl hne, fun hne => absurd rfl hne,
        fun hne => absurd rfl hne, [], ⟨Nat.zero_le _, nofun⟩,
        fun x hx => .inl (.inl (hcov hx))⟩
    · rw [hfind1]
      have hserved : Served h1 l1 layout start h2 l2 :=
        htaken.served hgrown.tracks (hdvd.trans haligned)
      exact ⟨start, h2, l2, rfl, hgrown.served hcov hserved⟩
  · rw [hfind]
    exact ⟨start, h1, l1, rfl, htaken.served ht (hdvd.trans haligned)⟩

end LockedHeap

/-! ## Runs -/

structure Block where
  ptr : UInt64
  layout : Layout
  deriving DecidableEq

namespace Block

def bytes (b : Block) : Set Nat := (LockedHeap.blockOf b.ptr b.layout).bytes

end Block

structure Allocations where
  heap : LockedHeap
  live : List Block

namespace Allocations

open LockedHeap (Scraps heapVirtualBase initialHeapPages)

inductive Event where
  | alloc (layout : Layout) (available : Nat) (frames : ByteMemory)
  | dealloc (b : Block)
  | write (addr : UInt64) (byte : UInt8)

def boot (mem : ByteMemory) (available : Nat) (frames : ByteMemory) : Option Allocations :=
  (LockedHeap.init ⟨0, 0, mem⟩ available frames).map fun heap => ⟨heap, []⟩

def step (s : Allocations) : Event → Option Allocations
  | .alloc layout available frames =>
    (s.heap.alloc layout available frames).map fun (ptr, heap) =>
      ⟨heap, if ptr = 0 then s.live else ⟨ptr, layout⟩ :: s.live⟩
  | .dealloc b => (s.heap.dealloc b.ptr b.layout).map fun heap => ⟨heap, s.live.erase b⟩
  | .write addr byte =>
    some { s with heap := { s.heap with mem := Function.update s.heap.mem addr byte } }

/-- What the clients may do: they give back, once and with its layout, what they
hold, and write into it. -/
def Allowed (s : Allocations) : Event → Prop
  | .alloc _ _ _ => True
  | .dealloc b => b ∈ s.live
  | .write addr _ => ∃ b ∈ s.live, addr.toNat ∈ b.bytes

def Room (s : Allocations) : Event → Prop
  | .alloc layout _ _ => s.heap.Room layout
  | _ => True

instance (s : Allocations) (e : Event) : Decidable (s.Allowed e) :=
  match e with
  | .alloc _ _ _ => .isTrue trivial
  | .dealloc b => inferInstanceAs (Decidable (b ∈ s.live))
  | .write addr _ => inferInstanceAs (Decidable (∃ b ∈ s.live, b.ptr.toNat ≤ addr.toNat ∧
      addr.toNat < b.ptr.toNat + b.layout.bytes.toNat))

instance (s : Allocations) (e : Event) : Decidable (s.Room e) :=
  match e with
  | .alloc layout _ _ => inferInstanceAs (Decidable (s.heap.Room layout))
  | .dealloc _ => .isTrue trivial
  | .write _ _ => .isTrue trivial

/-- The free list of `s` is `l`: sorted, merged and apart from the blocks. -/
structure Safe (s : Allocations) (l : List Region) : Prop where
  tracks : LockedHeap.Tracks s.heap l
  base_le : heapVirtualBase.toNat ≤ s.heap.heapEnd.toNat
  free : covered l ⊆ Set.Ico heapVirtualBase.toNat s.heap.heapEnd.toNat
  aligned : ∀ b ∈ s.live, b.layout.align.toNat ∣ b.ptr.toNat
  inside : ∀ b ∈ s.live, b.bytes ⊆ Set.Ico heapVirtualBase.toNat s.heap.heapEnd.toNat
  apart : s.live.Pairwise fun a b => Disjoint a.bytes b.bytes
  unlisted : ∀ b ∈ s.live, Disjoint b.bytes (covered l)

def blocks (s : Allocations) : Set Nat := { x | ∃ b ∈ s.live, x ∈ b.bytes }

/-- On the way from `s` to `s'` at most `n` small pieces are lost of what was free,
held or new. -/
def Loses (n : Nat) (s : Allocations) (l : List Region) (s' : Allocations) (l' : List Region) :
    Prop :=
  ∃ d, Scraps n d ∧ covered l ∪ s.blocks ∪
    Set.Ico s.heap.heapEnd.toNat s'.heap.heapEnd.toNat ⊆ covered l' ∪ s'.blocks ∪ covered d

def Event.scraps : Event → Nat
  | .alloc _ _ _ => 2
  | _ => 0

variable {s s' : Allocations}

theorem Loses.trans {m n : Nat} {s1 : Allocations} {l1 : List Region} (h : Loses m s l s1 l1)
    (h' : Loses n s1 l1 s' l') : Loses (m + n) s l s' l' := by
  obtain ⟨d, hscraps, hcov⟩ := h
  obtain ⟨d', hscraps', hcov'⟩ := h'
  refine ⟨d ++ d', hscraps.append hscraps', fun x hx => ?_⟩
  have hcov := @hcov x
  have hcov' := @hcov' x
  simp only [Set.mem_union, Set.mem_Ico, covered_append] at hx hcov hcov' ⊢
  grind

/-! ### Steps -/

section

variable (hs : Safe s l)

include hs

theorem Safe.disjoint_new {b : Block} (hb : b ∈ s.live) (hi : Nat) :
    Disjoint b.bytes (covered l ∪ Set.Ico s.heap.heapEnd.toNat hi) := by
  refine Set.disjoint_union_right.mpr ⟨hs.unlisted b hb, Set.disjoint_left.mpr fun x hx hnew => ?_⟩
  exact absurd (hs.inside b hb hx).2 (not_lt.mpr hnew.1)

theorem Safe.below : covered l ⊆ Set.Iio s.heap.heapEnd.toNat :=
  fun _ hx => (hs.free hx).2

theorem Safe.heapEnd_pos : 0 < s.heap.heapEnd.toNat :=
  lt_of_lt_of_le (by decide) hs.base_le

theorem Safe.step_alloc {layout : Layout} (hroom : s.heap.Room layout)
    (available : Nat) (frames : ByteMemory) :
    ∃ s' l', s.step (.alloc layout available frames) = some s' ∧ Safe s' l' ∧
      Loses 2 s l s' l' := by
  obtain ⟨ptr, h', l', halloc, hserved⟩ : ∃ ptr h' l',
      s.heap.alloc layout available frames = some (ptr, h') ∧ _ :=
    hs.tracks.alloc hs.below hs.heapEnd_pos hroom
  have hle := hserved.grown.heapEnd_le
  have hnew : covered l ∪ Set.Ico s.heap.heapEnd.toNat h'.heapEnd.toNat ⊆
      Set.Ico heapVirtualBase.toNat h'.heapEnd.toNat := by
    rintro x (hx | hx)
    · exact ⟨(hs.free hx).1, (hs.free hx).2.trans_le hle⟩
    · exact ⟨hs.base_le.trans hx.1, hx.2⟩
  have hinside (b : Block) (hb : b ∈ s.live) :
      b.bytes ⊆ Set.Ico heapVirtualBase.toNat h'.heapEnd.toNat := fun x hx =>
    ⟨(hs.inside b hb hx).1, (hs.inside b hb hx).2.trans_le hle⟩
  have hunlisted (b : Block) (hb : b ∈ s.live) : Disjoint b.bytes (covered l') :=
    (hs.disjoint_new hb _).mono_right hserved.grown.covered_subset
  refine ⟨⟨h', if ptr = 0 then s.live else ⟨ptr, layout⟩ :: s.live⟩, l', ?_, ?_⟩
  · rw [step, halloc]
    rfl
  obtain ⟨d, hscraps, hcov⟩ := hserved.dropped
  by_cases hptr : ptr = 0
  · rw [if_pos hptr]
    refine ⟨⟨hserved.grown.tracks, hs.base_le.trans hle,
      hserved.grown.covered_subset.trans hnew, hs.aligned, hinside, hs.apart, hunlisted⟩, d,
      hscraps, fun x hx => ?_⟩
    have hcov := @hcov x
    simp only [Set.mem_union, Set.mem_ofPred_eq, hptr, ne_eq, not_true_eq_false, false_and,
      or_false] at hx hcov ⊢
    tauto
  · rw [if_neg hptr]
    refine ⟨⟨hserved.grown.tracks, hs.base_le.trans hle,
      hserved.grown.covered_subset.trans hnew, ?_, ?_, ?_, ?_⟩, d, hscraps, fun x hx => ?_⟩
    · exact forall_mem_cons.mpr ⟨hserved.aligned hptr, hs.aligned⟩
    · exact forall_mem_cons.mpr ⟨(hserved.block_subset hptr).trans hnew, hinside⟩
    · refine pairwise_cons.mpr ⟨fun b hb => ?_, hs.apart⟩
      exact ((hs.disjoint_new hb _).mono_right (hserved.block_subset hptr)).symm
    · exact forall_mem_cons.mpr ⟨hserved.disjoint hptr, hunlisted⟩
    · have hcov := @hcov x
      have hheld : x ∈ blocks ⟨h', ⟨ptr, layout⟩ :: s.live⟩ ↔
          x ∈ (LockedHeap.blockOf ptr layout).bytes ∨ x ∈ s.blocks := exists_mem_cons_iff ..
      grind

theorem Safe.step_dealloc {b : Block} (hb : b ∈ s.live) :
    ∃ s' l', s.step (.dealloc b) = some s' ∧ Safe s' l' ∧ Loses 0 s l s' l' := by
  have hbounds : b.bytes ⊆ Set.Ioo 0 (2 ^ 64 - 1) := fun x hx => by
    have hend := s.heap.heapEnd.toNat_lt
    have hbase : 0 < heapVirtualBase.toNat := by decide
    obtain ⟨hle, _⟩ := hs.inside b hb hx
    exact ⟨hbase.trans_le hle, by omega⟩
  obtain ⟨h', l', hadd, hadded⟩ :=
    hs.tracks.addFreeRegion b.layout.sixteen_le_bytes hbounds (hs.unlisted b hb)
  have hcov : covered l' = covered l ∪ b.bytes := hadded.covered_eq
  have hmem {a : Block} (ha : a ∈ s.live.erase b) : a ∈ s.live := mem_of_mem_erase ha
  -- the blocks that stay were apart from the one that goes
  have hothers : ∀ a ∈ s.live.erase b, Disjoint b.bytes a.bytes := by
    have hperm := hs.apart.perm (perm_cons_erase hb) fun h => h.symm
    exact (pairwise_cons.mp hperm).1
  refine ⟨⟨h', s.live.erase b⟩, l', ?_, ⟨hadded.tracks, ?_, ?_, ?_, ?_, ?_, ?_⟩, [],
    ⟨le_rfl, nofun⟩, ?_⟩
  · rw [step, LockedHeap.dealloc, hadd]
    rfl
  · rw [hadded.heapEnd]
    exact hs.base_le
  · rw [hadded.heapEnd, hcov]
    exact Set.union_subset hs.free (hs.inside b hb)
  · exact fun a ha => hs.aligned a (hmem ha)
  · rw [hadded.heapEnd]
    exact fun a ha => hs.inside a (hmem ha)
  · exact hs.apart.sublist erase_sublist
  · intro a ha
    rw [hcov]
    exact Set.disjoint_union_right.mpr ⟨hs.unlisted a (hmem ha), (hothers a ha).symm⟩
  · rw [hadded.heapEnd, hcov, Set.Ico_self, Set.union_empty]
    rintro x (hx | ⟨a, ha, hxa⟩)
    · exact .inl (.inl (.inl hx))
    · by_cases hab : a = b
      · exact .inl (.inl (.inr (hab ▸ hxa)))
      · exact .inl (.inr ⟨a, (mem_erase_of_ne hab).mpr ha, hxa⟩)

theorem Safe.step_write {addr : UInt64} {byte : UInt8} (hin : ∃ b ∈ s.live, addr.toNat ∈ b.bytes) :
    ∃ s' l', s.step (.write addr byte) = some s' ∧ Safe s' l' ∧ Loses 0 s l s' l' := by
  obtain ⟨b, hb, haddr⟩ := hin
  refine ⟨_, l, rfl, { hs with tracks := ⟨?_, hs.tracks.separated, hs.tracks.bounds⟩ },
    [], ⟨le_rfl, nofun⟩, ?_⟩
  · refine hs.tracks.chain.congr hs.tracks.separated.large
      (fun r hr => (hs.tracks.mem_bounds hr).2.2) fun x hx => Function.update_of_ne ?_ _ _
    rintro rfl
    exact Set.disjoint_left.mp (hs.unlisted b hb) haddr hx
  · rw [Set.Ico_self, Set.union_empty]
    exact Set.subset_union_left

theorem Safe.step (e : Event) (hallowed : s.Allowed e) (hroom : s.Room e) :
    ∃ s' l', s.step e = some s' ∧ Safe s' l' ∧ Loses e.scraps s l s' l' := by
  cases e with
  | alloc layout available frames => exact hs.step_alloc hroom available frames
  | dealloc => exact hs.step_dealloc hallowed
  | write => exact hs.step_write hallowed

theorem safe_run {events : List Event}
    (hmeets : Meets step (fun s e => s.Allowed e ∧ s.Room e) s events) :
    ∃ s' l', attempt step s events = some s' ∧ Safe s' l' ∧
      Loses (events.map Event.scraps).sum s l s' l' := by
  induction events generalizing s l with
  | nil =>
    refine ⟨s, l, rfl, hs, [], ⟨le_rfl, nofun⟩, ?_⟩
    rw [Set.Ico_self, Set.union_empty]
    exact Set.subset_union_left
  | cons e events ih =>
    obtain ⟨s1, _, hstep, hs1, hloses1⟩ := hs.step e hmeets.1.1 hmeets.1.2
    obtain ⟨s', l', hrun, hs', hloses⟩ := ih hs1 (hmeets.2 s1 hstep)
    rw [attempt_cons, hstep]
    exact ⟨s', l', hrun, hs', hloses1.trans hloses⟩

end

theorem safe_boot (mem : ByteMemory) (available : Nat) (frames : ByteMemory) :
    ∃ s l, boot mem available frames = some s ∧ Safe s l ∧
      Set.Ico heapVirtualBase.toNat s.heap.heapEnd.toNat ⊆ covered l := by
  have hempty : LockedHeap.Tracks ⟨0, heapVirtualBase, mem⟩ [] :=
    ⟨rfl, separated_nil, by rw [covered_nil]; exact Set.empty_subset _⟩
  obtain ⟨h, l, hgrow, hgrown, -, hcov⟩ : ∃ h l, LockedHeap.growBy ⟨0, heapVirtualBase, mem⟩
      initialHeapPages available frames = some h ∧ _ :=
    hempty.growBy (by rw [covered_nil]; exact Set.empty_subset _)
      (show 0 < heapVirtualBase.toNat by decide) (by decide)
      (show heapVirtualBase.toNat + initialHeapPages.toNat * 4096 < 2 ^ 64 by decide)
  refine ⟨⟨h, []⟩, l, ?_, ⟨hgrown.tracks, hgrown.heapEnd_le, ?_, nofun, nofun, Pairwise.nil,
    nofun⟩, Set.subset_union_right.trans hcov⟩
  · rw [boot, LockedHeap.init, hgrow]
    rfl
  · have hsub := hgrown.covered_subset
    rw [covered_nil, Set.empty_union] at hsub
    exact hsub

/-- **Heap safety.** From `heap::init` on, whatever the clients do that they
may, every call returns, the blocks they hold are aligned, inside the window and
apart from each other and from the free list, and the free list is sorted and
merged, if no step reaches the end of the window. -/
theorem heap_safe {mem frames : ByteMemory} {available : Nat} {s₀ : Allocations}
    (hboot : boot mem available frames = some s₀) {events : List Event}
    (hmeets : Meets step (fun s e => s.Allowed e ∧ s.Room e) s₀ events) :
    ∃ s l, attempt step s₀ events = some s ∧ Safe s l := by
  obtain ⟨s1, _, hboot1, hs0, -⟩ := safe_boot mem available frames
  obtain rfl : s₀ = s1 := some_inj.mp (hboot.symm.trans hboot1)
  obtain ⟨s, l, hrun, hs, -⟩ := safe_run hs0 hmeets
  exact ⟨s, l, hrun, hs⟩

def zeros : ByteMemory := fun _ => 0

def smallLayout : Layout := ⟨16, 8, 3, by decide, by decide⟩

def oneBlock : List Event :=
  [.alloc smallLayout 0 zeros, .write heapVirtualBase 7, .dealloc ⟨heapVirtualBase, smallLayout⟩]

theorem exists_meets_oneBlock : ∃ s0, boot zeros 2048 zeros = some s0 ∧
    Meets step (fun s e => s.Allowed e ∧ s.Room e) s0 oneBlock := by
  decide +kernel

theorem heap_safe_one_block : ∃ s₀ s l, boot zeros 2048 zeros = some s₀ ∧
    attempt step s₀ oneBlock = some s ∧ Safe s l := by
  obtain ⟨s₀, hboot, hmeets⟩ := exists_meets_oneBlock
  obtain ⟨s, l, hrun, hs⟩ := heap_safe hboot hmeets
  exact ⟨s₀, s, l, hboot, hrun, hs⟩

def largeLayout : Layout := ⟨2 ^ 38 - 16, 8, 3, by decide, by decide⟩

/-- Four large blocks take the heap through its window, and the next block is
below it. -/
theorem heap_leaves_window :
    largeLayout.size.toNat + largeLayout.align.toNat < 2 ^ 38 ∧
      smallLayout.size.toNat + smallLayout.align.toNat < 2 ^ 38 ∧
      ((boot zeros 2048 zeros).bind fun s₀ => attempt step s₀
        (List.replicate 4 (.alloc largeLayout (2 ^ 30) zeros) ++
          [.alloc smallLayout (2 ^ 30) zeros])).map
        (fun s => (s.live.head?.map Block.ptr, s.heap.heapEnd)) = some (some 0x804000, 0x904000) ∧
      (0x804000 : UInt64) < LockedHeap.heapVirtualBase := by
  refine ⟨by decide, by decide, ?_, by decide⟩
  decide +kernel

/-! ### Conservation -/

/-- **Heap conservation.** Of the whole heap, at most two pieces of fewer than 16
bytes are lost in each `alloc`; the rest is free or held. If nothing is held and
nothing lost, the free list is one region. -/
theorem heap_conserved {mem frames : ByteMemory} {available : Nat} {s₀ : Allocations}
    (hboot : boot mem available frames = some s₀) {events : List Event}
    (hmeets : Meets step (fun s e => s.Allowed e ∧ s.Room e) s₀ events) :
    ∃ s l d, attempt step s₀ events = some s ∧ Safe s l ∧ Scraps (events.map Event.scraps).sum d ∧
      Set.Ico heapVirtualBase.toNat s.heap.heapEnd.toNat ⊆ covered l ∪ s.blocks ∪ covered d ∧
      (s.live = [] → covered d ⊆ covered l → heapVirtualBase.toNat < s.heap.heapEnd.toNat →
        l = [⟨heapVirtualBase.toNat, s.heap.heapEnd.toNat - heapVirtualBase.toNat⟩]) := by
  obtain ⟨s1, _, hboot1, hs0, hcov0⟩ := safe_boot mem available frames
  obtain rfl : s₀ = s1 := some_inj.mp (hboot.symm.trans hboot1)
  obtain ⟨s, l, hrun, hs, d, hscraps, hcov⟩ := safe_run hs0 hmeets
  have hall : Set.Ico heapVirtualBase.toNat s.heap.heapEnd.toNat ⊆
      covered l ∪ s.blocks ∪ covered d := fun x hx => by
    by_cases hold : x < s₀.heap.heapEnd.toNat
    · exact hcov (.inl (.inl (hcov0 ⟨hx.1, hold⟩)))
    · exact hcov (.inr ⟨not_lt.mp hold, hx.2⟩)
  refine ⟨s, l, d, hrun, hs, hscraps, hall, fun hnone hkept hlt => ?_⟩
  refine hs.tracks.separated.eq_singleton (by decide) (hs.free.antisymm fun x hx => ?_) hlt
  obtain (hx | ⟨b, hb, -⟩) | hx := hall hx
  · exact hx
  · rw [hnone] at hb
    cases hb
  · exact hkept hx

theorem heap_conserved_one_block : ∃ s₀ s l d, boot zeros 2048 zeros = some s₀ ∧
    attempt step s₀ oneBlock = some s ∧ Scraps 2 d ∧
    Set.Ico heapVirtualBase.toNat s.heap.heapEnd.toNat ⊆ covered l ∪ s.blocks ∪ covered d := by
  obtain ⟨s₀, hboot, hmeets⟩ := exists_meets_oneBlock
  obtain ⟨s, l, d, hrun, -, hscraps, hcov, -⟩ := heap_conserved hboot hmeets
  exact ⟨s₀, s, l, d, hboot, hrun, hscraps, hcov⟩

/-- A block of 24 bytes and one behind it that is aligned to 16. The eight bytes
between them are lost: with both blocks given back, the free list has two nodes. -/
theorem heap_loses_pad : ((boot zeros 2048 zeros).bind fun s₀ => attempt step s₀
        [.alloc ⟨24, 8, 3, by decide, by decide⟩ 0 zeros,
          .alloc ⟨16, 16, 4, by decide, by decide⟩ 0 zeros,
          .dealloc ⟨heapVirtualBase, 24, 8, 3, by decide, by decide⟩,
          .dealloc ⟨heapVirtualBase + 32, 16, 16, 4, by decide, by decide⟩]).map
      (fun s => (s.live, s.heap.head, s.heap.size s.heap.head, s.heap.next s.heap.head)) =
      some ([], heapVirtualBase, 24, heapVirtualBase + 32) := by
  decide +kernel

end Allocations

/-! ## Requests that cannot be met -/

/-- Where a block of this layout stops that starts as far down in `r` as it can. -/
def Layout.stopIn (layout : Layout) (r : Region) : Nat :=
  (r.addr + layout.alignment.toNat - 1) / layout.alignment.toNat * layout.alignment.toNat +
    layout.bytes.toNat

namespace LockedHeap

variable {addr size align : UInt64}

/-- The pages that `alloc` takes from the PMM and maps. -/
def drawn (h : LockedHeap) (layout : Layout) (available : Nat) : Nat :=
  match h.findAndRemove layout.bytes layout.alignment with
  | some (none, _) => min layout.pages.toNat available
  | _ => 0

/-- Neither the free list nor the pages that are left have a place for the layout. -/
def Unmet (h : LockedHeap) (l : List Region) (layout : Layout) (available : Nat) : Prop :=
  ∀ start, layout.align.toNat ∣ start → ¬ Set.Ico start (start + layout.size.toNat) ⊆
    covered l ∪ Set.Ico h.heapEnd.toNat (min (h.heapEnd.toNat + available * 4096) (2 ^ 64))

theorem fits_iff {r : Region} (hstop : r.stop < 2 ^ 64) (hlow : layout.bytes.toNat ≤ r.addr)
    (hnot : r.stop < layout.stopIn r) :
    Fits layout.bytes layout.alignment r ↔ 2 ^ 64 ≤ layout.stopIn r := by
  obtain ⟨k, hk, halign, -⟩ := layout.exists_alignment
  unfold Layout.stopIn at hnot ⊢
  rw [halign] at hnot ⊢
  have hrstop : r.stop = r.addr + r.size := rfl
  have haddr : (UInt64.ofNat r.addr).toNat = r.addr :=
    UInt64.toNat_ofNat_of_lt' (show r.addr < 2 ^ 64 by omega)
  have hsize : (UInt64.ofNat r.size).toNat = r.size :=
    UInt64.toNat_ofNat_of_lt' (show r.size < 2 ^ 64 by omega)
  have hle := Nat.div_mul_le_self (r.addr + 2 ^ k - 1) (2 ^ k)
  unfold Fits
  rw [UInt64.le_iff_toNat_le, toNat_add_of_stop haddr hsize hstop, UInt64.toNat_add,
    toNat_alignUp hk halign, haddr]
  by_cases hwrap : r.addr + 2 ^ k - 1 < 2 ^ 64
  · rw [Nat.mod_eq_of_lt hwrap]
    omega
  · have hdvd : 2 ^ 64 / 2 ^ k * 2 ^ k = 2 ^ 64 :=
      Nat.div_mul_cancel (Nat.pow_dvd_pow 2 hk.le)
    have hmul := Nat.mul_le_mul_right (2 ^ k) (Nat.div_le_div_right (c := 2 ^ k) (not_lt.mp hwrap))
    have hzero : (r.addr + 2 ^ k - 1) % 2 ^ 64 / 2 ^ k = 0 := Nat.div_eq_of_lt (by omega)
    rw [hzero, zero_mul, zero_add, Nat.mod_eq_of_lt layout.bytes.toNat_lt]
    omega

theorem head_addFreeRegion (hadd : h.addFreeRegion addr size = some h') :
    (h'.head = h.head ∨ h'.head = addr) ∧
      (16 ≤ size.toNat → h.head = 0 ∨ addr < h.head → h'.head = addr) := by
  unfold LockedHeap.addFreeRegion at hadd
  split_ifs at hadd with hsmall
  · cases hadd
    exact ⟨.inl rfl, fun hlarge => absurd hlarge (not_le.mpr (UInt64.lt_iff_toNat_lt.mp hsmall))⟩
  obtain ⟨⟨prev, _⟩, hseek, hadd⟩ := bind_eq_some_iff.mp hadd
  have hfirst (hlow : h.head = 0 ∨ addr < h.head) : prev = 0 := by
    rw [fuel, seek, if_neg fun hlt => hlow.elim hlt.1 (UInt64.lt_asymm hlt.2)] at hseek
    cases hseek
    rfl
  have hstore (g : LockedHeap) :
      (g.store (linkOf prev) addr).head = if prev = 0 then addr else g.head := by
    unfold linkOf
    split_ifs <;> rfl
  dsimp only at hadd
  split_ifs at hadd with hmerge hnext hnext <;> cases hadd
  · exact ⟨.inl rfl, fun _ hlow => absurd (hfirst hlow) hmerge.1⟩
  · exact ⟨.inl rfl, fun _ hlow => absurd (hfirst hlow) hmerge.1⟩
  · rw [hstore]
    exact ⟨(ite_eq_or_eq ..).symm, fun _ hlow => if_pos (hfirst hlow)⟩
  · rw [hstore]
    exact ⟨(ite_eq_or_eq ..).symm, fun _ hlow => if_pos (hfirst hlow)⟩

theorem head_of_take {q : Region} {rest : List Region} {link : Link} {c : UInt64}
    {x : Option UInt64} (hchain : Chain h.mem c (q :: rest) 0) (hstop : q.stop < 2 ^ 64)
    (hlow : ∀ r ∈ q :: rest, size.toNat + 16 ≤ r.addr) (hhead : h.head = 0 ∨ size < h.head)
    (htake : h.take size align link c = some (x, h')) :
    ∃ a, x = some a ∧ (a = 0 → h'.head = size) := by
  obtain ⟨-, hc, hcsize, hrest⟩ := hchain
  obtain ⟨_, hlow⟩ := forall_mem_cons.mp hlow
  obtain ⟨h1, hfront, htake⟩ := bind_eq_some_iff.mp htake
  obtain ⟨_, hback, htake⟩ := bind_eq_some_iff.mp htake
  cases htake
  refine ⟨_, rfl, fun hzero => ?_⟩
  rw [hzero, zero_add] at hback
  have hqstop : q.stop = q.addr + q.size := rfl
  have hend : (c + h.size c).toNat = q.stop := toNat_add_of_stop hc hcsize hstop
  have hpad : 16 ≤ (c + h.size c - size).toNat := by
    rw [UInt64.toNat_sub_of_le _ _ (UInt64.le_iff_toNat_le.mpr (by omega)), hend]
    omega
  have hstored : (h.store link (h.next c)).head = 0 ∨ size < (h.store link (h.next c)).head := by
    cases link with
    | head => exact hrest.first fun r hr => by have := hlow r hr; omega
    | next => exact hhead
  have hfirst : h1.head = 0 ∨ size < h1.head := by
    unfold LockedHeap.addPad at hfront
    split_ifs at hfront
    · obtain hsame | hnew := (head_addFreeRegion hfront).1
      · rwa [hsame]
      · rw [hnew]
        exact .inr (UInt64.lt_iff_toNat_lt.mpr (by omega))
    · cases hfront
      exact hstored
  rw [LockedHeap.addPad, if_pos (UInt64.lt_iff_toNat_lt.mpr
    (lt_of_lt_of_le (by decide : (0 : UInt64).toNat < 16) hpad))] at hback
  exact (head_addFreeRegion hback).2 hpad hfirst

/-- **A request that cannot be met** changes nothing exactly if no page is left for `grow_by`
to take and no node is so near the end of the addresses that the block's end wraps. -/
theorem failed_alloc_iff (h : LockedHeap) (l : List Region) (layout : Layout) (available : Nat)
    (frames : ByteMemory) (ht : Tracks h l) (hbase : covered l ⊆ Set.Ici heapVirtualBase.toNat)
    (hsize : layout.size.toNat < 2 ^ 63) (hunmet : h.Unmet l layout available) :
    (h.alloc layout available frames = some (0, h) ∧ h.drawn layout available = 0) ↔
      available = 0 ∧ ∀ r ∈ l, layout.stopIn r < 2 ^ 64 := by
  obtain ⟨k, _, halign, hdvd⟩ := layout.exists_alignment
  have hle : layout.size.toNat ≤ layout.bytes.toNat := layout.toNat_bytes ▸ le_max_left _ _
  have hbytes : layout.bytes.toNat < 2 ^ 63 := layout.toNat_bytes ▸ max_lt hsize (by decide)
  have hlow (r : Region) (hr : r ∈ l) : layout.bytes.toNat + 16 ≤ r.addr ∧ r.stop < 2 ^ 64 := by
    obtain ⟨hlarge, -, hstop⟩ := ht.mem_bounds hr
    have hrstop : r.stop = r.addr + r.size := rfl
    have hwindow : 0xFFFFFF0000000000 ≤ r.addr :=
      hbase (bytes_subset_covered hr (mem_bytes.mpr ⟨le_rfl, by omega⟩))
    exact ⟨by omega, hstop⟩
  have hfits (r : Region) (hr : r ∈ l) :
      Fits layout.bytes layout.alignment r ↔ 2 ^ 64 ≤ layout.stopIn r := by
    have hrlow := hlow r hr
    refine fits_iff hrlow.2 (by omega) (not_le.mp fun hin => ?_)
    rw [Layout.stopIn, halign] at hin
    refine hunmet ((r.addr + 2 ^ k - 1) / 2 ^ k * 2 ^ k) (hdvd.trans (Nat.dvd_mul_left _ _))
      fun x hx => .inl ?_
    have hup := Nat.lt_div_mul_add (a := r.addr + 2 ^ k - 1) (Nat.two_pow_pos k)
    exact bytes_subset_covered hr (mem_bytes.mpr ⟨by have := hx.1; omega, by have := hx.2; omega⟩)
  obtain ⟨hfind, hnone⟩ | ⟨below, q, rest, c, rfl, -, hchain, hfit, hfind⟩ :=
    ht.findAndRemove_cases layout.bytes layout.alignment
  · have hpages := layout.pages_pos
    rw [drawn, hfind]
    constructor
    · rintro ⟨-, hzero⟩
      dsimp only at hzero
      exact ⟨by omega, fun r hr => not_le.mp ((hfits r hr).not.mp (hnone r hr))⟩
    · rintro ⟨rfl, -⟩
      have hgrow : h.growBy layout.pages 0 frames = some h := by
        rw [LockedHeap.growBy, if_pos (show 0 < layout.pages.toNat from hpages)]
        simp
      refine ⟨?_, Nat.min_zero _⟩
      simp only [LockedHeap.alloc, hfind, hgrow, bind_eq_bind, bind_some,
        Option.pure_def]
  · have hq : q ∈ below ++ q :: rest := mem_append_right _ mem_cons_self
    refine iff_of_false ?_ fun hclear => not_le.mpr (hclear.2 q hq) ((hfits q hq).mp hfit)
    rintro ⟨halloc, -⟩
    obtain ⟨⟨x, _⟩, hx, halloc⟩ := bind_eq_some_iff.mp halloc
    rw [hfind] at hx
    have hhead : h.head = 0 ∨ layout.bytes < h.head :=
      ht.chain.first fun r hr => by have := hlow r hr; omega
    obtain ⟨a, rfl, hnew⟩ := head_of_take hchain (hlow q hq).2
      (fun r hr => (hlow r (mem_append_right _ hr)).1) hhead hx
    cases halloc
    rw [hnew rfl] at hhead
    obtain hzero | hlt := hhead
    · have hlarge := layout.sixteen_le_bytes
      rw [hzero] at hlarge
      exact absurd hlarge (by decide)
    · exact UInt64.lt_irrefl _ hlt

/-- A heap whose first page is its only free block, and a request for 1 MiB. -/
def onePageHeap : LockedHeap :=
  ⟨heapVirtualBase, heapVirtualBase + 4096, ByteMemory.writeWord (fun _ => 0) heapVirtualBase 4096⟩

def oneMiB : Layout := ⟨2 ^ 20, 8, 3, by decide, by decide⟩

theorem not_subset_page {start a : Nat} :
    ¬ Set.Ico start (start + oneMiB.size.toNat) ⊆ Set.Ico a (a + 4096) := by
  intro hsub
  have hfirst := hsub ⟨le_rfl, Nat.lt_add_of_pos_right (by decide)⟩
  have hlast := hsub (a := start + 4096) ⟨Nat.le_add_right _ _, Nat.add_lt_add_left (by decide) _⟩
  exact absurd hlast.2 (not_lt.mpr (Nat.add_le_add_right hfirst.1 _))

theorem failed_alloc_one_page : onePageHeap.alloc oneMiB 0 (fun _ => 0) = some (0, onePageHeap) ∧
    onePageHeap.drawn oneMiB 0 = 0 := by
  have hcovered : covered [⟨heapVirtualBase.toNat, 4096⟩] =
      Set.Ico heapVirtualBase.toNat (heapVirtualBase.toNat + 4096) := by
    simp [Region.bytes, Region.stop]
  refine (failed_alloc_iff onePageHeap [⟨heapVirtualBase.toNat, 4096⟩] oneMiB 0 _
    ⟨?_, ?_, ?_⟩ ?_ (by decide) ?_).mpr ⟨rfl, ?_⟩
  · exact ⟨by decide, rfl, by decide +kernel,
      show onePageHeap.mem.readWord (onePageHeap.head + 8) = 0 by decide +kernel⟩
  · exact separated_cons.mpr ⟨by decide, separated_nil, fun _ hq => absurd hq not_mem_nil⟩
  · rw [hcovered]
    exact fun x hx => ⟨(by decide : 0 < heapVirtualBase.toNat).trans_le hx.1,
      hx.2.trans (by decide)⟩
  · rw [hcovered]
    exact fun x hx => hx.1
  · intro start _ hsub
    have hnone : Set.Ico onePageHeap.heapEnd.toNat
        (min (onePageHeap.heapEnd.toNat + 0 * 4096) (2 ^ 64)) = ∅ := Set.Ico_eq_empty (by simp)
    rw [hcovered, hnone, Set.union_empty] at hsub
    exact not_subset_page hsub
  · decide +kernel

def emptyHeap : LockedHeap := ⟨0, heapVirtualBase, fun _ => 0⟩

/-- One page is left: it is taken and mapped, and null returned. -/
theorem failed_alloc_keeps_page : emptyHeap.Unmet [] oneMiB 1 ∧
    (emptyHeap.alloc oneMiB 1 fun _ => 0).map Prod.fst = some 0 ∧ emptyHeap.drawn oneMiB 1 = 1 := by
  refine ⟨fun start _ hsub => ?_, by decide +kernel, by decide +kernel⟩
  rw [covered_nil, Set.empty_union] at hsub
  exact not_subset_page (hsub.trans (Set.Ico_subset_Ico_right (min_le_left _ _)))

end LockedHeap

end AgenticOS
