import AgenticOS.Fs.Ext2

/-!
# Which numbers are marked

The two bitmaps number from 1. An allocation marks the first number of its range
that is not marked, and freeing a number takes its mark away.
-/

namespace AgenticOS.Ext2

open Foundation List Function

/-! ## Single bits -/

variable (b : ByteBlock)

theorem bitAt_eq (bit : Nat) : bitAt b bit = (b (bit / 8)).toNat.testBit (bit % 8) :=
  Bitmap.and_mask_ne_zero _ _

theorem bitAt_setBit (i j : Nat) : bitAt (setBit b i) j = (decide (j = i) || bitAt b j) := by
  rw [bitAt_eq, bitAt_eq, setBit]
  by_cases hbyte : j / 8 = i / 8
  · rw [hbyte, update_self, Bitmap.testBit_or_mask]
    simp only [Bitmap.bit_eq_iff hbyte]
  · have hne : j ≠ i := fun h => hbyte (by rw [h])
    rw [update_of_ne hbyte]
    simp [hne]

theorem bitAt_clearBit (i j : Nat) : bitAt (clearBit b i) j = (decide (j ≠ i) && bitAt b j) := by
  rw [bitAt_eq, bitAt_eq, clearBit]
  by_cases hbyte : j / 8 = i / 8
  · rw [hbyte, update_self, Bitmap.testBit_and_not_mask _ _ (Nat.mod_lt _ (by decide))]
    simp only [ne_eq, Bitmap.bit_eq_iff hbyte]
  · have hne : j ≠ i := fun h => hbyte (by rw [h])
    rw [update_of_ne hbyte]
    simp [hne]

/-! ## Numbers from 1 -/

def marked (bitmap : ByteBlock) (n : Nat) : Bool := bitAt bitmap (n - 1)

theorem marked_setBit {n m : Nat} (bitmap : ByteBlock) (hn : 0 < n) (hm : 0 < m) :
    marked (setBit bitmap (n - 1)) m = (decide (m = n) || marked bitmap m) := by
  have heq : (m - 1 = n - 1) = (m = n) := propext ⟨fun h => by omega, fun h => by rw [h]⟩
  rw [marked, bitAt_setBit]
  simp only [heq]
  rfl

structure Allocated (bitmap : ByteBlock) (first last : Nat) (n : Nat) (bitmap' : ByteBlock) :
    Prop where
  first_le : first ≤ n
  le_last : n ≤ last
  unmarked : marked bitmap n = false
  below : ∀ m, first ≤ m → m < n → marked bitmap m = true
  marked_iff : ∀ m, 0 < m → (marked bitmap' m = true ↔ m = n ∨ marked bitmap m = true)

variable {bitmap bitmap' : ByteBlock} {first last n : Nat}

theorem allocated_of_allocBit (hfirst : 0 < first) (hlast : last ≤ 8 * blockSize)
    (h : allocBit bitmap first last = some (n, bitmap')) :
    Allocated bitmap first last n bitmap' := by
  obtain ⟨m, hfind, heq⟩ := Option.map_eq_some_iff.mp h
  cases heq
  obtain ⟨hfree, as, bs, hsplit, hbefore⟩ := List.find?_eq_some_iff_append.mp hfind
  have hmem : n ∈ range' first (last + 1 - first) := by
    rw [hsplit]
    exact mem_append_right _ mem_cons_self
  obtain ⟨hge, _⟩ := mem_range'_1.mp hmem
  rw [Bool.and_eq_true, decide_eq_true_eq, Bool.not_eq_true'] at hfree
  refine ⟨hge, by omega, hfree.2, fun m hm hmn => ?_, fun m hm => ?_⟩
  · -- the range is increasing, so a smaller number stands before
    have hmem : m ∈ as := by
      have hall : m ∈ as ++ n :: bs := hsplit ▸ mem_range'_1.mpr ⟨hm, by omega⟩
      have hsorted : (as ++ n :: bs).Pairwise (· < ·) := hsplit ▸ pairwise_lt_range'
      rcases mem_append.mp hall with has | hbs
      · exact has
      · rcases mem_cons.mp hbs with rfl | hbs
        · exact absurd hmn (Nat.lt_irrefl _)
        · have hgt := rel_of_pairwise_cons (pairwise_append.mp hsorted).2.1 hbs
          omega
    have hbit := hbefore m hmem
    have hin : (m - 1) / 8 < blockSize := by omega
    rw [Bool.not_eq_true', decide_eq_true hin, Bool.true_and] at hbit
    rwa [Bool.not_eq_false'] at hbit
  · rw [marked_setBit bitmap (by omega) hm]
    simp

theorem allocBit_eq_none_iff (hlast : last ≤ 8 * blockSize) :
    allocBit bitmap first last = none ↔ ∀ m, first ≤ m → m ≤ last → marked bitmap m = true := by
  unfold allocBit
  rw [Option.map_eq_none_iff, List.find?_eq_none]
  refine forall_congr' fun m => ?_
  rw [mem_range'_1]
  constructor
  · intro h hm _
    have hbit := h ⟨hm, by omega⟩
    have hin : (m - 1) / 8 < blockSize := by unfold blockSize at *; omega
    rw [decide_eq_true hin, Bool.true_and, Bool.not_eq_true', Bool.not_eq_false] at hbit
    exact hbit
  · rintro h ⟨hm, hlt⟩
    have hbit : bitAt bitmap (m - 1) = true := h hm (by omega)
    rw [hbit]
    simp

theorem marked_freeBit {m : Nat} (hn : 0 < n) (hlast : n ≤ 8 * blockSize) (hm : 0 < m) :
    marked (freeBit bitmap n) m = (decide (m ≠ n) && marked bitmap m) := by
  have hin : (n - 1) / 8 < blockSize := by unfold blockSize at *; omega
  have heq : (m - 1 = n - 1) = (m = n) := propext ⟨fun h => by omega, fun h => by rw [h]⟩
  rw [freeBit, if_pos ⟨hn, hin⟩, marked, bitAt_clearBit]
  simp only [ne_eq, heq]
  rfl

theorem marked_foldl_freeBlock {blocks : List Nat}
    (hblocks : ∀ b ∈ blocks, 0 < b ∧ b ≤ 8 * blockSize) {m : Nat} (hm : 0 < m) :
    marked (blocks.foldl freeBlock bitmap) m = true ↔ m ∉ blocks ∧ marked bitmap m = true := by
  induction blocks generalizing bitmap with
  | nil => simp
  | cons b rest ih =>
    obtain ⟨hpos, hle⟩ := hblocks b mem_cons_self
    rw [foldl_cons, ih fun c hc => hblocks c (mem_cons_of_mem _ hc), freeBlock,
      marked_freeBit hpos hle hm, Bool.and_eq_true, decide_eq_true_eq, mem_cons, not_or]
    tauto

/-! ## Free blocks -/

def freeBlocks (bitmap : ByteBlock) : Nat :=
  ((Finset.Ico (fileDataBlock + 1) totalBlocks).filter fun b => marked bitmap b = false).card

theorem allocBlock_of_free (h : 0 < freeBlocks bitmap) :
    ∃ b bitmap', allocBlock bitmap totalBlocks = some (b, bitmap') ∧ b < totalBlocks ∧
      freeBlocks bitmap' + 1 = freeBlocks bitmap := by
  obtain ⟨c, hc⟩ := Finset.card_pos.mp h
  obtain ⟨hmem, hfree⟩ := Finset.mem_filter.mp hc
  obtain ⟨hge, hlt⟩ := Finset.mem_Ico.mp hmem
  rcases halloc : allocBlock bitmap totalBlocks with _ | ⟨b, bitmap'⟩
  · have hall := (allocBit_eq_none_iff (by decide)).mp halloc c hge hlt.le
    rw [hfree] at hall
    cases hall
  · have hb := allocated_of_allocBit (by decide) (by decide) halloc
    have hlt : b < totalBlocks := by
      by_contra hnot
      have hmarked := hb.below c hge (by omega)
      rw [hfree] at hmarked
      cases hmarked
    refine ⟨b, bitmap', rfl, hlt, ?_⟩
    -- the free blocks after it are those before it without `b`
    have herase : ((Finset.Ico (fileDataBlock + 1) totalBlocks).filter
        fun m => marked bitmap' m = false) =
        ((Finset.Ico (fileDataBlock + 1) totalBlocks).filter
          fun m => marked bitmap m = false).erase b := by
      ext m
      simp only [Finset.mem_filter, Finset.mem_erase, Finset.mem_Ico]
      constructor
      · rintro ⟨⟨hge, hlt⟩, hm⟩
        have hiff := hb.marked_iff m (by omega)
        rw [hm] at hiff
        have hnot := not_or.mp (mt hiff.mpr nofun)
        exact ⟨hnot.1, ⟨hge, hlt⟩, Bool.eq_false_iff.mpr hnot.2⟩
      · rintro ⟨hne, ⟨hge, hlt⟩, hm⟩
        refine ⟨⟨hge, hlt⟩, Bool.eq_false_iff.mpr fun hmarked => ?_⟩
        rcases (hb.marked_iff m (by omega)).mp hmarked with heq | hold
        · exact hne heq
        · rw [hm] at hold
          cases hold
    have hmemb : b ∈ (Finset.Ico (fileDataBlock + 1) totalBlocks).filter
        fun m => marked bitmap m = false :=
      Finset.mem_filter.mpr ⟨Finset.mem_Ico.mpr ⟨hb.first_le, hlt⟩, hb.unmarked⟩
    rw [freeBlocks, herase, Finset.card_erase_of_mem hmemb, freeBlocks]
    exact Nat.sub_add_cancel (Finset.card_pos.mpr ⟨b, hmemb⟩)

end AgenticOS.Ext2
