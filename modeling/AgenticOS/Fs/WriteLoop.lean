import AgenticOS.Fs.Requests
import AgenticOS.Fs.Survival

/-!
# The loop of a write

After any number of turns, the blocks of the file hold the bytes written so far and
what they held before at all other places. That is so for the blocks that the loop
has allocated as well: it does not clear them. No other data block has changed.
-/

namespace AgenticOS.BlkDriver

open Foundation Ext2 Driver List Function

/-- The direct blocks are different data blocks that are marked. -/
structure Owner (d : Disk) (blocks : List Nat) : Prop where
  length : blocks.length = 12
  used : ∀ k, blocks.getD k 0 ≠ 0 → rootDataBlock ≤ blocks.getD k 0 ∧ Used d (blocks.getD k 0)
  inj : ∀ k l, blocks.getD k 0 = blocks.getD l 0 → blocks.getD k 0 ≠ 0 → k = l

/-- The disk `c` and the direct blocks after `w` bytes have been written, from the disk
`d` and the direct blocks `blocks₀`. -/
structure Filling (d : Disk) (blocks₀ : List Nat) (offset : Nat) (data : List UInt8)
    (c : Disk) (blocks : List Nat) (w : Nat) : Prop where
  length : blocks.length = 12
  kept : ∀ k, blocks₀.getD k 0 ≠ 0 → blocks.getD k 0 = blocks₀.getD k 0
  fresh : ∀ k, blocks₀.getD k 0 = 0 → blocks.getD k 0 ≠ 0 →
    fileDataBlock + 1 ≤ blocks.getD k 0 ∧ blocks.getD k 0 ≤ totalBlocks ∧
      ¬ Used d (blocks.getD k 0)
  inj : ∀ k l, blocks.getD k 0 = blocks.getD l 0 → blocks.getD k 0 ≠ 0 → k = l
  marks : ∀ b, 0 < b → (Used c b ↔ Used d b ∨ ∃ k, blocks₀.getD k 0 = 0 ∧ blocks.getD k 0 = b)
  content : ∀ k j, blocks.getD k 0 ≠ 0 → j < blockSize →
    c (blocks.getD k 0) j =
      if offset ≤ k * blockSize + j ∧ k * blockSize + j < offset + w then
        data.getD (k * blockSize + j - offset) 0
      else d (blocks.getD k 0) j
  others : ∀ n, rootDataBlock ≤ n → (∀ k, blocks.getD k 0 ≠ n) → c n = d n
  system : ∀ n, inodeBitmapBlock ≤ n → n < rootDataBlock → c n = d n
  le : w ≤ data.length
  boundary : w = 0 ∨ (offset + w) % blockSize = 0 ∨ w = data.length

section

variable {d c c' : Disk} {blocks₀ blocks : List Nat} {offset w idx : Nat} {data : List UInt8}

theorem filling_start (h : Owner d blocks₀) : Filling d blocks₀ offset data d blocks₀ 0 := by
  refine ⟨h.length, fun _ _ => rfl, fun k hzero hne => absurd hzero hne, h.inj, fun b _ => ?_,
    fun k j _ _ => ?_, fun _ _ _ => rfl, fun _ _ _ => rfl, Nat.zero_le _, .inl rfl⟩
  · constructor
    · exact .inl
    · rintro (hused | ⟨k, hzero, hblock⟩)
      · exact hused
      · omega
  · rw [if_neg (by omega)]

variable {k i b n : Nat}

theorem Filling.used (h : Filling d blocks₀ offset data c blocks w) (hown : Owner d blocks₀)
    (hk : blocks.getD k 0 ≠ 0) :
    rootDataBlock ≤ blocks.getD k 0 ∧ Used c (blocks.getD k 0) := by
  have hpos := Nat.pos_of_ne_zero hk
  by_cases hzero : blocks₀.getD k 0 = 0
  · obtain ⟨hge, -, -⟩ := h.fresh k hzero hk
    have hge' : 11 ≤ blocks.getD k 0 := hge
    exact ⟨show 9 ≤ blocks.getD k 0 by omega, (h.marks _ hpos).mpr (.inr ⟨k, hzero, rfl⟩)⟩
  · obtain ⟨hge, hused⟩ := hown.used k hzero
    rw [← h.kept k hzero] at hge hused
    exact ⟨hge, (h.marks _ hpos).mpr (.inl hused)⟩

theorem getD_set {l : List Nat} {v : Nat} (hi : i < l.length) :
    (l.set i v).getD k 0 = if k = i then v else l.getD k 0 := by
  rw [getD_eq_getElem?_getD, getD_eq_getElem?_getD, List.getElem?_set]
  by_cases hki : i = k
  · subst hki
    rw [if_pos rfl, if_pos hi, if_pos rfl]
    rfl
  · rw [if_neg hki, if_neg (Ne.symm hki)]

theorem Filling.alloc (h : Filling d blocks₀ offset data c blocks w) (hown : Owner d blocks₀)
    (hw : w < data.length) (hidx : (offset + w) / blockSize = idx) (hlt : idx < 12)
    (hzero : blocks.getD idx 0 = 0)
    (hb : Allocated (c blockBitmapBlock) (fileDataBlock + 1) totalBlocks b (c' blockBitmapBlock))
    (hc' : ∀ n, inodeBitmapBlock ≤ n → c' n = c n) :
    Filling d blocks₀ offset data c' (blocks.set idx b) w := by
  have hset (k : Nat) : (blocks.set idx b).getD k 0 = if k = idx then b else blocks.getD k 0 :=
    getD_set (by rw [h.length]; exact hlt)
  have hge : 11 ≤ b := hb.first_le
  have hzero0 : blocks₀.getD idx 0 = 0 := by
    by_contra hne
    exact hne ((h.kept idx hne).symm.trans hzero)
  -- the new block is none of the file's
  have hnew (k : Nat) : blocks.getD k 0 ≠ b := by
    intro heq
    obtain ⟨-, hused⟩ := h.used hown (k := k) (by omega)
    exact unused_of_alloc hb (heq ▸ hused)
  have hunused : ¬ Used d b := by
    intro hused
    exact unused_of_alloc hb ((h.marks b (by omega)).mpr (.inl hused))
  refine ⟨by rw [List.length_set, h.length], fun k hne => ?_, fun k hz hne => ?_,
    fun k l heq hne => ?_, fun n hn => ?_, fun k j hne hj => ?_, fun n hn hother => ?_,
    fun n hn hn' => ?_, h.le, h.boundary⟩
  · rw [hset, if_neg (by rintro rfl; exact hne hzero0), h.kept k hne]
  · rw [hset] at hne ⊢
    split_ifs at hne ⊢ with hk
    · exact ⟨hb.first_le, hb.le_last, hunused⟩
    · exact h.fresh k hz hne
  · rw [hset, hset] at heq
    rw [hset] at hne
    split_ifs at heq hne with hk hl hl
    · rw [hk, hl]
    · exact absurd heq.symm (hnew l)
    · exact absurd heq (hnew k)
    · exact h.inj k l heq hne
  · show marked (c' blockBitmapBlock) n = true ↔ _
    rw [hb.marked_iff n hn]
    constructor
    · rintro (rfl | hused)
      · exact .inr ⟨idx, hzero0, by rw [hset, if_pos rfl]⟩
      · rcases (h.marks n hn).mp hused with hold | ⟨k, hz, hk⟩
        · exact .inl hold
        · refine .inr ⟨k, hz, ?_⟩
          rw [hset, if_neg (by rintro rfl; omega), hk]
    · rintro (hused | ⟨k, hz, hk⟩)
      · exact .inr ((h.marks n hn).mpr (.inl hused))
      · rw [hset] at hk
        split_ifs at hk
        · exact .inl hk.symm
        · exact .inr ((h.marks n hn).mpr (.inr ⟨k, hz, hk⟩))
  · rw [hset] at hne ⊢
    by_cases hk : k = idx
    · -- nothing of this block has been written
      have hnone : ¬ (offset ≤ k * blockSize + j ∧ k * blockSize + j < offset + w) := by
        have hbound := h.boundary
        unfold blockSize at *
        omega
      rw [if_pos hk, if_neg hnone, hc' b (show 4 ≤ b by omega),
        h.others b (show 9 ≤ b by omega) hnew]
    · rw [if_neg hk] at hne ⊢
      rw [hc' _ ((show 4 ≤ 9 by decide).trans (h.used hown hne).1), h.content k j hne hj]
  · rw [hc' n ((show 4 ≤ 9 by decide).trans hn), h.others n hn fun k hk => ?_]
    have hk' := hother k
    rw [hset] at hk'
    split_ifs at hk' with hki
    · subst hki
      have hn' : 9 ≤ n := hn
      omega
    · exact hk' hk
  · rw [hc' n hn, h.system n hn hn']

variable {old : ByteBlock}

theorem Filling.chunk (h : Filling d blocks₀ offset data c blocks w) (hown : Owner d blocks₀)
    (hw : w < data.length) (hidx : (offset + w) / blockSize = idx) (hne : blocks.getD idx 0 ≠ 0)
    (hn : n = min (blockSize - (offset + w) % blockSize) (data.length - w))
    (hold : (offset + w) % blockSize ≠ 0 ∨ n < blockSize → old = c (blocks.getD idx 0)) :
    Filling d blocks₀ offset data (update c (blocks.getD idx 0)
      (old.patch ((offset + w) % blockSize) (slice data w n))) blocks (w + n) := by
  have hge := (h.used hown hne).1
  have hge' : 9 ≤ blocks.getD idx 0 := hge
  have hsys (m : Nat) (hm : m < 9) : update c (blocks.getD idx 0)
      (old.patch ((offset + w) % blockSize) (slice data w n)) m = c m :=
    update_of_ne (by omega) _ _
  have hbyte (j : Nat) (hj : j < blockSize) :
      (old.patch ((offset + w) % blockSize) (slice data w n)) j =
        if (offset + w) % blockSize ≤ j ∧ j < (offset + w) % blockSize + n then
          data.getD (w + (j - (offset + w) % blockSize)) 0
        else c (blocks.getD idx 0) j := by
    have hlen : (slice data w n).length = n := length_slice (by omega)
    split_ifs with hcovered
    · have hin : w + (j - (offset + w) % blockSize) < data.length := by omega
      rw [ByteBlock.patch, if_pos hcovered.1, getElem?_slice, if_pos (by omega),
        getD_eq_getElem?_getD, List.getElem?_eq_getElem hin]
      rfl
    · rw [ByteBlock.patch_apply_of_notMem (by omega), hold (by omega)]
  have hplace : idx * blockSize + (offset + w) % blockSize = offset + w := by
    rw [← hidx]
    exact Nat.div_add_mod' _ _
  refine ⟨h.length, h.kept, h.fresh, h.inj, fun b hb => ?_, fun k j hk hj => ?_,
    fun m hm hother => ?_, fun m hm hm' => ?_, by omega, ?_⟩
  · rw [← h.marks b hb]
    show marked _ b = true ↔ marked _ b = true
    rw [hsys blockBitmapBlock (by decide)]
  · by_cases hki : k = idx
    · subst hki
      rw [update_self, hbyte j hj, h.content k j hk hj]
      by_cases hcovered : (offset + w) % blockSize ≤ j ∧ j < (offset + w) % blockSize + n
      · have hat : w + (j - (offset + w) % blockSize) = k * blockSize + j - offset := by omega
        rw [if_pos hcovered, if_pos (by omega), hat]
      · rw [if_neg hcovered]
        have hiff : (offset ≤ k * blockSize + j ∧ k * blockSize + j < offset + w) ↔
            offset ≤ k * blockSize + j ∧ k * blockSize + j < offset + (w + n) := by omega
        simp only [hiff]
    · have hblock : blocks.getD k 0 ≠ blocks.getD idx 0 := fun heq => hki (h.inj k idx heq hk)
      rw [update_of_ne hblock, h.content k j hk hj]
      -- the new bytes are all in the other block
      have hiff : (offset ≤ k * blockSize + j ∧ k * blockSize + j < offset + w) ↔
          offset ≤ k * blockSize + j ∧ k * blockSize + j < offset + (w + n) := by
        unfold blockSize at *
        omega
      simp only [hiff]
  · rw [update_of_ne (Ne.symm (hother idx)), h.others m hm hother]
  · rw [hsys m hm', h.system m hm hm']
  · unfold blockSize at *
    omega

/-! ## The updates of the loop -/

/-- What the loop writes: blocks of the file, blocks that were not marked, and bitmaps
with more marks. -/
def Harmless (d : Disk) (blocks₀ : List Nat) : Update → Prop
  | .data n _ => (n ≠ 0 ∧ ∃ k, blocks₀.getD k 0 = n) ∨
      fileDataBlock + 1 ≤ n ∧ n ≤ totalBlocks ∧ ¬ Used d n
  | .blockBitmap b => ∀ n, 0 < n → Used d n → marked b n = true
  | .counters n _ => n = superblockBlock ∨ n = groupDescBlock
  | _ => False

def missing (blocks : List Nat) (offset len w : Nat) : Nat :=
  ((Finset.range 12).filter fun k => (offset + w) / blockSize ≤ k ∧ k * blockSize < offset + len ∧
    blocks.getD k 0 = 0).card

structure LoopState (d : Disk) (blocks₀ : List Nat) (offset : Nat) (data : List UInt8)
    (us : List Update) (blocks : List Nat) (w : Nat) : Prop where
  filling : Filling d blocks₀ offset data (applyUpdates d us) blocks w
  harmless : ∀ u ∈ us, Harmless d blocks₀ u
  target : ∀ n b, .data n b ∈ us → n ≠ 0 ∧ ∃ k, blocks.getD k 0 = n
  /-- With enough free blocks, the allocator stays within the file system. -/
  room : missing blocks₀ offset data.length 0 ≤ freeBlocks (d blockBitmapBlock) →
    (∀ k, blocks₀.getD k 0 = 0 → blocks.getD k 0 < totalBlocks) ∧
      missing blocks offset data.length w ≤ freeBlocks (applyUpdates d us blockBitmapBlock)

variable {us : List Update}

theorem loopState_start (h : Owner d blocks₀) : LoopState d blocks₀ offset data [] blocks₀ 0 := by
  refine ⟨filling_start h, nofun, nofun, fun henough => ⟨fun k hk => ?_, henough⟩⟩
  rw [hk]
  decide

theorem Filling.harmless (h : Filling d blocks₀ offset data c blocks w) (b : ByteBlock)
    (hk : blocks.getD k 0 ≠ 0) : Harmless d blocks₀ (.data (blocks.getD k 0) b) := by
  by_cases hzero : blocks₀.getD k 0 = 0
  · exact .inr (h.fresh k hzero hk)
  · exact .inl ⟨hk, k, (h.kept k hzero).symm⟩

section

variable (h : LoopState d blocks₀ offset data us blocks w)

include h

theorem LoopState.alloc (hown : Owner d blocks₀)
    (hw : w < data.length) (hidx : (offset + w) / blockSize = idx) (hlt : idx < 12)
    (hzero : blocks.getD idx 0 = 0) {bitmap gd sb : ByteBlock}
    (halloc : allocBlock (applyUpdates d us blockBitmapBlock) totalBlocks = some (b, bitmap)) :
    LoopState d blocks₀ offset data (us ++ [.blockBitmap bitmap, .counters groupDescBlock gd,
      .counters superblockBlock sb]) (blocks.set idx b) w := by
  have hb := allocated_of_allocBit (by decide) (by decide) halloc
  have hstate : applyUpdates d (us ++ [.blockBitmap bitmap, .counters groupDescBlock gd,
      .counters superblockBlock sb]) = update (update (update
        (applyUpdates d us) blockBitmapBlock bitmap) groupDescBlock gd) superblockBlock sb := by
    rw [applyUpdates_append]
    rfl
  have hbitmap : applyUpdates d (us ++ [.blockBitmap bitmap, .counters groupDescBlock gd,
      .counters superblockBlock sb]) blockBitmapBlock = bitmap := by
    rw [hstate, update_of_ne (by decide), update_of_ne (by decide), update_self]
  have hset (k : Nat) : (blocks.set idx b).getD k 0 = if k = idx then b else blocks.getD k 0 :=
    getD_set (by rw [h.filling.length]; exact hlt)
  refine ⟨?_, ?_, fun n c hmem => ?_, fun henough => ?_⟩
  · refine h.filling.alloc hown hw hidx hlt hzero (hbitmap.symm ▸ hb) fun n hn => ?_
    have hgt (m : Nat) (hm : m < inodeBitmapBlock) : n ≠ m := (hm.trans_le hn).ne'
    rw [hstate, update_of_ne (hgt _ (by decide)), update_of_ne (hgt _ (by decide)),
      update_of_ne (hgt _ (by decide))]
  · intro u hu
    rcases mem_append.mp hu with hu | hu
    · exact h.harmless u hu
    · rcases mem_cons.mp hu with rfl | hu
      · intro n hn hused
        exact (hb.marked_iff n hn).mpr (.inr ((h.filling.marks n hn).mpr (.inl hused)))
      · rcases mem_cons.mp hu with rfl | hu
        · exact .inr rfl
        · rw [mem_singleton.mp hu]
          exact .inl rfl
  · have hold : .data n c ∈ us := by simpa using hmem
    obtain ⟨hne, k, hk⟩ := h.target n c hold
    refine ⟨hne, k, ?_⟩
    rw [hset, if_neg (by rintro rfl; exact hne (hk.symm.trans hzero)), hk]
  · obtain ⟨hlow, _⟩ := h.room henough
    -- the place of the new block is no longer missing
    have hmem : idx ∈ (Finset.range 12).filter fun k => (offset + w) / blockSize ≤ k ∧
        k * blockSize < offset + data.length ∧ blocks.getD k 0 = 0 := by
      refine Finset.mem_filter.mpr ⟨Finset.mem_range.mpr hlt, hidx.le, ?_, hzero⟩
      unfold blockSize at *
      omega
    have hless : missing (blocks.set idx b) offset data.length w + 1 ≤
        missing blocks offset data.length w := by
      unfold missing
      rw [← Finset.card_erase_add_one hmem]
      refine Nat.add_le_add_right (Finset.card_le_card fun k hk => ?_) 1
      obtain ⟨hrange, hfrom, hto, hnone⟩ := Finset.mem_filter.mp hk
      rw [hset] at hnone
      split_ifs at hnone with hki
      · have hge : 11 ≤ b := hb.first_le
        omega
      · exact Finset.mem_erase.mpr ⟨hki, Finset.mem_filter.mpr ⟨hrange, hfrom, hto, hnone⟩⟩
    obtain ⟨_, _, halloc', hlt', _⟩ := allocBlock_of_free (show 0 < freeBlocks
      (applyUpdates d us blockBitmapBlock) by omega)
    rw [halloc] at halloc'
    cases halloc'
    rw [hbitmap]
    refine ⟨fun k hk => ?_, by omega⟩
    rw [hset]
    split_ifs
    · exact hlt'
    · exact hlow k hk

theorem LoopState.chunk (hown : Owner d blocks₀)
    (hw : w < data.length) (hidx : (offset + w) / blockSize = idx) (hne : blocks.getD idx 0 ≠ 0)
    (hn : n = min (blockSize - (offset + w) % blockSize) (data.length - w))
    (hold : (offset + w) % blockSize ≠ 0 ∨ n < blockSize →
      old = applyUpdates d us (blocks.getD idx 0)) :
    LoopState d blocks₀ offset data (us ++ [.data (blocks.getD idx 0)
      (old.patch ((offset + w) % blockSize) (slice data w n))]) blocks (w + n) := by
  have hstate : applyUpdates d (us ++ [.data (blocks.getD idx 0)
      (old.patch ((offset + w) % blockSize) (slice data w n))]) =
      update (applyUpdates d us) (blocks.getD idx 0)
        (old.patch ((offset + w) % blockSize) (slice data w n)) := by
    rw [applyUpdates_append]
    rfl
  have hge : 9 ≤ blocks.getD idx 0 := (h.filling.used hown hne).1
  refine ⟨hstate ▸ h.filling.chunk hown hw hidx hne hn hold, ?_, fun m c hmem => ?_,
    fun henough => ?_⟩
  · intro u hu
    rcases mem_append.mp hu with hu | hu
    · exact h.harmless u hu
    · rw [mem_singleton.mp hu]
      exact h.filling.harmless _ hne
  · rcases mem_append.mp hmem with hmem | hmem
    · exact h.target m c hmem
    · cases mem_singleton.mp hmem
      exact ⟨hne, idx, rfl⟩
  · obtain ⟨hlow, hroom⟩ := h.room henough
    refine ⟨hlow, le_trans (Finset.card_le_card fun k hk => ?_) (hroom.trans_eq ?_)⟩
    · obtain ⟨hrange, hfrom, hto, hnone⟩ := Finset.mem_filter.mp hk
      refine Finset.mem_filter.mpr ⟨hrange, le_trans ?_ hfrom, hto, hnone⟩
      exact Nat.div_le_div_right (by omega)
    · have hother : blockBitmapBlock ≠ blocks.getD idx 0 := by
        show 3 ≠ blocks.getD idx 0
        omega
      rw [hstate, update_of_ne hother]

end

section

variable (d : Disk) (us : List Update) (blocks : List Nat) (idx : Nat)

theorem ensureBlock_eq :
    ensureBlock (journal d) blocks idx (writesOf d us) = if blocks.getD idx 0 = 0 then
        match allocBlock (applyWrites d (writesOf d us) blockBitmapBlock) totalBlocks with
        | some (block, bitmap) =>
          (some (blocks.set idx block), updateAllocCounts (journal d)
            (writesOf d us ++ [(blockBitmapBlock, bitmap)]) (-1) 0 0)
        | none => (none, writesOf d us)
      else (some blocks, writesOf d us) :=
  rfl

theorem ensureBlock_journal : (blocks.getD idx 0 ≠ 0 ∧
      ensureBlock (journal d) blocks idx (writesOf d us) = (some blocks, writesOf d us)) ∨
    (blocks.getD idx 0 = 0 ∧ allocBlock (applyUpdates d us blockBitmapBlock) totalBlocks = none ∧
      ensureBlock (journal d) blocks idx (writesOf d us) = (none, writesOf d us)) ∨
    ∃ b bitmap gd sb, blocks.getD idx 0 = 0 ∧
      allocBlock (applyUpdates d us blockBitmapBlock) totalBlocks = some (b, bitmap) ∧
      ensureBlock (journal d) blocks idx (writesOf d us) = (some (blocks.set idx b),
        writesOf d (us ++ [.blockBitmap bitmap, .counters groupDescBlock gd,
          .counters superblockBlock sb])) := by
  rw [ensureBlock_eq, applyWrites_writesOf]
  by_cases hzero : blocks.getD idx 0 = 0
  · rw [if_pos hzero]
    rcases halloc : allocBlock (applyUpdates d us blockBitmapBlock) totalBlocks with
      _ | ⟨b, bitmap⟩
    · exact .inr (.inl ⟨hzero, rfl, rfl⟩)
    · obtain ⟨gd, sb, hcounts⟩ := updateAllocCounts_journal d
        (writesOf d us ++ [(blockBitmapBlock, bitmap)]) (-1) 0 0
      refine .inr (.inr ⟨b, bitmap, gd, sb, hzero, rfl, ?_⟩)
      dsimp only
      rw [hcounts, writesOf_append, append_assoc]
      rfl
  · rw [if_neg hzero]
    exact .inl ⟨hzero, rfl⟩

end

theorem writeChunk_journal (d : Disk) (us : List Update) (junk : ByteBlock)
    (block blockOffset : Nat) (chunk : List UInt8) :
    ∃ old : ByteBlock, (blockOffset ≠ 0 ∨ chunk.length < blockSize →
        old = applyUpdates d us block) ∧
      writeChunk (journal d) junk (writesOf d us) block blockOffset chunk =
        writesOf d (us ++ [.data block (old.patch blockOffset chunk)]) := by
  unfold writeChunk
  split_ifs with hpart
  · refine ⟨applyUpdates d us block, fun _ => rfl, ?_⟩
    rw [writesOf_append, ← applyWrites_writesOf]
    rfl
  · refine ⟨junk, fun h => absurd h hpart, ?_⟩
    rw [writesOf_append]
    rfl

/-- **The whole loop.** It ends when all bytes are written, after the twelfth block, or
when no block is free. -/
theorem writeLoop_journal (hown : Owner d blocks₀) (junk : ByteBlock) (turns : Nat)
    (h : LoopState d blocks₀ offset data us blocks w)
    (hturns : data.length ≤ w + turns) :
    ∃ us' blocks' w', writeLoop (journal d) junk offset data turns blocks w (writesOf d us) =
        (blocks', w', writesOf d us') ∧ LoopState d blocks₀ offset data us' blocks' w' ∧
      (w' = data.length ∨ 12 * blockSize ≤ offset + w' ∨
        blocks'.getD ((offset + w') / blockSize) 0 = 0 ∧
          ∀ b, fileDataBlock + 1 ≤ b → b ≤ totalBlocks → Used (applyUpdates d us') b) := by
  induction turns generalizing us blocks w with
  | zero =>
    have hle := h.filling.le
    exact ⟨us, blocks, w, rfl, h, .inl (by omega)⟩
  | succ turns ih =>
    rw [writeLoop]
    by_cases hw : w < data.length
    · rw [if_pos hw]
      by_cases hidx : 12 ≤ (offset + w) / blockSize
      · rw [if_pos hidx]
        refine ⟨us, blocks, w, rfl, h, .inr (.inl ?_)⟩
        exact (Nat.le_div_iff_mul_le (by decide)).mp hidx
      · rw [if_neg hidx]
        obtain ⟨hpos, -⟩ := chunk_le hw hidx
        generalize hn : min (blockSize - (offset + w) % blockSize) (data.length - w) = n at hpos ⊢
        have hlen : (slice data w n).length = n := length_slice (by omega)
        -- with a block at the current place, the turn writes to it and the loop goes on
        have hgo {us : List Update} {blocks : List Nat}
            (h : LoopState d blocks₀ offset data us blocks w)
            (hne : blocks.getD ((offset + w) / blockSize) 0 ≠ 0) :
            ∃ us' blocks' w', writeLoop (journal d) junk offset data turns blocks (w + n)
                (writeChunk (journal d) junk (writesOf d us)
                  (blocks.getD ((offset + w) / blockSize) 0) ((offset + w) % blockSize)
                  (slice data w n)) = (blocks', w', writesOf d us') ∧
              LoopState d blocks₀ offset data us' blocks' w' ∧
              (w' = data.length ∨ 12 * blockSize ≤ offset + w' ∨
                blocks'.getD ((offset + w') / blockSize) 0 = 0 ∧
                  ∀ b, fileDataBlock + 1 ≤ b → b ≤ totalBlocks → Used (applyUpdates d us') b) := by
          obtain ⟨_, hold, hchunk⟩ := writeChunk_journal d us junk
            (blocks.getD ((offset + w) / blockSize) 0) ((offset + w) % blockSize) (slice data w n)
          rw [hlen] at hold
          rw [hchunk]
          exact ih (h.chunk hown hw rfl hne hn.symm hold) (by omega)
        obtain ⟨hne, hensure⟩ | ⟨hzero, hfull, hensure⟩ | ⟨b, _, _, _, hzero, halloc, hensure⟩ :=
          ensureBlock_journal d us blocks ((offset + w) / blockSize)
        · rw [hensure]
          exact hgo h hne
        · rw [hensure]
          refine ⟨us, blocks, w, rfl, h, .inr (.inr ⟨hzero, fun b hge hle => ?_⟩)⟩
          exact (allocBit_eq_none_iff (by decide)).mp hfull b hge hle
        · rw [hensure]
          have hlt : (offset + w) / blockSize < 12 := not_le.mp hidx
          have hb : 11 ≤ b := (allocated_of_allocBit (by decide) (by decide) halloc).first_le
          refine hgo (h.alloc hown hw rfl hlt hzero halloc) ?_
          rw [getD_set (by rw [h.filling.length]; exact hlt), if_pos rfl]
          omega
    · rw [if_neg hw]
      have hle := h.filling.le
      exact ⟨us, blocks, w, rfl, h, .inl (by omega)⟩

/-! ## The whole request -/

def blockCount (size : Nat) : Nat := (size + blockSize - 1) / blockSize

/-- What a write has done after the updates `us` of its loop: `w` bytes are written, and
the inode gets its new size and as many of the direct blocks as that needs. -/
structure Wrote (d : Disk) (i offset : Nat) (data : List UInt8) (us : List Update)
    (blocks : List Nat) (w : Nat) : Prop where
  state : LoopState d (inodeOf d i).directBlocks offset data us blocks w
  stopped : w = data.length ∨ 12 * blockSize ≤ offset + w ∨
    blocks.getD ((offset + w) / blockSize) 0 = 0 ∧
      ∀ b, fileDataBlock + 1 ≤ b → b ≤ totalBlocks → Used (applyUpdates d us) b
  fits : max (offset + w) (inodeOf d i).size ≤ 12 * blockSize

def sizeUpdate (d : Disk) (i offset : Nat) (blocks : List Nat) (w : Nat) : Update :=
  .inode i (inodeOf d i).mode (max (offset + w) (inodeOf d i).size) (inodeOf d i).links
    (blocks.take (blockCount (max (offset + w) (inodeOf d i).size)))

theorem wrote_of_serveWrite {junk : ByteBlock} {id : UInt64}
    {replies : List ReplyRequest} {log : List (Nat × ByteBlock)}
    (hown : Owner d (inodeOf d i).directBlocks) (hi : IsInode i) (hdata : data ≠ [])
    (hoffset : offset < 2 ^ 32)
    (h : serveWrite (journal d) junk [] id i (some (offset, data)) = some (replies, log)) :
    ∃ us blocks w, Wrote d i offset data us blocks w ∧ replies = [⟨id, none, w⟩] ∧
      log = writesOf d (us ++ [sizeUpdate d i offset blocks w]) := by
  obtain ⟨us, blocks, w, hloop, hstate, hstop⟩ := writeLoop_journal hown junk data.length
    (loopState_start hown) (Nat.le_add_left _ _)
  have hsome : (serveWrite (journal d) junk [] id i (some (offset, data))).isSome = true := by
    rw [h]
    rfl
  obtain ⟨hstart, hsize⟩ := (isSome_serveWrite_iff hdata hoffset).mp hsome
  have hwritten : written (journal d) junk [] i offset data = (blocks, w, writesOf d us) := hloop
  have hend : offset + w ≤ 12 * blockSize := by
    have hbounds := (written_bounds (journal d) junk [] i offset data).2.1 hstart
    rwa [hwritten] at hbounds
  have hfits : max (offset + w) (inodeOf d i).size ≤ 12 * blockSize := max_le hend hsize
  have hnew : newSize (journal d) junk [] i offset data = max (offset + w) (inodeOf d i).size := by
    unfold newSize
    rw [hwritten]
    refine Nat.mod_eq_of_lt ?_
    exact lt_of_le_of_lt hfits (by decide)
  rw [serveWrite_eq hdata, hwritten, hnew] at h
  dsimp only at h
  split_ifs at h
  cases h
  refine ⟨us, blocks, w, ⟨hstate, hstop, hfits⟩, rfl, ?_⟩
  rw [writesOf_append]
  -- the loop has left the inode table alone
  have htable : applyUpdates d us (inodeBlock i) = d (inodeBlock i) := by
    have hblock := hi.block
    exact hstate.filling.system _ (show 4 ≤ inodeBlock i by omega) (show inodeBlock i < 9 by omega)
  show writesOf d us ++ [(inodeBlock i, writeInodeEntryFull (d (inodeBlock i)) i _ _ _ _)] =
    writesOf d us ++
      [(inodeBlock i, writeInodeEntryFull (applyUpdates d us (inodeBlock i)) i _ _ _ _)]
  rw [htable]
  rfl

end

end AgenticOS.BlkDriver
