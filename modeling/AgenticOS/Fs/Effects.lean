import AgenticOS.Fs.WriteLoop

/-!
# What the requests leave on the disk

The disk after MKDIR or CREATE, after UNLINK, and after WRITE, in terms of inodes,
marks and data blocks. The rest of the file system proofs uses these descriptions
only.
-/

namespace AgenticOS.BlkDriver

open Foundation Ext2 Driver List Function

/-- The fields of an inode that requests look at have stayed the same. -/
structure SameInode (d d' : Disk) (j : Nat) : Prop where
  blocks : ∀ k, blockOf d' j k = blockOf d j k
  mode : (inodeOf d' j).mode = (inodeOf d j).mode
  size : (inodeOf d' j).size = (inodeOf d j).size

variable {j : Nat} {d : Disk}

theorem SameInode.of_eq {d' : Disk} (h : inodeOf d' j = inodeOf d j) : SameInode d d' j :=
  ⟨fun k => by rw [blockOf, h, blockOf], by rw [h], by rw [h]⟩

theorem SameInode.trans {d1 d2 d3 : Disk} (h : SameInode d1 d2 j)
    (h' : SameInode d2 d3 j) : SameInode d1 d3 j :=
  ⟨fun k => (h'.blocks k).trans (h.blocks k), h'.mode.trans h.mode, h'.size.trans h.size⟩

theorem mode_lt (d : Disk) (j : Nat) : (inodeOf d j).mode < 2 ^ 16 := by
  rw [inodeOf, mode_readInodeEntry]
  exact ByteBlock.field_lt

theorem size_lt (d : Disk) (j : Nat) : (inodeOf d j).size < 2 ^ 32 := by
  rw [inodeOf, size_readInodeEntry]
  exact ByteBlock.field_lt

theorem directBlocks_lt (d : Disk) (j : Nat) : ∀ b ∈ (inodeOf d j).directBlocks, b < 2 ^ 32 := by
  intro b hb
  obtain ⟨k, hk, hget⟩ := mem_iff_getElem.mp hb
  have hblock := blockOf_lt d j k
  rwa [blockOf, getD_eq_getElem _ _ hk, hget] at hblock

theorem sameInode_inode {i : Nat} (links : Nat) (hi : IsInode i) (hj : IsInode j) :
    SameInode d ((Update.inode i (inodeOf d i).mode (inodeOf d i).size links
      (inodeOf d i).directBlocks).apply d) j := by
  have hplaced : (Update.inode i (inodeOf d i).mode (inodeOf d i).size links
      (inodeOf d i).directBlocks).Placed := ⟨hi, mode_lt d i, size_lt d i, directBlocks_lt d i⟩
  by_cases hij : j = i
  · subst hij
    obtain ⟨hmode, hsize, hblocks⟩ := inodeOf_inode hplaced
    refine ⟨fun k => ?_, hmode, hsize⟩
    by_cases hk : k < 12
    · exact hblocks k hk
    · rw [blockOf_eq_zero _ _ (not_lt.mp hk), blockOf_eq_zero _ _ (not_lt.mp hk)]
  · refine .of_eq (inodeOf_apply hplaced hj ?_)
    rintro _ _ _ _ _ heq
    cases heq
    exact hij

variable {us : List Update}

theorem sameInode_applyUpdates {inode parent : Nat}
    (hparent : IsInode parent) (hus : ∀ u ∈ us, u.Placed)
    (hnodes : ∀ i mode size links blocks, .inode i mode size links blocks ∈ us → i = inode ∨
      i = parent ∧ mode = (inodeOf d parent).mode ∧ size = (inodeOf d parent).size ∧
        blocks = (inodeOf d parent).directBlocks)
    (hj : IsInode j) (hji : j ≠ inode) : SameInode d (applyUpdates d us) j := by
  -- one update after another, from a disk that has the old fields
  have hkeep : ∀ c : Disk, (∀ j, IsInode j → j ≠ inode → SameInode d c j) →
      ∀ j, IsInode j → j ≠ inode → SameInode d (applyUpdates c us) j := by
    induction us with
    | nil => exact fun c hc => hc
    | cons u us ih =>
      intro c hc
      refine ih (fun v hv => hus v (mem_cons_of_mem _ hv))
        (fun i mode size links blocks hmem => hnodes i mode size links blocks
          (mem_cons_of_mem _ hmem)) _ fun j hj hji => ?_
      have hplaced := hus u mem_cons_self
      by_cases hpar : ∃ mode size links blocks, j = parent ∧ u = .inode j mode size links blocks
      · obtain ⟨mode, size, links, blocks, rfl, rfl⟩ := hpar
        obtain rfl | ⟨-, rfl, rfl, rfl⟩ := hnodes _ _ _ _ _ mem_cons_self
        · exact absurd rfl hji
        obtain ⟨hmode, hsize, hblocks⟩ := inodeOf_inode (d := c) hplaced
        refine ⟨fun k => ?_, hmode, hsize⟩
        by_cases hk : k < 12
        · exact hblocks k hk
        · rw [blockOf_eq_zero _ _ (not_lt.mp hk), blockOf_eq_zero _ _ (not_lt.mp hk)]
      · refine (hc j hj hji).trans (.of_eq (inodeOf_apply hplaced hj ?_))
        rintro i mode size links blocks rfl rfl
        rcases hnodes _ _ _ _ _ mem_cons_self with heq | ⟨heq, -⟩
        · exact hji heq
        · exact hpar ⟨mode, size, links, blocks, heq, rfl⟩
  exact hkeep d (fun _ _ _ => .of_eq rfl) j hj hji

/-! ## A node has been made -/

structure NodeMade (kind : NodeKind) (d : Disk) (parent inode block : Nat) (dirBlock : ByteBlock)
    (d' : Disk) : Prop where
  block_new : ∀ k, blockOf d' inode k = if k = 0 then block else 0
  mode_new : (inodeOf d' inode).mode = kind.mode
  size_new : (inodeOf d' inode).size = kind.size
  inodes : ∀ j, IsInode j → j ≠ inode → SameInode d d' j
  inUse : ∀ j, InUse d' j ↔ j = inode ∨ InUse d j
  used : ∀ b, 0 < b → (Used d' b ↔ b = block ∨ Used d b)
  content : d' block = kind.content inode parent
  directory : d' (blockOf d parent 0) = dirBlock
  others : ∀ n, rootDataBlock ≤ n → n ≠ block → n ≠ blockOf d parent 0 → d' n = d n

def NodeKind.Fits (kind : NodeKind) : Prop := kind.mode < 2 ^ 16 ∧ kind.size < 2 ^ 32

section

variable {kind : NodeKind} {parent inode block : Nat}
  {dirBlock blockBitmap inodeBitmap gd sb : ByteBlock}

theorem placed_commitUpdates (hkind : kind.Fits) (hparent : IsInode parent)
    (hdir : rootDataBlock ≤ blockOf d parent 0) (hinode : IsInode inode) (hblock : block ≤ 64) :
    ∀ u ∈ commitUpdates kind d parent inode block dirBlock blockBitmap inodeBitmap gd sb,
      u.Placed := by
  intro u hu
  rcases mem_append.mp hu with hu | hu
  · rcases mem_append.mp hu with hu | hu
    · rw [mem_singleton.mp hu]
      exact hdir
    · split_ifs at hu
      · rw [mem_singleton.mp hu]
        exact ⟨hparent, mode_lt d parent, size_lt d parent, directBlocks_lt d parent⟩
      · cases hu
  · simp only [mem_cons, not_mem_nil, or_false] at hu
    obtain rfl | rfl | rfl | rfl | rfl := hu
    · refine ⟨hinode, hkind.1, hkind.2, fun b hb => ?_⟩
      rw [mem_singleton.mp hb]
      omega
    · trivial
    · trivial
    · exact .inr rfl
    · exact .inl rfl

theorem nodeMade_applyUpdates (hkind : kind.Fits) (hparent : InUse d parent)
    (hdir : rootDataBlock ≤ blockOf d parent 0) (hdirUsed : Used d (blockOf d parent 0))
    (hblock : Allocated (d blockBitmapBlock) (fileDataBlock + 1) totalBlocks block blockBitmap)
    (hinode : Allocated (d inodeBitmapBlock) (Ext2.fileInode + 1) numInodes inode inodeBitmap) :
    NodeMade kind d parent inode block dirBlock (applyUpdates d
      (.data block (kind.content inode parent) ::
        commitUpdates kind d parent inode block dirBlock blockBitmap inodeBitmap gd sb)) := by
  have hge : 11 ≤ block := hblock.first_le
  have hisInode := (isInode_of_alloc hinode).1
  have hne : parent ≠ inode := by
    rintro rfl
    exact fresh_of_alloc hinode hparent
  have hdirne : block ≠ blockOf d parent 0 := by
    rintro rfl
    exact unused_of_alloc hblock hdirUsed
  -- the updates in order: two data blocks, perhaps the parent, the new inode, the rest
  generalize hlink : (if kind.linksParent then [Update.inode parent (inodeOf d parent).mode
    (inodeOf d parent).size ((inodeOf d parent).links + 1) (inodeOf d parent).directBlocks]
    else []) = link
  generalize hrest : [Update.blockBitmap blockBitmap, .inodeBitmap inodeBitmap,
    .counters groupDescBlock gd, .counters superblockBlock sb] = rest
  have hplaced : ∀ u ∈ [Update.data (blockOf d parent 0) dirBlock] ++ link ++
      .inode inode kind.mode kind.size kind.links [block] :: rest, u.Placed := by
    rw [← hlink, ← hrest]
    exact placed_commitUpdates hkind hparent.1 hdir hisInode hblock.le_last
  have hus : Update.data block (kind.content inode parent) ::
      commitUpdates kind d parent inode block dirBlock blockBitmap inodeBitmap gd sb =
      [.data block (kind.content inode parent), .data (blockOf d parent 0) dirBlock] ++ link ++
        .inode inode kind.mode kind.size kind.links [block] :: rest := by
    rw [← hlink, ← hrest]
    rfl
  rw [hus, applyUpdates_append, applyUpdates_append, applyUpdates_cons]
  have hplacedFirst : ∀ u ∈ [Update.data block (kind.content inode parent),
      .data (blockOf d parent 0) dirBlock], u.Placed := by
    simp only [mem_cons, not_mem_nil, or_false]
    rintro u (rfl | rfl)
    · exact show 9 ≤ block by omega
    · exact hdir
  generalize hd1 : applyUpdates d [.data block (kind.content inode parent),
    .data (blockOf d parent 0) dirBlock] = d1
  have hfirst (j : Nat) (hj : IsInode j) : inodeOf d1 j = inodeOf d j := by
    rw [← hd1]
    refine inodeOf_applyUpdates hplacedFirst hj ?_
    simp
  have hplacedLink : ∀ u ∈ link, u.Placed := fun u hu =>
    hplaced u (mem_append_left _ (mem_append_right _ hu))
  have hplacedRest : ∀ u ∈ rest, u.Placed := fun u hu =>
    hplaced u (mem_append_right _ (mem_cons_of_mem _ hu))
  have hplacedNew : (Update.inode inode kind.mode kind.size kind.links [block]).Placed :=
    hplaced _ (mem_append_right _ mem_cons_self)
  have hlinked (j : Nat) (hj : IsInode j) : SameInode d (applyUpdates d1 link) j := by
    refine (SameInode.of_eq (hfirst j hj)).trans ?_
    rw [← hlink]
    split_ifs
    · rw [← hfirst parent hparent.1]
      exact sameInode_inode _ hparent.1 hj
    · exact .of_eq rfl
  have hdata (n : Nat) (hn : rootDataBlock ≤ n) : applyUpdates ((Update.inode inode kind.mode
      kind.size kind.links [block]).apply (applyUpdates d1 link)) rest n = d1 n := by
    rw [← applyUpdates_cons, ← applyUpdates_append]
    refine applyUpdates_of_data (fun u hu => ?_) hn ?_
    · rcases mem_append.mp hu with hu | hu
      · exact hplacedLink u hu
      · rcases mem_cons.mp hu with rfl | hu
        · exact hplacedNew
        · exact hplacedRest u hu
    · intro m b hmem
      rw [← hlink, ← hrest] at hmem
      split_ifs at hmem <;> simp at hmem
  have hnodes (j : Nat) (hj : IsInode j) : inodeOf (applyUpdates ((Update.inode inode kind.mode
      kind.size kind.links [block]).apply (applyUpdates d1 link)) rest) j =
      inodeOf ((Update.inode inode kind.mode kind.size kind.links [block]).apply
        (applyUpdates d1 link)) j := by
    refine inodeOf_applyUpdates hplacedRest hj fun i mode size links blocks hmem => ?_
    rw [← hrest] at hmem
    simp at hmem
  obtain ⟨hmode, hsize, hblocks⟩ := inodeOf_inode (d := applyUpdates d1 link) hplacedNew
  refine ⟨fun k => ?_, ?_, ?_, fun j hj hji => ?_, fun j => ?_, fun b hb => ?_, ?_, ?_,
    fun n hn hnb hnd => ?_⟩
  · by_cases hk : k < 12
    · rw [blockOf, hnodes inode hisInode]
      refine (hblocks k hk).trans ?_
      cases k with
      | zero | succ => rfl
    · rw [blockOf_eq_zero _ _ (not_lt.mp hk), if_neg (by omega)]
  · rw [hnodes inode hisInode, hmode]
  · rw [hnodes inode hisInode, hsize]
  · refine (hlinked j hj).trans (.of_eq ?_)
    rw [hnodes j hj]
    refine inodeOf_apply hplacedNew hj ?_
    rintro _ _ _ _ _ heq
    cases heq
    exact hji
  · have hmap (X : Disk) : applyUpdates X rest inodeBitmapBlock = inodeBitmap := by
      rw [← hrest]
      rfl
    unfold InUse
    rw [hmap]
    constructor
    · rintro ⟨hj, hmark⟩
      exact ((hinode.marked_iff j hj.1).mp hmark).imp_right fun hmark => ⟨hj, hmark⟩
    · rintro (rfl | ⟨hj, hmark⟩)
      · exact ⟨hisInode, (hinode.marked_iff j hisInode.1).mpr (.inl rfl)⟩
      · exact ⟨hj, (hinode.marked_iff j hj.1).mpr (.inr hmark)⟩
  · have hmap (X : Disk) : applyUpdates X rest blockBitmapBlock = blockBitmap := by
      rw [← hrest]
      rfl
    unfold Used
    rw [hmap]
    exact hblock.marked_iff b hb
  · rw [hdata block (show 9 ≤ block by omega), ← hd1]
    show update (update d block _) (blockOf d parent 0) dirBlock block = _
    rw [update_of_ne hdirne]
    exact update_self _ _ _
  · rw [hdata _ hdir, ← hd1]
    exact update_self _ _ _
  · rw [hdata n hn, ← hd1]
    show update (update d block _) (blockOf d parent 0) dirBlock n = _
    rw [update_of_ne hnd, update_of_ne hnb]

end

/-! ## A node has been removed -/

structure NodeUnlinked (d : Disk) (parent inode : Nat) (dirBlock : ByteBlock) (d' : Disk) :
    Prop where
  inodes : ∀ j, IsInode j → inodeOf d' j = inodeOf d j
  inUse : ∀ j, InUse d' j ↔ j ≠ inode ∧ InUse d j
  used : ∀ b, 0 < b → (Used d' b ↔ b ∉ blocksOf d inode ∧ Used d b)
  directory : d' (blockOf d parent 0) = dirBlock
  others : ∀ n, rootDataBlock ≤ n → n ≠ blockOf d parent 0 → d' n = d n

theorem placed_unlinkUpdates {parent inode : Nat} {dirBlock gd sb : ByteBlock}
    (hdir : rootDataBlock ≤ blockOf d parent 0) :
    ∀ u ∈ unlinkUpdates d parent inode dirBlock gd sb, u.Placed := by
  intro u hu
  simp only [unlinkUpdates, mem_cons, not_mem_nil, or_false] at hu
  obtain rfl | rfl | rfl | rfl | rfl := hu
  · exact hdir
  · trivial
  · trivial
  · exact .inr rfl
  · exact .inl rfl

theorem nodeUnlinked_applyUpdates {parent inode : Nat} {dirBlock gd sb : ByteBlock}
    (hdir : rootDataBlock ≤ blockOf d parent 0) (hinode : IsInode inode)
    (hblocks : ∀ b ∈ blocksOf d inode, b ≤ totalBlocks) :
    NodeUnlinked d parent inode dirBlock
      (applyUpdates d (unlinkUpdates d parent inode dirBlock gd sb)) := by
  have hplaced := @placed_unlinkUpdates _ _ inode dirBlock gd sb hdir
  have hdata (n : Nat) (hn : rootDataBlock ≤ n) :
      applyUpdates d (unlinkUpdates d parent inode dirBlock gd sb) n =
        update d (blockOf d parent 0) dirBlock n := by
    show applyUpdates (update d (blockOf d parent 0) dirBlock) _ n = _
    refine applyUpdates_of_data (fun u hu => hplaced u (mem_cons_of_mem _ hu)) hn ?_
    simp
  refine ⟨fun j hj => ?_, fun j => ?_, fun b hb => ?_, ?_, fun n hn hne => ?_⟩
  · refine inodeOf_applyUpdates hplaced hj ?_
    simp [unlinkUpdates]
  · have hmap : applyUpdates d (unlinkUpdates d parent inode dirBlock gd sb) inodeBitmapBlock =
        freeInode (d inodeBitmapBlock) inode := rfl
    have hlast : inode ≤ 8 * blockSize := hinode.2.trans (by decide)
    unfold InUse
    rw [hmap, and_left_comm]
    refine and_congr_right fun hj => ?_
    rw [freeInode, marked_freeBit hinode.1 hlast hj.1, Bool.and_eq_true, decide_eq_true_eq]
  · have hmap : applyUpdates d (unlinkUpdates d parent inode dirBlock gd sb) blockBitmapBlock =
        (blocksOf d inode).foldl freeBlock (d blockBitmapBlock) := rfl
    unfold Used
    rw [hmap]
    refine marked_foldl_freeBlock (fun b hb => ⟨?_, (hblocks b hb).trans (by decide)⟩) hb
    exact Nat.pos_of_ne_zero (mem_blocksOf.mp hb).1
  · rw [hdata _ hdir, update_self]
  · rw [hdata n hn, update_of_ne hne]

/-! ## A file has been written -/

/-- The disk `c` is the one after the loop. -/
structure FileWritten (d c : Disk) (i : Nat) (size : Nat) (blocks : List Nat) (d' : Disk) :
    Prop where
  block_new : ∀ k, blockOf d' i k = if k < blockCount size then blocks.getD k 0 else 0
  mode_same : (inodeOf d' i).mode = (inodeOf d i).mode
  size_new : (inodeOf d' i).size = size
  inodes : ∀ j, IsInode j → j ≠ i → inodeOf d' j = inodeOf d j
  inUse : ∀ j, InUse d' j ↔ InUse d j
  used : ∀ b, Used d' b ↔ Used c b
  data : ∀ n, rootDataBlock ≤ n → d' n = c n

variable {data : List UInt8} {i offset w : Nat} {blocks : List Nat}

theorem Filling.blocks_lt {c : Disk}
    (h : Filling d (inodeOf d i).directBlocks offset data c blocks w) :
    ∀ b ∈ blocks, b < 2 ^ 32 := by
  intro b hb
  obtain ⟨k, hk, rfl⟩ := mem_iff_getElem.mp hb
  rw [← getD_eq_getElem _ 0 hk]
  by_cases hnew : (inodeOf d i).directBlocks.getD k 0 = 0
  · by_cases hzero : blocks.getD k 0 = 0
    · rw [hzero]
      decide
    · exact (h.fresh k hnew hzero).2.1.trans_lt (by decide)
  · rw [h.kept k hnew]
    exact blockOf_lt d i k

theorem placed_sizeUpdate (hi : IsInode i)
    (h : Wrote d i offset data us blocks w) : (sizeUpdate d i offset blocks w).Placed :=
  ⟨hi, mode_lt d i, h.fits.trans_lt (by decide),
    fun b hb => h.state.filling.blocks_lt b (mem_of_mem_take hb)⟩

theorem LoopState.placed {blocks0 : List Nat} (h : LoopState d blocks0 offset data us blocks w)
    (hown : Owner d blocks0) : ∀ u ∈ us, u.Placed := by
  intro u hu
  have hharmless := h.harmless u hu
  cases u with
  | data =>
    rcases hharmless with ⟨hne, k, rfl⟩ | ⟨hge, -⟩
    · exact (hown.used k hne).1
    · exact (show rootDataBlock ≤ fileDataBlock + 1 by decide).trans hge
  | inode => exact hharmless.elim
  | blockBitmap | inodeBitmap => trivial
  | counters => exact hharmless

theorem fileWritten_applyUpdates (hi : IsInode i) (h : Wrote d i offset data us blocks w) :
    FileWritten d (applyUpdates d us) i (max (offset + w) (inodeOf d i).size) blocks
      (applyUpdates d (us ++ [sizeUpdate d i offset blocks w])) := by
  have hfill := h.state.filling
  have hplaced := placed_sizeUpdate hi h
  obtain ⟨hmode, hsize, hblocks⟩ := inodeOf_inode (d := applyUpdates d us) hplaced
  rw [applyUpdates_append]
  refine ⟨fun k => ?_, hmode, hsize, fun j hj hji => ?_, fun j => ?_, fun b => ?_, fun n hn => ?_⟩
  · by_cases hk : k < 12
    · refine (hblocks k hk).trans ?_
      rw [getD_eq_getElem?_getD, List.getElem?_take, getD_eq_getElem?_getD]
      split_ifs <;> rfl
    · rw [blockOf_eq_zero _ _ (not_lt.mp hk), getD_eq_default _ _ (by rw [hfill.length]; omega),
        ite_self]
  · have happly := inodeOf_apply (d := applyUpdates d us) hplaced hj (by
      rintro _ _ _ _ _ heq
      cases heq
      exact hji)
    have hblock := hj.block
    refine happly.trans ?_
    rw [inodeOf, hfill.system _ (show 4 ≤ inodeBlock j by omega) (show inodeBlock j < 9 by omega)]
    rfl
  · unfold InUse
    rw [applyUpdates_cons, applyUpdates_nil, apply_inodeBitmapBlock hplaced (by rintro _ ⟨⟩),
      hfill.system _ le_rfl (by decide)]
  · unfold Used
    rw [applyUpdates_cons, applyUpdates_nil, apply_blockBitmapBlock hplaced (by rintro _ ⟨⟩)]
  · exact apply_of_data hplaced hn (by rintro _ _ ⟨⟩)

end AgenticOS.BlkDriver
