import AgenticOS.Fs.Volume

/-!
# The updates of the requests

What CREATE, MKDIR and UNLINK write, as lists of updates, for parents that have an
entry in the inode table and a data block of their own.
-/

namespace AgenticOS.BlkDriver

open Foundation Ext2 Driver List Function

variable {d : Disk} {log : List (Nat × ByteBlock)}

theorem updateAllocCounts_journal (d : Disk) (log : List (Nat × ByteBlock))
    (blockDelta inodeDelta dirDelta : Int) :
    ∃ gd sb, updateAllocCounts (journal d) log blockDelta inodeDelta dirDelta =
      log ++ [(groupDescBlock, gd), (superblockBlock, sb)] :=
  ⟨_, _, append_assoc log [_] [_]⟩

/-! ## Making a node -/

def commitUpdates (kind : NodeKind) (c : Disk) (parent inode block : Nat)
    (dirBlock blockBitmap inodeBitmap gd sb : ByteBlock) : List Update :=
  [.data (blockOf c parent 0) dirBlock] ++
  (if kind.linksParent then
    [.inode parent (inodeOf c parent).mode (inodeOf c parent).size ((inodeOf c parent).links + 1)
      (inodeOf c parent).directBlocks] else []) ++
  [.inode inode kind.mode kind.size kind.links [block], .blockBitmap blockBitmap,
    .inodeBitmap inodeBitmap, .counters groupDescBlock gd, .counters superblockBlock sb]

section

variable (kind : NodeKind) (d : Disk) (log : List (Nat × ByteBlock)) {parent : Nat}
  (inode block : Nat) (blockBitmap inodeBitmap : ByteBlock) (leaf : List UInt8)

theorem commitNode_eq {c : Disk} (hc : c = applyWrites d log) :
    commitNode (journal d) kind log parent inode block blockBitmap inodeBitmap leaf =
      match addDirEntry (c (blockOf c parent 0)) inode kind.fileType leaf with
      | none => (0, log)
      | some dirBlock =>
        let log1 := log ++ [(blockOf c parent 0, dirBlock)]
        let log2 := if kind.linksParent then
          linkParent (journal d) log1 parent (c (inodeBlock parent)) (inodeOf c parent) else log1
        let log3 := log2 ++ [(inodeBlock inode, writeInodeEntryFull
          (applyWrites d log2 (inodeBlock inode)) inode kind.mode kind.size kind.links [block])]
        (inode, updateAllocCounts (journal d) (log3 ++ [(blockBitmapBlock, blockBitmap)] ++
          [(inodeBitmapBlock, inodeBitmap)]) (-1) (-1) kind.dirDelta) := by
  subst hc
  rfl

theorem commitNode_journal (hparent : IsInode parent)
    (hdir : rootDataBlock ≤ blockOf (applyWrites d log) parent 0) :
    let c := applyWrites d log
    (addDirEntry (c (blockOf c parent 0)) inode kind.fileType leaf = none ∧
      commitNode (journal d) kind log parent inode block blockBitmap inodeBitmap leaf = (0, log)) ∨
    ∃ dirBlock gd sb,
      addDirEntry (c (blockOf c parent 0)) inode kind.fileType leaf = some dirBlock ∧
      commitNode (journal d) kind log parent inode block blockBitmap inodeBitmap leaf =
        (inode, log ++ writesOf c (commitUpdates kind c parent inode block dirBlock blockBitmap
          inodeBitmap gd sb)) := by
  intro c
  have hblock := hparent.block
  have hdir' : 9 ≤ blockOf c parent 0 := hdir
  rw [commitNode_eq _ _ _ _ _ _ _ _ (c := c) rfl]
  cases hadd : addDirEntry (c (blockOf c parent 0)) inode kind.fileType leaf with
  | none => exact .inl ⟨rfl, rfl⟩
  | some dirBlock =>
    dsimp only
    generalize hlog2 : (if kind.linksParent then linkParent (journal d)
      (log ++ [(blockOf c parent 0, dirBlock)]) parent (c (inodeBlock parent)) (inodeOf c parent)
      else log ++ [(blockOf c parent 0, dirBlock)]) = log2
    -- the first two updates, one of them for directories only
    have hfirst : log2 = log ++ writesOf c ([.data (blockOf c parent 0) dirBlock] ++
        if kind.linksParent then [.inode parent (inodeOf c parent).mode (inodeOf c parent).size
          ((inodeOf c parent).links + 1) (inodeOf c parent).directBlocks] else []) := by
      rw [← hlog2]
      split_ifs
      · have htable : update c (blockOf c parent 0) dirBlock (inodeBlock parent) =
            c (inodeBlock parent) := update_of_ne (by omega) _ _
        show log ++ [_] ++ [(inodeBlock parent, _)] = log ++ [_, (inodeBlock parent,
          writeInodeEntryFull (update c (blockOf c parent 0) dirBlock
            (inodeBlock parent)) _ _ _ _ _)]
        rw [htable, append_assoc]
        rfl
      · rfl
    obtain ⟨gd, sb, hcounts⟩ := updateAllocCounts_journal d (log2 ++ [(inodeBlock inode,
      writeInodeEntryFull (applyWrites d log2 (inodeBlock inode)) inode kind.mode kind.size
        kind.links [block])] ++ [(blockBitmapBlock, blockBitmap)] ++
        [(inodeBitmapBlock, inodeBitmap)]) (-1) (-1) kind.dirDelta
    refine .inr ⟨dirBlock, gd, sb, rfl, ?_⟩
    have hstate : applyWrites d log2 = applyUpdates c ([.data (blockOf c parent 0) dirBlock] ++
        if kind.linksParent then [.inode parent (inodeOf c parent).mode (inodeOf c parent).size
          ((inodeOf c parent).links + 1) (inodeOf c parent).directBlocks] else []) := by
      rw [hfirst, applyWrites_append, applyWrites_writesOf]
    rw [hcounts, commitUpdates, writesOf_append, ← hstate, ← append_assoc log, ← hfirst]
    simp only [append_assoc]
    rfl

end

inductive Made (kind : NodeKind) (d : Disk) (path : List UInt8) :
    Nat × List (Nat × ByteBlock) → Prop
  /-- No parent, no name, no block or no inode. -/
  | refused : Made kind d path (0, [])
  /-- The directory has no room; the new block has been written. -/
  | full (block inode : Nat) (blockBitmap inodeBitmap : ByteBlock)
      (hparent : parentOf d path ≠ 0) (hleaf : (splitParentAndBasename path).2 ≠ [])
      (hblock : Allocated (d blockBitmapBlock) (fileDataBlock + 1) totalBlocks block blockBitmap)
      (hinode : Allocated (d inodeBitmapBlock) (Ext2.fileInode + 1) numInodes inode inodeBitmap) :
      Made kind d path (0, writesOf d [.data block (kind.content inode (parentOf d path))])
  | made (block inode : Nat) (blockBitmap inodeBitmap dirBlock gd sb : ByteBlock)
      (hblock : Allocated (d blockBitmapBlock) (fileDataBlock + 1) totalBlocks block blockBitmap)
      (hinode : Allocated (d inodeBitmapBlock) (Ext2.fileInode + 1) numInodes inode inodeBitmap)
      (hparent : parentOf d path ≠ 0) (hleaf : (splitParentAndBasename path).2 ≠ [])
      (hadd : addDirEntry (d (blockOf d (parentOf d path) 0)) inode kind.fileType
        (splitParentAndBasename path).2 = some dirBlock) :
      Made kind d path (inode, writesOf d (.data block (kind.content inode (parentOf d path)) ::
        commitUpdates kind d (parentOf d path) inode block dirBlock blockBitmap inodeBitmap gd sb))

theorem makeNode_eq (kind : NodeKind) (d : Disk) (path : List UInt8) :
    makeNode (journal d) kind [] path =
      if parentOf d path ≠ 0 ∧ (splitParentAndBasename path).2 ≠ [] then
        match allocBlock (d blockBitmapBlock) totalBlocks,
          allocInode (d inodeBitmapBlock) numInodes with
        | some (block, blockBitmap), some (inode, inodeBitmap) =>
          commitNode (journal d) kind [(block, kind.content inode (parentOf d path))]
            (parentOf d path) inode block blockBitmap inodeBitmap (splitParentAndBasename path).2
        | _, _ => (0, [])
      else (0, []) := by
  unfold makeNode
  dsimp only
  rw [parentInode_journal]
  rfl

/-- **Making a node.** The parent has a data block that is in use. -/
theorem made_of_makeNode (kind : NodeKind) (d : Disk) (path : List UInt8)
    (hparent : parentOf d path ≠ 0 → IsInode (parentOf d path) ∧
      rootDataBlock ≤ blockOf d (parentOf d path) 0 ∧ Used d (blockOf d (parentOf d path) 0)) :
    Made kind d path (makeNode (journal d) kind [] path) := by
  rw [makeNode_eq]
  split_ifs with hgo
  · rcases hallocBlock : allocBlock (d blockBitmapBlock) totalBlocks with _ | ⟨block, blockBitmap⟩
    · exact .refused
    rcases hallocInode : allocInode (d inodeBitmapBlock) numInodes with _ | ⟨inode, inodeBitmap⟩
    · exact .refused
    dsimp only
    obtain ⟨hparent, hdir, hused⟩ := hparent hgo.1
    have hblock := allocated_of_allocBit (by decide) (by decide) hallocBlock
    have hinode := allocated_of_allocBit (by decide) (by decide) hallocInode
    -- the parent's inode and directory are not in the new block
    have hge : 11 ≤ block := hblock.first_le
    have hnode : inodeOf (applyWrites d [(block, kind.content inode (parentOf d path))])
        (parentOf d path) = inodeOf d (parentOf d path) :=
      inodeOf_update (.inr (by omega)) hparent
    have hfirst : blockOf (applyWrites d [(block, kind.content inode (parentOf d path))])
        (parentOf d path) 0 = blockOf d (parentOf d path) 0 := by
      rw [blockOf, hnode, blockOf]
    have hdata : applyWrites d [(block, kind.content inode (parentOf d path))]
        (blockOf d (parentOf d path) 0) = d (blockOf d (parentOf d path) 0) := by
      refine update_of_ne (fun heq => ?_) _ _
      rw [heq] at hused
      exact unused_of_alloc hblock hused
    have hcommit := commitNode_journal kind d [(block, kind.content inode (parentOf d path))] inode
      block blockBitmap inodeBitmap (splitParentAndBasename path).2 hparent
      (hfirst.symm ▸ hdir)
    dsimp only at hcommit
    rw [hfirst, hdata] at hcommit
    obtain ⟨-, hresult⟩ | ⟨dirBlock, gd, sb, hadd, hresult⟩ := hcommit
    · rw [hresult]
      exact .full block inode blockBitmap inodeBitmap hgo.1 hgo.2 hblock hinode
    · rw [hresult]
      have hsame : commitUpdates kind (applyWrites d [(block, kind.content inode
            (parentOf d path))]) (parentOf d path) inode block dirBlock blockBitmap inodeBitmap gd
            sb =
          commitUpdates kind d (parentOf d path) inode block dirBlock blockBitmap inodeBitmap gd
            sb := by
        unfold commitUpdates
        rw [hnode, hfirst]
      rw [hsame]
      exact .made block inode blockBitmap inodeBitmap dirBlock gd sb hblock hinode hgo.1 hgo.2 hadd
  · exact .refused

/-! ## Removing a node -/

def blocksOf (d : Disk) (inode : Nat) : List Nat := (inodeOf d inode).directBlocks.filter (· ≠ 0)

theorem mem_blocksOf {d : Disk} {inode b : Nat} :
    b ∈ blocksOf d inode ↔ b ≠ 0 ∧ ∃ k < 12, blockOf d inode k = b := by
  have hlen : (inodeOf d inode).directBlocks.length = 12 := length_directBlocks _ _
  rw [blocksOf, mem_filter, decide_eq_true_eq, and_comm, mem_iff_getElem]
  refine and_congr_right fun _ => ⟨?_, ?_⟩
  · rintro ⟨k, hk, hget⟩
    exact ⟨k, by omega, (getD_eq_getElem _ _ hk).trans hget⟩
  · rintro ⟨k, hk, hget⟩
    exact ⟨k, by omega, (getD_eq_getElem _ 0 (by omega)).symm.trans hget⟩

def unlinkUpdates (d : Disk) (parent inode : Nat) (dirBlock gd sb : ByteBlock) : List Update :=
  [.data (blockOf d parent 0) dirBlock,
    .blockBitmap ((blocksOf d inode).foldl freeBlock (d blockBitmapBlock)),
    .inodeBitmap (freeInode (d inodeBitmapBlock) inode), .counters groupDescBlock gd,
    .counters superblockBlock sb]

inductive Unlinked (d : Disk) (path : List UInt8) : Bool × List (Nat × ByteBlock) → Prop
  /-- No parent, no name, or no such entry. -/
  | refused : Unlinked d path (false, [])
  | unlinked (inode : Nat) (dirBlock gd sb : ByteBlock) (hparent : parentOf d path ≠ 0)
      (hleaf : (splitParentAndBasename path).2 ≠ [])
      (hremove : removeDirEntry (d (blockOf d (parentOf d path) 0))
        (splitParentAndBasename path).2 = some (inode, dirBlock)) :
      Unlinked d path (true, writesOf d (unlinkUpdates d (parentOf d path) inode dirBlock gd sb))

theorem unlink_eq (d : Disk) (path : List UInt8) : unlink (journal d) [] path =
      if parentOf d path ≠ 0 ∧ (splitParentAndBasename path).2 ≠ [] then
        match removeDirEntry (d (blockOf d (parentOf d path) 0))
          (splitParentAndBasename path).2 with
        | none => (false, [])
        | some (inode, dirBlock) =>
          (true, releaseNode (journal d) [(blockOf d (parentOf d path) 0, dirBlock)] inode)
      else (false, []) := by
  unfold unlink
  dsimp only
  rw [parentInode_journal]
  rfl

/-- **Removing a node.** The parent has a data block, and its entries name inodes. -/
theorem unlinked_of_unlink (d : Disk) (path : List UInt8)
    (hparent : parentOf d path ≠ 0 → (splitParentAndBasename path).2 ≠ [] →
      rootDataBlock ≤ blockOf d (parentOf d path) 0 ∧ ∀ inode dirBlock,
        removeDirEntry (d (blockOf d (parentOf d path) 0)) (splitParentAndBasename path).2 =
          some (inode, dirBlock) → IsInode inode) :
    Unlinked d path (unlink (journal d) [] path) := by
  rw [unlink_eq]
  split_ifs with hgo
  · obtain ⟨hdir, hinode⟩ := hparent hgo.1 hgo.2
    rcases hremove : removeDirEntry (d (blockOf d (parentOf d path) 0))
      (splitParentAndBasename path).2 with _ | ⟨inode, dirBlock⟩
    · exact .refused
    · dsimp only
      have hdir' : 9 ≤ blockOf d (parentOf d path) 0 := hdir
      generalize hblock : blockOf d (parentOf d path) 0 = block at hdir'
      -- what is released is read after the directory has been written
      have hnode : inodeOf (applyWrites d [(block, dirBlock)]) inode = inodeOf d inode :=
        inodeOf_update (.inr (by omega)) (hinode inode dirBlock hremove)
      have hblocks : applyWrites d [(block, dirBlock)] blockBitmapBlock = d blockBitmapBlock :=
        update_of_ne (show 3 ≠ block by omega) _ _
      have hinodes : applyWrites d [(block, dirBlock)] inodeBitmapBlock = d inodeBitmapBlock :=
        update_of_ne (show 4 ≠ block by omega) _ _
      have hrelease : releaseNode (journal d) [(block, dirBlock)] inode =
          updateAllocCounts (journal d) [(block, dirBlock), (blockBitmapBlock,
              (blocksOf (applyWrites d [(block, dirBlock)]) inode).foldl freeBlock
                (applyWrites d [(block, dirBlock)] blockBitmapBlock)),
            (inodeBitmapBlock, freeInode (applyWrites d [(block, dirBlock)] inodeBitmapBlock)
              inode)]
            (blocksOf (applyWrites d [(block, dirBlock)]) inode).length 1
            (if (inodeOf (applyWrites d [(block, dirBlock)]) inode).mode &&& sIfDir ≠ 0 then -1
              else 0) := rfl
      obtain ⟨gd, sb, hcounts⟩ := updateAllocCounts_journal d
        [(block, dirBlock), (blockBitmapBlock, (blocksOf d inode).foldl freeBlock
            (d blockBitmapBlock)), (inodeBitmapBlock, freeInode (d inodeBitmapBlock) inode)]
        (blocksOf d inode).length 1 (if (inodeOf d inode).mode &&& sIfDir ≠ 0 then -1 else 0)
      rw [hrelease, hblocks, hinodes]
      unfold blocksOf at hcounts ⊢
      rw [hnode, hcounts, ← hblock]
      exact .unlinked inode dirBlock gd sb hgo.1 hgo.2 hremove
  · exact .refused

end AgenticOS.BlkDriver
