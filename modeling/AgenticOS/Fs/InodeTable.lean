import AgenticOS.Fs.Ext2

/-!
# Inode table entries

An entry is read back as it was written, and writing one leaves the others of its
block alone.
-/

namespace AgenticOS.Ext2

open Foundation List ByteBlock

variable {table b : ByteBlock} {off mode size links i k inode j : Nat} {blocks : List Nat}

/-! ## One entry -/

theorem writeBlocks_apply_of_notMem (h : i < off ∨ off + 4 * blocks.length ≤ i) :
    writeBlocks b off blocks i = b i := by
  induction blocks generalizing b off with
  | nil => rfl
  | cons block rest ih =>
    rw [length_cons] at h
    rw [writeBlocks, ih (by omega), setField_apply_of_notMem (by omega)]

theorem field_writeBlocks (hk : k < blocks.length) :
    (writeBlocks b off blocks).field (off + k * 4) 4 = blocks.getD k 0 % 2 ^ 32 := by
  induction blocks generalizing b off k with
  | nil => exact absurd hk (Nat.not_lt_zero _)
  | cons block rest ih =>
    rw [length_cons] at hk
    rw [writeBlocks]
    cases k with
    | zero =>
      have hfirst : (writeBlocks (b.setField off 4 block) (off + 4) rest).field off 4 =
          (b.setField off 4 block).field off 4 :=
        field_congr fun i _ _ => writeBlocks_apply_of_notMem (by omega)
      rw [Nat.zero_mul]
      refine hfirst.trans ?_
      rw [field_setField, getD_cons_zero]
      norm_num
    | succ k =>
      have hoff : off + (k + 1) * 4 = off + 4 + k * 4 := by omega
      rw [hoff, ih (by omega), getD_cons_succ]

theorem writeEntry_apply_of_notMem (h : i < off ∨ off + 128 ≤ i) :
    writeEntry table off mode size links blocks i = table i := by
  have hlen : (blocks.take 12).length ≤ 12 := length_take_le _ _
  unfold writeEntry
  rw [writeBlocks_apply_of_notMem (by omega), setField_apply_of_notMem (by omega),
    setField_apply_of_notMem (by omega), setField_apply_of_notMem (by omega),
    setField_apply_of_notMem (by omega),
    patch_apply_of_notMem (by rw [length_replicate]; omega)]

theorem field_writeEntry_head {n : Nat} (h : k + n ≤ off + 0x28) :
    (writeEntry table off mode size links blocks).field k n =
      (((((table.patch off (replicate 128 0)).setField off 2 mode).setField (off + 4) 4
        size).setField (off + 0x1A) 2 links).setField (off + 0x1C) 4
          (blocks.length * blockSize / 512)).field k n := by
  refine field_congr fun i _ _ => ?_
  exact writeBlocks_apply_of_notMem (by omega)

theorem mode_writeEntry :
    (writeEntry table off mode size links blocks).field off 2 = mode % 2 ^ 16 := by
  rw [field_writeEntry_head (by omega), field_setField_of_disjoint (by omega),
    field_setField_of_disjoint (by omega),
    field_setField_of_disjoint (by omega), field_setField]
  norm_num

theorem size_writeEntry :
    (writeEntry table off mode size links blocks).field (off + 4) 4 = size % 2 ^ 32 := by
  rw [field_writeEntry_head (by omega), field_setField_of_disjoint (by omega),
    field_setField_of_disjoint (by omega), field_setField]
  norm_num

theorem directBlock_writeEntry (hk : k < 12) :
    (writeEntry table off mode size links blocks).field (off + 0x28 + k * 4) 4 =
      blocks.getD k 0 % 2 ^ 32 := by
  unfold writeEntry
  by_cases hlt : k < blocks.length
  · have hlen : k < (blocks.take 12).length := by
      rw [length_take]
      omega
    rw [field_writeBlocks hlen]
    simp only [getD_eq_getElem?_getD, List.getElem?_take, if_pos hk]
  · -- a slot without a number keeps the zeros
    have hlen : (blocks.take 12).length = blocks.length := by
      rw [length_take]
      omega
    rw [getD_eq_default _ _ (by omega), Nat.zero_mod]
    refine field_eq_zero fun i _ _ => ?_
    rw [writeBlocks_apply_of_notMem (by omega), setField_apply_of_notMem (by omega),
      setField_apply_of_notMem (by omega), setField_apply_of_notMem (by omega),
      setField_apply_of_notMem (by omega),
      patch_apply_of_mem (by omega) (by rw [length_replicate]; omega)]
    exact eq_of_mem_replicate (List.get_mem _ _)

/-! ## The table -/

/-- The numbers of the inodes that the table has entries for. -/
def IsInode (inode : Nat) : Prop := 1 ≤ inode ∧ inode ≤ numInodes

instance (inode : Nat) : Decidable (IsInode inode) :=
  inferInstanceAs (Decidable (1 ≤ inode ∧ inode ≤ numInodes))

theorem IsInode.index (h : IsInode inode) : inodeIndex inode = inode - 1 := by
  unfold IsInode numInodes at h
  unfold inodeIndex
  omega

theorem IsInode.block (h : IsInode inode) : 5 ≤ inodeBlock inode ∧ inodeBlock inode ≤ 8 := by
  have hindex := h.index
  unfold IsInode numInodes at h
  unfold inodeBlock inodeTableStartBlock inodesPerBlock
  omega

theorem IsInode.offset {i : Nat} (hi : IsInode i) (hj : IsInode j)
    (hblock : inodeBlock i = inodeBlock j) (hne : i ≠ j) :
    inodeOffset i + 128 ≤ inodeOffset j ∨ inodeOffset j + 128 ≤ inodeOffset i := by
  have hii := hi.index
  have hij := hj.index
  unfold IsInode numInodes at hi hj
  unfold inodeBlock inodeTableStartBlock inodesPerBlock at hblock
  unfold inodeOffset inodesPerBlock
  omega

@[simp] theorem length_directBlocks (table : ByteBlock) (inode : Nat) :
    (readInodeEntry table inode).directBlocks.length = 12 := by
  simp [readInodeEntry]

theorem directBlocks_getD (table : ByteBlock) (inode : Nat) {k : Nat} (hk : k < 12) :
    (readInodeEntry table inode).directBlocks.getD k 0 =
      table.field (inodeOffset inode + 0x28 + k * 4) 4 := by
  simp only [readInodeEntry, getD_eq_getElem?_getD, List.getElem?_map,
    List.getElem?_range hk, Option.map_some, Option.getD_some]

theorem readInodeEntry_congr {table table' : ByteBlock}
    (h : ∀ i, inodeOffset inode ≤ i → i < inodeOffset inode + 128 → table i = table' i) :
    readInodeEntry table inode = readInodeEntry table' inode := by
  have hfield (off n : Nat) (hle : inodeOffset inode ≤ off)
      (hlt : off + n ≤ inodeOffset inode + 128) : table.field off n = table'.field off n :=
    field_congr fun i _ _ => h i (by omega) (by omega)
  unfold readInodeEntry
  dsimp only
  rw [hfield _ _ (by omega) (by omega), hfield _ _ (by omega) (by omega),
    hfield _ _ (by omega) (by omega), hfield _ _ (by omega) (by omega)]
  congr 1
  refine map_congr_left fun k hk => ?_
  have hlt := mem_range.mp hk
  exact hfield _ _ (by omega) (by omega)

theorem readInodeEntry_write_of_ne {i : Nat} (hi : IsInode i) (hj : IsInode j)
    (hblock : inodeBlock j = inodeBlock i) (hne : j ≠ i) :
    readInodeEntry (writeInodeEntryFull table i mode size links blocks) j =
      readInodeEntry table j := by
  have hplace := hj.offset hi hblock hne
  exact readInodeEntry_congr fun k _ _ => writeEntry_apply_of_notMem (by omega)

theorem mode_readInodeEntry (table : ByteBlock) (inode : Nat) :
    (readInodeEntry table inode).mode = table.field (inodeOffset inode) 2 := by
  unfold readInodeEntry
  dsimp only
  rw [Nat.add_zero]

theorem size_readInodeEntry (table : ByteBlock) (inode : Nat) :
    (readInodeEntry table inode).size = table.field (inodeOffset inode + 0x04) 4 := by
  rfl

/-- **An entry is read back.** The link count and the sector count are not looked at by
any request. -/
theorem readInodeEntry_write (table : ByteBlock) (inode mode size links : Nat) (blocks : List Nat) :
    (readInodeEntry (writeInodeEntryFull table inode mode size links blocks) inode).mode =
        mode % 2 ^ 16 ∧
      (readInodeEntry (writeInodeEntryFull table inode mode size links blocks) inode).size =
        size % 2 ^ 32 ∧
      ∀ k < 12, (readInodeEntry (writeInodeEntryFull table inode mode size links blocks)
        inode).directBlocks.getD k 0 = blocks.getD k 0 % 2 ^ 32 := by
  unfold writeInodeEntryFull
  refine ⟨?_, ?_, fun k hk => ?_⟩
  · rw [mode_readInodeEntry, mode_writeEntry]
  · rw [size_readInodeEntry, size_writeEntry]
  · rw [directBlocks_getD _ _ hk, directBlock_writeEntry hk]

end AgenticOS.Ext2
