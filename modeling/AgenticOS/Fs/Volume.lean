import AgenticOS.Fs.Allocation
import AgenticOS.Fs.Directory
import AgenticOS.Fs.InodeTable
import AgenticOS.Fs.Journal
import AgenticOS.Fs.Paths

/-!
# The file system on a disk

What a disk holds, in terms of the file system: inodes, marks, directory entries,
and what can be reached from the root. The requests change it by a few kinds of
updates, each one block write. An update changes what it is about and nothing
else, as long as data goes to data blocks.
-/

namespace AgenticOS.BlkDriver

open Foundation Ext2 Driver List Function Option

abbrev Disk := Nat → ByteBlock

/-! ## Views -/

def inodeOf (d : Disk) (inode : Nat) : InodeInfo := readInodeEntry (d (inodeBlock inode)) inode

def blockOf (d : Disk) (inode k : Nat) : Nat := (inodeOf d inode).directBlocks.getD k 0

def InUse (d : Disk) (inode : Nat) : Prop :=
  IsInode inode ∧ marked (d inodeBitmapBlock) inode = true

def Used (d : Disk) (block : Nat) : Prop := marked (d blockBitmapBlock) block = true

instance (d : Disk) (inode : Nat) : Decidable (InUse d inode) :=
  inferInstanceAs (Decidable (IsInode inode ∧ _))

instance (d : Disk) (block : Nat) : Decidable (Used d block) :=
  inferInstanceAs (Decidable (_ = true))

/-- The entries of a directory are those of its first block. -/
def entries (d : Disk) (inode : Nat) : List DirEntry :=
  if blockOf d inode 0 = 0 then [] else readDirEntries (d (blockOf d inode 0))

/-- What can be reached from the root, with the type that the entry gives it. -/
inductive Reachable (d : Disk) : Nat → UInt8 → Prop
  | root : Reachable d rootInode ftDir
  | entry {dir : Nat} {e : DirEntry} (hdir : Reachable d dir ftDir) (he : e ∈ entries d dir) :
      Reachable d e.inode e.fileType

section

variable {d : Disk} {n last : Nat} {bitmap : ByteBlock}

theorem unused_of_alloc {first : Nat}
    (h : Allocated (d blockBitmapBlock) first last n bitmap) : ¬ Used d n := by
  rw [Used, h.unmarked]
  exact nofun

theorem isData_of_alloc (h : Allocated (d blockBitmapBlock) (fileDataBlock + 1) last n bitmap) :
    rootDataBlock ≤ n :=
  (show rootDataBlock ≤ fileDataBlock + 1 by decide).trans h.first_le

theorem fresh_of_alloc {first : Nat}
    (h : Allocated (d inodeBitmapBlock) first last n bitmap) : ¬ InUse d n := by
  rintro ⟨-, hused⟩
  rw [h.unmarked] at hused
  cases hused

theorem isInode_of_alloc
    (h : Allocated (d inodeBitmapBlock) (Ext2.fileInode + 1) numInodes n bitmap) :
    IsInode n ∧ n < 2 ^ 32 :=
  ⟨⟨(show 1 ≤ 12 by decide).trans h.first_le, h.le_last⟩, h.le_last.trans_lt (by decide)⟩

end

variable (d : Disk)

theorem blockOf_eq_zero (inode : Nat) {k : Nat} (hk : 12 ≤ k) : blockOf d inode k = 0 :=
  getD_eq_default _ _ (by rw [inodeOf, length_directBlocks]; exact hk)

theorem blockOf_lt (inode k : Nat) : blockOf d inode k < 2 ^ 32 := by
  by_cases hk : k < 12
  · rw [blockOf, inodeOf, directBlocks_getD _ _ hk]
    exact ByteBlock.field_lt
  · rw [blockOf_eq_zero d inode (not_lt.mp hk)]
    decide

theorem reachable_congr {d d' : Disk} (h : ∀ i, Reachable d i ftDir → entries d' i = entries d i)
    {i : Nat} {t : UInt8} : Reachable d' i t ↔ Reachable d i t := by
  constructor
  · intro hr
    induction hr with
    | root => exact .root
    | entry _ he ih => exact .entry ih (h _ ih ▸ he)
  · intro hr
    induction hr with
    | root => exact .root
    | entry hdir he ih => exact .entry ih ((h _ hdir).symm ▸ he)

/-! ## Walking along a path -/

/-- The walk of `resolve_path`, on the disk as it is. -/
def walk (d : Disk) : List (List UInt8) → Nat × UInt8 → Option (Nat × UInt8)
  | [], cur => some cur
  | segment :: rest, cur =>
    if cur.2 ≠ ftDir then none
    else (((entries d cur.1).find? fun e => e.name = segment).map
      fun e => (e.inode, e.fileType)).bind (walk d rest)

def lookup (d : Disk) (path : List UInt8) : Option (Nat × UInt8) :=
  walk d (components path) (rootInode, ftDir)

theorem walk_append (xs ys : List (List UInt8)) (cur : Nat × UInt8) :
    walk d (xs ++ ys) cur = (walk d xs cur).bind (walk d ys) := by
  induction xs generalizing cur with
  | nil => rfl
  | cons segment xs ih =>
    rw [cons_append, walk, walk]
    split_ifs
    · rfl
    · rw [bind_assoc]
      congr 1
      funext next
      exact ih next

theorem reachable_of_walk {d : Disk} {path : List (List UInt8)} {cur next : Nat × UInt8}
    (hcur : Reachable d cur.1 cur.2) (h : walk d path cur = some next) :
    Reachable d next.1 next.2 := by
  induction path generalizing cur with
  | nil =>
    cases h
    exact hcur
  | cons segment rest ih =>
    rw [walk] at h
    split_ifs at h with hdir
    obtain ⟨_, hfind, hrest⟩ := bind_eq_some_iff.mp h
    obtain ⟨e, he, rfl⟩ := map_eq_some_iff.mp hfind
    refine ih ?_ hrest
    rw [not_not.mp hdir] at hcur
    exact .entry hcur (List.mem_of_find?_eq_some he)

theorem reachable_of_lookup {d : Disk} {path : List UInt8} {i : Nat} {t : UInt8}
    (h : lookup d path = some (i, t)) : Reachable d i t :=
  reachable_of_walk .root h

def BlockDevice.Quiet {σ : Type} (io : BlockDevice σ) : Prop := ∀ s n, (io.read s n).2 = s

theorem quiet_disk : disk.Quiet := fun _ _ => rfl

theorem quiet_journal : (journal d).Quiet := fun _ _ => rfl

theorem readDirBlock_quiet {σ : Type} {io : BlockDevice σ} (hio : io.Quiet) (s : σ) (dir : Nat) :
    (readDirBlock io s dir).2 = s := by
  unfold readDirBlock
  dsimp only
  split_ifs
  · exact (hio _ _).trans (hio _ _)
  · exact hio _ _

theorem resolveFrom_quiet {σ : Type} {io : BlockDevice σ} (hio : io.Quiet)
    (path : List (List UInt8)) (cur : Nat × UInt8) (s : σ) :
    (resolveFrom (readDirBlock io) path cur s).2 = s := by
  induction path generalizing cur with
  | nil => rfl
  | cons segment rest ih =>
    have hread := readDirBlock_quiet hio s cur.1
    unfold resolveFrom
    split_ifs
    · rfl
    · rcases hblock : readDirBlock io s cur.1 with ⟨_ | buf, s'⟩
      · rw [hblock] at hread
        exact hread
      · rw [hblock] at hread
        obtain rfl : s' = s := hread
        dsimp only
        cases findDirEntry buf segment with
        | none => rfl
        | some next => exact ih next

theorem resolveFrom_disk (path : List (List UInt8)) (cur : Nat × UInt8) :
    (resolveFrom (readDirBlock disk) path cur d).1 = walk d path cur := by
  induction path generalizing cur with
  | nil => rfl
  | cons segment rest ih =>
    have hblock : readDirBlock disk d cur.1 =
        (if blockOf d cur.1 0 ≠ 0 then some (d (blockOf d cur.1 0)) else none, d) := by
      show (if blockOf d cur.1 0 ≠ 0 then _ else _) = _
      split_ifs <;> rfl
    rw [walk, resolveFrom, hblock]
    by_cases hdir : cur.2 ≠ ftDir
    · rw [if_pos hdir, if_pos hdir]
    · rw [if_neg hdir, if_neg hdir]
      by_cases hnone : blockOf d cur.1 0 = 0
      · rw [entries, if_pos hnone, if_neg (not_not.mpr hnone)]
        rfl
      · rw [entries, if_neg hnone, if_pos hnone]
        dsimp only
        unfold findDirEntry
        cases (readDirEntries (d (blockOf d cur.1 0))).find? fun e => e.name = segment with
        | none => rfl
        | some => exact ih _

variable (path : List UInt8)

theorem driverResolvePath_disk : driverResolvePath disk d path = (lookup d path, d) :=
  Prod.ext (resolveFrom_disk d _ _) (resolveFrom_quiet quiet_disk _ _ d)

theorem driverResolvePath_journal :
    driverResolvePath (journal d) [] path = (lookup d path, []) := by
  have h := (follows_disk d).driverResolvePath [] path
  rw [applyWrites_nil, driverResolvePath_disk] at h
  exact Prod.ext (congrArg Prod.fst h).symm (resolveFrom_quiet (quiet_journal d) _ _ [])

def parentOf (d : Disk) (path : List UInt8) : Nat :=
  ((lookup d (splitParentAndBasename path).1).map Prod.fst).getD 0

theorem parentInode_journal :
    parentInode (journal d) [] (splitParentAndBasename path).1 = (parentOf d path, []) := by
  unfold parentInode parentOf
  split_ifs with hnil
  · rw [hnil]
    rfl
  · rw [driverResolvePath_journal]

/-! ## Updates -/

inductive Update where
  | data (n : Nat) (b : ByteBlock)
  | inode (i mode size links : Nat) (blocks : List Nat)
  | blockBitmap (b : ByteBlock)
  | inodeBitmap (b : ByteBlock)
  | counters (n : Nat) (b : ByteBlock)

namespace Update

def write (d : Disk) : Update → Nat × ByteBlock
  | data n b => (n, b)
  | inode i mode size links blocks =>
    (inodeBlock i, writeInodeEntryFull (d (inodeBlock i)) i mode size links blocks)
  | blockBitmap b => (blockBitmapBlock, b)
  | inodeBitmap b => (inodeBitmapBlock, b)
  | counters n b => (n, b)

def apply (d : Disk) (u : Update) : Disk := Function.update d (u.write d).1 (u.write d).2

theorem apply_inode (d : Disk) (i mode size links : Nat) (blocks : List Nat) :
    (inode i mode size links blocks).apply d = update d (inodeBlock i)
      (writeInodeEntryFull (d (inodeBlock i)) i mode size links blocks) := rfl

/-- Data goes to data blocks, entries have numbers of the table, and the fields of an
entry fit. -/
def Placed : Update → Prop
  | data n _ => rootDataBlock ≤ n
  | inode i mode size _ blocks =>
    IsInode i ∧ mode < 2 ^ 16 ∧ size < 2 ^ 32 ∧ ∀ b ∈ blocks, b < 2 ^ 32
  | counters n _ => n = superblockBlock ∨ n = groupDescBlock
  | _ => True

end Update

def applyUpdates (d : Disk) (us : List Update) : Disk := us.foldl Update.apply d

def writesOf (d : Disk) : List Update → List (Nat × ByteBlock)
  | [] => []
  | u :: us => u.write d :: writesOf (u.apply d) us

@[simp] theorem applyUpdates_nil : applyUpdates d [] = d := rfl

@[simp] theorem applyUpdates_cons (u : Update) (us : List Update) :
    applyUpdates d (u :: us) = applyUpdates (u.apply d) us := rfl

theorem applyUpdates_append (us vs : List Update) :
    applyUpdates d (us ++ vs) = applyUpdates (applyUpdates d us) vs := foldl_append

variable (us : List Update)

theorem applyWrites_writesOf : applyWrites d (writesOf d us) = applyUpdates d us := by
  induction us generalizing d with
  | nil => rfl
  | cons u us ih => exact ih (u.apply d)

theorem writesOf_append (us vs : List Update) :
    writesOf d (us ++ vs) = writesOf d us ++ writesOf (applyUpdates d us) vs := by
  induction us generalizing d with
  | nil => rfl
  | cons u us ih => exact congrArg _ (ih (u.apply d))

@[simp] theorem length_writesOf : (writesOf d us).length = us.length := by
  induction us generalizing d with
  | nil => rfl
  | cons u us ih => rw [writesOf, length_cons, ih, length_cons]

theorem take_writesOf (k : Nat) : (writesOf d us).take k = writesOf d (us.take k) := by
  induction us generalizing d k with
  | nil => rw [writesOf, take_nil, take_nil, writesOf]
  | cons u us ih =>
    cases k with
    | zero => rfl
    | succ => rw [writesOf, take_succ_cons, ih, take_succ_cons, writesOf]

section

variable {d} {u : Update} {i j k n mode size links : Nat} {blocks : List Nat} {b : ByteBlock}

theorem inodeOf_update (hn : n < 5 ∨ 8 < n) (hj : IsInode j) :
    inodeOf (update d n b) j = inodeOf d j := by
  have hblock := hj.block
  rw [inodeOf, inodeOf, update_of_ne (by omega)]

theorem inodeOf_apply (hu : u.Placed) (hj : IsInode j)
    (hne : ∀ i mode size links blocks, u = .inode i mode size links blocks → j ≠ i) :
    inodeOf (u.apply d) j = inodeOf d j := by
  cases u with
  | data n =>
    have hn : 9 ≤ n := hu
    exact inodeOf_update (.inr (show 8 < n by omega)) hj
  | inode i =>
    have hij := hne _ _ _ _ _ rfl
    rw [inodeOf, Update.apply_inode]
    by_cases hblock : inodeBlock j = inodeBlock i
    · rw [hblock, update_self, readInodeEntry_write_of_ne hu.1 hj hblock hij, ← hblock]
      rfl
    · rw [update_of_ne hblock]
      rfl
  | blockBitmap => exact inodeOf_update (.inl (show blockBitmapBlock < 5 by decide)) hj
  | inodeBitmap => exact inodeOf_update (.inl (show inodeBitmapBlock < 5 by decide)) hj
  | counters n =>
    have hn : n < 5 := by obtain rfl | rfl := hu <;> decide
    exact inodeOf_update (.inl hn) hj

theorem inodeOf_inode (hu : (Update.inode i mode size links blocks).Placed) :
    (inodeOf ((Update.inode i mode size links blocks).apply d) i).mode = mode ∧
      (inodeOf ((Update.inode i mode size links blocks).apply d) i).size = size ∧
      ∀ k < 12, blockOf ((Update.inode i mode size links blocks).apply d) i k =
        blocks.getD k 0 := by
  obtain ⟨-, hmode, hsize, hblocks⟩ := hu
  have hself : inodeOf ((Update.inode i mode size links blocks).apply d) i =
      readInodeEntry (writeInodeEntryFull (d (inodeBlock i)) i mode size links blocks) i := by
    rw [inodeOf, Update.apply_inode, update_self]
  obtain ⟨hm, hs, hb⟩ := readInodeEntry_write (d (inodeBlock i)) i mode size links blocks
  unfold blockOf
  rw [hself]
  refine ⟨hm.trans (Nat.mod_eq_of_lt hmode), hs.trans (Nat.mod_eq_of_lt hsize), fun k hk => ?_⟩
  rw [hb k hk]
  refine Nat.mod_eq_of_lt ?_
  rw [getD_eq_getElem?_getD]
  cases hget : blocks[k]? with
  | none => decide
  | some block => exact hblocks block (mem_of_getElem? hget)

theorem apply_of_data (hu : u.Placed) (hn : rootDataBlock ≤ n)
    (hne : ∀ m b, u = .data m b → n ≠ m) : u.apply d n = d n := by
  refine update_of_ne ?_ _ _
  have hn' : 9 ≤ n := hn
  cases u with
  | data m b => exact hne m b rfl
  | inode i =>
    have hblock := hu.1.block
    show n ≠ inodeBlock i
    omega
  | blockBitmap => show n ≠ 3; omega
  | inodeBitmap => show n ≠ 4; omega
  | counters m =>
    obtain rfl | rfl := hu
    · show n ≠ 1; omega
    · show n ≠ 2; omega

theorem apply_blockBitmapBlock (hu : u.Placed) (hne : ∀ b, u ≠ .blockBitmap b) :
    u.apply d blockBitmapBlock = d blockBitmapBlock := by
  refine update_of_ne ?_ _ _
  cases u with
  | data m =>
    have hm : 9 ≤ m := hu
    show 3 ≠ m
    omega
  | inode i =>
    have hblock := hu.1.block
    show 3 ≠ inodeBlock i
    omega
  | blockBitmap b => exact absurd rfl (hne b)
  | inodeBitmap => exact (by decide : blockBitmapBlock ≠ inodeBitmapBlock)
  | counters m =>
    show 3 ≠ m
    obtain rfl | rfl := hu <;> decide

theorem apply_inodeBitmapBlock (hu : u.Placed) (hne : ∀ b, u ≠ .inodeBitmap b) :
    u.apply d inodeBitmapBlock = d inodeBitmapBlock := by
  refine update_of_ne ?_ _ _
  cases u with
  | data m =>
    have hm : 9 ≤ m := hu
    show 4 ≠ m
    omega
  | inode i =>
    have hblock := hu.1.block
    show 4 ≠ inodeBlock i
    omega
  | blockBitmap => exact (by decide : inodeBitmapBlock ≠ blockBitmapBlock)
  | inodeBitmap b => exact absurd rfl (hne b)
  | counters m =>
    show 4 ≠ m
    obtain rfl | rfl := hu <;> decide

/-! ## Several updates -/

variable {us}

theorem applyUpdates_keeps {α : Type*} (view : Disk → α)
    (h : ∀ u ∈ us, ∀ d, view (u.apply d) = view d) (d : Disk) :
    view (applyUpdates d us) = view d := by
  induction us generalizing d with
  | nil => rfl
  | cons u us ih =>
    rw [applyUpdates_cons, ih fun v hv => h v (mem_cons_of_mem _ hv), h u mem_cons_self]

section

variable (hus : ∀ u ∈ us, u.Placed)

include hus

theorem inodeOf_applyUpdates (hj : IsInode j)
    (hne : ∀ i mode size links blocks, .inode i mode size links blocks ∈ us → j ≠ i) :
    inodeOf (applyUpdates d us) j = inodeOf d j := by
  refine applyUpdates_keeps (inodeOf · j) (fun u hu d => inodeOf_apply (hus u hu) hj ?_) d
  rintro i mode size links blocks rfl
  exact hne i mode size links blocks hu

theorem applyUpdates_of_data (hn : rootDataBlock ≤ n)
    (hne : ∀ m b, .data m b ∈ us → n ≠ m) : applyUpdates d us n = d n := by
  refine applyUpdates_keeps (· n) (fun u hu d => apply_of_data (hus u hu) hn ?_) d
  rintro m b rfl
  exact hne m b hu

theorem applyUpdates_inodeBitmapBlock (hne : ∀ b, .inodeBitmap b ∉ us) :
    applyUpdates d us inodeBitmapBlock = d inodeBitmapBlock := by
  refine applyUpdates_keeps (· inodeBitmapBlock)
    (fun u hu d => apply_inodeBitmapBlock (hus u hu) ?_) d
  rintro b rfl
  exact hne b hu

end

end

end AgenticOS.BlkDriver
