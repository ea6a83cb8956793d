import AgenticOS.Foundation.ByteBlock
import AgenticOS.Memory.Bitmap

/-!
# The file system format

`kernel_common/src/ext2.rs`, which works on one block at a time. A block is a
function from offsets to bytes; what the source reads and writes lies below
`BLOCK_SIZE`. Inode and block numbers are natural numbers below `2 ^ 32`.

The three loops over a directory block go from record to record in the same way
and differ in what they do with one; `records` are the records they come to.
-/

namespace AgenticOS.Ext2

open Foundation

def blockSize : Nat := 1024
def magic : Nat := 0xEF53

def superblockBlock : Nat := 1
def groupDescBlock : Nat := 2
def blockBitmapBlock : Nat := 3
def inodeBitmapBlock : Nat := 4
def inodeTableStartBlock : Nat := 5
def rootDataBlock : Nat := 9
def fileDataBlock : Nat := 10
def totalBlocks : Nat := 64
def numInodes : Nat := 32
def inodesPerBlock : Nat := 8
def rootInode : Nat := 2
def fileInode : Nat := 11

def sIfReg : Nat := 0x8000
def sIfDir : Nat := 0x4000
def mode644 : Nat := 0o644
def mode755 : Nat := 0o755

def ftReg : UInt8 := 1
def ftDir : UInt8 := 2

def zeroBlock : ByteBlock := fun _ => 0

/-! ## Inodes -/

structure InodeInfo where
  mode : Nat
  size : Nat
  links : Nat
  blocksCount : Nat
  directBlocks : List Nat
  deriving DecidableEq

/-- The subtraction wraps for inode 0. -/
def inodeIndex (inode : Nat) : Nat := (inode + (2 ^ 32 - 1)) % 2 ^ 32

def inodeBlock (inode : Nat) : Nat := inodeTableStartBlock + inodeIndex inode / inodesPerBlock

def inodeOffset (inode : Nat) : Nat := inodeIndex inode % inodesPerBlock * 128

def writeBlocks (b : ByteBlock) (off : Nat) : List Nat → ByteBlock
  | [] => b
  | block :: rest => writeBlocks (b.setField off 4 block) (off + 4) rest

def writeEntry (table : ByteBlock) (off mode size links : Nat) (directBlocks : List Nat) :
    ByteBlock :=
  let b := table.patch off (List.replicate 128 0)
  let b := b.setField (off + 0x00) 2 mode
  let b := b.setField (off + 0x04) 4 size
  let b := b.setField (off + 0x1A) 2 links
  let b := b.setField (off + 0x1C) 4 (directBlocks.length * blockSize / 512)
  writeBlocks b (off + 0x28) (directBlocks.take 12)

def writeInodeEntryFull (table : ByteBlock) (inode mode size links : Nat)
    (directBlocks : List Nat) : ByteBlock :=
  writeEntry table (inodeOffset inode) mode size links directBlocks

def readInodeEntry (table : ByteBlock) (inode : Nat) : InodeInfo :=
  let off := inodeOffset inode
  { mode := table.field (off + 0x00) 2, size := table.field (off + 0x04) 4,
    links := table.field (off + 0x1A) 2,
    blocksCount := table.field (off + 0x1C) 4 / (blockSize / 512),
    directBlocks := (List.range 12).map fun i => table.field (off + 0x28 + i * 4) 4 }

/-! ## Bitmaps -/

def bitAt (b : ByteBlock) (bit : Nat) : Bool := b (bit / 8) &&& Bitmap.mask bit != 0

def setBit (b : ByteBlock) (bit : Nat) : ByteBlock :=
  Function.update b (bit / 8) (b (bit / 8) ||| Bitmap.mask bit)

def clearBit (b : ByteBlock) (bit : Nat) : ByteBlock :=
  Function.update b (bit / 8) (b (bit / 8) &&& ~~~ Bitmap.mask bit)

/-- The first number from `first` to `last` whose bit is clear, and the bitmap
with that bit set. -/
def allocBit (bitmap : ByteBlock) (first last : Nat) : Option (Nat × ByteBlock) :=
  ((List.range' first (last + 1 - first)).find? fun n =>
    (n - 1) / 8 < blockSize && !bitAt bitmap (n - 1)).map fun n => (n, setBit bitmap (n - 1))

def freeBit (bitmap : ByteBlock) (n : Nat) : ByteBlock :=
  if 0 < n ∧ (n - 1) / 8 < blockSize then clearBit bitmap (n - 1) else bitmap

def allocBlock (blockBitmap : ByteBlock) (total : Nat) : Option (Nat × ByteBlock) :=
  allocBit blockBitmap (fileDataBlock + 1) total

def freeBlock (blockBitmap : ByteBlock) (block : Nat) : ByteBlock := freeBit blockBitmap block

def allocInode (inodeBitmap : ByteBlock) (total : Nat) : Option (Nat × ByteBlock) :=
  allocBit inodeBitmap (fileInode + 1) total

def freeInode (inodeBitmap : ByteBlock) (inode : Nat) : ByteBlock := freeBit inodeBitmap inode

/-! ## Directory blocks -/

/-- Only the low byte of the name's length is stored. -/
def writeDirEntry (block : ByteBlock) (offset inode recLen : Nat) (fileType : UInt8)
    (name : List UInt8) : ByteBlock :=
  let b := block.setField offset 4 inode
  let b := b.setField (offset + 4) 2 recLen
  let b := b.patch (offset + 6) [UInt8.ofNat name.length, fileType]
  b.patch (offset + 8) name

def dot : List UInt8 := [0x2E]
def dotDot : List UInt8 := [0x2E, 0x2E]

def initDirBlock (dirInode parentInode : Nat) : ByteBlock :=
  let b := writeDirEntry zeroBlock 0 dirInode 12 ftDir dot
  writeDirEntry b 12 parentInode (blockSize - 12) ftDir dotDot

structure DirRecord where
  off : Nat
  inode : Nat
  recLen : Nat
  nameLen : Nat
  fileType : UInt8
  deriving DecidableEq

def recordAt (b : ByteBlock) (off : Nat) : DirRecord :=
  { off := off, inode := b.field off 4, recLen := b.field (off + 4) 2,
    nameLen := (b (off + 6)).toNat, fileType := b (off + 7) }

/-- The records from `off` on. Each takes at least eight bytes. -/
def recordsFrom (b : ByteBlock) : Nat → Nat → List DirRecord
  | 0, _ => []
  | fuel + 1, off =>
    if blockSize < off + 8 then []
    else
      let r := recordAt b off
      if r.recLen < 8 ∨ blockSize < off + r.recLen then []
      else r :: recordsFrom b fuel (off + r.recLen)

def records (b : ByteBlock) : List DirRecord := recordsFrom b (blockSize / 8) 0

structure DirEntry where
  inode : Nat
  fileType : UInt8
  name : List UInt8
  deriving DecidableEq

def DirRecord.entry (b : ByteBlock) (r : DirRecord) : Option DirEntry :=
  if r.inode ≠ 0 ∧ 0 < r.nameLen ∧ r.off + 8 + r.nameLen ≤ r.off + r.recLen then
    some ⟨r.inode, r.fileType, b.window (r.off + 8) r.nameLen⟩
  else none

def readDirEntries (b : ByteBlock) : List DirEntry := (records b).filterMap (DirRecord.entry b)

def findDirEntry (b : ByteBlock) (target : List UInt8) : Option (Nat × UInt8) :=
  ((readDirEntries b).find? fun e => e.name = target).map fun e => (e.inode, e.fileType)

def roundUp4 (n : Nat) : Nat := (n + 3) / 4 * 4

def DirRecord.actualSize (r : DirRecord) : Nat :=
  if r.inode = 0 then 0 else roundUp4 (8 + r.nameLen)

/-- Whether a record has room for `needed` bytes after its own. -/
def DirRecord.hasRoom (needed : Nat) (r : DirRecord) : Bool := r.actualSize + needed ≤ r.recLen

/-- An unused record is taken over, and one in use is split. -/
def addDirEntry (b : ByteBlock) (inode : Nat) (fileType : UInt8) (name : List UInt8) :
    Option ByteBlock :=
  ((records b).find? (DirRecord.hasRoom (roundUp4 (8 + name.length)))).map fun r =>
    if r.inode = 0 then writeDirEntry b r.off inode r.recLen fileType name
    else
      let b := b.setField (r.off + 4) 2 r.actualSize
      writeDirEntry b (r.off + r.actualSize) inode (r.recLen - r.actualSize) fileType name

/-- The loop of `remove_dir_entry` after the record `prev`: the entry's record is
merged into the one before it, or marked unused where there is none. -/
def removeFrom (b : ByteBlock) (target : List UInt8) :
    Option DirRecord → List DirRecord → Option (Nat × ByteBlock)
  | _, [] => none
  | prev, r :: rest =>
    if (r.entry b).any fun e => e.name = target then
      match prev with
      | some p => some (r.inode, b.setField (p.off + 4) 2 (p.recLen + r.recLen))
      | none => some (r.inode, b.setField r.off 4 0)
    else removeFrom b target (some r) rest

def removeDirEntry (b : ByteBlock) (target : List UInt8) : Option (Nat × ByteBlock) :=
  removeFrom b target none (records b)

/-! ## Paths

A path is a string of bytes; the separator is a single byte of its own in every
UTF-8 string. -/

def slash : UInt8 := 0x2F

def isSlash (c : UInt8) : Bool := c == slash

def trimSlashes (path : List UInt8) : List UInt8 :=
  ((path.dropWhile isSlash).reverse.dropWhile isSlash).reverse

def splitParentAndBasename (path : List UInt8) : List UInt8 × List UInt8 :=
  let trimmed := trimSlashes path
  let leaf := (trimmed.reverse.takeWhile fun c => !isSlash c).reverse
  (trimmed.take (trimmed.length - leaf.length - 1), leaf)

/-- `PathComponentIterator::next`. -/
def nextComponent (remainder : List UInt8) : Option (List UInt8 × List UInt8) :=
  if remainder = [] then none
  else some (remainder.takeWhile fun c => !isSlash c,
    (remainder.dropWhile fun c => !isSlash c).dropWhile isSlash)

/-- What the iterator yields, read off the bytes: `acc` is the part of the current
component that has been seen, the last byte first. -/
def componentsFrom (acc : List UInt8) : List UInt8 → List (List UInt8)
  | [] => if acc = [] then [] else [acc.reverse]
  | c :: rest =>
    if isSlash c then
      (if acc = [] then [] else [acc.reverse]) ++ componentsFrom [] rest
    else componentsFrom (c :: acc) rest

def components (path : List UInt8) : List (List UInt8) := componentsFrom [] (trimSlashes path)

/-- The walk of `resolve_path` over the remaining components. -/
def resolveFrom {σ : Type} (readDirBlock : σ → Nat → Option ByteBlock × σ) :
    List (List UInt8) → Nat × UInt8 → σ → Option (Nat × UInt8) × σ
  | [], cur, s => (some cur, s)
  | segment :: rest, cur, s =>
    if cur.2 ≠ ftDir then (none, s)
    else
      match readDirBlock s cur.1 with
      | (none, s) => (none, s)
      | (some buf, s) =>
        match findDirEntry buf segment with
        | none => (none, s)
        | some next => resolveFrom readDirBlock rest next s

/-! ## Counters and the blocks of a fresh file system -/

/-- A counter of `width` bytes as an `i32`, changed and kept from going below 0. -/
def bumpCount (b : ByteBlock) (off width : Nat) (delta : Int) : ByteBlock :=
  b.setField off width (((b.field off width : Int) + delta).bmod (2 ^ 32)).toNat

def updateSuperblock (sb : ByteBlock) (blockDelta inodeDelta : Int) : ByteBlock :=
  bumpCount (bumpCount sb 0x0C 4 blockDelta) 0x10 4 inodeDelta

def updateGroupDesc (gd : ByteBlock) (blockDelta inodeDelta dirDelta : Int) : ByteBlock :=
  bumpCount (bumpCount (bumpCount gd 0x0C 2 blockDelta) 0x0E 2 inodeDelta) 0x10 2 dirDelta

def isFormatted (superblock : ByteBlock) : Bool := superblock.field 0x38 2 == magic

def putFields (b : ByteBlock) (fields : List (Nat × Nat × Nat)) : ByteBlock :=
  fields.foldl (fun b f => b.setField f.1 f.2.1 f.2.2) b

def buildSuperblock : ByteBlock :=
  putFields zeroBlock
    [(0x00, 4, numInodes), (0x04, 4, totalBlocks), (0x08, 4, 0),
     (0x0C, 4, totalBlocks - (fileDataBlock + 1)), (0x10, 4, numInodes - fileInode), (0x14, 4, 1),
     (0x18, 4, 0), (0x1C, 4, 0), (0x20, 4, totalBlocks), (0x24, 4, totalBlocks),
     (0x28, 4, numInodes), (0x38, 2, magic), (0x3A, 2, 1), (0x3C, 2, 1), (0x4C, 4, 0)]

def buildGroupDesc : ByteBlock :=
  putFields zeroBlock
    [(0x00, 4, blockBitmapBlock), (0x04, 4, inodeBitmapBlock), (0x08, 4, inodeTableStartBlock),
     (0x0C, 2, totalBlocks - (fileDataBlock + 1)), (0x0E, 2, numInodes - fileInode), (0x10, 2, 1)]

def firstBits (last : Nat) : ByteBlock :=
  (List.range' 1 last).foldl (fun b n => setBit b (n - 1)) zeroBlock

def buildBlockBitmap : ByteBlock := firstBits fileDataBlock
def buildInodeBitmap : ByteBlock := firstBits fileInode

def writeRootInode (table : ByteBlock) : ByteBlock :=
  writeEntry table ((rootInode - 1) * 128) (sIfDir ||| mode755) blockSize 2 [rootDataBlock]

/-- The file's blocks follow each other from `FILE_DATA_BLOCK` on. -/
def writeFileInode (table : ByteBlock) (size : Nat) : ByteBlock :=
  let numBlocks := if 0 < size then (size + blockSize - 1) / blockSize else 1
  writeEntry table ((fileInode - inodesPerBlock - 1) * 128) (sIfReg ||| mode644) size 1
    (List.range' fileDataBlock numBlocks)

def buildRootDirBlock (fileName : List UInt8) : ByteBlock :=
  let b := writeDirEntry zeroBlock 0 rootInode 12 ftDir dot
  let b := writeDirEntry b 12 rootInode 12 ftDir dotDot
  writeDirEntry b 24 fileInode (blockSize - 24) ftReg fileName

def buildFileDataBlock (content : List UInt8) : ByteBlock :=
  zeroBlock.patch 0 (content.take blockSize)

end AgenticOS.Ext2
