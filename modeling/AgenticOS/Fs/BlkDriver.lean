import AgenticOS.Driver.FileWire
import AgenticOS.Driver.Replies
import AgenticOS.Fs.Ext2

/-!
# The file server

The service loop of `user_rs/virtio_blk_driver/src/main.rs`: what it reads and
writes, and what it replies, for one message. The device is a parameter, since
the loop does not look at the status of a transfer: a read that fails leaves
some other bytes in the buffer. So are the contents of the buffers that the
driver does not initialise. A slice that is out of range ends the driver.
-/

namespace AgenticOS.BlkDriver

open Foundation Ext2
open Driver (ReplyRequest)

structure BlockDevice (σ : Type) where
  read : σ → Nat → ByteBlock × σ
  write : σ → Nat → ByteBlock → σ

/-! ## UTF-8

`core::str::from_utf8` rejects overlong forms, surrogates and what lies beyond
the last code point. -/

def isContinuation (c : UInt8) : Bool := 0x80 ≤ c && c ≤ 0xBF

def secondByteOk (c d : UInt8) : Bool :=
  if c = 0xE0 then 0xA0 ≤ d && d ≤ 0xBF
  else if c = 0xED then 0x80 ≤ d && d ≤ 0x9F
  else if c = 0xF0 then 0x90 ≤ d && d ≤ 0xBF
  else if c = 0xF4 then 0x80 ≤ d && d ≤ 0x8F
  else isContinuation d

def validUtf8 : List UInt8 → Bool
  | [] => true
  | c :: rest =>
    if c < 0x80 then validUtf8 rest
    else if 0xC2 ≤ c && c ≤ 0xDF then
      match rest with
      | d :: rest => isContinuation d && validUtf8 rest
      | _ => false
    else if 0xE0 ≤ c && c ≤ 0xEF then
      match rest with
      | d :: e :: rest => secondByteOk c d && isContinuation e && validUtf8 rest
      | _ => false
    else if 0xF0 ≤ c && c ≤ 0xF4 then
      match rest with
      | d :: e :: f :: rest =>
        secondByteOk c d && isContinuation e && isContinuation f && validUtf8 rest
      | _ => false
    else false

/-- `from_utf8(..).unwrap_or("")`. -/
def pathOf (bytes : List UInt8) : List UInt8 := if validUtf8 bytes then bytes else []

/-- What the syscall that fetches the request's payload returned: the offset and
the bytes, or nothing. -/
abbrev Fetched := Option (Nat × List UInt8)

/-- The path of a directory request. A payload that is not there is empty. -/
def Fetched.path (fetched : Fetched) : List UInt8 :=
  match fetched with
  | some (_, bytes) => pathOf bytes
  | none => []

section

variable {σ : Type} (io : BlockDevice σ)

/-! ## Paths on the disk -/

def readDirBlock (s : σ) (dirInode : Nat) : Option ByteBlock × σ :=
  let table := io.read s (inodeBlock dirInode)
  let block := (readInodeEntry table.1 dirInode).directBlocks.getD 0 0
  if block ≠ 0 then
    let buf := io.read table.2 block
    (some buf.1, buf.2)
  else (none, table.2)

def driverResolvePath (s : σ) (path : List UInt8) : Option (Nat × UInt8) × σ :=
  resolveFrom (readDirBlock io) (components path) (rootInode, ftDir) s

def parentInode (s : σ) (parentPath : List UInt8) : Nat × σ :=
  if parentPath = [] then (rootInode, s)
  else
    let found := driverResolvePath io s parentPath
    ((found.1.map Prod.fst).getD 0, found.2)

/-! ## Looking up and listing -/

def serveLookup (s : σ) (id : UInt64) (fetched : Fetched) : List ReplyRequest × σ :=
  match fetched with
  | none => ([], s)
  | some (_, bytes) =>
    match driverResolvePath io s (pathOf bytes) with
    | (some (inode, fileType), s) =>
      let table := io.read s (inodeBlock inode)
      let info := readInodeEntry table.1 inode
      ([.ofBytes id (leBytes 4 inode ++ [fileType, 0, 0, 0] ++ leBytes 4 info.size ++
        [0, 0, 0, 0])], table.2)
    | (none, s) => ([.empty id], s)

def dirSlot (e : DirEntry) : List UInt8 :=
  let name := e.name.take 56
  leBytes 4 e.inode ++ [e.fileType, UInt8.ofNat e.name.length, 0, 0] ++ name ++
    List.replicate (56 - name.length) 0

def serveReaddir (s : σ) (id : UInt64) (fetched : Fetched) : List ReplyRequest × σ :=
  let path := fetched.path
  let dir := if path = [] ∨ path = [slash] then (rootInode, s)
    else
      let found := driverResolvePath io s path
      ((found.1.map Prod.fst).getD 0, found.2)
  if dir.1 ≠ 0 then
    match readDirBlock io dir.2 dir.1 with
    | (some block, s) => ([.ofBytes id (((readDirEntries block).take 64).flatMap dirSlot)], s)
    | (none, s) => ([.ofBytes id []], s)
  else ([.empty id], dir.2)

/-! ## Making and removing entries -/

structure NodeKind where
  fileType : UInt8
  mode : Nat
  size : Nat
  links : Nat
  /-- The first block of the node, from its inode and its parent's. -/
  content : Nat → Nat → ByteBlock
  /-- Whether the parent gets another link. -/
  linksParent : Bool
  dirDelta : Int

def dirKind : NodeKind :=
  { fileType := ftDir, mode := sIfDir ||| mode755, size := blockSize, links := 2,
    content := initDirBlock, linksParent := true, dirDelta := 1 }

def fileKind (junk : ByteBlock) : NodeKind :=
  { fileType := ftReg, mode := sIfReg ||| mode644, size := 0, links := 1,
    content := fun _ _ => junk, linksParent := false, dirDelta := 0 }

/-- The counters of the superblock and the group descriptor. -/
def updateAllocCounts (s : σ) (blockDelta inodeDelta dirDelta : Int) : σ :=
  let sb := io.read s superblockBlock
  let gd := io.read sb.2 groupDescBlock
  let s := io.write gd.2 groupDescBlock (updateGroupDesc gd.1 blockDelta inodeDelta dirDelta)
  io.write s superblockBlock (updateSuperblock sb.1 blockDelta inodeDelta)

def linkParent (s : σ) (parent : Nat) (table : ByteBlock) (info : InodeInfo) : σ :=
  io.write s (inodeBlock parent)
    (writeInodeEntryFull table parent info.mode info.size (info.links + 1) info.directBlocks)

/-- The writes of MKDIR and CREATE after the new block: the parent's directory,
its inode, the new inode, the bitmaps, the counters. Returns the new inode, or 0
if the directory is full. -/
def commitNode (kind : NodeKind) (s : σ) (parent inode block : Nat)
    (blockBitmap inodeBitmap : ByteBlock) (leaf : List UInt8) : Nat × σ :=
  let table := io.read s (inodeBlock parent)
  let info := readInodeEntry table.1 parent
  let dir := io.read table.2 (info.directBlocks.getD 0 0)
  match addDirEntry dir.1 inode kind.fileType leaf with
  | none => (0, dir.2)
  | some dirBlock =>
    let s := io.write dir.2 (info.directBlocks.getD 0 0) dirBlock
    let s := if kind.linksParent then linkParent io s parent table.1 info else s
    let newTable := io.read s (inodeBlock inode)
    let s := io.write newTable.2 (inodeBlock inode)
      (writeInodeEntryFull newTable.1 inode kind.mode kind.size kind.links [block])
    let s := io.write s blockBitmapBlock blockBitmap
    let s := io.write s inodeBitmapBlock inodeBitmap
    (inode, updateAllocCounts io s (-1) (-1) kind.dirDelta)

def makeNode (kind : NodeKind) (s : σ) (path : List UInt8) : Nat × σ :=
  let split := splitParentAndBasename path
  let parent := parentInode io s split.1
  if parent.1 ≠ 0 ∧ split.2 ≠ [] then
    let blockBitmap := io.read parent.2 blockBitmapBlock
    let inodeBitmap := io.read blockBitmap.2 inodeBitmapBlock
    match allocBlock blockBitmap.1 totalBlocks, allocInode inodeBitmap.1 numInodes with
    | some (block, blockBitmap), some (inode, inodeBitmap') =>
      let s := io.write inodeBitmap.2 block (kind.content inode parent.1)
      commitNode io kind s parent.1 inode block blockBitmap inodeBitmap' split.2
    | _, _ => (0, inodeBitmap.2)
  else (0, parent.2)

def nodeReply (id : UInt64) (inode : Nat) : ReplyRequest :=
  if inode ≠ 0 then .ofBytes id (leBytes 4 inode) else .empty id

def serveMkdir (s : σ) (id : UInt64) (fetched : Fetched) : List ReplyRequest × σ :=
  let made := makeNode io dirKind s fetched.path
  ([nodeReply id made.1], made.2)

def serveCreate (junk : ByteBlock) (s : σ) (id : UInt64) (fetched : Fetched) :
    List ReplyRequest × σ :=
  let made := makeNode io (fileKind junk) s fetched.path
  ([nodeReply id made.1], made.2)

/-- The bits and counters of an inode that has lost its entry. -/
def releaseNode (s : σ) (inode : Nat) : σ :=
  let table := io.read s (inodeBlock inode)
  let info := readInodeEntry table.1 inode
  let blockBitmap := io.read table.2 blockBitmapBlock
  let inodeBitmap := io.read blockBitmap.2 inodeBitmapBlock
  let blocks := info.directBlocks.filter (· ≠ 0)
  let s := io.write inodeBitmap.2 blockBitmapBlock (blocks.foldl freeBlock blockBitmap.1)
  let s := io.write s inodeBitmapBlock (freeInode inodeBitmap.1 inode)
  updateAllocCounts io s blocks.length 1 (if info.mode &&& sIfDir ≠ 0 then -1 else 0)

def unlink (s : σ) (path : List UInt8) : Bool × σ :=
  let split := splitParentAndBasename path
  let parent := parentInode io s split.1
  if parent.1 ≠ 0 ∧ split.2 ≠ [] then
    let table := io.read parent.2 (inodeBlock parent.1)
    let block := (readInodeEntry table.1 parent.1).directBlocks.getD 0 0
    let dir := io.read table.2 block
    match removeDirEntry dir.1 split.2 with
    | none => (false, dir.2)
    | some (inode, dirBlock) => (true, releaseNode io (io.write dir.2 block dirBlock) inode)
  else (false, parent.2)

def serveUnlink (s : σ) (id : UInt64) (fetched : Fetched) : List ReplyRequest × σ :=
  let done := unlink io s fetched.path
  ([.ofBytes id [if done.1 then 1 else 0]], done.2)

/-! ## Writing and reading -/

/-- The direct blocks with one at `idx`, unless none is free. -/
def ensureBlock (directBlocks : List Nat) (idx : Nat) (s : σ) : Option (List Nat) × σ :=
  if directBlocks.getD idx 0 = 0 then
    let bitmap := io.read s blockBitmapBlock
    match allocBlock bitmap.1 totalBlocks with
    | some (block, bitmap') =>
      let s := io.write bitmap.2 blockBitmapBlock bitmap'
      (some (directBlocks.set idx block), updateAllocCounts io s (-1) 0 0)
    | none => (none, bitmap.2)
  else (some directBlocks, s)

/-- The bytes of one turn that go into a block. A block that is written in full is
not read. -/
def writeChunk (junk : ByteBlock) (s : σ) (block blockOffset : Nat) (chunk : List UInt8) : σ :=
  let old := if blockOffset ≠ 0 ∨ chunk.length < blockSize then io.read s block else (junk, s)
  io.write old.2 block (old.1.patch blockOffset chunk)

/-- The loop, with a bound on the turns that are left: the direct blocks and the
number of bytes written. -/
def writeLoop (junk : ByteBlock) (offset : Nat) (data : List UInt8) :
    Nat → List Nat → Nat → σ → List Nat × Nat × σ
  | 0, directBlocks, written, s => (directBlocks, written, s)
  | turns + 1, directBlocks, written, s =>
    if written < data.length then
      let idx := (offset + written) / blockSize
      let blockOffset := (offset + written) % blockSize
      let chunkLen := min (blockSize - blockOffset) (data.length - written)
      if 12 ≤ idx then (directBlocks, written, s)
      else
        match ensureBlock io directBlocks idx s with
        | (none, s) => (directBlocks, written, s)
        | (some directBlocks, s) =>
          writeLoop junk offset data turns directBlocks (written + chunkLen)
            (writeChunk io junk s (directBlocks.getD idx 0) blockOffset
              (slice data written chunkLen))
    else (directBlocks, written, s)

/-- The slice of the direct blocks that goes into the inode is out of range for a
file of more than twelve blocks. -/
def serveWrite (junk : ByteBlock) (s : σ) (id : UInt64) (inode : Nat) (fetched : Fetched) :
    Option (List ReplyRequest × σ) :=
  match fetched with
  | none => some ([], s)
  | some (_, []) => some ([], s)
  | some (offset, data) =>
    let table := io.read s (inodeBlock inode)
    let info := readInodeEntry table.1 inode
    let (directBlocks, written, s) :=
      writeLoop io junk offset data data.length info.directBlocks 0 table.2
    let newSize := max (offset + written) info.size % 2 ^ 32
    let numBlocks := (newSize + blockSize - 1) / blockSize
    if directBlocks.length < numBlocks then none
    else
      some ([⟨id, none, written⟩], io.write s (inodeBlock inode)
        (writeInodeEntryFull table.1 inode info.mode newSize info.links
          (directBlocks.take numBlocks)))

def readLoop (directBlocks : List Nat) (readLen : Nat) :
    Nat → Nat → ByteBlock → σ → ByteBlock × σ
  | 0, _, out, s => (out, s)
  | turns + 1, idx, out, s =>
    let block := directBlocks.getD idx 0
    if block ≠ 0 then
      let buf := io.read s block
      let len := min blockSize (readLen - idx * blockSize)
      readLoop directBlocks readLen turns (idx + 1)
        (out.patch (idx * blockSize) (buf.1.window 0 len)) buf.2
    else readLoop directBlocks readLen turns (idx + 1) out s

def serveRead (junk : ByteBlock) (s : σ) (id : UInt64) (inode : Nat) : List ReplyRequest × σ :=
  let table := io.read s (inodeBlock inode)
  let info := readInodeEntry table.1 inode
  let readLen := min info.size 4096
  let numBlocks := (readLen + blockSize - 1) / blockSize
  let out := readLoop io info.directBlocks readLen (min numBlocks 12) 0 junk table.2
  ([.ofBytes id (out.1.window 0 readLen)], out.2)

/-! ## One turn of the loop -/

def serve (junk : ByteBlock) (s : σ) (command : Driver.FileCommand) (fetched : Fetched) :
    Option (List ReplyRequest × σ) :=
  match command.op with
  | .lookup => some (serveLookup io s command.requestId fetched)
  | .readdir => some (serveReaddir io s command.requestId fetched)
  | .mkdir => some (serveMkdir io s command.requestId fetched)
  | .create => some (serveCreate io junk s command.requestId fetched)
  | .unlink => some (serveUnlink io s command.requestId fetched)
  | .write => serveWrite io junk s command.requestId command.targetInode.toNat fetched
  | .read => some (serveRead io junk s command.requestId command.targetInode.toNat)

/-! ## Boot -/

def bytesOf (text : String) : List UInt8 := text.toList.map fun c => UInt8.ofNat c.toNat

def fileContent : List UInt8 := bytesOf "Agentic OS Phase 4 persisted this.\n"
def fileName : List UInt8 := bytesOf "greeting.txt"

/-- The blocks of a fresh file system in the order they are written, the
superblock last. -/
def formatWrites : List (Nat × ByteBlock) :=
  [(groupDescBlock, buildGroupDesc), (blockBitmapBlock, buildBlockBitmap),
   (inodeBitmapBlock, buildInodeBitmap), (inodeTableStartBlock, writeRootInode zeroBlock),
   (inodeTableStartBlock + 1, writeFileInode zeroBlock fileContent.length),
   (inodeTableStartBlock + 2, zeroBlock), (inodeTableStartBlock + 3, zeroBlock),
   (rootDataBlock, buildRootDirBlock fileName), (fileDataBlock, buildFileDataBlock fileContent),
   (superblockBlock, buildSuperblock)]

/-- `run_filesystem_proof`: format unless that has been done, and read the file
back. -/
def runFilesystemProof (s : σ) : σ :=
  let sb := io.read s superblockBlock
  let s := if isFormatted sb.1 then sb.2
    else formatWrites.foldl (fun s w => io.write s w.1 w.2) sb.2
  (io.read (io.read s (inodeTableStartBlock + 1)).2 fileDataBlock).2

/-- `audit_ring::MAGIC`. -/
def auditMagic : Nat := 0xA0D170C5
def ringSlots : Nat := 4
def auditHeaderBlock : Nat := totalBlocks
def auditRecordBlockStart : Nat := totalBlocks + 1

def auditMessage : List UInt8 :=
  bytesOf "VIRTIO_BLK_DRIVER: real boot audit record (format/write/read/self-check)"

/-- `audit_ring::build_header`. -/
def buildAuditHeader (nextWriteIndex totalWrittenCount : Nat) : ByteBlock :=
  putFields zeroBlock [(0, 4, auditMagic), (4, 4, nextWriteIndex), (8, 8, totalWrittenCount)]

/-- `audit_ring::build_record`. -/
def buildAuditRecord (seq : Nat) (message : List UInt8) : ByteBlock :=
  let message := message.take 512
  (putFields zeroBlock [(0, 8, seq), (8, 4, message.length)]).patch 12 message

def nextRecord (header : ByteBlock) : Nat × Nat :=
  if header.field 0 4 = auditMagic then (header.field 4 4, header.field 8 8) else (0, 0)

/-- `run_audit_persistence_proof`. The slot comes from the header block as it is. -/
def runAuditPersistenceProof (s : σ) : σ :=
  let header := io.read s auditHeaderBlock
  let next := nextRecord header.1
  let record := (auditRecordBlockStart + next.1) % 2 ^ 32
  let s := io.write header.2 record (buildAuditRecord next.2 auditMessage)
  let s := io.write s auditHeaderBlock
    (buildAuditHeader ((next.1 + 1) % 2 ^ 32 % ringSlots) (next.2 + 1))
  (io.read s record).2

end

/-! ## Devices -/

/-- A disk on which every transfer succeeds. -/
def disk : BlockDevice (Nat → ByteBlock) where
  read d n := (d n, d)
  write d n b := Function.update d n b

/-- Any device, with the writes that it has been asked for. -/
def traced {σ : Type} (io : BlockDevice σ) : BlockDevice (σ × List (Nat × ByteBlock)) where
  read s n := ((io.read s.1 n).1, (io.read s.1 n).2, s.2)
  write s n b := (io.write s.1 n b, s.2 ++ [(n, b)])

end AgenticOS.BlkDriver
