import AgenticOS.Fs.BlkDriver

/-!
# The writes of a request

The service loop works with any device. If a map between the states of two
devices respects the transfers, it respects what the loop does, request by
request. So a request can be followed on the device whose state is the list of
writes so far, and the disk after it is the disk before it with those writes
applied; after a crash it is the disk with some of the first of them applied.
-/

namespace AgenticOS.BlkDriver

open Foundation Ext2 Driver

/-! ## Devices that follow each other -/

structure Follows {σ τ : Type} (io : BlockDevice σ) (io' : BlockDevice τ) (f : σ → τ) : Prop where
  read : ∀ s n, io'.read (f s) n = ((io.read s n).1, f (io.read s n).2)
  write : ∀ s n b, io'.write (f s) n b = f (io.write s n b)

namespace Follows

variable {σ τ : Type} {io : BlockDevice σ} {io' : BlockDevice τ} {f : σ → τ} (h : Follows io io' f)

include h

theorem readDirBlock (s : σ) (dir : Nat) :
    BlkDriver.readDirBlock io' (f s) dir = Prod.map id f (BlkDriver.readDirBlock io s dir) := by
  unfold BlkDriver.readDirBlock
  simp only [h.read]
  split_ifs <;> rfl

theorem resolveFrom (path : List (List UInt8)) (cur : Nat × UInt8) (s : σ) :
    Ext2.resolveFrom (BlkDriver.readDirBlock io') path cur (f s) =
      Prod.map id f (Ext2.resolveFrom (BlkDriver.readDirBlock io) path cur s) := by
  induction path generalizing cur s with
  | nil => rfl
  | cons segment rest ih =>
    unfold Ext2.resolveFrom
    split_ifs
    · rfl
    · rw [h.readDirBlock]
      rcases BlkDriver.readDirBlock io s cur.1 with ⟨_ | buf, s'⟩
      · rfl
      · dsimp only [Prod.map, id]
        cases findDirEntry buf segment with
        | none => rfl
        | some next => exact ih next s'

theorem driverResolvePath (s : σ) (path : List UInt8) : BlkDriver.driverResolvePath io' (f s) path =
      Prod.map id f (BlkDriver.driverResolvePath io s path) :=
  h.resolveFrom _ _ _

theorem parentInode (s : σ) (path : List UInt8) :
    BlkDriver.parentInode io' (f s) path = Prod.map id f (BlkDriver.parentInode io s path) := by
  unfold BlkDriver.parentInode
  split_ifs
  · rfl
  · rw [h.driverResolvePath]
    rfl

theorem updateAllocCounts (s : σ) (blockDelta inodeDelta dirDelta : Int) :
    BlkDriver.updateAllocCounts io' (f s) blockDelta inodeDelta dirDelta =
      f (BlkDriver.updateAllocCounts io s blockDelta inodeDelta dirDelta) := by
  simp only [BlkDriver.updateAllocCounts, h.read, h.write]

theorem linkParent (s : σ) (parent : Nat) (table : ByteBlock) (info : InodeInfo) :
    BlkDriver.linkParent io' (f s) parent table info =
      f (BlkDriver.linkParent io s parent table info) :=
  h.write _ _ _

theorem commitNode (kind : NodeKind) (s : σ) (parent inode block : Nat)
    (blockBitmap inodeBitmap : ByteBlock) (leaf : List UInt8) :
    BlkDriver.commitNode io' kind (f s) parent inode block blockBitmap inodeBitmap leaf =
      Prod.map id f
        (BlkDriver.commitNode io kind s parent inode block blockBitmap inodeBitmap leaf) := by
  simp only [BlkDriver.commitNode, h.read]
  split
  · rfl
  · split_ifs
    · simp only [h.linkParent, h.read, h.write, h.updateAllocCounts]
      rfl
    · simp only [h.read, h.write, h.updateAllocCounts]
      rfl

theorem makeNode (kind : NodeKind) (s : σ) (path : List UInt8) :
    BlkDriver.makeNode io' kind (f s) path = Prod.map id f (BlkDriver.makeNode io kind s path) := by
  simp only [BlkDriver.makeNode, h.parentInode, Prod.map_fst, Prod.map_snd, id, h.read]
  split_ifs
  · split
    · rw [h.write, h.commitNode]
    · rfl
  · rfl

theorem releaseNode (s : σ) (inode : Nat) :
    BlkDriver.releaseNode io' (f s) inode = f (BlkDriver.releaseNode io s inode) := by
  simp only [BlkDriver.releaseNode, h.read, h.write, h.updateAllocCounts]

theorem unlink (s : σ) (path : List UInt8) :
    BlkDriver.unlink io' (f s) path = Prod.map id f (BlkDriver.unlink io s path) := by
  simp only [BlkDriver.unlink, h.parentInode, Prod.map_fst, Prod.map_snd, id, h.read]
  split_ifs
  · split
    · rfl
    · rw [h.write, h.releaseNode]
      rfl
  · rfl

theorem serveLookup (s : σ) (reqId : UInt64) (fetched : Fetched) :
    BlkDriver.serveLookup io' (f s) reqId fetched =
      Prod.map id f (BlkDriver.serveLookup io s reqId fetched) := by
  unfold BlkDriver.serveLookup
  split
  · rfl
  · rw [h.driverResolvePath]
    rcases BlkDriver.driverResolvePath io s (pathOf _) with ⟨_ | _, _⟩
    · rfl
    · simp only [Prod.map, id, h.read]

theorem serveReaddir (s : σ) (reqId : UInt64) (fetched : Fetched) :
    BlkDriver.serveReaddir io' (f s) reqId fetched =
      Prod.map id f (BlkDriver.serveReaddir io s reqId fetched) := by
  have hdir : (if fetched.path = [] ∨ fetched.path = [slash] then (rootInode, f s)
      else (((BlkDriver.driverResolvePath io' (f s) fetched.path).1.map Prod.fst).getD 0,
        (BlkDriver.driverResolvePath io' (f s) fetched.path).2)) =
      Prod.map id f (if fetched.path = [] ∨ fetched.path = [slash] then (rootInode, s)
        else (((BlkDriver.driverResolvePath io s fetched.path).1.map Prod.fst).getD 0,
          (BlkDriver.driverResolvePath io s fetched.path).2)) := by
    rw [h.driverResolvePath]
    split_ifs <;> rfl
  unfold BlkDriver.serveReaddir
  dsimp only
  rw [hdir]
  generalize (if fetched.path = [] ∨ fetched.path = [slash] then (rootInode, s) else _) = dir
  dsimp only [Prod.map, id]
  split_ifs
  · rw [h.readDirBlock]
    rcases BlkDriver.readDirBlock io dir.2 dir.1 with ⟨_ | block, s'⟩ <;> rfl
  · rfl

variable (directBlocks : List Nat)

theorem ensureBlock (idx : Nat) (s : σ) : BlkDriver.ensureBlock io' directBlocks idx (f s) =
      Prod.map id f (BlkDriver.ensureBlock io directBlocks idx s) := by
  simp only [BlkDriver.ensureBlock, h.read]
  split_ifs
  · split
    · rw [h.write, h.updateAllocCounts]
      rfl
    · rfl
  · rfl

variable (junk : ByteBlock)

theorem writeChunk (s : σ) (block blockOffset : Nat) (chunk : List UInt8) :
    BlkDriver.writeChunk io' junk (f s) block blockOffset chunk =
      f (BlkDriver.writeChunk io junk s block blockOffset chunk) := by
  simp only [BlkDriver.writeChunk, h.read]
  split_ifs
  · exact h.write _ _ _
  · exact h.write _ _ _

theorem writeLoop (offset : Nat) (data : List UInt8) (turns : Nat)
    (directBlocks : List Nat) (written : Nat) (s : σ) :
    BlkDriver.writeLoop io' junk offset data turns directBlocks written (f s) =
      Prod.map id (Prod.map id f)
        (BlkDriver.writeLoop io junk offset data turns directBlocks written s) := by
  induction turns generalizing directBlocks written s with
  | zero => rfl
  | succ turns ih =>
    simp only [BlkDriver.writeLoop]
    split_ifs with hlt hidx
    · rfl
    · rw [h.ensureBlock]
      rcases BlkDriver.ensureBlock io directBlocks ((offset + written) / blockSize) s with
        ⟨_ | blocks, s'⟩
      · rfl
      · dsimp only [Prod.map, id]
        rw [h.writeChunk]
        exact ih _ _ _
    · rfl

theorem serveWrite (s : σ) (reqId : UInt64) (inode : Nat) (fetched : Fetched) :
    BlkDriver.serveWrite io' junk (f s) reqId inode fetched =
      (BlkDriver.serveWrite io junk s reqId inode fetched).map (Prod.map id f) := by
  unfold BlkDriver.serveWrite
  split
  · rfl
  · rfl
  · simp only [h.read, h.writeLoop, Prod.map, id, h.write]
    split_ifs <;> rfl

theorem readLoop (readLen turns idx : Nat) (out : ByteBlock) (s : σ) :
    BlkDriver.readLoop io' directBlocks readLen turns idx out (f s) =
      Prod.map id f (BlkDriver.readLoop io directBlocks readLen turns idx out s) := by
  induction turns generalizing idx out s with
  | zero => rfl
  | succ turns ih =>
    simp only [BlkDriver.readLoop, h.read]
    split_ifs
    · exact ih _ _ _
    · exact ih _ _ _

theorem serveRead (s : σ) (reqId : UInt64) (inode : Nat) :
    BlkDriver.serveRead io' junk (f s) reqId inode =
      Prod.map id f (BlkDriver.serveRead io junk s reqId inode) := by
  simp only [BlkDriver.serveRead, h.read, h.readLoop]
  rfl

theorem serve (s : σ) (command : FileCommand) (fetched : Fetched) :
    BlkDriver.serve io' junk (f s) command fetched =
      (BlkDriver.serve io junk s command fetched).map (Prod.map id f) := by
  unfold BlkDriver.serve
  split
  · rw [h.serveLookup]
    rfl
  · rw [h.serveReaddir]
    rfl
  · simp only [BlkDriver.serveMkdir, h.makeNode]
    rfl
  · simp only [BlkDriver.serveCreate, h.makeNode]
    rfl
  · simp only [BlkDriver.serveUnlink, h.unlink]
    rfl
  · exact h.serveWrite _ _ _ _ _
  · rw [h.serveRead]
    rfl

end Follows

/-! ## The list of writes -/

def applyWrites (d : Nat → ByteBlock) (writes : List (Nat × ByteBlock)) : Nat → ByteBlock :=
  writes.foldl (fun d w => Function.update d w.1 w.2) d

variable (d : Nat → ByteBlock)

@[simp] theorem applyWrites_nil : applyWrites d [] = d := rfl

theorem applyWrites_append (ws ws' : List (Nat × ByteBlock)) :
    applyWrites d (ws ++ ws') = applyWrites (applyWrites d ws) ws' :=
  List.foldl_append

@[simp] theorem applyWrites_concat (ws : List (Nat × ByteBlock)) (n : Nat) (b : ByteBlock) :
    applyWrites d (ws ++ [(n, b)]) = Function.update (applyWrites d ws) n b :=
  applyWrites_append d ws [(n, b)]

/-- A disk with the writes that have not been applied to it. -/
def journal (d : Nat → ByteBlock) : BlockDevice (List (Nat × ByteBlock)) where
  read log n := (applyWrites d log n, log)
  write log n b := log ++ [(n, b)]

theorem follows_disk : Follows (journal d) disk (applyWrites d) where
  read _ _ := rfl
  write log n b := (applyWrites_concat d log n b).symm

/-- **The disk after a request** is the disk before it with the writes of the
request applied. -/
theorem serve_disk (junk : ByteBlock) (d : Nat → ByteBlock) (command : FileCommand)
    (fetched : Fetched) :
    serve disk junk d command fetched =
      (serve (journal d) junk [] command fetched).map (Prod.map id (applyWrites d)) :=
  (follows_disk d).serve junk [] command fetched

end AgenticOS.BlkDriver
