import AgenticOS.Fs.BlkDriver

/-!
# Which requests the file server survives

The only slice of the service loop that a request can put out of range is that
of the direct blocks in a WRITE: `num_blocks` comes from the offset of the
request and the size in the inode, and there are twelve of them. No branch looks
at the inode number, so a WRITE of any number rewrites an entry of the block that
the arithmetic of `inode_block_and_offset` leads to.
-/

namespace AgenticOS.BlkDriver

open Foundation Ext2 Driver

section

variable {σ : Type} (io : BlockDevice σ) (junk : ByteBlock) (offset : Nat) (data : List UInt8)
  {directBlocks : List Nat}

theorem length_of_ensureBlock {directBlocks' : List Nat} {idx : Nat} {s s' : σ}
    (h : ensureBlock io directBlocks idx s = (some directBlocks', s')) :
    directBlocks'.length = directBlocks.length := by
  unfold ensureBlock at h
  dsimp only at h
  split_ifs at h
  · split at h
    · cases h
      exact List.length_set
    · cases h
  · cases h
    rfl

/-- What a turn of the loop leaves for the next ones. -/
theorem chunk_le {data : List UInt8} {offset written : Nat} (hlt : written < data.length)
    (hidx : ¬ 12 ≤ (offset + written) / blockSize) :
    0 < min (blockSize - (offset + written) % blockSize) (data.length - written) ∧
      offset + (written + min (blockSize - (offset + written) % blockSize)
        (data.length - written)) ≤ 12 * blockSize := by
  unfold blockSize at *
  omega

theorem writeLoop_bounds (turns : Nat) (directBlocks : List Nat) (written : Nat) (s : σ) :
    let result := writeLoop io junk offset data turns directBlocks written s
    result.1.length = directBlocks.length ∧ written ≤ result.2.1 ∧
      (offset + written ≤ 12 * blockSize → offset + result.2.1 ≤ 12 * blockSize) ∧
      (12 * blockSize ≤ offset + written → result.2.1 = written) := by
  induction turns generalizing directBlocks written s with
  | zero => exact ⟨rfl, le_rfl, id, fun _ => rfl⟩
  | succ turns ih =>
    rw [writeLoop]
    dsimp only
    split_ifs with hlt hidx
    · exact ⟨rfl, le_rfl, id, fun _ => rfl⟩
    · obtain ⟨_, hend⟩ := chunk_le hlt hidx
      split
      · exact ⟨rfl, le_rfl, id, fun _ => rfl⟩
      · rename_i hensure
        obtain ⟨hlen, hle, hbelow, _⟩ := ih _ _ _
        refine ⟨hlen.trans (length_of_ensureBlock io hensure), (Nat.le_add_right _ _).trans hle,
          fun _ => hbelow hend, fun _ => ?_⟩
        omega
    · exact ⟨rfl, le_rfl, id, fun _ => rfl⟩

theorem writeLoop_of_le {turns : Nat} {written : Nat} {s : σ} (h : data.length ≤ written + turns) :
    writeLoop io junk offset data (turns + 1) directBlocks written s =
      writeLoop io junk offset data turns directBlocks written s := by
  induction turns generalizing directBlocks written s with
  | zero =>
    have hdone : ¬ written < data.length := by omega
    simp only [writeLoop, if_neg hdone]
  | succ turns ih =>
    rw [writeLoop, writeLoop]
    dsimp only
    split_ifs with hlt hidx
    · rfl
    · obtain ⟨_, -⟩ := chunk_le hlt hidx
      split
      · rfl
      · exact ih (by omega)
    · rfl

end

section

variable {σ : Type} {io : BlockDevice σ} {s : σ} {junk : ByteBlock} {id : UInt64} {inode : Nat}

def sizeOf (io : BlockDevice σ) (s : σ) (inode : Nat) : Nat :=
  (readInodeEntry (io.read s (inodeBlock inode)).1 inode).size

theorem sizeOf_lt : sizeOf io s inode < 2 ^ 32 := ByteBlock.field_lt

/-- What the loop of a write leaves: the direct blocks, the bytes written, and the
device. -/
def written (io : BlockDevice σ) (junk : ByteBlock) (s : σ) (inode offset : Nat)
    (data : List UInt8) : List Nat × Nat × σ :=
  let table := io.read s (inodeBlock inode)
  writeLoop io junk offset data data.length (readInodeEntry table.1 inode).directBlocks 0 table.2

def newSize (io : BlockDevice σ) (junk : ByteBlock) (s : σ) (inode offset : Nat)
    (data : List UInt8) : Nat :=
  max (offset + (written io junk s inode offset data).2.1) (sizeOf io s inode) % 2 ^ 32

variable {data : List UInt8} {offset : Nat}

theorem serveWrite_eq (hdata : data ≠ []) : serveWrite io junk s id inode (some (offset, data)) =
      let info := readInodeEntry (io.read s (inodeBlock inode)).1 inode
      let result := written io junk s inode offset data
      let size := newSize io junk s inode offset data
      let numBlocks := (size + blockSize - 1) / blockSize
      if result.1.length < numBlocks then none
      else
        some ([⟨id, none, result.2.1⟩], io.write result.2.2 (inodeBlock inode)
          (writeInodeEntryFull (io.read s (inodeBlock inode)).1 inode info.mode size info.links
            (result.1.take numBlocks))) := by
  obtain ⟨b, _, rfl⟩ := List.exists_cons_of_ne_nil hdata
  rfl

theorem written_bounds (io : BlockDevice σ) (junk : ByteBlock) (s : σ) (inode offset : Nat)
    (data : List UInt8) :
    (written io junk s inode offset data).1.length = 12 ∧ (offset ≤ 12 * blockSize →
        offset + (written io junk s inode offset data).2.1 ≤ 12 * blockSize) ∧
      (12 * blockSize ≤ offset → (written io junk s inode offset data).2.1 = 0) := by
  obtain ⟨hlen, -, hbelow, habove⟩ := writeLoop_bounds io junk offset data data.length
    (readInodeEntry (io.read s (inodeBlock inode)).1 inode).directBlocks 0
    (io.read s (inodeBlock inode)).2
  exact ⟨hlen, hbelow, habove⟩

theorem newSize_le_iff (io : BlockDevice σ) (junk : ByteBlock) (s : σ) (inode : Nat)
    (data : List UInt8) (hoffset : offset < 2 ^ 32) :
    newSize io junk s inode offset data ≤ 12 * blockSize ↔
      offset ≤ 12 * blockSize ∧ sizeOf io s inode ≤ 12 * blockSize := by
  obtain ⟨-, hbelow, habove⟩ := written_bounds io junk s inode offset data
  have hsize : sizeOf io s inode < 2 ^ 32 := sizeOf_lt
  unfold newSize
  generalize (written io junk s inode offset data).2.1 = w at hbelow habove ⊢
  generalize sizeOf io s inode = size at hsize ⊢
  unfold blockSize at *
  by_cases hle : offset ≤ 12 * 1024
  · omega
  · rw [habove (by omega)]
    omega

/-- A write is served if it starts within the twelve direct blocks and the file
ends within them. -/
theorem isSome_serveWrite_iff (hdata : data ≠ []) (hoffset : offset < 2 ^ 32) :
    (serveWrite io junk s id inode (some (offset, data))).isSome = true ↔
      offset ≤ 12 * blockSize ∧ sizeOf io s inode ≤ 12 * blockSize := by
  have hlen := (written_bounds io junk s inode offset data).1
  have hfits : ¬ 12 < (newSize io junk s inode offset data + blockSize - 1) / blockSize ↔
      newSize io junk s inode offset data ≤ 12 * blockSize := by
    unfold blockSize
    omega
  rw [← newSize_le_iff io junk s inode data hoffset, ← hfits, serveWrite_eq hdata]
  dsimp only
  rw [hlen]
  split_ifs with h
  · exact iff_of_false nofun (not_not.mpr h)
  · exact iff_of_true rfl h

theorem readLoop_log (io : BlockDevice σ) (directBlocks : List Nat) (readLen turns idx : Nat)
    (out : ByteBlock) (s : σ × List (Nat × ByteBlock)) :
    (readLoop (traced io) directBlocks readLen turns idx out s).2.2 = s.2 := by
  induction turns generalizing idx out s with
  | zero => rfl
  | succ turns ih =>
    rw [readLoop]
    split_ifs
    · exact ih _ _ _
    · exact ih _ _ _

/-! ## All requests -/

def NamesInode : FsOp → Prop
  | .read => True
  | .write => True
  | _ => False

/-- A write is to an inode of the table, starts within its twelve direct blocks,
and finds a file that ends within them. -/
def InRange (io : BlockDevice σ) (s : σ) (command : FileCommand) (fetched : Fetched) : Prop :=
  command.op = .write → ∀ offset data, fetched = some (offset, data) → data ≠ [] →
    1 ≤ command.targetInode.toNat ∧ command.targetInode.toNat ≤ numInodes ∧
      offset ≤ 12 * blockSize ∧ sizeOf io s command.targetInode.toNat ≤ 12 * blockSize

theorem ne_nil_of_serveWrite {replies : List ReplyRequest}
    {s s' : σ} {log log' : List (Nat × ByteBlock)} (hdata : data ≠ [])
    (h : serveWrite (traced io) junk (s, log) id inode (some (offset, data)) =
      some (replies, s', log')) : log' ≠ [] := by
  rw [serveWrite_eq hdata] at h
  dsimp only at h
  split_ifs at h
  cases h
  exact List.append_ne_nil_of_right_ne_nil _ nofun

/-- Whatever the device and the buffers hold, a request is served without a slice out of
range, and without a write if it names an inode that does not exist, exactly if it is in
range. -/
theorem served_iff (io : BlockDevice σ) (s : σ) (junk : ByteBlock) (command : FileCommand)
    (fetched : Fetched)
    (hfetched : ∀ offset data, fetched = some (offset, data) → offset < 2 ^ 32) :
    (∃ replies s' log, serve (traced io) junk (s, []) command fetched = some (replies, s', log) ∧
      (NamesInode command.op →
        command.targetInode.toNat = 0 ∨ numInodes < command.targetInode.toNat → log = [])) ↔
      InRange io s command fetched := by
  obtain ⟨id, op, inode⟩ := command
  cases op with
  | write =>
    constructor
    · rintro ⟨replies, s', log, hserve, hlog⟩ - offset data rfl hdata
      have hsome : (serveWrite (traced io) junk (s, []) id inode.toNat
          (some (offset, data))).isSome = true := Option.isSome_iff_exists.mpr ⟨_, hserve⟩
      have hends := (isSome_serveWrite_iff hdata (hfetched offset data rfl)).mp hsome
      have hne : log ≠ [] := ne_nil_of_serveWrite hdata hserve
      have hinode : ¬ (inode.toNat = 0 ∨ numInodes < inode.toNat) :=
        fun hbad => hne (hlog trivial hbad)
      exact ⟨Nat.one_le_iff_ne_zero.mpr fun h => hinode (.inl h),
        not_lt.mp fun h => hinode (.inr h), hends⟩
    · intro hrange
      by_cases hdata : ∃ offset data, fetched = some (offset, data) ∧ data ≠ []
      · obtain ⟨offset, data, rfl, hdata⟩ := hdata
        obtain ⟨hpos, hle, hends⟩ := hrange rfl offset data rfl hdata
        have hsome : (serveWrite (traced io) junk (s, []) id inode.toNat
            (some (offset, data))).isSome = true :=
          (isSome_serveWrite_iff hdata (hfetched offset data rfl)).mpr hends
        obtain ⟨⟨replies, s', log⟩, hserve⟩ := Option.isSome_iff_exists.mp hsome
        exact ⟨replies, s', log, hserve, fun _ hbad => absurd hbad
          (not_or.mpr ⟨Nat.one_le_iff_ne_zero.mp hpos, not_lt.mpr hle⟩)⟩
      · refine ⟨[], s, [], ?_, fun _ _ => rfl⟩
        rcases fetched with _ | ⟨offset, _ | ⟨b, rest⟩⟩
        · rfl
        · rfl
        · exact absurd ⟨offset, b :: rest, rfl, nofun⟩ hdata
  | read =>
    refine iff_of_true ⟨_, _, _, rfl, fun _ _ => ?_⟩ nofun
    exact readLoop_log io _ _ _ _ _ _
  | lookup | readdir | mkdir | create | unlink => exact iff_of_true ⟨_, _, _, rfl, nofun⟩ nofun

/-- A disk of zeros, after its first boot. -/
def freshDisk : Nat → ByteBlock := runFilesystemProof disk fun _ => zeroBlock

end

end AgenticOS.BlkDriver
