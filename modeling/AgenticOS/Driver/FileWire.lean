import AgenticOS.Foundation.Packed
import AgenticOS.Fs.Ext2
import AgenticOS.Kernel.Services

/-!
# The file request word

The kernel packs the id, the operation and the inode of a file request into
one message word. The service loop of `virtio_blk_driver` takes the word apart
again with a layout of its own. This module puts the two next to each other.

The layouts agree where every field keeps to its place. The driver reads an
inode of 0 in a read or a write as the greeting file.
-/

namespace AgenticOS

open Foundation UInt64
open UInt32 (toNat_inj toNat_toUInt64)

namespace Driver

inductive FsOp where
  | read | write | lookup | readdir | mkdir | create | unlink
  deriving DecidableEq, Repr

structure FileCommand where
  requestId : UInt64
  op : FsOp
  targetInode : UInt32
  deriving DecidableEq, Repr

/-- The dispatch of the loop, on the operation code and then the write bit. -/
def dispatchOp (op : UInt8) (isWrite : Bool) : FsOp :=
  if op = 2 then .lookup
  else if op = 3 then .readdir
  else if op = 4 then .mkdir
  else if op = 5 then .create
  else if op = 6 then .unlink
  else if isWrite then .write
  else .read

/-- One turn of the loop: the request in the received word, if it is one. -/
def decode (r : UInt64) : Option FileCommand :=
  if r = failure then none
  else
    let requestId := r >>> 32
    let isWriteBit := ((r >>> 31) &&& 1) ≠ 0
    let op := ((r >>> 24) &&& 0x7F).toUInt8
    let inode := r.toUInt32 &&& 0x00FFFFFF
    some {
      requestId
      op := dispatchOp op isWriteBit
      targetInode := if op = 0 ∧ inode = 0 then UInt32.ofNat Ext2.fileInode else inode }

/-- The word with its fields in their places: the id, the write bit, the
operation code and the inode. -/
def layout (id bit op inode : Nat) : Nat := id * 2 ^ 32 + bit * 2 ^ 31 + op * 2 ^ 24 + inode

variable {w : UInt64}

theorem decode_of_layout {id bit op inode : Nat}
    (hid : id < 2 ^ 32) (hbit : bit < 2) (hop : op < 2 ^ 7) (hinode : inode < 2 ^ 24)
    (hsafe : op ≠ 2 ^ 7 - 1) (hw : w.toNat = layout id bit op inode) :
    decode w = some {
      requestId := ofNat id
      op := dispatchOp (UInt8.ofNat op) (bit ≠ 0)
      targetInode :=
        if op = 0 ∧ inode = 0 then UInt32.ofNat Ext2.fileInode else UInt32.ofNat inode } := by
  unfold layout at hw
  -- an operation code below 127 keeps the word away from all ones
  have hne : w ≠ failure := by
    rintro rfl
    have hall : failure.toNat = 2 ^ 64 - 1 := rfl
    omega
  have hid' : w >>> 32 = ofNat id := by
    apply UInt64.toNat_inj.mp
    have h := Packed.toNat_shiftRight (show 32 < 64 by decide) w
    rw [toNat_ofNat_of_lt' (hid.trans (by decide))]
    exact h.trans (by omega)
  have hbit' : ((w >>> 31) &&& 1).toNat = bit := by
    have h := Packed.toNat_shiftRight (show 31 < 64 by decide) w
    have hmask := Nat.and_two_pow_sub_one_eq_mod (w >>> ofNat 31).toNat 1
    rw [UInt64.toNat_and]
    exact hmask.trans (by rw [h]; omega)
  have hop' : ((w >>> 24) &&& 0x7F).toUInt8 = UInt8.ofNat op := by
    apply UInt8.toNat_inj.mp
    have h := Packed.toNat_shiftRight (show 24 < 64 by decide) w
    have hmask := Nat.and_two_pow_sub_one_eq_mod (w >>> ofNat 24).toNat 7
    have hfield : ((w >>> 24) &&& 0x7F).toNat = op := by
      rw [UInt64.toNat_and]
      exact hmask.trans (by rw [h]; omega)
    rw [toNat_toUInt8, hfield, UInt8.toNat_ofNat_of_lt' (hop.trans (by decide))]
    omega
  have hinode' : w.toUInt32 &&& 0x00FFFFFF = UInt32.ofNat inode := by
    apply toNat_inj.mp
    have hmask := Nat.and_two_pow_sub_one_eq_mod w.toUInt32.toNat 24
    rw [UInt32.toNat_and, UInt32.toNat_ofNat_of_lt' (hinode.trans (by decide))]
    exact hmask.trans (by rw [toNat_toUInt32]; omega)
  have hzero : ((w >>> 31) &&& 1) ≠ 0 ↔ bit ≠ 0 := by
    rw [← hbit', ne_eq, ne_eq, ← UInt64.toNat_inj]
    rfl
  have hop0 : UInt8.ofNat op = 0 ↔ op = 0 := by
    rw [← UInt8.toNat_inj, UInt8.toNat_ofNat_of_lt' (hop.trans (by decide))]
    rfl
  have hin0 : UInt32.ofNat inode = 0 ↔ inode = 0 := by
    rw [← toNat_inj, UInt32.toNat_ofNat_of_lt' (hinode.trans (by decide))]
    rfl
  simp only [decode, if_neg hne, hid', hop', hinode', hzero, hop0, hin0]

/-! ## The words the kernel builds -/

open Kernel

section

variable {id : UInt64} {inode : UInt32}

theorem readWord_layout (hid : id.toNat < 2 ^ 32) (hinode : inode.toNat < 2 ^ 24) :
    (readWord id inode).toNat = layout id.toNat 0 0 inode.toNat := by
  have hlo : inode.toUInt64.toNat < 2 ^ 32 := by
    rw [toNat_toUInt64]
    omega
  have h := Packed.toNat_shiftLeft_or (show 32 < 64 by decide) hid hlo
  rw [toNat_toUInt64] at h
  unfold layout
  exact h.trans (by omega)

variable {op : UInt8}

theorem opPayload_or_inode (hop : op.toNat < 2 ^ 7) (hinode : inode.toNat < 2 ^ 24) :
    (opPayload op ||| inode.toUInt64).toNat =
      (if op = 0 then 1 else 0) * 2 ^ 31 + op.toNat * 2 ^ 24 + inode.toNat := by
  unfold opPayload
  by_cases h0 : op = 0
  · subst h0
    have hlo : inode.toUInt64.toNat < 2 ^ 31 := by
      rw [toNat_toUInt64]
      omega
    have hone : (1 : UInt64).toNat < 2 ^ (64 - 31) := by decide
    have h := Packed.toNat_shiftLeft_or (show 31 < 64 by decide) hone hlo
    exact h
  · have hlo : inode.toUInt64.toNat < 2 ^ 24 := by
      rw [toNat_toUInt64]
      exact hinode
    have hhi : op.toUInt64.toNat < 2 ^ (64 - 24) := by
      rw [UInt8.toNat_toUInt64]
      omega
    have h := Packed.toNat_shiftLeft_or (show 24 < 64 by decide) hhi hlo
    rw [toNat_toUInt64, UInt8.toNat_toUInt64] at h
    rw [if_neg h0, if_neg h0]
    exact h.trans (by omega)

theorem writeWord_layout (hid : id.toNat < 2 ^ 32) (hop : op.toNat < 2 ^ 7)
    (hinode : inode.toNat < 2 ^ 24) :
    (writeWord id op inode).toNat =
      layout id.toNat (if op = 0 then 1 else 0) op.toNat inode.toNat := by
  have hfields := opPayload_or_inode hop hinode
  have hlo : (opPayload op ||| inode.toUInt64).toNat < 2 ^ 32 := by
    rw [hfields]
    by_cases h0 : op = 0
    · subst h0
      rw [if_pos rfl]
      omega
    · rw [if_neg h0]
      omega
  have h := Packed.toNat_shiftLeft_or (show 32 < 64 by decide) hid hlo
  unfold writeWord layout
  rw [UInt64.or_assoc]
  exact h.trans (by omega)

end

/-! ## Agreement -/

def requestedOp (op : UInt8) : FsOp := dispatchOp op (op = 0)

variable {inode : UInt32} {id : UInt64}

theorem decode_readWord (hid : id.toNat < 2 ^ 32)
    (hpos : inode ≠ 0) (hinode : inode.toNat < 2 ^ 24) :
    decode (readWord id inode) = some ⟨id, .read, inode⟩ := by
  rw [decode_of_layout hid (by decide) (by decide) hinode (by decide) (readWord_layout hid hinode)]
  have hnat : inode.toNat ≠ 0 := fun h => hpos (toNat_inj.mp h)
  simp [hnat, dispatchOp]

/-- Operation 0 is a write and needs a real inode; 2 to 6 are the directory
operations, which name their target by path. -/
theorem decode_writeWord {op : UInt8}
    (hid : id.toNat < 2 ^ 32) (hop : op = 0 ∧ inode ≠ 0 ∨ 2 ≤ op.toNat ∧ op.toNat ≤ 6)
    (hinode : inode.toNat < 2 ^ 24) :
    decode (writeWord id op inode) = some ⟨id, requestedOp op, inode⟩ := by
  have hsmall : op.toNat < 7 := by
    rcases hop with ⟨rfl, -⟩ | h
    · decide
    · omega
  have hbit : (if op = 0 then 1 else 0) < 2 := by split_ifs <;> decide
  rw [decode_of_layout hid hbit (by omega) hinode (by omega)
    (writeWord_layout hid (by omega) hinode)]
  have hnot : ¬ (op.toNat = 0 ∧ inode.toNat = 0) := by
    rintro ⟨h0, hin⟩
    rcases hop with ⟨-, hne⟩ | h
    · exact hne (toNat_inj.mp hin)
    · omega
  rw [if_neg hnot]
  simp [requestedOp]

/-- The call put a word into the server's mailbox that the driver takes for
this command; or it could not reach the server and put nothing anywhere. -/
def Sends {δ : Type} (k k' : Kernel δ) (command : FileCommand) : Prop :=
  if k.fileServerReachable then
    ∃ o w, k.sendTarget k.files.senderTable k.files.serverSendCap = some o ∧
      k.Enqueued k' o (.word w) ∧ w ≠ failure ∧ decode w = some command
  else k'.endpoints = k.endpoints

variable {command : FileCommand}

theorem ne_failure_of_decode (h : decode w = some command) : w ≠ failure := by
  rintro rfl
  cases h

theorem sends_submitFile {δ : Type} (k : Kernel δ) (request : FileRequest) (word : UInt64 → UInt64)
    (hword : decode (word k.files.nextRequestId) = some command) :
    Sends k (k.submitFile request word).2 command := by
  obtain ⟨-, -, ⟨hreach, o, htarget, henq⟩ | ⟨hreach, hsame⟩⟩ :=
    k.submitFile_spec request word
  · rw [Sends, if_pos hreach]
    exact ⟨o, _, htarget, henq, ne_failure_of_decode hword, hword⟩
  · rw [Sends, hreach]
    exact hsame

/-- **The kernel and the driver agree on file requests.** An accepted request
under an id below `2^32`, for an inode below `2^24`, reaches the driver under
the returned id, for the same operation and the same inode: reads and writes
of inodes other than 0, and the five directory operations. -/
theorem fileRequest_agrees {δ : Type} (k : Kernel δ)
    (hid : k.files.nextRequestId.toNat < 2 ^ 32) (inode : UInt32)
    (hinode : inode.toNat < 2 ^ 24) :
    (inode ≠ 0 → (k.requestFileInternal inode).1 ≠ 0 → Sends k (k.requestFileInternal inode).2
        ⟨(k.requestFileInternal inode).1, .read, inode⟩) ∧
    ∀ mem op dataVaddr len offset, (op = 0 ∧ inode ≠ 0 ∨ 2 ≤ op.toNat ∧ op.toNat ≤ 6) →
      (k.writeFileInternal mem op inode dataVaddr len offset).1 ≠ 0 →
      Sends k (k.writeFileInternal mem op inode dataVaddr len offset).2
        ⟨(k.writeFileInternal mem op inode dataVaddr len offset).1, requestedOp op, inode⟩ := by
  constructor
  · intro hpos haccepted
    unfold requestFileInternal at haccepted ⊢
    split_ifs at haccepted ⊢ with hserver
    · exact absurd rfl haccepted
    · exact sends_submitFile k _ _ (decode_readWord hid hpos hinode)
  · intro mem op dataVaddr len offset hop haccepted
    unfold writeFileInternal at haccepted ⊢
    dsimp only at haccepted ⊢
    split_ifs at haccepted ⊢ with hserver hbuffer
    · exact absurd rfl haccepted
    · exact absurd rfl haccepted
    · exact sends_submitFile k _ _ (decode_writeWord hid hop hinode)

theorem fileRequest_agrees_sample : (sample .new .new).fileServerReachable = true ∧
    Sends (sample .new .new) ((sample .new .new).requestFileInternal 5).2 ⟨1, .read, 5⟩ ∧
    Sends (sample .new .new)
      ((sample .new .new).writeFileInternal (.filled 7) 0 5 0x4000 3 0).2 ⟨1, .write, 5⟩ ∧
    Sends (sample .new .new)
      ((sample .new .new).writeFileInternal (.filled 7) 6 5 0x4000 3 0).2 ⟨1, .unlink, 5⟩ := by
  have h := fileRequest_agrees (sample .new .new) (by decide) 5 (by decide)
  exact ⟨by decide, h.1 (by decide) (by decide), h.2 _ 0 _ _ _ (by decide) (by decide),
    h.2 _ 6 _ _ _ (by decide) (by decide)⟩

/-- **Where the layouts part.** The driver serves inode 0 as the greeting file,
for reads and for writes. -/
theorem fileRequest_inode_zero : ((sample .new .new).requestFileInternal 0).1 = 1 ∧
    ((sample .new .new).writeFileInternal (.filled 7) 0 0 0x4000 3 0).1 = 1 ∧
    decode (readWord 1 0) = some ⟨1, .read, 11⟩ ∧
    decode (writeWord 1 0 0) = some ⟨1, .write, 11⟩ := by
  decide

end Driver

end AgenticOS
