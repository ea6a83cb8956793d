import AgenticOS.Foundation.Keyed
import AgenticOS.Capability.Model

/-!
# Requests in flight

`file_service.rs` and `net_service.rs` each keep a vector of requests that a
client has made and a server has not answered, or the client has not collected.
A request gets the next id, is answered in place and is removed when its
answer is collected. The handlers find it by the id alone.

A pointer argument is read in the caller's address space at the time of the
call. `UserMemory` is that address space, with whatever answers its page
tables give. A handler returns a word, and may have written bytes there.
-/

namespace AgenticOS

open Foundation

/-! ## User memory -/

/-- The caller's address space during one call. The two checks refuse empty
buffers, as `validate_user_buffer_*` do. -/
structure UserMemory where
  pml4 : UInt64
  readable : (vaddr len : UInt64) → Bool
  writable : (vaddr len : UInt64) → Bool
  byteAt : UInt64 → UInt8
  readable_zero : ∀ v, readable v 0 = false
  writable_zero : ∀ v, writable v 0 = false

namespace UserMemory

/-- The little-endian number in the `n` bytes from an address on. -/
def word (mem : UserMemory) (vaddr : UInt64) : Nat → Nat
  | 0 => 0
  | n + 1 => (mem.byteAt vaddr).toNat + 256 * mem.word (vaddr + 1) n

def u64 (mem : UserMemory) (vaddr : UInt64) : UInt64 := UInt64.ofNat (mem.word vaddr 8)

def u32 (mem : UserMemory) (vaddr : UInt64) : UInt32 := UInt32.ofNat (mem.word vaddr 4)

def bytes (mem : UserMemory) (vaddr : UInt64) (i : Nat) : UInt8 :=
  mem.byteAt (vaddr + UInt64.ofNat i)

end UserMemory

def failure : UInt64 := 0xFFFFFFFFFFFFFFFF

/-- What a call gives its caller: the returned word, and the bytes it wrote
into the caller's memory, with where. -/
structure Reply where
  value : UInt64
  written : Option (UInt64 × List UInt8)
  deriving DecidableEq, Repr

namespace Reply

def ret (value : UInt64) : Reply := ⟨value, none⟩

/-- The first `n` bytes of `data`, written to `vaddr`. -/
def copy (value vaddr : UInt64) (data : Nat → UInt8) (n : Nat) : Reply :=
  ⟨value, some (vaddr, (List.range n).map data)⟩

end Reply

/-! ## The request vectors -/

structure RequestSlot (ρ : Type) where
  id : UInt64
  request : ρ

structure Service (ρ : Type) where
  requests : List (RequestSlot ρ)
  nextRequestId : UInt64
  serverSendCap : CapId
  senderTable : CapabilityTable

def noServer : CapId := 0xFFFFFFFF

namespace Service

variable {ρ : Type}

def push (s : Service ρ) (request : ρ) : Service ρ :=
  { s with
    requests := s.requests ++ [⟨s.nextRequestId, request⟩]
    nextRequestId := s.nextRequestId + 1 }

def find (s : Service ρ) (id : UInt64) : Option ρ :=
  (Keyed.lookup RequestSlot.id s.requests id).map (·.request)

def answer (s : Service ρ) (id : UInt64) (f : ρ → ρ) : Reply × Service ρ :=
  match s.find id with
  | some _ =>
    (.ret 0,
      { s with
        requests := Keyed.adjust RequestSlot.id id
          (fun slot => { slot with request := f slot.request }) s.requests })
  | none => (.ret failure, s)

/-- Hand out the answer of the request with the id and remove it, unless the
request says it cannot be collected now. -/
def collect (s : Service ρ) (id : UInt64) (f : ρ → Option Reply) : Reply × Service ρ :=
  match (s.find id).bind f with
  | some reply =>
    (reply, { s with requests := Keyed.remove RequestSlot.id id s.requests })
  | none => (.ret failure, s)

end Service

/-! ## File requests -/

def maxFileBytes : Nat := 4096

/-- The inode is kept for the log only. `offset` is a `usize` that is only
ever set from a `u32`. -/
structure FileRequest where
  inode : UInt32
  ready : Bool
  len : Nat
  offset : UInt32
  data : Nat → UInt8
  isWrite : Bool
  len_le : len ≤ maxFileBytes

def copyFromSlice (data : Nat → UInt8) (n : Nat) (src : Nat → UInt8) : Nat → UInt8 :=
  fun i => if i < n then src i else data i

namespace FileRequest

def read (inode : UInt32) : FileRequest :=
  ⟨inode, false, 0, 0, fun _ => 0, false, Nat.zero_le _⟩

def write (inode : UInt32) (len : UInt32) (offset : UInt32) (data : Nat → UInt8) :
    FileRequest :=
  ⟨inode, false, min len.toNat maxFileBytes, offset,
    copyFromSlice (fun _ => 0) (min len.toNat maxFileBytes) data, true,
    Nat.min_le_right _ _⟩

/-- The request after `server_reply`. A null buffer with a length sets only
the length. -/
def complete (req : FileRequest) (mem : UserMemory) (dataVaddr : UInt64)
    (len : UInt32) : FileRequest :=
  let realLen := min len.toNat maxFileBytes
  { req with
    data := if dataVaddr ≠ 0 ∧ 0 < realLen then
        copyFromSlice req.data realLen (mem.bytes dataVaddr)
      else req.data
    len := realLen
    ready := true
    len_le := Nat.min_le_right _ _ }

/-- What `poll_reply` hands out, unless the request is not ready or its bytes
cannot be written. -/
def poll (req : FileRequest) (mem : UserMemory) (outVaddr : UInt64)
    (outMaxLen : UInt32) : Option Reply :=
  if !req.ready then none
  else if outVaddr = 0 ∨ outMaxLen = 0 then some (.ret (UInt64.ofNat req.len))
  else
    let copyLen := min req.len outMaxLen.toNat
    let value := UInt64.ofNat (if req.isWrite ∧ copyLen < req.len then req.len else copyLen)
    if 0 < copyLen then
      if !mem.writable outVaddr (UInt64.ofNat copyLen) then none
      else some (.copy value outVaddr req.data copyLen)
    else some (.ret value)

/-- What `server_get_write_data` hands out. -/
def writeData (req : FileRequest) (mem : UserMemory) (outVaddr : UInt64)
    (maxLen : UInt32) : Reply :=
  if !req.isWrite then .ret failure
  else
    let copyLen := min req.len maxLen.toNat
    if !mem.writable outVaddr (UInt64.ofNat copyLen) then .ret failure
    else
      .copy ((req.offset.toUInt64 <<< 32) ||| UInt64.ofNat copyLen) outVaddr req.data copyLen

end FileRequest

namespace Service

/-- `file_service::server_reply`. -/
def fileReply (s : Service FileRequest) (mem : UserMemory) (requestId dataVaddr : UInt64)
    (len : UInt32) : Reply × Service FileRequest :=
  let realLen := min len.toNat maxFileBytes
  if dataVaddr ≠ 0 ∧ 0 < realLen ∧ !mem.readable dataVaddr (UInt64.ofNat realLen) then
    (.ret failure, s)
  else s.answer requestId (·.complete mem dataVaddr len)

/-- `file_service::poll_reply`. -/
def filePoll (s : Service FileRequest) (mem : UserMemory) (requestId outVaddr : UInt64)
    (outMaxLen : UInt32) : Reply × Service FileRequest :=
  s.collect requestId (·.poll mem outVaddr outMaxLen)

/-- `file_service::server_get_write_data`. -/
def fileGetWriteData (s : Service FileRequest) (mem : UserMemory)
    (requestId outVaddr : UInt64) (maxLen : UInt32) : Reply :=
  match s.find requestId with
  | some req => req.writeData mem outVaddr maxLen
  | none => .ret failure

end Service

/-! ## Network requests -/

def maxNetBytes : Nat := 4096

structure NetRequest where
  ready : Bool
  len : Nat
  data : Nat → UInt8
  len_le : len ≤ maxNetBytes

namespace NetRequest

def new : NetRequest := ⟨false, 0, fun _ => 0, Nat.zero_le _⟩

def complete (req : NetRequest) (mem : UserMemory) (dataVaddr : UInt64)
    (len : UInt32) : NetRequest :=
  { ready := true
    len := min len.toNat maxNetBytes
    data := copyFromSlice req.data (min len.toNat maxNetBytes) (mem.bytes dataVaddr)
    len_le := Nat.min_le_right _ _ }

/-- Unlike the file service, an answer of no bytes can never be collected:
the check refuses the empty buffer. -/
def poll (req : NetRequest) (mem : UserMemory) (outVaddr : UInt64)
    (outMaxLen : UInt32) : Option Reply :=
  if !req.ready then none
  else
    let copyLen := min req.len outMaxLen.toNat
    if !mem.writable outVaddr (UInt64.ofNat copyLen) then none
    else some (.copy (UInt64.ofNat copyLen) outVaddr req.data copyLen)

end NetRequest

namespace Service

/-- `net_service::server_reply`. -/
def netReply (s : Service NetRequest) (mem : UserMemory) (requestId dataVaddr : UInt64)
    (len : UInt32) : Reply × Service NetRequest :=
  if !mem.readable dataVaddr (UInt64.ofNat (min len.toNat maxNetBytes)) then
    (.ret failure, s)
  else s.answer requestId (·.complete mem dataVaddr len)

/-- `net_service::poll_reply`. -/
def netPoll (s : Service NetRequest) (mem : UserMemory) (requestId outVaddr : UInt64)
    (outMaxLen : UInt32) : Reply × Service NetRequest :=
  s.collect requestId (·.poll mem outVaddr outMaxLen)

end Service

end AgenticOS
