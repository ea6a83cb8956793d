import AgenticOS.Fs.Survival
import AgenticOS.Net.NetService
import AgenticOS.Net.TcpPeer

/-!
# Every request is answered

A turn of either service loop, the kernel's part of the reply, and the poll of
the requester. The file server does not answer a LOOKUP or a WRITE without a
payload, which is what the kernel makes of one with no bytes. The network server
does not answer when the request was not acknowledged, and the kernel refuses its
answer when it has no bytes.
-/

namespace AgenticOS.Driver

open BlkDriver Netstack Ext2 Foundation List Option UInt64

variable {σ : Type}

/-- The payload that a request needs is there; a write is within the twelve
blocks. -/
def HasPayload (io : BlockDevice σ) (s : σ) (command : FileCommand) (payload : Fetched) : Prop :=
  (command.op = .lookup → payload ≠ none) ∧
  (command.op = .write → ∃ offset data, payload = some (offset, data) ∧ data ≠ [] ∧
    offset ≤ 12 * blockSize ∧
    BlkDriver.sizeOf io s command.targetInode.toNat ≤ 12 * blockSize)

/-- What the file server makes of the reply to the syscall that fetches the payload:
the offset in the upper half, the number of bytes in the lower one. -/
def fetchedOf (reply : Reply) : Fetched :=
  if reply.value = failure then none
  else
    some ((reply.value >>> 32).toNat,
      ((reply.written.map Prod.snd).getD []).take reply.value.toUInt32.toNat)

/-- The request has the payload that its operation needs, and a write is within the
twelve blocks. -/
def Answerable (io : BlockDevice σ) (s : σ) (command : FileCommand) (req : FileRequest) : Prop :=
  (command.op = .lookup → req.isWrite = true ∧ 0 < req.len) ∧
  (command.op = .write → req.isWrite = true ∧ 0 < req.len ∧
    req.offset.toNat ≤ 12 * blockSize ∧
    BlkDriver.sizeOf io s command.targetInode.toNat ≤ 12 * blockSize)

theorem fetchedOf_writeData (req : FileRequest) {mem : UserMemory} {buf : UInt64}
    (hbuf : Owns mem buf) :
    fetchedOf (req.writeData mem buf 1024) = if req.isWrite = true ∧ 0 < req.len then
        some (req.offset.toNat, (List.range (min req.len 1024)).map req.data)
      else none := by
  unfold FileRequest.writeData
  cases hwrite : req.isWrite with
  | false => rfl
  | true =>
    rw [if_neg (by decide)]
    have hmax : (1024 : UInt32).toNat = 1024 := rfl
    dsimp only
    rw [hmax]
    generalize hn : min req.len 1024 = n
    by_cases hpos : 0 < req.len
    · have hnpos : 0 < n := by omega
      rw [hbuf.writable n hnpos (by omega), if_neg (by decide), if_pos ⟨rfl, hpos⟩]
      have hlo : (ofNat n).toNat = n := toNat_ofNat_of_lt' (by unfold UInt64.size; omega)
      have hhi : req.offset.toUInt64.toNat < 2 ^ 32 := req.offset.toNat_lt
      have hword := Packed.toNat_shiftLeft_or (show 32 < 64 by decide) hhi
        (show (ofNat n).toNat < 2 ^ 32 by omega)
      have hup := Packed.shiftLeft_or_shiftRight (show 32 < 64 by decide) hhi
        (show (ofNat n).toNat < 2 ^ 32 by omega)
      have hvalue : (req.offset.toUInt64 <<< 32 ||| ofNat n) ≠ failure := by
        intro heq
        have hall : failure.toNat = 2 ^ 64 - 1 := rfl
        have hnat := congrArg UInt64.toNat heq
        have : (req.offset.toUInt64 <<< 32 ||| ofNat n).toNat = _ := hword
        omega
      have hlow : (req.offset.toUInt64 <<< 32 ||| ofNat n).toUInt32.toNat = n := by
        rw [toNat_toUInt32]
        have : (req.offset.toUInt64 <<< 32 ||| ofNat n).toNat = _ := hword
        omega
      have hoffset : ((req.offset.toUInt64 <<< 32 ||| ofNat n) >>> 32).toNat =
          req.offset.toNat := congrArg UInt64.toNat hup
      have htake : ((range n).map req.data).take n = (range n).map req.data :=
        take_of_length_le (by rw [length_map, length_range])
      unfold fetchedOf Reply.copy
      rw [if_neg hvalue]
      dsimp only [map_some, getD_some]
      rw [hoffset, hlow, htake]
    · have hzero : ofNat n = 0 := by
        rw [show n = 0 by omega]
        rfl
      rw [hzero, mem.writable_zero, if_pos (by decide), if_neg (fun h => hpos h.2)]
      rfl

variable (io : BlockDevice σ) (s : σ)

theorem hasPayload_iff_answerable (command : FileCommand)
    (req : FileRequest) {mem : UserMemory} {buf : UInt64} (hbuf : Owns mem buf) :
    HasPayload io s command (fetchedOf (req.writeData mem buf 1024)) ↔
      Answerable io s command req := by
  rw [fetchedOf_writeData req hbuf]
  split_ifs with h
  · have hne : (range (min req.len 1024)).map req.data ≠ [] := by
      apply ne_nil_of_length_pos
      rw [length_map, length_range]
      omega
    refine and_congr (iff_of_true nofun fun _ => h) (forall_congr' fun _ => ⟨?_, ?_⟩)
    · rintro ⟨offset, data, hsome, -, hends⟩
      cases hsome
      exact ⟨h.1, h.2, hends⟩
    · exact fun hreq => ⟨_, _, rfl, hne, hreq.2.2⟩
  · refine and_congr (forall_congr' fun _ => iff_of_false (fun hne => hne rfl) h)
      (forall_congr' fun _ => iff_of_false ?_ fun hreq => h ⟨hreq.1, hreq.2.1⟩)
    rintro ⟨offset, data, hnone, -⟩
    cases hnone

theorem requestId_nodeReply (id : UInt64) (inode : Nat) : (nodeReply id inode).requestId = id := by
  unfold nodeReply
  split_ifs <;> rfl

theorem serveLookup_some (id : UInt64) (payload : Nat × List UInt8) :
    ∃ reply s', serveLookup io s id (some payload) = ([reply], s') ∧ reply.requestId = id := by
  unfold serveLookup
  dsimp only
  split
  · exact ⟨_, _, rfl, rfl⟩
  · exact ⟨_, _, rfl, rfl⟩

theorem serveReaddir_one (id : UInt64) (payload : Fetched) :
    ∃ reply s', serveReaddir io s id payload = ([reply], s') ∧ reply.requestId = id := by
  unfold serveReaddir
  dsimp only
  generalize (if payload.path = [] ∨ payload.path = [slash] then (rootInode, s) else _) = dir
  split_ifs
  · split
    · exact ⟨_, _, rfl, rfl⟩
    · exact ⟨_, _, rfl, rfl⟩
  · exact ⟨_, _, rfl, rfl⟩

theorem serveWrite_one (junk : ByteBlock) (id : UInt64) (inode : Nat)
    {offset : Nat} {data : List UInt8} (hdata : data ≠ []) (hoffset : offset < 2 ^ 32) :
    (∃ reply s', serveWrite io junk s id inode (some (offset, data)) = some ([reply], s') ∧
      reply.requestId = id) ↔
      offset ≤ 12 * blockSize ∧ BlkDriver.sizeOf io s inode ≤ 12 * blockSize := by
  rw [← isSome_serveWrite_iff hdata hoffset, isSome_iff_exists]
  constructor
  · rintro ⟨reply, s', h, -⟩
    exact ⟨_, h⟩
  · rintro ⟨result, h⟩
    rw [serveWrite_eq hdata] at h ⊢
    dsimp only at h ⊢
    split_ifs at h ⊢
    exact ⟨_, _, rfl, rfl⟩

theorem one_reply_iff (junk : ByteBlock) (command : FileCommand)
    (payload : Fetched) (hpayload : ∀ offset data, payload = some (offset, data) →
      offset < 2 ^ 32) :
    (∃ reply s', BlkDriver.serve io junk s command payload = some ([reply], s') ∧
      reply.requestId = command.requestId) ↔ HasPayload io s command payload := by
  obtain ⟨id, op, inode⟩ := command
  cases op with
  | lookup =>
    cases payload with
    | none => exact iff_of_false (by rintro ⟨reply, s', h, -⟩; cases h) fun h => h.1 rfl rfl
    | some payload =>
      obtain ⟨reply, s', h, hid⟩ := serveLookup_some io s id payload
      exact iff_of_true ⟨reply, s', congrArg some h, hid⟩ ⟨nofun, nofun⟩
  | write =>
    rcases payload with _ | ⟨offset, data⟩
    · refine iff_of_false (by rintro ⟨reply, s', h, -⟩; cases h) fun h => ?_
      obtain ⟨offset, data, hnone, -⟩ := h.2 rfl
      cases hnone
    · by_cases hdata : data = []
      · subst hdata
        refine iff_of_false (by rintro ⟨reply, s', h, -⟩; cases h) fun h => ?_
        obtain ⟨_, _, heq, hne, -⟩ := h.2 rfl
        cases heq
        exact hne rfl
      · refine (serveWrite_one io s junk id inode.toNat hdata (hpayload _ _ rfl)).trans ?_
        refine ⟨fun h => ⟨nofun, fun _ => ⟨offset, data, rfl, hdata, h⟩⟩, fun h => ?_⟩
        obtain ⟨_, _, heq, -, hends⟩ := h.2 rfl
        cases heq
        exact hends
  | read | unlink => exact iff_of_true ⟨_, _, rfl, rfl⟩ ⟨nofun, nofun⟩
  | readdir =>
    obtain ⟨reply, s', h, hid⟩ := serveReaddir_one io s id payload
    exact iff_of_true ⟨reply, s', congrArg some h, hid⟩ ⟨nofun, nofun⟩
  | mkdir | create => exact iff_of_true ⟨_, _, rfl, requestId_nodeReply _ _⟩ ⟨nofun, nofun⟩

theorem one_fetch_iff (resolvedIp : List UInt8) (link : Link) {id : UInt64}
    {nets : Service NetRequest} {req : NetRequest} {server requester : UserMemory}
    {buf out : UInt64} {outMaxLen : UInt32} (hpending : nets.find id = some req)
    (hready : req.ready = false) (hbuf : Owns server buf) (hout : Owns requester out)
    (hmax : outMaxLen ≠ 0) :
    (∃ reply link', serveFetch resolvedIp id link = ([reply], link') ∧ reply.requestId = id ∧
      netPollAfter nets server requester buf out outMaxLen reply ≠ failure) ↔
      ∃ bytes, fetched resolvedIp link = some bytes ∧ bytes ≠ [] := by
  have hone (reply : ReplyRequest) (hreply : (serveFetch resolvedIp id link).1 = [reply])
      (hid : reply.requestId = id) (hdata : 0 < reply.len → reply.data ≠ none)
      (hlen : reply.len ≤ 4096) :
      (∃ reply link', serveFetch resolvedIp id link = ([reply], link') ∧ reply.requestId = id ∧
        netPollAfter nets server requester buf out outMaxLen reply ≠ failure) ↔ 0 < reply.len := by
    rw [← netPollAfter_ne_failure_iff (r := reply) (hid ▸ hpending) hready hdata hlen hbuf hout
      hmax]
    constructor
    · rintro ⟨reply', link', h, -, hpoll⟩
      rw [h] at hreply
      cases hreply
      exact hpoll
    · exact fun hpoll => ⟨reply, _, Prod.ext hreply rfl, hid, hpoll⟩
  obtain ⟨bytes, hfetched, hlen, hreply⟩ | ⟨hfetched, hreply | hreply⟩ :=
    serveFetch_cases resolvedIp id link
  · rw [hone _ hreply rfl nofun hlen, hfetched]
    constructor
    · exact fun hpos => ⟨bytes, rfl, ne_nil_of_length_pos hpos⟩
    · rintro ⟨_, hbytes, hne⟩
      cases hbytes
      exact length_pos_of_ne_nil hne
  · rw [hfetched]
    refine iff_of_false ?_ nofun
    rintro ⟨reply, link', h, -⟩
    rw [h] at hreply
    cases hreply
  · rw [hone _ hreply rfl (fun hpos => absurd hpos (Nat.lt_irrefl 0)) (Nat.zero_le _), hfetched]
    exact iff_of_false (Nat.lt_irrefl 0) nofun

/-- **Answered once.** A request that one of the two servers takes gets exactly one
reply with its id, after which the requester's poll for the id completes: for the
file server exactly if the request has the payload that its operation needs, for
the network server exactly if the host's bytes arrived and there are some. -/
theorem answered_once_iff (server requester : UserMemory) (buf out : UInt64) (outMaxLen : UInt32) :
    (∀ (σ : Type) (io : BlockDevice σ) (s : σ) (junk : ByteBlock) (command : FileCommand)
      (files : Service FileRequest) (req : FileRequest) (inBuf : UInt64),
      files.find command.requestId = some req → Owns server inBuf → Owns server buf →
      Owns requester out →
      ((∃ reply s', BlkDriver.serve io junk s command
          (fetchedOf (files.fileGetWriteData server command.requestId inBuf 1024)) =
            some ([reply], s') ∧ reply.requestId = command.requestId ∧
          filePollAfter files server requester buf out outMaxLen reply ≠ failure) ↔
        Answerable io s command req)) ∧
    ∀ (resolvedIp : List UInt8) (link : Link) (id : UInt64) (nets : Service NetRequest)
      (req : NetRequest),
      nets.find id = some req → req.ready = false → Owns server buf → Owns requester out →
      outMaxLen ≠ 0 →
      ((∃ reply link', serveFetch resolvedIp id link = ([reply], link') ∧ reply.requestId = id ∧
          netPollAfter nets server requester buf out outMaxLen reply ≠ failure) ↔
        ∃ bytes, fetched resolvedIp link = some bytes ∧ bytes ≠ []) := by
  refine ⟨?_, fun resolvedIp link id nets req hpending hready hbuf hout hmax =>
    one_fetch_iff resolvedIp link hpending hready hbuf hout hmax⟩
  intro σ io s junk command files req inBuf hpending hin hbuf hout
  have hfetch : files.fileGetWriteData server command.requestId inBuf 1024 =
      req.writeData server inBuf 1024 := by
    unfold Service.fileGetWriteData
    rw [hpending]
  rw [hfetch, ← hasPayload_iff_answerable io s command req hin]
  refine Iff.trans ⟨?_, ?_⟩ (one_reply_iff io s junk command _ ?_)
  · exact fun ⟨reply, s', hserve, hid, _⟩ => ⟨reply, s', hserve, hid⟩
  · rintro ⟨reply, s', hserve, hid⟩
    exact ⟨reply, s', hserve, hid, filePollAfter_ne_failure (hid ▸ hpending) hbuf hout⟩
  · intro offset _ hpayload
    rw [fetchedOf_writeData req hin] at hpayload
    split_ifs at hpayload
    cases hpayload
    exact req.offset.toNat_lt

/-- A service with one request, under the id 1. -/
def pending {ρ : Type} (req : ρ) : Service ρ :=
  { requests := [⟨1, req⟩], nextRequestId := 2, serverSendCap := noServer, senderTable := .new }

theorem owns_filled {buf : UInt64} (h : buf ≠ 0) (byte : UInt8) : Owns (.filled byte) buf := by
  have hlen (n : Nat) (hpos : 0 < n) (hle : n ≤ 4096) : ofNat n ≠ 0 := by
    intro heq
    have hnat := congrArg UInt64.toNat heq
    rw [toNat_ofNat_of_lt' (hle.trans_lt (by decide))] at hnat
    exact absurd hnat (Nat.pos_iff_ne_zero.mp hpos)
  exact ⟨h, fun n hpos hle => decide_eq_true (hlen n hpos hle),
    fun n hpos hle => decide_eq_true (hlen n hpos hle)⟩

def pageFrame (seq ack : UInt32) (flags : UInt8) (payload : List UInt8) : List UInt8 :=
  TcpConn.wireFrame [93, 184, 216, 34] ourIp ⟨80, 53000, seq, ack, flags, payload⟩

/-- A server that accepts, acknowledges the request, and sends two bytes. -/
def pageLink : Link :=
  let ack := TcpConn.isn + 1 + UInt32.ofNat getRequest.length
  TcpConn.gatewayLink
    [pageFrame 7 (TcpConn.isn + 1) (TcpFlag.syn ||| TcpFlag.ack) [], pageFrame 8 ack TcpFlag.ack [],
      pageFrame 8 ack TcpFlag.ack [79, 75], pageFrame 10 ack (TcpFlag.ack ||| TcpFlag.fin) []]

theorem answered_once_iff_greeting :
    (∃ reply s', BlkDriver.serve disk zeroBlock freshDisk ⟨1, .read, 11⟩
        (fetchedOf ((pending (FileRequest.read 11)).fileGetWriteData (.filled 0) 1 0x1000 1024)) =
          some ([reply], s') ∧ reply.requestId = 1 ∧
        filePollAfter (pending (FileRequest.read 11)) (.filled 0) (.filled 0) 0x2000 0x3000 4096
          reply ≠ failure) ∧
    ∃ reply link', serveFetch [93, 184, 216, 34] 1 pageLink = ([reply], link') ∧
      reply.requestId = 1 ∧
      netPollAfter (pending NetRequest.new) (.filled 0) (.filled 0) 0x2000 0x3000 4096
        reply ≠ failure :=
  ⟨((answered_once_iff (.filled 0) (.filled 0) 0x2000 0x3000 4096).1 _ disk freshDisk zeroBlock
      ⟨1, .read, 11⟩ (pending (FileRequest.read 11)) (FileRequest.read 11) 0x1000 rfl
      (owns_filled (by decide) 0) (owns_filled (by decide) 0) (owns_filled (by decide) 0)).mpr
      ⟨nofun, nofun⟩,
    ((answered_once_iff (.filled 0) (.filled 0) 0x2000 0x3000 4096).2 [93, 184, 216, 34] pageLink 1
      (pending NetRequest.new) NetRequest.new rfl rfl (owns_filled (by decide) 0)
      (owns_filled (by decide) 0) (by decide)).mpr ⟨[79, 75], by decide +kernel, by decide⟩⟩

/-- A write of no bytes is not answered; a page that cannot be fetched is answered
with a reply that the kernel refuses, and the poll goes on failing. -/
theorem empty_requests_stay_pending : (BlkDriver.serve disk zeroBlock freshDisk ⟨1, .write, 11⟩
      (fetchedOf ((pending (FileRequest.write 11 0 0 fun _ => 0)).fileGetWriteData (.filled 0) 1
        0x1000 1024))).map Prod.fst = some [] ∧
    netPollAfter (pending NetRequest.new) (.filled 0) (.filled 0) 0x2000 0x3000 4096
      (.empty 1) = failure ∧
    (serveFetch [93, 184, 216, 34] 1
      { TcpConn.gatewayLink [] with tx := [false, false, false] }).1 = [.empty 1] := by
  decide +kernel

end AgenticOS.Driver
