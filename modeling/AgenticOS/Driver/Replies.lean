import AgenticOS.Kernel.RequestMap

/-!
# The reply syscalls

The two servers answer a request by a syscall that carries its id, the address
of the bytes and their number (`FileReplyRequest`, `NetReplyRequest`). The
requester then polls for the id. The kernel checks the server's buffer when it
takes the reply, and the requester's when it hands it out; both checks refuse an
empty buffer. The file service makes them for bytes only, the network service
always.
-/

namespace AgenticOS.Driver

open UInt64

/-- A reply syscall; no data stands for the null address. -/
structure ReplyRequest where
  requestId : UInt64
  data : Option (List UInt8)
  len : Nat
  deriving DecidableEq

namespace ReplyRequest

def empty (requestId : UInt64) : ReplyRequest := ⟨requestId, none, 0⟩

def ofBytes (requestId : UInt64) (bytes : List UInt8) : ReplyRequest :=
  ⟨requestId, some bytes, bytes.length⟩

/-- The address in the syscall, of a buffer of the server at `buf`. -/
def dataVaddr (r : ReplyRequest) (buf : UInt64) : UInt64 := if r.data = none then 0 else buf

end ReplyRequest

/-- A process that may read and write the bytes of a buffer. -/
structure Owns (mem : UserMemory) (buf : UInt64) : Prop where
  ne_zero : buf ≠ 0
  readable : ∀ n : Nat, 0 < n → n ≤ 4096 → mem.readable buf (UInt64.ofNat n) = true
  writable : ∀ n : Nat, 0 < n → n ≤ 4096 → mem.writable buf (UInt64.ofNat n) = true

section

variable {server requester : UserMemory} {buf out id : UInt64} {outMaxLen : UInt32}
  {r : ReplyRequest}

/-- What the requester's poll returns after the reply of the file server. -/
def filePollAfter (s : Service FileRequest) (server requester : UserMemory) (buf out : UInt64)
    (outMaxLen : UInt32) (r : ReplyRequest) : UInt64 :=
  ((s.fileReply server r.requestId (r.dataVaddr buf) (UInt32.ofNat r.len)).2.filePoll requester
    r.requestId out outMaxLen).1.value

/-- What the requester's poll returns after the reply of the network server. -/
def netPollAfter (s : Service NetRequest) (server requester : UserMemory) (buf out : UInt64)
    (outMaxLen : UInt32) (r : ReplyRequest) : UInt64 :=
  ((s.netReply server r.requestId (r.dataVaddr buf) (UInt32.ofNat r.len)).2.netPoll requester
    r.requestId out outMaxLen).1.value

theorem ofNat_ne_failure {n : Nat} (h : n ≤ 4096) : UInt64.ofNat n ≠ failure := by
  intro heq
  have hnat := congrArg UInt64.toNat heq
  rw [toNat_ofNat_of_lt' (h.trans_lt (by decide))] at hnat
  exact absurd hnat (by have : failure.toNat = 2 ^ 64 - 1 := rfl; omega)

theorem collect_of_find {ρ : Type} {s : Service ρ} {req : ρ} {f : ρ → Option Reply}
    {reply : Reply} (hfind : s.find id = some req) (hf : f req = some reply) :
    (s.collect id f).1 = reply := by
  unfold Service.collect
  rw [hfind, Option.bind_some, hf]

theorem poll_of_ready {req : FileRequest} (hready : req.ready = true) (hout : Owns requester out) :
    ∃ reply, req.poll requester out outMaxLen = some reply ∧ reply.value ≠ failure := by
  have hmin : min req.len outMaxLen.toNat ≤ 4096 := (Nat.min_le_left _ _).trans req.len_le
  have hvalue : ofNat (if req.isWrite ∧ min req.len outMaxLen.toNat < req.len then req.len
      else min req.len outMaxLen.toNat) ≠ failure := by
    split_ifs
    · exact ofNat_ne_failure req.len_le
    · exact ofNat_ne_failure hmin
  unfold FileRequest.poll
  rw [hready, if_neg (by decide)]
  by_cases hnull : out = 0 ∨ outMaxLen = 0
  · rw [if_pos hnull]
    exact ⟨_, rfl, ofNat_ne_failure req.len_le⟩
  · rw [if_neg hnull]
    by_cases hpos : 0 < min req.len outMaxLen.toNat
    · rw [if_pos hpos, hout.writable _ hpos hmin, if_neg (by decide)]
      exact ⟨_, rfl, hvalue⟩
    · rw [if_neg hpos]
      exact ⟨_, rfl, hvalue⟩

/-- **File replies arrive.** After the reply to a pending request, of any length,
the requester's poll completes. -/
theorem filePollAfter_ne_failure {s : Service FileRequest} {req : FileRequest}
    (hpending : s.find r.requestId = some req) (hbuf : Owns server buf)
    (hout : Owns requester out) :
    filePollAfter s server requester buf out outMaxLen r ≠ failure := by
  have hreadable : ¬ (r.dataVaddr buf ≠ 0 ∧ 0 < min (UInt32.ofNat r.len).toNat maxFileBytes ∧
      (!server.readable (r.dataVaddr buf)
        (ofNat (min (UInt32.ofNat r.len).toNat maxFileBytes))) = true) := by
    rintro ⟨hne, hpos, hfail⟩
    have hbufEq : r.dataVaddr buf = buf := by
      unfold ReplyRequest.dataVaddr at hne ⊢
      split_ifs at hne ⊢
      · exact absurd rfl hne
      · rfl
    rw [hbufEq, hbuf.readable _ hpos (Nat.min_le_right _ _)] at hfail
    cases hfail
  have hfind := (s.acts_answer r.requestId
    (·.complete server (r.dataVaddr buf) (UInt32.ofNat r.len))).entry r.requestId
  rw [if_pos rfl, hpending] at hfind
  have hready : (req.complete server (r.dataVaddr buf) (UInt32.ofNat r.len)).ready = true := rfl
  obtain ⟨reply, hpoll, hvalue⟩ := poll_of_ready hready hout
  unfold filePollAfter Service.fileReply
  rw [if_neg hreadable, Service.filePoll, collect_of_find hfind hpoll]
  exact hvalue

theorem poll_net_iff {req : NetRequest} (hout : Owns requester out) (hmax : outMaxLen ≠ 0) :
    (∃ reply, req.poll requester out outMaxLen = some reply) ↔ req.ready = true ∧ 0 < req.len := by
  have hmaxPos : 0 < outMaxLen.toNat :=
    Nat.pos_of_ne_zero fun h => hmax (UInt32.toNat_inj.mp h)
  unfold NetRequest.poll
  cases hready : req.ready with
  | false => simp
  | true =>
    rw [if_neg (by decide)]
    dsimp only
    by_cases hpos : 0 < req.len
    · have hmin : 0 < min req.len outMaxLen.toNat := Nat.lt_min.mpr ⟨hpos, hmaxPos⟩
      rw [hout.writable _ hmin ((Nat.min_le_left _ _).trans req.len_le), if_neg (by decide)]
      exact iff_of_true ⟨_, rfl⟩ ⟨rfl, hpos⟩
    · have hzero : ofNat (min req.len outMaxLen.toNat) = 0 := by
        rw [Nat.eq_zero_of_not_pos hpos, Nat.zero_min]
        rfl
      rw [hzero, requester.writable_zero, if_pos (by decide)]
      exact iff_of_false (by simp) (fun h => hpos h.2)

/-- **Network replies arrive if they are not empty.** An empty reply is refused by
the check of the server's buffer, and the request stays pending. -/
theorem netPollAfter_ne_failure_iff {s : Service NetRequest} {req : NetRequest}
    (hpending : s.find r.requestId = some req) (hready : req.ready = false)
    (hdata : 0 < r.len → r.data ≠ none) (hlen : r.len ≤ 4096) (hbuf : Owns server buf)
    (hout : Owns requester out) (hmax : outMaxLen ≠ 0) :
    netPollAfter s server requester buf out outMaxLen r ≠ failure ↔ 0 < r.len := by
  have hlen32 : min (UInt32.ofNat r.len).toNat maxNetBytes = r.len := by
    rw [UInt32.toNat_ofNat_of_lt' (hlen.trans_lt (by decide))]
    exact Nat.min_eq_left hlen
  unfold netPollAfter Service.netReply
  rw [hlen32]
  by_cases hpos : 0 < r.len
  · have hvaddr : r.dataVaddr buf = buf := if_neg (hdata hpos)
    have hfind := (s.acts_answer r.requestId
      (·.complete server (r.dataVaddr buf) (UInt32.ofNat r.len))).entry r.requestId
    rw [if_pos rfl, hpending] at hfind
    have hfull : 0 < (req.complete server (r.dataVaddr buf) (UInt32.ofNat r.len)).len :=
      hpos.trans_eq hlen32.symm
    obtain ⟨reply, hpoll⟩ := (poll_net_iff hout hmax).mpr ⟨rfl, hfull⟩
    have hvalue : reply.value ≠ failure := by
      unfold NetRequest.poll at hpoll
      dsimp only at hpoll
      split_ifs at hpoll
      cases hpoll
      exact ofNat_ne_failure ((Nat.min_le_left _ _).trans (NetRequest.len_le _))
    rw [hvaddr, hbuf.readable _ hpos hlen, if_neg (by decide), Service.netPoll, ← hvaddr,
      collect_of_find hfind hpoll]
    exact iff_of_true hvalue hpos
  · have hzero : ofNat r.len = 0 := by
      rw [Nat.eq_zero_of_not_pos hpos]
      rfl
    have hpoll : req.poll requester out outMaxLen = none := by
      rw [NetRequest.poll, hready]
      rfl
    rw [hzero, server.readable_zero, if_pos (by decide), Service.netPoll, Service.collect, hpending,
      Option.bind_some, hpoll]
    exact iff_of_false (fun h => h rfl) hpos

end

end AgenticOS.Driver
