import AgenticOS.Foundation.Execution
import AgenticOS.Net.TcpPeer

/-!
# The stream a connection delivers

Calls of `tcp_recv`, and of `tcp_send` between them, on a connection whose peer
sends the bytes `S` from the sequence number `first` on. What `tcp_recv` accepts
advances `recv_next` by the whole payload, also when the caller's buffer takes
less of it; a FIN is taken at any sequence number, and a FIN on a segment with
data is not seen when the data is. The stream is delivered where each call finds
the next of the peer's segments first among the frames that wait for it.
-/

namespace AgenticOS.Netstack

open Foundation List

/-! ## What is acknowledged -/

/-- Every segment sent on the way from `link` to `link'` carries this
acknowledgement number. -/
def Link.Acks (ack : UInt32) (link link' : Link) : Prop :=
  ∃ new, link'.sent = link.sent ++ new ∧ ∀ segment, Sent.tcp segment ∈ new → segment.ack = ack

namespace Link

variable {link link' link'' : Link} {ack : UInt32}

theorem Acks.refl : Acks ack link link := ⟨[], by simp⟩

theorem Acks.trans (h : Acks ack link link') (h' : Acks ack link' link'') :
    Acks ack link link'' := by
  obtain ⟨new, hsent, hnew⟩ := h
  obtain ⟨new', hsent', hnew'⟩ := h'
  refine ⟨new ++ new', by rw [hsent', hsent, append_assoc], fun segment hmem => ?_⟩
  exact (mem_append.mp hmem).elim (hnew segment) (hnew' segment)

theorem Passes.acks (h : Passes link link') : Acks ack link link' := by
  obtain ⟨arps, hsent, harps⟩ := h.sent
  refine ⟨arps, hsent, fun _ hmem => ?_⟩
  obtain ⟨_, hframe⟩ := harps _ hmem
  cases hframe

theorem acks_of_txFrame {ok : Bool} {segment : SegmentOut}
    (h : link.txFrame (.tcp segment) = (ok, link')) : Acks segment.ack link link' := by
  cases h
  refine ⟨[.tcp segment], rfl, fun _ hmem => ?_⟩
  cases mem_singleton.mp hmem
  rfl

end Link

theorem TcpConn.sendAttempts_spec (conn : TcpConn) (data : List UInt8) (expectAck : UInt32)
    (attempts : Nat) (link : Link) :
    (conn.sendAttempts data expectAck attempts link).2.1.recvNext = conn.recvNext ∧
      link.Acks conn.recvNext (conn.sendAttempts data expectAck attempts link).2.2 := by
  induction attempts generalizing link with
  | zero => exact ⟨rfl, .refl⟩
  | succ attempts ih =>
    rw [sendAttempts]
    split
    · rename_i link1 htx
      have hacks := Link.acks_of_txFrame htx
      exact ⟨(ih link1).1, hacks.trans (ih link1).2⟩
    · rename_i link1 htx
      have hacks := Link.acks_of_txFrame htx
      split
      all_goals
        rename_i link2 hwait
        have hacks := hacks.trans (passes_of_tcpWaitFor hwait).acks
      · exact ⟨rfl, hacks⟩
      · exact ⟨(ih link2).1, hacks.trans (ih link2).2⟩

theorem TcpConn.tcpSend_spec (conn : TcpConn) (data : List UInt8) (link : Link) :
    (conn.tcpSend data link).2.1.recvNext = conn.recvNext ∧
      link.Acks conn.recvNext (conn.tcpSend data link).2.2 := by
  unfold tcpSend
  split_ifs
  · exact ⟨rfl, .refl⟩
  · exact conn.sendAttempts_spec data _ 3 link

/-! ## Runs -/

structure TcpStream where
  conn : TcpConn
  link : Link
  returned : List UInt8
  closedByFin : Bool

namespace TcpStream

inductive Call where
  | recv (outLen maxSpins : Nat)
  | send (data : List UInt8)

def isFin : TcpConn.RecvEnd → Bool
  | .fin _ => true
  | _ => false

def step (s : TcpStream) : Call → TcpStream
  | .recv outLen maxSpins =>
    let result := s.conn.tcpRecv outLen maxSpins s.link
    { conn := result.2.1, link := result.2.2, returned := s.returned ++ result.1.bytes,
      closedByFin := s.closedByFin || isFin result.1 }
  | .send data =>
    let result := s.conn.tcpSend data s.link
    { s with conn := result.2.1, link := result.2.2 }

def start (conn : TcpConn) (link : Link) : TcpStream :=
  ⟨conn, { link with sent := [] }, [], false⟩

/-- The segment is one that the sender of `S` sends, with its data from position
`k` on and the FIN after the last byte. -/
def Carries (S : List UInt8) (first : UInt32) (k : Nat) (t : TcpParsed) : Prop :=
  t.seq = first + UInt32.ofNat k ∧ t.payload <+: S.drop k ∧
    (t.flags &&& TcpFlag.fin ≠ 0 → k + t.payload.length = S.length)

/-- The segment is one of the peer's, and it has not been on its way for so long
that its sequence number is in use again. -/
def Genuine (S : List UInt8) (first : UInt32) (s : TcpStream) (t : TcpParsed) : Prop :=
  ∃ k < S.length + 1, k < s.returned.length + 2 ^ 31 ∧ s.returned.length < k + 2 ^ 31 ∧
    Carries S first k t

/-- The segment closes the connection, or it is the peer's, has the sequence number that
is expected next, and its data fits the buffer. -/
def Expected (S : List UInt8) (first : UInt32) (s : TcpStream) (outLen : Nat) (t : TcpParsed) :
    Prop :=
  t.flags &&& TcpFlag.rst ≠ 0 ∨
    (Genuine S first s t ∧ t.seq = s.conn.recvNext ∧ t.payload.length ≤ outLen)

/-- The first segment that waits for a `tcp_recv` is one that is expected. -/
def InOrder (S : List UInt8) (first : UInt32) (s : TcpStream) : Call → Prop
  | .recv outLen _ => ∀ r ∈ s.conn.pending s.link, Expected S first s outLen r.tcp
  | .send _ => True

/-- The bytes, and the FIN, that the caller has seen. -/
def received (s : TcpStream) : Nat := s.returned.length + s.closedByFin.toNat

/-- The calls have delivered the stream so far, and acknowledged no more. -/
structure Faithful (S : List UInt8) (first : UInt32) (s : TcpStream) : Prop where
  sofar : s.returned <+: S
  fin : s.closedByFin = true → s.returned = S
  next : s.conn.recvNext = first + UInt32.ofNat s.received
  acks : ∀ segment, Sent.tcp segment ∈ s.link.sent →
    ∃ n ≤ s.received, segment.ack = first + UInt32.ofNat n

variable {S : List UInt8} {first : UInt32} {s s' : TcpStream}

theorem ofNat_add_inj {k n : Nat} (h : first + UInt32.ofNat k = first + UInt32.ofNat n)
    (hk : k < n + 2 ^ 32) (hn : n < k + 2 ^ 32) : k = n := by
  have hmod := congrArg UInt32.toNat (add_left_cancel h)
  rw [UInt32.toNat_ofNat', UInt32.toNat_ofNat'] at hmod
  omega

section

variable (h : Faithful S first s)

include h

theorem Faithful.of_acks (hsofar : s'.returned <+: S)
    (hfin : s'.closedByFin = true → s'.returned = S)
    (hnext : s'.conn.recvNext = first + UInt32.ofNat s'.received)
    (hlink : s.link.Acks s'.conn.recvNext s'.link) (hle : s.received ≤ s'.received) :
    Faithful S first s' := by
  refine ⟨hsofar, hfin, hnext, fun segment hmem => ?_⟩
  obtain ⟨_, hsent, hnew⟩ := hlink
  rw [hsent, mem_append] at hmem
  obtain hold | hmem := hmem
  · obtain ⟨n, hn, hack⟩ := h.acks segment hold
    exact ⟨n, hn.trans hle, hack⟩
  · exact ⟨s'.received, le_rfl, (hnew segment hmem).trans hnext⟩

theorem Faithful.carries {t : TcpParsed} (hgenuine : Genuine S first s t)
    (hseq : t.seq = s.conn.recvNext) : Carries S first s.received t := by
  obtain ⟨k, -, hk, _, hcarries⟩ := hgenuine
  have hpos : k = s.received := by
    refine ofNat_add_inj (hcarries.1.symm.trans (hseq.trans h.next)) ?_ ?_
    · exact hk.trans_le (by unfold received; omega)
    · have := s.closedByFin.toNat_le
      unfold received
      omega
  exact hpos ▸ hcarries

theorem Faithful.append_payload {t : TcpParsed}
    (hgenuine : Genuine S first s t) (hdata : t.payload ≠ [])
    (hseq : t.seq = s.conn.recvNext) :
    s.closedByFin = false ∧ s.returned ++ t.payload <+: S := by
  obtain ⟨-, hprefix, -⟩ := h.carries hgenuine hseq
  have hbefore : s.received < S.length := by
    by_contra hafter
    rw [drop_eq_nil_of_le (not_lt.mp hafter)] at hprefix
    exact hdata (prefix_nil.mp hprefix)
  cases hfin : s.closedByFin with
  | true =>
    have hall := h.fin hfin
    rw [received, hall, hfin] at hbefore
    exact absurd hbefore (by simp)
  | false =>
    refine ⟨rfl, ?_⟩
    obtain ⟨_, rfl⟩ := h.sofar
    rw [received, hfin] at hprefix
    exact (prefix_append_right_inj _).mpr (by simpa using hprefix)

/-- The peer's FIN, without data, is expected after its last byte. -/
theorem Faithful.returned_of_fin {t : TcpParsed} (hgenuine : Genuine S first s t)
    (hempty : t.payload = []) (hfin : t.flags &&& TcpFlag.fin ≠ 0)
    (hseq : t.seq = s.conn.recvNext) : s.closedByFin = false ∧ s.returned = S := by
  obtain ⟨-, -, hend⟩ := h.carries hgenuine hseq
  have hlen := hend hfin
  rw [hempty, length_nil, add_zero, received] at hlen
  cases hclosed : s.closedByFin with
  | true =>
    rw [h.fin hclosed, hclosed] at hlen
    exact absurd hlen (by simp)
  | false =>
    rw [hclosed] at hlen
    exact ⟨rfl, h.sofar.eq_of_length hlen⟩

theorem Faithful.of_received_eq (hreturned : s'.returned = s.returned)
    (hclosed : s'.closedByFin = s.closedByFin) (hnext : s'.conn.recvNext = s.conn.recvNext)
    (hlink : s.link.Acks s.conn.recvNext s'.link) : Faithful S first s' := by
  have hreceived : s'.received = s.received := by rw [received, received, hreturned, hclosed]
  refine h.of_acks (hreturned ▸ h.sofar) ?_ ?_ (hnext ▸ hlink) hreceived.ge
  · rw [hclosed, hreturned]
    exact h.fin
  · rw [hnext, hreceived, h.next]

theorem Faithful.recv {outLen maxSpins : Nat} (hok : InOrder S first s (.recv outLen maxSpins)) :
    Faithful S first (s.step (.recv outLen maxSpins)) := by
  have hcases := s.conn.tcpRecv_cases outLen maxSpins s.link
  simp only [step]
  generalize s.conn.tcpRecv outLen maxSpins s.link = result at hcases ⊢
  obtain ⟨_, hpass, rfl⟩ | ⟨link1, _, r, hpass, -, -, hfirst, hreceived⟩ := hcases
  · exact h.of_received_eq (append_nil _) (Bool.or_false _) rfl hpass.acks
  · have hok := hok r hfirst
    cases hreceived with
    | reset => exact h.of_received_eq (append_nil _) (Bool.or_false _) rfl hpass.acks
    | @data conn' hrst hdata hseq hconn =>
      obtain ⟨hgenuine, -, hfits⟩ := hok.resolve_left hrst
      obtain ⟨hopen, hprefix⟩ := h.append_payload hgenuine hdata hseq
      have hlink : s.link.Acks conn'.recvNext (link1.txFrame
          (.tcp (conn'.segment TcpFlag.ack [] conn'.sendNext.toUInt16))).2 :=
        hpass.acks.trans (Link.acks_of_txFrame rfl)
      simp only [TcpConn.RecvEnd.bytes, take_of_length_le hfits, isFin, Bool.or_false]
      refine h.of_acks hprefix (fun hclosed => absurd hclosed (by simp [hopen])) ?_ hlink ?_
      · rw [hconn, h.next]
        simp only [received, hopen, Bool.toNat_false, add_zero, length_append,
          UInt32.ofNat_add, add_assoc]
      · simp only [received, length_append]
        omega
    | @fin conn' hrst hlate hfin hconn =>
      obtain ⟨hgenuine, hseq, -⟩ := hok.resolve_left hrst
      have hempty : r.tcp.payload = [] := not_not.mp fun hdata => hlate ⟨hdata, hseq⟩
      obtain ⟨hopen, hall⟩ := h.returned_of_fin hgenuine hempty hfin hseq
      have hlink : s.link.Acks conn'.recvNext (link1.txFrame
          (.tcp (conn'.segment TcpFlag.ack [] conn'.sendNext.toUInt16))).2 :=
        hpass.acks.trans (Link.acks_of_txFrame rfl)
      simp only [TcpConn.RecvEnd.bytes, append_nil, isFin, Bool.or_true]
      refine h.of_acks h.sofar (fun _ => hall) ?_ hlink ?_
      · rw [hconn, hseq, h.next]
        simp only [received, hopen, Bool.toNat_false, add_zero, Bool.toNat_true,
          UInt32.ofNat_add, add_assoc]
        rfl
      · exact Nat.add_le_add_left (Bool.toNat_le _) _

theorem Faithful.send {data : List UInt8} : Faithful S first (s.step (.send data)) := by
  obtain ⟨hnext, hlink⟩ := s.conn.tcpSend_spec data s.link
  exact h.of_received_eq rfl rfl hnext hlink

end

theorem Faithful.step (s : TcpStream) (call : Call) (h : Faithful S first s)
    (hok : InOrder S first s call) : Faithful S first (s.step call) := by
  cases call with
  | recv => exact h.recv hok
  | send => exact h.send

theorem faithful_start (S : List UInt8) (conn : TcpConn) (link : Link) :
    Faithful S conn.recvNext (start conn link) where
  sofar := nil_prefix
  fin := nofun
  next := (add_zero _).symm
  acks := nofun

/-- **Stream integrity.** Where every call finds the next segment of the peer first, the
bytes returned are a prefix of the peer's, no more than them is acknowledged, and the
FIN closes the connection after the last of them. -/
theorem stream_integrity (S : List UInt8) (conn : TcpConn) (link : Link) (calls : List Call)
    (hok : Along TcpStream.step (InOrder S conn.recvNext) (start conn link) calls) :
    let s := run TcpStream.step (start conn link) calls
    s.returned <+: S ∧
    (∀ segment, Sent.tcp segment ∈ s.link.sent → ∃ n, segment.ack = conn.recvNext + UInt32.ofNat n ∧
        (n ≤ s.returned.length ∨ n = S.length + 1 ∧ s.returned = S ∧ s.closedByFin = true)) ∧
    (s.closedByFin = true → s.returned = S) := by
  intro s
  have h : Faithful S conn.recvNext s :=
    run_invariant Faithful.step (faithful_start S conn link) hok
  refine ⟨h.sofar, fun segment hmem => ?_, h.fin⟩
  obtain ⟨n, hn, hack⟩ := h.acks segment hmem
  refine ⟨n, hack, ?_⟩
  unfold received at hn
  cases hclosed : s.closedByFin with
  | false =>
    rw [hclosed] at hn
    exact .inl hn
  | true =>
    rw [hclosed, h.fin hclosed] at hn
    obtain hn | hn := Nat.le_succ_iff.mp hn
    · exact .inl (h.fin hclosed ▸ hn)
    · exact .inr ⟨hn, h.fin hclosed, rfl⟩

section

variable (S) (first) (s)

instance (k : Nat) (t : TcpParsed) : Decidable (Carries S first k t) :=
  inferInstanceAs (Decidable (_ ∧ _))

instance (t : TcpParsed) : Decidable (Genuine S first s t) :=
  inferInstanceAs (Decidable (∃ k < S.length + 1, _))

instance (outLen : Nat) (t : TcpParsed) : Decidable (Expected S first s outLen t) :=
  inferInstanceAs (Decidable (_ ∨ _))

instance : (call : Call) → Decidable (InOrder S first s call)
  | .recv _ _ => inferInstanceAs (Decidable (∀ r ∈ s.conn.pending s.link, _))
  | .send _ => .isTrue trivial

end

def serverConn : TcpConn :=
  { state := .established, localPort := 5000, remoteIp := [93, 184, 216, 34], remotePort := 80,
    remoteMac := List.replicate 6 1, sendNext := TcpConn.isn + 1, recvNext := 100 }

/-- The frame in which the server sends `len` bytes of `S` from position `k` on. -/
def serverFrame (S : List UInt8) (flags : UInt8) (k len : Nat) : List UInt8 :=
  TcpConn.wireFrame serverConn.remoteIp ourIp
    ⟨80, 5000, serverConn.recvNext + UInt32.ofNat k, serverConn.sendNext, flags, slice S k len⟩

/-- Four bytes in two segments, a duplicate of the first, and the FIN. -/
def serverLink : Link :=
  TcpConn.gatewayLink
    [serverFrame [1, 2, 3, 4] TcpFlag.ack 0 3, serverFrame [1, 2, 3, 4] TcpFlag.ack 0 3,
      serverFrame [1, 2, 3, 4] TcpFlag.ack 3 1,
      serverFrame [1, 2, 3, 4] (TcpFlag.ack ||| TcpFlag.fin) 4 0]

theorem stream_integrity_server :
    let s := run TcpStream.step (start serverConn serverLink) [.recv 8 9, .recv 8 9, .recv 8 9]
    s.closedByFin = true ∧ s.returned = [1, 2, 3, 4] :=
  have hclosed : (run TcpStream.step (start serverConn serverLink)
      [.recv 8 9, .recv 8 9, .recv 8 9]).closedByFin = true := by decide +kernel
  ⟨hclosed, (stream_integrity [1, 2, 3, 4] serverConn serverLink [.recv 8 9, .recv 8 9, .recv 8 9]
    (by decide +kernel)).2.2 hclosed⟩

/-- With a buffer of one byte, two bytes of the first segment are acknowledged and
lost. -/
theorem loses_what_the_buffer_does_not_take :
    let s := run TcpStream.step (start serverConn serverLink) [.recv 1 9, .recv 1 9]
    s.returned = [1, 4] ∧ ¬ s.returned <+: [1, 2, 3, 4] := by
  decide +kernel

end TcpStream

end AgenticOS.Netstack
