import AgenticOS.Net.Tcp

/-!
# Whose segments a connection accepts

A segment is accepted for its ports and flags, and by `tcp_send` for its
acknowledgement number. It is the peer's if the network delivers no other
segment with the connection's ports; the stack does not find out.
-/

namespace AgenticOS.Netstack

/-- The segment is a reply of `remoteIp` to the SYN of `tcp_connect`. -/
def TcpReceived.Answers (remoteIp : List UInt8) (r : TcpReceived) : Prop :=
  r.ip.src = remoteIp ∧ r.tcp.ack = TcpConn.isn + 1

/-- The segment is from the peer to us, and arrived as it was sent. -/
def TcpReceived.FromPeer (conn : TcpConn) (r : TcpReceived) : Prop :=
  r.ip.src = conn.remoteIp ∧ r.ip.dst = ourIp ∧ r.ChecksumCorrect

instance (remoteIp : List UInt8) (r : TcpReceived) : Decidable (r.Answers remoteIp) :=
  inferInstanceAs (Decidable (_ ∧ _))

instance (conn : TcpConn) (r : TcpReceived) : Decidable (r.FromPeer conn) :=
  inferInstanceAs (Decidable (_ ∧ _))

/-- Every segment with these ports that is still to be polled has `P`. -/
def Link.Brings (link : Link) (remotePort localPort : UInt16) (P : TcpReceived → Prop) : Prop :=
  ∀ frame r, some frame ∈ link.rx → tcpSegment frame = some r →
    r.tcp.dstPort = localPort → r.tcp.srcPort = remotePort → P r

namespace TcpConn

variable {conn conn' : TcpConn} {link link' : Link}

theorem syn_ack_of_wantSynAck {t : TcpParsed} (h : wantSynAck t = true) :
    t.flags &&& TcpFlag.syn ≠ 0 ∧ t.flags &&& TcpFlag.ack ≠ 0 := by
  have hflags : t.flags &&& (TcpFlag.syn ||| TcpFlag.ack) = TcpFlag.syn ||| TcpFlag.ack :=
    of_decide_eq_true h
  have hpart (flag : UInt8) (hflag : (TcpFlag.syn ||| TcpFlag.ack) &&& flag = flag) :
      t.flags &&& flag = flag := by
    rw [← hflag, ← UInt8.and_assoc, hflags, hflag]
  rw [hpart TcpFlag.syn rfl, hpart TcpFlag.ack rfl]
  exact ⟨by decide, by decide⟩

theorem segmentFor_of_tcpRecv {outLen spins : Nat} {result : RecvEnd}
    (h : conn.tcpRecv outLen spins link = (result, conn', link'))
    (hchange : result.bytes ≠ [] ∨ conn' ≠ conn) :
    ∃ frame r, link.Heard link' frame ∧ conn.segmentFor frame = some r := by
  obtain ⟨link1, -, htimeout⟩ | ⟨link1, frame, r, -, hheard, hr, -, hreceived⟩ :=
    conn.tcpRecv_cases outLen spins link
  · rw [h] at htimeout
    cases htimeout
    simp [RecvEnd.bytes] at hchange
  · rw [h] at hreceived
    refine ⟨frame, r, ?_, hr⟩
    cases hreceived with
    | reset | data | fin => exact hheard

theorem from_peer_of_brings (hbrings : link.Brings conn.remotePort conn.localPort (·.FromPeer conn))
    (h : ∃ frame r, link.Heard link' frame ∧ conn.segmentFor frame = some r) :
    ∃ frame r, link.Heard link' frame ∧ tcpSegment frame = some r ∧ r.FromPeer conn := by
  obtain ⟨frame, r, hheard, hr⟩ := h
  obtain ⟨hr, hdst, hsrc⟩ := segmentFor_eq_some.mp hr
  exact ⟨frame, r, hheard, hr, hbrings frame r hheard.mem hr hdst hsrc⟩

def wireFrame (srcIp dstIp : List UInt8) (t : TcpParsed) : List UInt8 :=
  let seg := tcpBuild srcIp dstIp t.srcPort t.dstPort t.seq t.ack t.flags t.payload
  ethBuild (List.replicate 6 2) (List.replicate 6 1) ethertypeIpv4 ++
    ipv4Build srcIp dstIp protoTcp seg.length 0 ++ seg

def gatewayLink (frames : List (List UInt8)) : Link :=
  { mac := List.replicate 6 2, rx := frames.map some, tx := [], sent := [],
    table := ArpTable.new.insert gatewayIp (List.replicate 6 1) }

/-- A server's reply to the SYN from port 5000. -/
def synAck (ack : UInt32) : TcpParsed := ⟨80, 5000, 7, ack, TcpFlag.syn ||| TcpFlag.ack, []⟩

theorem brings_gatewayLink {frame : List UInt8} {remotePort localPort : UInt16}
    {P : TcpReceived → Prop} (h : ∀ r, tcpSegment frame = some r → P r) :
    (gatewayLink [frame]).Brings remotePort localPort P := by
  intro frame' r hmem hr _ _
  have hmem : some frame' ∈ [some frame] := hmem
  obtain rfl : frame' = frame := Option.some_inj.mp (List.mem_singleton.mp hmem)
  exact h r hr

end TcpConn

end AgenticOS.Netstack
