import AgenticOS.Foundation.LittleEndian

/-!
# Frames of the network stack

`user_rs/netstack_driver/src/main.rs`: what the stack writes into its transmit
buffer and how it reads what the ring has received, as strings of bytes. A
builder is the string of the bytes it writes; a parser reads only below the
length it has checked, so that the default of `getD` is never seen.
-/

namespace AgenticOS.Netstack

open Foundation

def ourIp : List UInt8 := [10, 0, 2, 15]
def gatewayIp : List UInt8 := [10, 0, 2, 2]
def broadcastMac : List UInt8 := List.replicate 6 0xFF

/-! ## Numbers, the most significant byte first -/

def be16 (v : UInt16) : List UInt8 := [(v >>> 8).toUInt8, v.toUInt8]

def be32 (v : UInt32) : List UInt8 :=
  [(v >>> 24).toUInt8, (v >>> 16).toUInt8, (v >>> 8).toUInt8, v.toUInt8]

def be16At (bytes : List UInt8) (i : Nat) : UInt16 :=
  ((bytes.getD i 0).toUInt16 <<< 8) ||| (bytes.getD (i + 1) 0).toUInt16

def be32At (bytes : List UInt8) (i : Nat) : UInt32 :=
  ((bytes.getD i 0).toUInt32 <<< 24) ||| ((bytes.getD (i + 1) 0).toUInt32 <<< 16) |||
    ((bytes.getD (i + 2) 0).toUInt32 <<< 8) ||| (bytes.getD (i + 3) 0).toUInt32

/-! ## Ethernet and ARP -/

def ethertypeArp : List UInt8 := [0x08, 0x06]
def ethertypeIpv4 : List UInt8 := [0x08, 0x00]

def ethBuild (dstMac srcMac ethertype : List UInt8) : List UInt8 := dstMac ++ srcMac ++ ethertype

/-- The 28 bytes after the header: hardware and protocol type, their lengths,
the operation, and both ends. -/
def arpBody (oper : UInt16) (srcMac srcIp dstMac dstIp : List UInt8) : List UInt8 :=
  [0x00, 0x01, 0x08, 0x00, 6, 4] ++ be16 oper ++ srcMac ++ srcIp ++ dstMac ++ dstIp

def arpBuildRequest (srcMac srcIp targetIp : List UInt8) : List UInt8 :=
  ethBuild broadcastMac srcMac ethertypeArp ++
    arpBody 1 srcMac srcIp (List.replicate 6 0) targetIp

def arpBuildReply (srcMac srcIp dstMac dstIp : List UInt8) : List UInt8 :=
  ethBuild dstMac srcMac ethertypeArp ++ arpBody 2 srcMac srcIp dstMac dstIp

/-! ## The Internet checksum -/

/-- The words of the data added up, an odd last byte as the high one. -/
def wordSum : List UInt8 → UInt32 → UInt32
  | a :: b :: rest, sum => wordSum rest (sum + ((a.toUInt32 <<< 8) ||| b.toUInt32))
  | [a], sum => sum + (a.toUInt32 <<< 8)
  | [], sum => sum

def foldCarry (sum : UInt32) : UInt32 :=
  if sum >>> 16 ≠ 0 then (sum &&& (0xFFFF : UInt32)) + (sum >>> 16) else sum

def checksum16 (data : List UInt8) : UInt16 :=
  ~~~ (foldCarry (foldCarry (wordSum data 0))).toUInt16

/-! ## IPv4 -/

def ethHdrLen : Nat := 14
def ipv4HdrLen : Nat := 20
def tcpHdrLen : Nat := 20
def protoTcp : UInt8 := 6

def ipv4Header (src dst : List UInt8) (proto : UInt8) (payloadLen : Nat) (ident cksum : UInt16) :
    List UInt8 :=
  [0x45, 0x00] ++ be16 (UInt16.ofNat (ipv4HdrLen + payloadLen)) ++ be16 ident ++
    [0x40, 0x00, 64, proto] ++ be16 cksum ++ src ++ dst

def ipv4Build (src dst : List UInt8) (proto : UInt8) (payloadLen : Nat) (ident : UInt16) :
    List UInt8 :=
  ipv4Header src dst proto payloadLen ident
    (checksum16 (ipv4Header src dst proto payloadLen ident 0))

structure Ipv4Parsed where
  src : List UInt8
  dst : List UInt8
  proto : UInt8
  payloadOff : Nat
  payloadLen : Nat
  deriving DecidableEq

def ipv4Parse (frame : List UInt8) : Option Ipv4Parsed :=
  if frame.length < ethHdrLen + ipv4HdrLen then none
  else
    let ip := frame.drop ethHdrLen
    if ip.getD 0 0 ≠ 0x45 then none
    else if checksum16 (slice ip 0 ipv4HdrLen) ≠ 0 then none
    else
      let totalLen := min (be16At ip 2).toNat (frame.length - ethHdrLen)
      some { src := slice ip 12 4, dst := slice ip 16 4, proto := ip.getD 9 0,
             payloadOff := ethHdrLen + ipv4HdrLen, payloadLen := totalLen - ipv4HdrLen }

/-! ## TCP -/

namespace TcpFlag

def fin : UInt8 := 0x01
def syn : UInt8 := 0x02
def rst : UInt8 := 0x04
def psh : UInt8 := 0x08
def ack : UInt8 := 0x10

end TcpFlag

def tcpWindow : UInt16 := 4096

/-- The addresses, the protocol and the length, which the checksum covers
besides the segment. -/
def pseudoHeader (src dst : List UInt8) (proto : UInt8) (segment : List UInt8) : List UInt8 :=
  src ++ dst ++ [0, proto] ++ be16 (UInt16.ofNat segment.length)

/-- Only the first 256 bytes of the segment go into the checksum. -/
def pseudoChecksum (src dst : List UInt8) (proto : UInt8) (segment : List UInt8) : UInt16 :=
  let cksum := checksum16 (pseudoHeader src dst proto segment ++ segment.take 256)
  if cksum = 0 then 0xFFFF else cksum

def tcpChecksum (src dst segment : List UInt8) : UInt16 := pseudoChecksum src dst protoTcp segment

def tcpSegmentWith (srcPort dstPort : UInt16) (seq ack : UInt32) (flags : UInt8) (cksum : UInt16)
    (payload : List UInt8) : List UInt8 :=
  be16 srcPort ++ be16 dstPort ++ be32 seq ++ be32 ack ++ [(5 : UInt8) <<< 4, flags] ++
    be16 tcpWindow ++ be16 cksum ++ [0, 0] ++ payload

def tcpBuild (srcIp dstIp : List UInt8) (srcPort dstPort : UInt16) (seq ack : UInt32)
    (flags : UInt8) (payload : List UInt8) : List UInt8 :=
  tcpSegmentWith srcPort dstPort seq ack flags
    (tcpChecksum srcIp dstIp (tcpSegmentWith srcPort dstPort seq ack flags 0 payload)) payload

structure TcpParsed where
  srcPort : UInt16
  dstPort : UInt16
  seq : UInt32
  ack : UInt32
  flags : UInt8
  payload : List UInt8
  deriving DecidableEq

def tcpParse (seg : List UInt8) : Option TcpParsed :=
  if seg.length < tcpHdrLen then none
  else
    let dataOffset := (seg.getD 12 0 >>> 4).toNat * 4
    if dataOffset < tcpHdrLen ∨ seg.length < dataOffset then none
    else
      some { srcPort := be16At seg 0, dstPort := be16At seg 2, seq := be32At seg 4,
             ack := be32At seg 8, flags := seg.getD 13 0, payload := seg.drop dataOffset }

/-- A segment as the receiving loops see it: the addresses around it, its
bytes, and what they were parsed to. -/
structure TcpReceived where
  ip : Ipv4Parsed
  bytes : List UInt8
  tcp : TcpParsed
  deriving DecidableEq

/-- The checks that `tcp_wait_for` and `tcp_recv` make of every frame before
they look at the ports. -/
def tcpSegment (frame : List UInt8) : Option TcpReceived :=
  (ipv4Parse frame).bind fun ip =>
    if ip.proto = protoTcp ∧ tcpHdrLen ≤ ip.payloadLen then
      let seg := slice frame ip.payloadOff ip.payloadLen
      (tcpParse seg).map fun t => ⟨ip, seg, t⟩
    else none

/-- The whole segment and its pseudo-header add up to zero, as the TCP
specification has it. -/
def TcpReceived.ChecksumCorrect (r : TcpReceived) : Prop :=
  checksum16 (pseudoHeader r.ip.src r.ip.dst protoTcp r.bytes ++ r.bytes) = 0

instance (r : TcpReceived) : Decidable r.ChecksumCorrect := inferInstanceAs (Decidable (_ = _))

/-! ## Segments are read back -/

theorem be16_or (v : UInt16) : ((v >>> 8).toUInt8.toUInt16 <<< 8) ||| v.toUInt8.toUInt16 = v := by
  apply UInt16.toBitVec_inj.mp
  ext i hi
  simp [-UInt16.toUInt16_toUInt8]
  grind

theorem be32_or (v : UInt32) :
    ((v >>> 24).toUInt8.toUInt32 <<< 24) ||| ((v >>> 16).toUInt8.toUInt32 <<< 16) |||
      ((v >>> 8).toUInt8.toUInt32 <<< 8) ||| v.toUInt8.toUInt32 = v := by
  apply UInt32.toBitVec_inj.mp
  ext i hi
  simp [-UInt32.toUInt32_toUInt8]
  grind

/-- **A segment is read back.** `tcp_parse` finds in it what `tcp_build` was given. -/
theorem tcpParse_tcpBuild (srcIp dstIp : List UInt8) (t : TcpParsed) :
    tcpParse (tcpBuild srcIp dstIp t.srcPort t.dstPort t.seq t.ack t.flags t.payload) = some t := by
  unfold tcpBuild
  generalize tcpChecksum srcIp dstIp _ = cksum
  generalize hseg : tcpSegmentWith t.srcPort t.dstPort t.seq t.ack t.flags cksum t.payload = seg
  have hlen : ¬ seg.length < tcpHdrLen := by
    simp [← hseg, tcpSegmentWith, be16, be32, tcpHdrLen]
  have hoffset : (seg.getD 12 0 >>> 4).toNat * 4 = tcpHdrLen := by
    subst hseg
    change ((5 : UInt8) <<< 4 >>> 4).toNat * 4 = 20
    decide
  rw [tcpParse, if_neg hlen]
  dsimp only
  rw [hoffset, if_neg (by simpa using hlen), ← hseg]
  unfold be16At be32At
  obtain ⟨srcPort, dstPort, seq, ack, flags, payload⟩ := t
  congr 2
  · exact be16_or srcPort
  · exact be16_or dstPort
  · exact be32_or seq
  · exact be32_or ack

end AgenticOS.Netstack
