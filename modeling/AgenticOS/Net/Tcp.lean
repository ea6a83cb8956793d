import AgenticOS.Net.Frame

/-!
# The TCP client

`user_rs/netstack_driver/src/main.rs`. The network is seen through the device:
what each poll of the receive ring finds and whether each transmission is seen
to complete are inputs, and what is transmitted is recorded. A loop that spins
a bounded number of times is a recursion on that bound.

The wait loop and `tcp_recv` look at the ports and at the flags of a segment.
Neither they nor the parsers compare the addresses of the IPv4 header with the
connection's, or compute the segment's checksum.
-/

namespace AgenticOS.Netstack

open Foundation List Option

/-! ## The device and the ARP table -/

structure ArpEntry where
  ip : List UInt8
  mac : List UInt8
  valid : Bool
  deriving DecidableEq

abbrev ArpTable := List ArpEntry

namespace ArpTable

def new : ArpTable := List.replicate 4 ⟨List.replicate 4 0, List.replicate 6 0, false⟩

def lookup (table : ArpTable) (ip : List UInt8) : Option (List UInt8) :=
  (table.find? fun e => e.valid && e.ip == ip).map ArpEntry.mac

/-- The first free slot is taken, or slot 0. -/
def insert (table : ArpTable) (ip mac : List UInt8) : ArpTable :=
  table.set ((table.findIdx? fun e => !e.valid).getD 0) ⟨ip, mac, true⟩

end ArpTable

structure SegmentOut where
  remoteMac : List UInt8
  remoteIp : List UInt8
  localPort : UInt16
  remotePort : UInt16
  seq : UInt32
  ack : UInt32
  flags : UInt8
  payload : List UInt8
  ident : UInt16
  deriving DecidableEq

inductive Sent where
  | arp (frame : List UInt8)
  | tcp (segment : SegmentOut)
  deriving DecidableEq

/-- The device with the polls and the transmissions that are still to come. -/
structure Link where
  mac : List UInt8
  rx : List (Option (List UInt8))
  tx : List Bool
  sent : List Sent
  table : ArpTable
  deriving DecidableEq

namespace Link

def txFrame (link : Link) (frame : Sent) : Bool × Link :=
  (link.tx.headD true, { link with tx := link.tx.tail, sent := link.sent ++ [frame] })

def rxPollOne (link : Link) : Option (List UInt8) × Link :=
  match link.rx with
  | [] => (none, link)
  | poll :: rest => (poll, { link with rx := rest })

/-- Every ARP frame is learned from; a request for our address is answered. -/
def handleArp (link : Link) (frame : List UInt8) : Link :=
  if frame.length < ethHdrLen + 28 ∨ slice frame 12 2 ≠ ethertypeArp then link
  else
    let a := frame.drop ethHdrLen
    let senderMac := slice a 8 6
    let senderIp := slice a 14 4
    let link := { link with table := link.table.insert senderIp senderMac }
    if be16At a 6 = 1 ∧ slice a 24 4 = ourIp then
      (link.txFrame (.arp (arpBuildReply link.mac ourIp senderMac senderIp))).2
    else link

def dispatchNonPing (link : Link) (frame : List UInt8) : Link :=
  if ethHdrLen ≤ frame.length ∧ slice frame 12 2 = ethertypeArp then link.handleArp frame
  else link

def pollAndDispatch (link : Link) : Link :=
  match link.rxPollOne with
  | (some frame, link) => link.dispatchNonPing frame
  | (none, link) => link

def arpWait (targetIp : List UInt8) : Nat → Link → Option (List UInt8) × Link
  | 0, link => (none, link)
  | spins + 1, link =>
    match link.pollAndDispatch.table.lookup targetIp with
    | some mac => (some mac, link.pollAndDispatch)
    | none => arpWait targetIp spins link.pollAndDispatch

def arpAttempts (targetIp : List UInt8) : Nat → Link → Option (List UInt8) × Link
  | 0, link => (none, link)
  | attempts + 1, link =>
    match arpWait targetIp 20000000
        (link.txFrame (.arp (arpBuildRequest link.mac ourIp targetIp))).2 with
    | (some mac, link) => (some mac, link)
    | (none, link) => arpAttempts targetIp attempts link

/-- The loop of `tcp_wait_for` and `tcp_recv`: poll until a frame is accepted,
and dispatch every other one. -/
def pollUntil {β : Type} (accept : Link → List UInt8 → Option β) : Nat → Link → Option β × Link
  | 0, link => (none, link)
  | spins + 1, link =>
    match link.rxPollOne with
    | (none, link) => pollUntil accept spins link
    | (some frame, link) =>
      match accept link frame with
      | some found => (some found, link)
      | none => pollUntil accept spins (link.dispatchNonPing frame)

def arpResolve (link : Link) (targetIp : List UInt8) : Option (List UInt8) × Link :=
  match link.table.lookup targetIp with
  | some mac => (some mac, link)
  | none => arpAttempts targetIp 3 link

end Link

/-! ## Connections -/

inductive TcpState where
  | closed
  | synSent
  | established
  | finWait1
  | finWait2
  | closed2
  deriving DecidableEq

structure TcpConn where
  state : TcpState
  localPort : UInt16
  remoteIp : List UInt8
  remotePort : UInt16
  remoteMac : List UInt8
  sendNext : UInt32
  recvNext : UInt32
  deriving DecidableEq

namespace TcpConn

def segmentFor (conn : TcpConn) (frame : List UInt8) : Option TcpReceived :=
  (tcpSegment frame).filter fun r =>
    r.tcp.dstPort = conn.localPort ∧ r.tcp.srcPort = conn.remotePort

/-- The first segment for the connection with `want`: its sequence number, flags
and length. -/
def tcpWaitFor (conn : TcpConn) (want : TcpParsed → Bool) (maxSpins : Nat) (link : Link) :
    Option (UInt32 × UInt8 × Nat) × Link :=
  link.pollUntil (fun _ frame => ((conn.segmentFor frame).filter fun r => want r.tcp).map
    fun r => (r.tcp.seq, r.tcp.flags, r.tcp.payload.length)) maxSpins

def segment (conn : TcpConn) (flags : UInt8) (payload : List UInt8) (ident : UInt16) : SegmentOut :=
  { remoteMac := conn.remoteMac, remoteIp := conn.remoteIp, localPort := conn.localPort,
    remotePort := conn.remotePort, seq := conn.sendNext, ack := conn.recvNext, flags := flags,
    payload := payload, ident := ident }

def isn : UInt32 := 0x12345678

def wantSynAck (t : TcpParsed) : Bool :=
  t.flags &&& (TcpFlag.syn ||| TcpFlag.ack) = TcpFlag.syn ||| TcpFlag.ack

def connectAttempts (conn : TcpConn) : Nat → Link → Option TcpConn × Link
  | 0, link => (none, link)
  | attempts + 1, link =>
    let syn := { conn.segment TcpFlag.syn [] isn.toUInt16 with seq := isn, ack := 0 }
    match link.txFrame (.tcp syn) with
    | (false, link) => connectAttempts conn attempts link
    | (true, link) =>
      match conn.tcpWaitFor wantSynAck 5000000 link with
      | (none, link) => connectAttempts conn attempts link
      | (some (theirSeq, flags, _), link) =>
        if flags &&& TcpFlag.rst ≠ 0 then (none, link)
        else
          let conn := { conn with recvNext := theirSeq + 1 }
          let link := (link.txFrame
            (.tcp (conn.segment TcpFlag.ack [] (isn + 2).toUInt16))).2
          (some { conn with state := .established }, link)

def tcpConnect (link : Link) (remoteIp : List UInt8) (remotePort localPort : UInt16) :
    Option TcpConn × Link :=
  let sameSubnet := remoteIp.take 3 = ourIp.take 3
  let arpTarget := if sameSubnet then remoteIp else gatewayIp
  match link.arpResolve arpTarget with
  | (none, link) => (none, link)
  | (some remoteMac, link) =>
    connectAttempts
      { state := .synSent, localPort := localPort, remoteIp := remoteIp,
        remotePort := remotePort, remoteMac := remoteMac, sendNext := isn + 1, recvNext := 0 }
      3 link

def wantAck (expectAck : UInt32) (t : TcpParsed) : Bool :=
  t.flags &&& TcpFlag.ack ≠ 0 ∧ t.ack = expectAck

def sendAttempts (conn : TcpConn) (data : List UInt8) (expectAck : UInt32) :
    Nat → Link → Bool × TcpConn × Link
  | 0, link => (false, conn, link)
  | attempts + 1, link =>
    match link.txFrame
        (.tcp (conn.segment (TcpFlag.psh ||| TcpFlag.ack) data conn.sendNext.toUInt16)) with
    | (false, link) => sendAttempts conn data expectAck attempts link
    | (true, link) =>
      match conn.tcpWaitFor (wantAck expectAck) 100000000 link with
      | (some _, link) => (true, { conn with sendNext := expectAck }, link)
      | (none, link) => sendAttempts conn data expectAck attempts link

def tcpSend (conn : TcpConn) (data : List UInt8) (link : Link) : Bool × TcpConn × Link :=
  if conn.state ≠ .established then (false, conn, link)
  else sendAttempts conn data (conn.sendNext + UInt32.ofNat data.length) 3 link

/-- How a call of `tcp_recv` ended, and at which segment. -/
inductive RecvEnd where
  | timeout
  | reset (r : TcpReceived)
  | data (r : TcpReceived) (bytes : List UInt8)
  | fin (r : TcpReceived)
  deriving DecidableEq

/-- The bytes copied into the caller's buffer; their number is the value of the
call. -/
def RecvEnd.bytes : RecvEnd → List UInt8
  | .data _ bytes => bytes
  | _ => []

/-- What `tcp_recv` does with a segment of the connection, if anything. -/
def receive (conn : TcpConn) (outLen : Nat) (link : Link) (r : TcpReceived) :
    Option (RecvEnd × TcpConn × Link) :=
  if r.tcp.flags &&& TcpFlag.rst ≠ 0 then
    some (.reset r, { conn with state := .closed2 }, link)
  else if r.tcp.payload ≠ [] ∧ r.tcp.seq = conn.recvNext then
    let conn := { conn with recvNext := conn.recvNext + UInt32.ofNat r.tcp.payload.length }
    some (.data r (r.tcp.payload.take outLen), conn,
      (link.txFrame (.tcp (conn.segment TcpFlag.ack [] conn.sendNext.toUInt16))).2)
  else if r.tcp.flags &&& TcpFlag.fin ≠ 0 then
    let conn := { conn with recvNext := r.tcp.seq + 1 }
    some (.fin r, { conn with state := .closed2 },
      (link.txFrame (.tcp (conn.segment TcpFlag.ack [] conn.sendNext.toUInt16))).2)
  else none

def tcpRecv (conn : TcpConn) (outLen maxSpins : Nat) (link : Link) : RecvEnd × TcpConn × Link :=
  match link.pollUntil
      (fun link frame => (conn.segmentFor frame).bind (conn.receive outLen link)) maxSpins with
  | (some result, _) => result
  | (none, link) => (.timeout, conn, link)

def wantAnyAck (t : TcpParsed) : Bool := t.flags &&& TcpFlag.ack ≠ 0

/-- The first half of `tcp_close`: our FIN, and the wait for its acknowledgement. -/
def closeWait (conn : TcpConn) (link : Link) : TcpConn × Link :=
  let conn := { conn with state := .finWait1 }
  match link.txFrame
      (.tcp (conn.segment (TcpFlag.fin ||| TcpFlag.ack) [] conn.sendNext.toUInt16)) with
  | (false, link) => (conn, link)
  | (true, link) =>
    let conn := { conn with sendNext := conn.sendNext + 1 }
    match conn.tcpWaitFor wantAnyAck 100000000 link with
    | (some _, link) => ({ conn with state := .finWait2 }, link)
    | (none, link) => (conn, link)

def tcpClose (conn : TcpConn) (link : Link) : TcpConn × Link :=
  if conn.state ≠ .established then (conn, link)
  else
    let (conn, link) := conn.closeWait link
    let (_, conn, link) := conn.tcpRecv 1 50000000 link
    ({ conn with state := .closed2 }, link)

end TcpConn

/-! ## What the loops leave alone

Between two segments of a connection the device is polled and ARP frames are
answered; no TCP segment is sent. -/

/-- The device after some polls and ARP traffic. -/
structure Link.Passes (link link' : Link) : Prop where
  rx : link'.rx <:+ link.rx
  sent : ∃ arps, link'.sent = link.sent ++ arps ∧ ∀ s ∈ arps, ∃ frame, s = Sent.arp frame

namespace Link

variable {link link' link'' : Link} {frame : List UInt8}

theorem Passes.refl : Passes link link := ⟨suffix_rfl, [], by simp⟩

theorem Passes.trans (h : Passes link link') (h' : Passes link' link'') : Passes link link'' := by
  refine ⟨h'.rx.trans h.rx, ?_⟩
  obtain ⟨arps, hsent, harps⟩ := h.sent
  obtain ⟨arps', hsent', harps'⟩ := h'.sent
  refine ⟨arps ++ arps', by rw [hsent', hsent, append_assoc], fun s hs => ?_⟩
  exact (mem_append.mp hs).elim (harps s) (harps' s)

theorem passes_arp : Passes link (link.txFrame (.arp frame)).2 :=
  ⟨suffix_rfl, [.arp frame], rfl, by simp⟩

theorem passes_handleArp : Passes link (link.handleArp frame) := by
  unfold handleArp
  dsimp only
  split_ifs
  · exact .refl
  · exact ⟨suffix_rfl, [.arp _], rfl, by simp⟩
  · exact ⟨suffix_rfl, [], by simp⟩

theorem passes_dispatchNonPing : Passes link (link.dispatchNonPing frame) := by
  unfold dispatchNonPing
  split_ifs
  · exact passes_handleArp
  · exact .refl

theorem passes_rxPollOne : Passes link link.rxPollOne.2 := by
  unfold rxPollOne
  split
  · exact .refl
  · rename_i hrx
    exact ⟨hrx ▸ suffix_cons _ _, [], by simp⟩

theorem passes_pollAndDispatch : Passes link link.pollAndDispatch := by
  have hpoll : Passes link link.rxPollOne.2 := passes_rxPollOne
  unfold pollAndDispatch
  split
  all_goals
    rename_i hrx
    rw [hrx] at hpoll
  · exact hpoll.trans passes_dispatchNonPing
  · exact hpoll

variable {targetIp : List UInt8} {spins : Nat}

theorem passes_arpWait : Passes link (arpWait targetIp spins link).2 := by
  induction spins generalizing link with
  | zero => exact .refl
  | succ spins ih =>
    rw [arpWait]
    split
    · exact passes_pollAndDispatch
    · exact passes_pollAndDispatch.trans ih

theorem passes_arpAttempts {attempts : Nat} :
    Passes link (arpAttempts targetIp attempts link).2 := by
  induction attempts generalizing link with
  | zero => exact .refl
  | succ attempts ih =>
    have hwait : Passes link (arpWait targetIp 20000000
        (link.txFrame (.arp (arpBuildRequest link.mac ourIp targetIp))).2).2 :=
      passes_arp.trans passes_arpWait
    rw [arpAttempts]
    split
    all_goals
      rename_i hround
      rw [hround] at hwait
    · exact hwait
    · exact hwait.trans ih

theorem passes_of_arpResolve {mac : Option (List UInt8)}
    (h : link.arpResolve targetIp = (mac, link')) : Passes link link' := by
  unfold arpResolve at h
  split at h
  · cases h
    exact .refl
  · have hpass : Passes link (arpAttempts targetIp 3 link).2 := passes_arpAttempts
    rwa [h] at hpass

/-- The last poll before `link'` found the frame. -/
def Heard (link link' : Link) (frame : List UInt8) : Prop :=
  some frame :: link'.rx <:+ link.rx

theorem Passes.heard (h : Passes link link') (hheard : Heard link' link'' frame) :
    Heard link link'' frame :=
  hheard.trans h.rx

theorem Heard.mem (h : Heard link link' frame) : some frame ∈ link.rx :=
  h.subset mem_cons_self

theorem heard_of_txFrame {ok : Bool} {s : Sent} (h : link.txFrame s = (ok, link'))
    (hheard : Heard link' link'' frame) : Heard link link'' frame := by
  cases h
  exact hheard

theorem heard_of_rxPollOne (h : link.rxPollOne = (some frame, link')) : Heard link link' frame := by
  unfold rxPollOne at h
  split at h
  · cases h
  · rename_i hrx
    cases h
    rw [Heard, hrx]

theorem passes_pollUntil {β : Type} {accept : Link → List UInt8 → Option β} :
    Passes link (pollUntil accept spins link).2 := by
  induction spins generalizing link with
  | zero => exact .refl
  | succ spins ih =>
    have hpoll : Passes link link.rxPollOne.2 := passes_rxPollOne
    rw [pollUntil]
    split
    all_goals
      rename_i hrx
      rw [hrx] at hpoll
    · exact hpoll.trans ih
    · split
      · exact hpoll
      · exact hpoll.trans (passes_dispatchNonPing.trans ih)

theorem pollUntil_eq_some {β : Type} {accept : Link → List UInt8 → Option β}
    {found : β} (h : pollUntil accept spins link = (some found, link')) :
    ∃ frame, Heard link link' frame ∧ accept link' frame = some found := by
  induction spins generalizing link with
  | zero => cases h
  | succ spins ih =>
    have hpoll : Passes link link.rxPollOne.2 := passes_rxPollOne
    rw [pollUntil] at h
    split at h
    · rename_i hrx
      rw [hrx] at hpoll
      obtain ⟨frame, hheard, haccept⟩ := ih h
      exact ⟨frame, hpoll.heard hheard, haccept⟩
    · rename_i frame link1 hrx
      rw [hrx] at hpoll
      split at h
      · rename_i haccept
        cases h
        exact ⟨frame, heard_of_rxPollOne hrx, haccept⟩
      · obtain ⟨frame', hheard, haccept⟩ := ih h
        exact ⟨frame', (hpoll.trans passes_dispatchNonPing).heard hheard, haccept⟩

@[simp] theorem rx_dispatchNonPing : (link.dispatchNonPing frame).rx = link.rx := by
  unfold dispatchNonPing handleArp txFrame
  dsimp only
  split_ifs <;> rfl

/-- Where it does not depend on the device which frames are accepted, the loop ends at
the first one of them. -/
theorem pollUntil_first {β γ : Type} {select : List UInt8 → Option γ} {takes : γ → Bool}
    {act : Link → γ → Option β} (hact : ∀ link r, (act link r).isSome = takes r) {found : β}
    (h : pollUntil (fun link frame => (select frame).bind (act link)) spins link =
      (some found, link')) :
    ∃ frame r, Heard link link' frame ∧ select frame = some r ∧
      (link.rx.filterMap (·.bind select)).find? takes = some r ∧ act link' r = some found := by
  induction spins generalizing link with
  | zero => cases h
  | succ spins ih =>
    rw [pollUntil, rxPollOne] at h
    rcases hrx : link.rx with _ | ⟨_ | frame, rest⟩
    · rw [hrx] at h
      obtain ⟨_, r, -, -, hfirst, -⟩ := ih h
      rw [hrx] at hfirst
      cases hfirst
    · rw [hrx] at h
      obtain ⟨frame, r, hheard, hr, hfirst, hfound⟩ := ih h
      refine ⟨frame, r, ?_, hr, hfirst, hfound⟩
      rw [Heard, hrx]
      exact hheard.trans (suffix_cons _ _)
    · rw [hrx] at h
      dsimp only at h
      split at h
      · rename_i haccept
        cases h
        obtain ⟨r, hr, hfound⟩ := bind_eq_some_iff.mp haccept
        have htakes := hact { link with rx := rest } r
        rw [hfound] at htakes
        refine ⟨frame, r, by rw [Heard, hrx], hr, ?_, hfound⟩
        simp [hr, ← htakes]
      · rename_i hskip
        obtain ⟨frame', r, hheard, hr, hfirst, hfound⟩ := ih h
        rw [rx_dispatchNonPing] at hfirst
        refine ⟨frame', r, ?_, hr, ?_, hfound⟩
        · rw [Heard, hrx]
          rw [Heard, rx_dispatchNonPing] at hheard
          exact hheard.trans (suffix_cons _ _)
        · -- the frame brings nothing, or what is passed over
          cases hsel : select frame with
          | none => simpa [hsel] using hfirst
          | some r' =>
            have htakes := hact { link with rx := rest } r'
            rw [hsel, bind_some] at hskip
            rw [hskip] at htakes
            simpa [hsel, ← htakes] using hfirst

end Link

namespace TcpConn

variable {conn conn' : TcpConn} {link link' : Link} {want : TcpParsed → Bool} {spins outLen : Nat}
  {data : List UInt8}

theorem segmentFor_eq_some {frame : List UInt8} {r : TcpReceived} :
    conn.segmentFor frame = some r ↔ tcpSegment frame = some r ∧
      r.tcp.dstPort = conn.localPort ∧ r.tcp.srcPort = conn.remotePort := by
  simp only [segmentFor, filter_eq_some_iff, decide_eq_true_eq]

theorem passes_of_tcpWaitFor {found : Option (UInt32 × UInt8 × Nat)}
    (h : conn.tcpWaitFor want spins link = (found, link')) : link.Passes link' := by
  have hpass : link.Passes (conn.tcpWaitFor want spins link).2 := Link.passes_pollUntil
  rwa [h] at hpass

theorem tcpWaitFor_eq_some {found : UInt32 × UInt8 × Nat}
    (h : conn.tcpWaitFor want spins link = (some found, link')) :
    ∃ frame r, link.Heard link' frame ∧ conn.segmentFor frame = some r ∧ want r.tcp = true ∧
      found = (r.tcp.seq, r.tcp.flags, r.tcp.payload.length) := by
  obtain ⟨frame, hheard, haccept⟩ := Link.pollUntil_eq_some h
  obtain ⟨r, hr, rfl⟩ := map_eq_some_iff.mp haccept
  obtain ⟨hr, hwant⟩ := filter_eq_some_iff.mp hr
  exact ⟨frame, r, hheard, hr, hwant, rfl⟩

theorem connectAttempts_eq_some {attempts : Nat}
    (h : conn.connectAttempts attempts link = (some conn', link')) :
    ∃ frame r, link.Heard link' frame ∧ conn.segmentFor frame = some r ∧ wantSynAck r.tcp = true ∧
      conn' = { conn with recvNext := r.tcp.seq + 1, state := .established } := by
  induction attempts generalizing link with
  | zero => cases h
  | succ attempts ih =>
    rw [connectAttempts] at h
    split at h
    · rename_i link1 htx
      obtain ⟨frame, r, hheard, hr⟩ := ih h
      exact ⟨frame, r, Link.heard_of_txFrame htx hheard, hr⟩
    · rename_i link1 htx
      split at h
      · rename_i link2 hwait
        obtain ⟨frame, r, hheard, hr⟩ := ih h
        have hheard := (passes_of_tcpWaitFor hwait).heard hheard
        exact ⟨frame, r, Link.heard_of_txFrame htx hheard, hr⟩
      · rename_i theirSeq flags _ link2 hwait
        obtain ⟨frame, r, hheard, hr, hwant, hfound⟩ := tcpWaitFor_eq_some hwait
        cases hfound
        split_ifs at h
        · cases h
        cases h
        exact ⟨frame, r, Link.heard_of_txFrame htx hheard, hr, hwant, rfl⟩

theorem tcpConnect_eq_some {remoteIp : List UInt8} {remotePort localPort : UInt16}
    (h : tcpConnect link remoteIp remotePort localPort = (some conn, link')) :
    ∃ frame r, link.Heard link' frame ∧ tcpSegment frame = some r ∧
      r.tcp.dstPort = localPort ∧ r.tcp.srcPort = remotePort ∧ wantSynAck r.tcp = true ∧
      conn.sendNext = isn + 1 ∧ conn.recvNext = r.tcp.seq + 1 := by
  unfold tcpConnect at h
  dsimp only at h
  split at h
  · cases h
  · rename_i link1 harp
    have hpass := Link.passes_of_arpResolve harp
    obtain ⟨frame, r, hheard, hr, hwant, rfl⟩ := connectAttempts_eq_some h
    obtain ⟨hr, hports⟩ := segmentFor_eq_some.mp hr
    exact ⟨frame, r, hpass.heard hheard, hr, hports.1, hports.2, hwant, rfl, rfl⟩

theorem sendAttempts_eq_true {expectAck : UInt32} {attempts : Nat}
    (h : conn.sendAttempts data expectAck attempts link = (true, conn', link')) :
    ∃ frame r, link.Heard link' frame ∧ conn.segmentFor frame = some r ∧
      wantAck expectAck r.tcp = true := by
  induction attempts generalizing link with
  | zero => cases h
  | succ attempts ih =>
    rw [sendAttempts] at h
    split at h
    · rename_i link1 htx
      obtain ⟨frame, r, hheard, hr⟩ := ih h
      exact ⟨frame, r, Link.heard_of_txFrame htx hheard, hr⟩
    · rename_i link1 htx
      split at h
      · rename_i link2 hwait
        obtain ⟨frame, r, hheard, hr, hwant, -⟩ := tcpWaitFor_eq_some hwait
        cases h
        exact ⟨frame, r, Link.heard_of_txFrame htx hheard, hr, hwant⟩
      · rename_i link2 hwait
        obtain ⟨frame, r, hheard, hr⟩ := ih h
        have hheard := (passes_of_tcpWaitFor hwait).heard hheard
        exact ⟨frame, r, Link.heard_of_txFrame htx hheard, hr⟩

theorem tcpSend_eq_true (h : conn.tcpSend data link = (true, conn', link')) :
    ∃ frame r, link.Heard link' frame ∧ conn.segmentFor frame = some r := by
  unfold tcpSend at h
  split_ifs at h
  · cases h
  · obtain ⟨frame, r, hheard, hr, -⟩ := sendAttempts_eq_true h
    exact ⟨frame, r, hheard, hr⟩

theorem closeWait_eq_finWait2 (h : conn.closeWait link = (conn', link'))
    (hstate : conn'.state = .finWait2) :
    ∃ frame r, link.Heard link' frame ∧ conn.segmentFor frame = some r := by
  unfold closeWait at h
  dsimp only at h
  split at h
  · cases h
    cases hstate
  · rename_i link1 htx
    split at h
    · rename_i link2 hwait
      obtain ⟨frame, r, hheard, hr, -⟩ := tcpWaitFor_eq_some hwait
      cases h
      exact ⟨frame, r, Link.heard_of_txFrame htx hheard, hr⟩
    · cases h
      cases hstate

/-- What `tcp_recv` has done with the segment that ended it. -/
inductive Received (conn : TcpConn) (outLen : Nat) (link : Link) (r : TcpReceived) :
    RecvEnd × TcpConn × Link → Prop
  | reset : Received conn outLen link r (.reset r, { conn with state := .closed2 }, link)
  | data {conn' : TcpConn} (hopen : ¬ r.tcp.flags &&& TcpFlag.rst ≠ 0)
      (hdata : r.tcp.payload ≠ []) (hseq : r.tcp.seq = conn.recvNext)
      (hconn : conn' =
        { conn with recvNext := conn.recvNext + UInt32.ofNat r.tcp.payload.length }) :
      Received conn outLen link r (.data r (r.tcp.payload.take outLen), conn',
        (link.txFrame (.tcp (conn'.segment TcpFlag.ack [] conn'.sendNext.toUInt16))).2)
  | fin {conn' : TcpConn} (hopen : ¬ r.tcp.flags &&& TcpFlag.rst ≠ 0)
      (hlate : ¬ (r.tcp.payload ≠ [] ∧ r.tcp.seq = conn.recvNext))
      (hfin : r.tcp.flags &&& TcpFlag.fin ≠ 0)
      (hconn : conn' = { conn with recvNext := r.tcp.seq + 1 }) :
      Received conn outLen link r (.fin r, { conn' with state := .closed2 },
        (link.txFrame (.tcp (conn'.segment TcpFlag.ack [] conn'.sendNext.toUInt16))).2)

theorem received_of_receive {r : TcpReceived} {result : RecvEnd × TcpConn × Link}
    (h : conn.receive outLen link r = some result) : Received conn outLen link r result := by
  unfold receive at h
  split_ifs at h with hrst hdata hfin
  · cases h
    exact .reset
  · cases h
    exact .data hrst hdata.1 hdata.2 rfl
  · cases h
    exact .fin hrst hdata hfin rfl

/-- A segment that `tcp_recv` does not pass over: RST, data in order, or FIN. -/
def takes (conn : TcpConn) (r : TcpReceived) : Bool :=
  r.tcp.flags &&& TcpFlag.rst ≠ 0 ∨ (r.tcp.payload ≠ [] ∧ r.tcp.seq = conn.recvNext) ∨
    r.tcp.flags &&& TcpFlag.fin ≠ 0

/-- The first such segment in the frames that are still to be polled. -/
def pending (conn : TcpConn) (link : Link) : Option TcpReceived :=
  (link.rx.filterMap (·.bind conn.segmentFor)).find? conn.takes

theorem isSome_receive (conn : TcpConn) (outLen : Nat) (link : Link) (r : TcpReceived) :
    (conn.receive outLen link r).isSome = conn.takes r := by
  unfold receive takes
  split_ifs with hrst hdata hfin
  · simp [hrst]
  · simp [hdata]
  · simp [hfin]
  · exact (decide_eq_false fun h => h.elim hrst fun h => h.elim hdata hfin).symm

/-- A call of `tcp_recv` times out, or it ends at the frame polled last, with the first
segment that it takes. -/
theorem tcpRecv_cases (conn : TcpConn) (outLen spins : Nat) (link : Link) :
    (∃ link', link.Passes link' ∧ conn.tcpRecv outLen spins link = (.timeout, conn, link')) ∨
    ∃ link1 frame r, link.Passes link1 ∧ link.Heard link1 frame ∧ conn.segmentFor frame = some r ∧
      conn.pending link = some r ∧
      Received conn outLen link1 r (conn.tcpRecv outLen spins link) := by
  have hpass : link.Passes (link.pollUntil (fun link frame =>
      (conn.segmentFor frame).bind (conn.receive outLen link)) spins).2 := Link.passes_pollUntil
  unfold tcpRecv
  split
  all_goals
    rename_i hloop
    rw [hloop] at hpass
  · obtain ⟨frame, r, hheard, hr, hfirst, hreceive⟩ := Link.pollUntil_first
      (fun link r => isSome_receive conn outLen link r) hloop
    exact .inr ⟨_, frame, r, hpass, hheard, hr, hfirst, received_of_receive hreceive⟩
  · exact .inl ⟨_, hpass, rfl⟩

end TcpConn

end AgenticOS.Netstack
