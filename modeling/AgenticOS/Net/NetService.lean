import AgenticOS.Driver.Replies
import AgenticOS.Net.Tcp

/-!
# The network server

The service loop of `user_rs/netstack_driver/src/main.rs`: for every message the
driver fetches the page of a fixed host over TCP and replies with the bytes it
got.
-/

namespace AgenticOS.Netstack

open Driver (ReplyRequest)

/-- `"GET / HTTP/1.0\\r\\nHost: example.com\\r\\nConnection: close\\r\\n\\r\\n"`. -/
def getRequest : List UInt8 :=
  "GET / HTTP/1.0\r\nHost: example.com\r\nConnection: close\r\n\r\n".toList.map
    fun c => UInt8.ofNat c.toNat

def respLen : Nat := 4096

/-- The loop over `tcp_recv`, with a bound on the turns that are left: the bytes in
the buffer, the connection and the device. -/
def receiveAll : Nat → List UInt8 → TcpConn → Link → List UInt8 × TcpConn × Link
  | 0, resp, conn, link => (resp, conn, link)
  | turns + 1, resp, conn, link =>
    if resp.length < respLen ∧ conn.state ≠ .closed2 then
      match conn.tcpRecv (respLen - resp.length) 20000000 link with
      | (result, conn, link) =>
        if result.bytes = [] then (resp, conn, link)
        else receiveAll turns (resp ++ result.bytes) conn link
    else (resp, conn, link)

/-- A turn of the loop for a message: the replies, and the device. -/
def serveFetch (resolvedIp : List UInt8) (id : UInt64) (link : Link) : List ReplyRequest × Link :=
  match TcpConn.tcpConnect link resolvedIp 80 53000 with
  | (none, link) => ([.empty id], link)
  | (some conn, link) =>
    match conn.tcpSend getRequest link with
    | (false, conn, link) => ([], (conn.tcpClose link).2)
    | (true, conn, link) =>
      match receiveAll respLen [] conn link with
      | (resp, conn, link) => ([.ofBytes id resp], (conn.tcpClose link).2)

/-- The bytes of the response, if the connection was opened and the request
acknowledged. -/
def fetched (resolvedIp : List UInt8) (link : Link) : Option (List UInt8) :=
  match TcpConn.tcpConnect link resolvedIp 80 53000 with
  | (none, _) => none
  | (some conn, link) =>
    match conn.tcpSend getRequest link with
    | (false, _, _) => none
    | (true, conn, link) => some (receiveAll respLen [] conn link).1

theorem length_bytes_tcpRecv (conn : TcpConn) (outLen maxSpins : Nat) (link : Link) :
    (conn.tcpRecv outLen maxSpins link).1.bytes.length ≤ outLen := by
  obtain ⟨_, -, h⟩ | ⟨_, _, r, -, -, -, -, hreceived⟩ :=
    conn.tcpRecv_cases outLen maxSpins link
  · rw [h]
    exact Nat.zero_le _
  · generalize conn.tcpRecv outLen maxSpins link = result at hreceived ⊢
    cases hreceived with
    | reset | fin => exact Nat.zero_le _
    | data => exact List.length_take_le _ _

theorem length_receiveAll (turns : Nat) (resp : List UInt8) (conn : TcpConn) (link : Link)
    (h : resp.length ≤ respLen) : (receiveAll turns resp conn link).1.length ≤ respLen := by
  induction turns generalizing resp conn link with
  | zero => exact h
  | succ turns ih =>
    have hlen := length_bytes_tcpRecv conn (respLen - resp.length) 20000000 link
    rw [receiveAll]
    split_ifs with hopen
    · dsimp only
      split_ifs with hnone
      · exact h
      · refine ih _ _ _ ?_
        rw [List.length_append]
        omega
    · exact h

/-- More turns than bytes make no difference. -/
theorem receiveAll_of_le {turns : Nat} {resp : List UInt8} {conn : TcpConn} {link : Link}
    (h : respLen ≤ resp.length + turns) :
    receiveAll (turns + 1) resp conn link = receiveAll turns resp conn link := by
  induction turns generalizing resp conn link with
  | zero =>
    have hfull : ¬ (resp.length < respLen ∧ conn.state ≠ .closed2) := fun hopen => by omega
    simp only [receiveAll, if_neg hfull]
  | succ turns ih =>
    rw [receiveAll, receiveAll]
    split_ifs with hopen
    · dsimp only
      split_ifs with hnone
      · rfl
      · have hpos := List.length_pos_of_ne_nil hnone
        refine ih ?_
        rw [List.length_append]
        omega
    · rfl

theorem serveFetch_cases (resolvedIp : List UInt8) (id : UInt64) (link : Link) :
    (∃ bytes, fetched resolvedIp link = some bytes ∧ bytes.length ≤ respLen ∧
      (serveFetch resolvedIp id link).1 = [.ofBytes id bytes]) ∨
    fetched resolvedIp link = none ∧ ((serveFetch resolvedIp id link).1 = [] ∨
        (serveFetch resolvedIp id link).1 = [.empty id]) := by
  unfold serveFetch fetched
  split
  · exact .inr ⟨rfl, .inr rfl⟩
  · rename_i conn link1 hconn
    split
    · exact .inr ⟨rfl, .inl rfl⟩
    · rename_i conn1 link2 hsend
      exact .inl ⟨_, rfl, length_receiveAll _ _ _ _ (Nat.zero_le _), rfl⟩

end AgenticOS.Netstack
