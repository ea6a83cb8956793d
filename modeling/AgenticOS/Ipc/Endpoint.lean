import AgenticOS.Foundation.Ring
import AgenticOS.Audit

/-!
# IPC endpoints

The state of one endpoint of `ipc.rs`: the rendezvous cell of the blocking
`send`/`receive`, and the ring of the fire-and-forget `try_send`/`try_receive`.
The payload is a parameter. The kernel stores messages; the proofs about
concurrent callers store messages together with the call that sent them.

`q_head` and `q_tail` are bytes that are only ever stored modulo `QUEUE_DEPTH`,
hence elements of `Fin queueDepth`, which is also what makes indexing
`q_slots` with them safe. `q_len` is a byte that `fetch_add` and `fetch_sub`
wrap.
-/

namespace AgenticOS

open Foundation

structure Message where
  data : Vector UInt64 4
  deriving DecidableEq, Repr

def Message.zero : Message := ⟨#v[0, 0, 0, 0]⟩

def Message.word (w : UInt64) : Message := ⟨#v[w, 0, 0, 0]⟩

def stateIdle : UInt8 := 0
def stateMessagePending : UInt8 := 1
def stateMessageTaken : UInt8 := 2

def queueDepth : Nat := 32

instance : NeZero queueDepth := ⟨by decide⟩

structure Endpoint (μ : Type) where
  state : UInt8
  message : μ
  qHead : Fin queueDepth
  qTail : Fin queueDepth
  qLen : UInt8
  qSlots : Fin queueDepth → μ

def nextSlot (i : Fin queueDepth) : Fin queueDepth :=
  ⟨(i.val + 1) % queueDepth, Nat.mod_lt _ (by decide)⟩

theorem nextSlot_slot (i : Nat) :
    nextSlot (Ring.slot queueDepth i) = Ring.slot queueDepth (i + 1) := by
  apply Fin.ext
  exact Nat.mod_add_mod i queueDepth 1

namespace Endpoint

variable {μ : Type}

def new (zero : μ) : Endpoint μ := ⟨stateIdle, zero, 0, 0, 0, fun _ => zero⟩

/-- The mailbox half of `try_send`, run without a step of anyone in between. -/
def trySend (ep : Endpoint μ) (msg : μ) : Bool × Endpoint μ :=
  if queueDepth ≤ ep.qLen.toNat then (false, ep)
  else
    (true,
      { ep with
        qSlots := Function.update ep.qSlots ep.qHead msg
        qHead := nextSlot ep.qHead
        qLen := ep.qLen + 1 })

/-- The mailbox half of `try_receive_on_object`, likewise. -/
def tryReceive (ep : Endpoint μ) : Option μ × Endpoint μ :=
  if ep.qLen = 0 then (none, ep)
  else
    (some (ep.qSlots ep.qTail),
      { ep with qTail := nextSlot ep.qTail, qLen := ep.qLen - 1 })

/-- What a `send` that found `IDLE` leaves in the rendezvous cell. -/
def deposit (ep : Endpoint μ) (msg : μ) : Endpoint μ :=
  { ep with message := msg, state := stateMessagePending }

/-- What a `send` that found `TAKEN` leaves there. -/
def release (ep : Endpoint μ) : Endpoint μ := { ep with state := stateIdle }

def map {ν : Type} (f : μ → ν) (ep : Endpoint μ) : Endpoint ν :=
  { ep with message := f ep.message, qSlots := f ∘ ep.qSlots }

theorem trySend_map {ν : Type} (f : μ → ν) (ep : Endpoint μ) (msg : μ) :
    (ep.map f).trySend (f msg) = ((ep.trySend msg).1, (ep.trySend msg).2.map f) := by
  by_cases hfull : queueDepth ≤ ep.qLen.toNat
  · simp [trySend, map, hfull]
  · simp [trySend, map, hfull, Function.comp_update]

theorem tryReceive_map {ν : Type} (f : μ → ν) (ep : Endpoint μ) : (ep.map f).tryReceive =
      (ep.tryReceive.1.map f, ep.tryReceive.2.map f) := by
  by_cases hempty : ep.qLen = 0
  · simp [tryReceive, map, hempty]
  · simp [tryReceive, map, hempty]

end Endpoint

end AgenticOS
