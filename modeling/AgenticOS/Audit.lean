import Mathlib

/-!
# The kernel audit log

`audit.rs` keeps a ring of the last `MAX_RECORDS` records and a sequence
counter. A count of the records *ever* passed to `record` is not readable
from the ring once it has dropped one, so the log below also keeps the whole
history. The history is a ghost: no function of the kernel reads it. What ties
it to the ring is a field of the structure, so no log exists whose ring is
anything but the tail of its history.
-/

namespace AgenticOS

open List

abbrev ObjectId := UInt32
abbrev CapId := UInt32
abbrev ThreadId := UInt64

inductive AuditEvent where
  | grant (objectId : UInt32) (rights : UInt32)
  | derive (objectId : UInt32) (rights : UInt32)
  | revoke (objectId : UInt32)
  | denied (capId : UInt32)
  | ipcSend (objectId : UInt32)
  | ipcReceive (objectId : UInt32)
  | interruptDelivered (vector : UInt8)
  | interruptAcknowledged (vector : UInt8)
  | policyDenied (rights : UInt32)
  | iommuFault (sourceId : UInt16) (reason : UInt8)
  | processCrashed (bdf : UInt32) (faultVector : UInt8)
  | processRestarted (bdf : UInt32) (attempt : UInt32)
  | processQuarantined (bdf : UInt32)
  | manifestDenied (kind : UInt8)
  | agentUiAction (targetObject : UInt32) (actionType : UInt32)
  deriving DecidableEq, Repr

structure AuditRecord where
  seq : UInt64
  actorTid : ThreadId
  event : AuditEvent
  deriving DecidableEq, Repr

def maxRecords : Nat := 4096

/-- The log: the ring, the sequence counter, and every record ever appended. -/
structure AuditLog where
  log : List AuditRecord
  nextSeq : UInt64
  history : List AuditRecord
  retained : log = history.drop (history.length - maxRecords)

namespace AuditLog

/-- The log at boot (`LOG` unset, `NEXT_SEQ = 0`). -/
def empty : AuditLog := ⟨[], 0, [], rfl⟩

/-- The ring after one more record: the oldest goes when the ring is full. -/
def pushBack (log : List AuditRecord) (r : AuditRecord) : List AuditRecord :=
  (if maxRecords ≤ log.length then log.drop 1 else log) ++ [r]

theorem pushBack_retained {log history : List AuditRecord}
    (h : log = history.drop (history.length - maxRecords)) (r : AuditRecord) :
    pushBack log r = (history ++ [r]).drop ((history ++ [r]).length - maxRecords) := by
  have hlen : log.length = history.length - (history.length - maxRecords) := by
    rw [h, length_drop]
  have hle : (history ++ [r]).length - maxRecords ≤ history.length := by
    simp only [length_append, length_singleton, maxRecords]
    omega
  have hkept : (if maxRecords ≤ log.length then log.drop 1 else log) =
      history.drop ((history ++ [r]).length - maxRecords) := by
    rw [length_append, length_singleton]
    by_cases hfull : maxRecords ≤ log.length
    · have hnext : history.length + 1 - maxRecords = history.length - maxRecords + 1 := by omega
      rw [if_pos hfull, h, drop_drop, hnext]
    · have hsame : history.length + 1 - maxRecords = history.length - maxRecords := by omega
      rw [if_neg hfull, h, hsame]
  rw [drop_append_of_le_length hle, pushBack, hkept]

/-- `audit::record`, run by the thread `actorTid`. -/
def record (l : AuditLog) (actorTid : ThreadId) (event : AuditEvent) : AuditLog :=
  let r : AuditRecord := ⟨l.nextSeq, actorTid, event⟩
  { log := pushBack l.log r
    nextSeq := l.nextSeq + 1
    history := l.history ++ [r]
    retained := pushBack_retained l.retained r }

/-- The events ever recorded, oldest first. -/
def events (l : AuditLog) : List AuditEvent := l.history.map (·.event)

@[simp] theorem events_record (l : AuditLog) (tid : ThreadId) (e : AuditEvent) :
    (l.record tid e).events = l.events ++ [e] := by
  simp [events, record]

end AuditLog

end AgenticOS
