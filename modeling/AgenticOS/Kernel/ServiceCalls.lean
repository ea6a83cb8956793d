import AgenticOS.Foundation.Execution
import AgenticOS.Foundation.Packed
import AgenticOS.Kernel.Services

/-!
# Calls to the services

Every call that touches a request table, as one step of one machine: the
clients' requests and polls, the servers' replies, and the kernel's own file
requests. How a call names a request is a parameter `ι`; the kernel is given
numbers.

A request is settled in two stages. `submission` says what the checks make of
it, and reads only what no service call ever changes. What the submission then
does to the tables and the mailboxes is the same for all of them.
-/

namespace AgenticOS

open Foundation

inductive ServiceCall (ι : Type) where
  | requestFile (arg0 : UInt32)
  | requestFileInternal (inode : UInt32)
  | writeFile (arg0 : UInt32) (dataVaddr : UInt64) (len offset : UInt32)
  | requestFetch (socketCapId : CapId)
  | fileReply (requestId : ι) (dataVaddr : UInt64) (len : UInt32)
  | filePoll (requestId : ι) (outVaddr : UInt64) (outMaxLen : UInt32)
  | getWriteData (requestId : ι) (outVaddr : UInt64) (maxLen : UInt32)
  | netReply (requestId : ι) (dataVaddr : UInt64) (len : UInt32)
  | netPoll (requestId : ι) (outVaddr : UInt64) (outMaxLen : UInt32)

def ServiceCall.isRequest {ι : Type} : ServiceCall ι → Bool
  | .requestFile _ | .requestFileInternal _ | .writeFile .. | .requestFetch _ => true
  | _ => false

def ServiceCall.isFetch {ι : Type} : ServiceCall ι → Bool
  | .requestFetch _ => true
  | _ => false

structure ServiceEvent (ι : Type) where
  tid : ThreadId
  mem : UserMemory
  call : ServiceCall ι

/-- The word has the id in its upper half, if the id fits there. -/
def Carries (word : UInt64 → UInt64) : Prop :=
  ∀ id, id.toNat < 2 ^ 32 → word id >>> 32 = id

theorem carries_or {low : UInt64} (hlow : low.toNat < 2 ^ 32) :
    Carries fun id => (id <<< 32) ||| low :=
  fun _ hid => Packed.shiftLeft_or_shiftRight (show 32 < 64 by decide) hid hlow

inductive Submission where
  | file (request : FileRequest) (word : UInt64 → UInt64) (carries : Carries word)
  | fetch

def Submission.isFetch : Submission → Bool
  | .file .. => false
  | .fetch => true

namespace Kernel

variable {δ : Type}

theorem carries_readWord (inode : UInt32) : Carries fun id => readWord id inode :=
  carries_or (by rw [UInt32.toNat_toUInt64]; exact inode.toNat_lt)

theorem carries_writeWord (op : UInt8) (inode : UInt32) :
    Carries fun id => writeWord id op inode := by
  have hop : (opPayload op).toNat < 2 ^ 32 := by
    unfold opPayload
    split_ifs
    · decide
    · have hlt := op.toNat_lt
      rw [UInt64.toNat_shiftLeft, UInt8.toNat_toUInt64, Nat.shiftLeft_eq]
      exact Nat.lt_of_le_of_lt (Nat.mod_le _ _)
        (Nat.mul_lt_mul_of_pos_right hlt (Nat.two_pow_pos 24))
  have hinode : inode.toUInt64.toNat < 2 ^ 32 := by
    rw [UInt32.toNat_toUInt64]
    exact inode.toNat_lt
  have hlow : (opPayload op ||| inode.toUInt64).toNat < 2 ^ 32 := by
    rw [UInt64.toNat_or]
    exact Nat.or_lt_two_pow hop hinode
  intro id hid
  show ((id <<< 32) ||| opPayload op ||| inode.toUInt64) >>> 32 = id
  rw [UInt64.or_assoc]
  exact carries_or hlow id hid

theorem carries_fetchWord : Carries fetchWord := carries_or (by decide)

def onThread (k : Kernel δ) (tid : ThreadId) : Kernel δ :=
  { k with core := { k.core with currentTid := tid } }

def perform (k : Kernel δ) (mem : UserMemory) : ServiceCall UInt64 → Reply × Kernel δ
  | .requestFile arg0 => let (id, k) := k.requestFile arg0; (.ret id, k)
  | .requestFileInternal inode => let (id, k) := k.requestFileInternal inode; (.ret id, k)
  | .writeFile arg0 dataVaddr len offset =>
    let (id, k) := k.writeFile mem arg0 dataVaddr len offset; (.ret id, k)
  | .requestFetch socketCapId => let (id, k) := k.requestFetch socketCapId; (.ret id, k)
  | .fileReply id dataVaddr len =>
    let (reply, files) := k.files.fileReply mem id dataVaddr len; (reply, { k with files })
  | .filePoll id outVaddr outMaxLen =>
    let (reply, files) := k.files.filePoll mem id outVaddr outMaxLen
    (reply, { k with files })
  | .getWriteData id outVaddr maxLen => (k.files.fileGetWriteData mem id outVaddr maxLen, k)
  | .netReply id dataVaddr len =>
    let (reply, nets) := k.nets.netReply mem id dataVaddr len; (reply, { k with nets })
  | .netPoll id outVaddr outMaxLen =>
    let (reply, nets) := k.nets.netPoll mem id outVaddr outMaxLen; (reply, { k with nets })

def serve (k : Kernel δ) (e : ServiceEvent UInt64) : Reply × Kernel δ :=
  (k.onThread e.tid).perform e.mem e.call

/-! ## Submissions -/

def readSubmission (k : Kernel δ) (inode : UInt32) : Option Submission :=
  if k.files.serverSendCap = noServer then none
  else some (.file (.read inode) (fun id => readWord id inode) (carries_readWord inode))

def writeSubmission (k : Kernel δ) (mem : UserMemory) (op : UInt8) (inode : UInt32)
    (dataVaddr : UInt64) (len offset : UInt32) : Option Submission :=
  if k.files.serverSendCap = noServer then none
  else if 0 < min len.toNat maxFileBytes ∧
      !mem.readable dataVaddr (UInt64.ofNat (min len.toNat maxFileBytes)) then none
  else
    some (.file (.write inode len offset (mem.bytes dataVaddr))
      (fun id => writeWord id op inode) (carries_writeWord op inode))

/-- What the checks make of a call; nothing, if it is refused or no request. -/
def submission {ι : Type} (k : Kernel δ) (mem : UserMemory) :
    ServiceCall ι → Option Submission
  | .requestFile arg0 => (k.fileGrant arg0 .read).bind k.readSubmission
  | .requestFileInternal inode => k.readSubmission inode
  | .writeFile arg0 dataVaddr len offset =>
    if opOf arg0 = 0 ∧ mem.pml4 ≠ k.kernelPml4 then
      (k.fileGrant arg0 .write).bind fun inode =>
        k.writeSubmission mem (opOf arg0) inode dataVaddr len offset
    else k.writeSubmission mem (opOf arg0) (arg0 &&& 0x00FFFFFF) dataVaddr len offset
  | .requestFetch socketCapId =>
    if k.nets.serverSendCap = noServer then none
    else if (k.authorizeFetch socketCapId).1 then some .fetch
    else none
  | _ => none

def serverCap (k : Kernel δ) (fetch : Bool) : CapabilityTable × CapId :=
  if fetch then (k.nets.senderTable, k.nets.serverSendCap)
  else (k.files.senderTable, k.files.serverSendCap)

theorem submission_server {ι : Type} {k : Kernel δ} {mem : UserMemory}
    {call : ServiceCall ι} {s : Submission} (h : k.submission mem call = some s) :
    s.isFetch = call.isFetch ∧ (k.serverCap s.isFetch).2 ≠ noServer := by
  have hread : ∀ inode, k.readSubmission inode = some s →
      s.isFetch = false ∧ k.files.serverSendCap ≠ noServer := by
    intro inode hs
    unfold readSubmission at hs
    split_ifs at hs with hserver
    obtain rfl := Option.some.inj hs
    exact ⟨rfl, hserver⟩
  have hwrite : ∀ op inode dataVaddr len offset,
      k.writeSubmission mem op inode dataVaddr len offset = some s →
      s.isFetch = false ∧ k.files.serverSendCap ≠ noServer := by
    intro op inode dataVaddr len offset hs
    unfold writeSubmission at hs
    split_ifs at hs with hserver hbuffer
    obtain rfl := Option.some.inj hs
    exact ⟨rfl, hserver⟩
  have hfile : s.isFetch = false ∧ k.files.serverSendCap ≠ noServer →
      s.isFetch = false ∧ (k.serverCap s.isFetch).2 ≠ noServer := by
    rintro ⟨hs, hserver⟩
    rw [hs]
    exact ⟨rfl, hserver⟩
  cases call with
  | requestFile =>
    obtain ⟨inode, -, hs⟩ := Option.bind_eq_some_iff.mp h
    exact hfile (hread inode hs)
  | requestFileInternal inode => exact hfile (hread inode h)
  | writeFile =>
    rw [submission] at h
    split_ifs at h with hgate
    · obtain ⟨inode, -, hs⟩ := Option.bind_eq_some_iff.mp h
      exact hfile (hwrite _ _ _ _ _ hs)
    · exact hfile (hwrite _ _ _ _ _ h)
  | requestFetch =>
    rw [submission] at h
    split_ifs at h with hserver hauth
    obtain rfl := Option.some.inj h
    exact ⟨rfl, hserver⟩
  | fileReply | filePoll | getWriteData | netReply | netPoll => cases h

/-- Push the slot, try the message, return the id. -/
def submit (k : Kernel δ) : Submission → UInt64 × Kernel δ
  | .file request word _ => k.submitFile request word
  | .fetch => k.submitFetch

/-- A request whose checks ended in `submission`, under some denials. -/
def settle (k : Kernel δ) (ids : List CapId) : Option Submission → UInt64 × Kernel δ
  | some s => (k.deny ids).submit s
  | none => (0, k.deny ids)

variable (k : Kernel δ)

theorem requestFileInternal_eq (inode : UInt32) (ids : List CapId) :
    (k.deny ids).requestFileInternal inode = k.settle ids (k.readSubmission inode) := by
  unfold requestFileInternal readSubmission
  rw [deny_files]
  split_ifs <;> rfl

theorem writeFileInternal_eq (mem : UserMemory) (op : UInt8)
    (inode : UInt32) (dataVaddr : UInt64) (len offset : UInt32) (ids : List CapId) :
    (k.deny ids).writeFileInternal mem op inode dataVaddr len offset =
      k.settle ids (k.writeSubmission mem op inode dataVaddr len offset) := by
  unfold writeFileInternal writeSubmission
  rw [deny_files]
  dsimp only
  split_ifs <;> rfl

theorem authorizeFetch_deny (c : CapId) : ∃ ids, (k.authorizeFetch c).2 = k.deny ids := by
  unfold authorizeFetch
  obtain ⟨t, _, -, -, h⟩ | ⟨e, ids, -, h⟩ := k.resolveCurrentCapability_cases c .send
  · rw [h]
    dsimp only
    split_ifs
    · exact ⟨[], rfl⟩
    · exact ⟨[c], rfl⟩
  · rw [h]
    exact ⟨ids, rfl⟩

theorem perform_request (mem : UserMemory) {call : ServiceCall UInt64}
    (hreq : call.isRequest = true) :
    ∃ ids, k.perform mem call = (.ret (k.settle ids (k.submission mem call)).1,
        (k.settle ids (k.submission mem call)).2) := by
  cases call with
  | requestFile arg0 =>
    obtain ⟨ids, hauth, -⟩ := k.authorizeFile_eq arg0 .read
    refine ⟨ids, ?_⟩
    simp only [perform, requestFile, hauth, submission]
    cases k.fileGrant arg0 .read with
    | none => rfl
    | some =>
      dsimp only
      rw [requestFileInternal_eq]
      rfl
  | requestFileInternal =>
    refine ⟨[], ?_⟩
    simp only [perform, submission]
    rw [← requestFileInternal_eq]
    rfl
  | writeFile arg0 =>
    simp only [perform, writeFile, submission]
    by_cases hgate : opOf arg0 = 0 ∧ mem.pml4 ≠ k.kernelPml4
    · obtain ⟨ids, hauth, -⟩ := k.authorizeFile_eq arg0 .write
      refine ⟨ids, ?_⟩
      rw [if_pos hgate, if_pos hgate, hauth]
      cases k.fileGrant arg0 .write with
      | none => rfl
      | some =>
        dsimp only
        rw [writeFileInternal_eq]
        rfl
    · refine ⟨[], ?_⟩
      rw [if_neg hgate, if_neg hgate, ← writeFileInternal_eq]
      rfl
  | requestFetch c =>
    simp only [perform, requestFetch, submission]
    by_cases hserver : k.nets.serverSendCap = noServer
    · exact ⟨[], by rw [if_pos hserver, if_pos hserver]; rfl⟩
    · obtain ⟨ids, hids⟩ := k.authorizeFetch_deny c
      refine ⟨ids, ?_⟩
      rw [if_neg hserver, if_neg hserver]
      rcases hauth : k.authorizeFetch c with ⟨_ | _, _⟩
      · rw [hauth] at hids
        subst hids
        rfl
      · rw [hauth] at hids
        subst hids
        rfl
  | fileReply | filePoll | getWriteData | netReply | netPoll => cases hreq

end Kernel

/-! ## What the other calls do to the tables -/

namespace Service

variable {ρ : Type}

def ids (s : Service ρ) : List UInt64 := s.requests.map RequestSlot.id

/-- A table that lost slots or had slots changed, and is otherwise the same. -/
structure Reworked (s s' : Service ρ) : Prop where
  ids_sublist : s'.ids.Sublist s.ids
  nextRequestId : s'.nextRequestId = s.nextRequestId
  serverSendCap : s'.serverSendCap = s.serverSendCap
  senderTable : s'.senderTable = s.senderTable

variable (s : Service ρ)

theorem Reworked.refl : Reworked s s := ⟨.refl _, rfl, rfl, rfl⟩

theorem reworked_answer (id : UInt64) (f : ρ → ρ) : Reworked s (s.answer id f).2 := by
  unfold answer
  cases s.find id with
  | none => exact .refl s
  | some _ =>
    have hids : (Keyed.adjust RequestSlot.id id
        (fun slot => { slot with request := f slot.request }) s.requests).map
          RequestSlot.id = s.ids :=
      Keyed.map_adjust _ (by intro _; rfl) id s.requests
    refine ⟨?_, rfl, rfl, rfl⟩
    rw [← hids]
    exact .refl _

theorem reworked_collect (id : UInt64) (f : ρ → Option Reply) : Reworked s (s.collect id f).2 := by
  unfold collect
  cases (s.find id).bind f with
  | none => exact .refl s
  | some => exact ⟨Keyed.map_key_remove_sublist id s.requests, rfl, rfl, rfl⟩

theorem reworked_fileReply (s : Service FileRequest) (mem : UserMemory)
    (id dataVaddr : UInt64) (len : UInt32) :
    Reworked s (s.fileReply mem id dataVaddr len).2 := by
  unfold fileReply
  dsimp only
  split_ifs
  · exact .refl s
  · exact s.reworked_answer _ _

theorem reworked_netReply (s : Service NetRequest) (mem : UserMemory)
    (id dataVaddr : UInt64) (len : UInt32) :
    Reworked s (s.netReply mem id dataVaddr len).2 := by
  unfold netReply
  split_ifs
  · exact .refl s
  · exact s.reworked_answer _ _

end Service

namespace Kernel

variable {δ : Type}

/-- **A call that is no request** changes slots of one of the tables. -/
theorem perform_other (k : Kernel δ) (mem : UserMemory) {call : ServiceCall UInt64}
    (hreq : call.isRequest = false) :
    ∃ files nets, (k.perform mem call).2 = { k with files, nets } ∧
      k.files.Reworked files ∧ k.nets.Reworked nets := by
  cases call with
  | requestFile | requestFileInternal | writeFile | requestFetch => cases hreq
  | fileReply id dataVaddr len =>
    exact ⟨_, k.nets, rfl, k.files.reworked_fileReply mem id dataVaddr len, .refl _⟩
  | filePoll =>
    exact ⟨_, k.nets, rfl, k.files.reworked_collect _ _, .refl _⟩
  | getWriteData => exact ⟨k.files, k.nets, rfl, .refl _, .refl _⟩
  | netReply id dataVaddr len =>
    exact ⟨k.files, _, rfl, .refl _, k.nets.reworked_netReply mem id dataVaddr len⟩
  | netPoll =>
    exact ⟨k.files, _, rfl, .refl _, k.nets.reworked_collect _ _⟩

end Kernel

end AgenticOS
