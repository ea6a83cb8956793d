import AgenticOS.Kernel.RequestMap

/-!
# Whose request it is

The handlers look a request up by its id and never ask who made it. This
module compares what one client sees in a run with what it sees when the other
clients' calls are deleted. The two runs number the client's requests
differently, since all clients draw from one counter; so the shorter run names
the client's requests by their order.

Left alone, a client sees the same in both. A call by someone else under one of
its ids breaks that, and nothing in the kernel stands against it.
-/

namespace AgenticOS

open Foundation
open ServiceCall (isRequest_eq target_map)
open List hiding next

def ServiceEvent.map {ι κ : Type} (f : ι → κ) (e : ServiceEvent ι) : ServiceEvent κ :=
  ⟨e.tid, e.mem, e.call.map f⟩

/-- The kernel, with the ids one client got from each service (the network
service under `true`), in order. -/
structure ClientView (δ : Type) where
  kernel : Kernel δ
  ids : Bool → List UInt64

namespace ClientView

variable {δ : Type}

def start (k : Kernel δ) : ClientView δ := ⟨k, fun _ => []⟩

/-- A call in the full run. The client keeps what its requests return, unless
it is 0. -/
def step (client : ThreadId) (s : ClientView δ) (e : ServiceEvent UInt64) :
    Reply × ClientView δ :=
  let (reply, kernel) := s.kernel.serve e
  (reply, {
    kernel
    ids := if e.tid = client ∧ e.call.isRequest ∧ reply.value ≠ 0 then
        Function.update s.ids e.call.isFetch (s.ids e.call.isFetch ++ [reply.value])
      else s.ids })

/-- The call as it stays when the other clients' calls are deleted: requests of
the client, and calls of the client or of a server on one of its requests. -/
def kept (client : ThreadId) (isServer : ThreadId → Bool) (s : ClientView δ)
    (e : ServiceEvent UInt64) : Option (ServiceEvent Nat) :=
  match e.call.target with
  | none => if e.tid = client then some (e.map fun _ => 0) else none
  | some (fetch, id) =>
    if e.tid = client ∨ isServer e.tid then
      ((s.ids fetch).idxOf? id).map fun j => e.map fun _ => j
    else none

/-- A call of the shorter run: the number is the request's position among the
client's. -/
def replay (client : ThreadId) (t : ClientView δ) (e : ServiceEvent Nat) :
    Reply × ClientView δ :=
  match e.call.target with
  | none => t.step client (e.map fun _ => 0)
  | some (fetch, j) =>
    match (t.ids fetch)[j]? with
    | some id => t.step client (e.map fun _ => id)
    | none => (.ret failure, t)

/-- What the client sees of a call: everything, but of a new id only that it
got one. -/
def seen {ι : Type} (call : ServiceCall ι) (reply : Reply) : Reply :=
  if call.isRequest then .ret (if reply.value = 0 then 0 else 1) else reply

def keptRun (client : ThreadId) (isServer : ThreadId → Bool) :
    ClientView δ → List (ServiceEvent UInt64) → List (ServiceEvent Nat)
  | _, [] => []
  | s, e :: events =>
    (s.kept client isServer e).toList ++
      keptRun client isServer (s.step client e).2 events

/-- What the client sees of its own requests in the full run. -/
def observed (client : ThreadId) (isServer : ThreadId → Bool) :
    ClientView δ → List (ServiceEvent UInt64) → List Reply
  | _, [] => []
  | s, e :: events =>
    (if e.tid = client ∧ (s.kept client isServer e).isSome then
      [seen e.call (s.step client e).1] else []) ++
      observed client isServer (s.step client e).2 events

def observedKept (client : ThreadId) : ClientView δ → List (ServiceEvent Nat) → List Reply
  | _, [] => []
  | t, e :: events =>
    (if e.tid = client then [seen e.call (t.replay client e).1] else []) ++
      observedKept client (t.replay client e).2 events

/-- Nobody but the client and the servers makes a call under one of the
client's ids, and no counter wraps. -/
def Unmolested (client : ThreadId) (isServer : ThreadId → Bool) (s : ClientView δ)
    (e : ServiceEvent UInt64) : Prop :=
  (∀ entry ∈ e.call.target,
    e.tid = client ∨ isServer e.tid = true ∨ entry.2 ∉ s.ids entry.1) ∧
  (e.call.isRequest = true →
    s.kernel.files.nextRequestId.toNat + 1 < 2 ^ 64 ∧
    s.kernel.nets.nextRequestId.toNat + 1 < 2 ^ 64)

instance (client : ThreadId) (isServer : ThreadId → Bool) (s : ClientView δ)
    (e : ServiceEvent UInt64) : Decidable (Unmolested client isServer s e) :=
  @instDecidableAnd _ _ (Option.decidableForallMem e.call.target) inferInstance

end ClientView

/-! ## What the checks read -/

namespace Kernel

variable {δ : Type}

/-- The parts of two kernels that the checks of a request read. -/
structure SameChecks (k k' : Kernel δ) : Prop where
  objects : k.core.objects = k'.core.objects
  threads : k.threads = k'.threads
  kernelPml4 : k.kernelPml4 = k'.kernelPml4
  fileServer : k.files.serverSendCap = k'.files.serverSendCap
  netServer : k.nets.serverSendCap = k'.nets.serverSendCap

theorem SameChecks.trans {k k' k'' : Kernel δ} (h : SameChecks k k')
    (h' : SameChecks k' k'') : SameChecks k k'' :=
  ⟨h.objects.trans h'.objects, h.threads.trans h'.threads,
    h.kernelPml4.trans h'.kernelPml4, h.fileServer.trans h'.fileServer,
    h.netServer.trans h'.netServer⟩

theorem SameChecks.symm {k k' : Kernel δ} (h : SameChecks k k') : SameChecks k' k :=
  ⟨h.objects.symm, h.threads.symm, h.kernelPml4.symm, h.fileServer.symm, h.netServer.symm⟩

theorem authorizeFetch_congr {k k' : Kernel δ} (h : SameAuthority k k') (c : CapId) :
    (k.authorizeFetch c).1 = (k'.authorizeFetch c).1 := by
  unfold authorizeFetch
  obtain ⟨_, h1, h2⟩ | ⟨e, _, h1, h2⟩ := h.resolve_pair c .send
  · rw [h1, h2]
    dsimp only
    rw [Core.objectKind_congr h.objects]
    split_ifs <;> rfl
  · rw [h1, h2]

theorem submission_congr {ι : Type} {k k' : Kernel δ} (h : SameChecks k k')
    (tid : ThreadId) (mem : UserMemory) (call : ServiceCall ι) :
    (k.onThread tid).submission mem call = (k'.onThread tid).submission mem call := by
  have hauth : SameAuthority (k.onThread tid) (k'.onThread tid) :=
    ⟨h.objects, congrFun h.threads tid⟩
  have hread : (k.onThread tid).readSubmission = (k'.onThread tid).readSubmission := by
    funext inode
    unfold readSubmission
    rw [show (k.onThread tid).files.serverSendCap = (k'.onThread tid).files.serverSendCap
      from h.fileServer]
  have hwrite : (k.onThread tid).writeSubmission mem = (k'.onThread tid).writeSubmission mem := by
    funext op inode dataVaddr len offset
    unfold writeSubmission
    rw [show (k.onThread tid).files.serverSendCap = (k'.onThread tid).files.serverSendCap
      from h.fileServer]
  have hpml4 : (k.onThread tid).kernelPml4 = (k'.onThread tid).kernelPml4 := h.kernelPml4
  have hnet : (k.onThread tid).nets.serverSendCap = (k'.onThread tid).nets.serverSendCap :=
    h.netServer
  cases call <;>
    simp only [submission, fileGrant_congr hauth, authorizeFetch_congr hauth, hread, hwrite,
      hpml4, hnet]

/-! ## What a call does, for everyone and for the tables -/

variable (k : Kernel δ)

theorem sameChecks_onThread (tid : ThreadId) : SameChecks (k.onThread tid) k :=
  ⟨rfl, rfl, rfl, rfl, rfl⟩

theorem sameChecks_deny (ids : List CapId) : SameChecks (k.deny ids) k :=
  ⟨Core.deny_objects _ _, rfl, rfl, rfl, rfl⟩

theorem sameChecks_trySend (table : CapabilityTable) (capId : CapId)
    (msg : Message) : SameChecks (k.trySend table capId msg).2 k := by
  obtain ⟨_, _, hobjects, -, h⟩ := k.trySend_frame table capId msg
  rw [h]
  exact ⟨hobjects, rfl, rfl, rfl, rfl⟩

theorem sameChecks_submit (s : Submission) : SameChecks (k.submit s).2 k := by
  cases s with
  | file request =>
    have hpush : SameChecks { k with files := k.files.push request } k :=
      ⟨rfl, rfl, rfl, rfl, rfl⟩
    exact (sameChecks_trySend _ _ _ _).trans hpush
  | fetch =>
    have hpush : SameChecks { k with nets := k.nets.push .new } k :=
      ⟨rfl, rfl, rfl, rfl, rfl⟩
    exact (sameChecks_trySend _ _ _ _).trans hpush

def Settled (k : Kernel δ) (result : Reply × Kernel δ) : Option Submission → Prop
  | none => result.1 = .ret 0 ∧ result.2.files = k.files ∧ result.2.nets = k.nets
  | some (.file request _ _) => result.1 = .ret k.files.nextRequestId ∧
      result.2.files = k.files.push request ∧ result.2.nets = k.nets
  | some .fetch => result.1 = .ret k.nets.nextRequestId ∧
      result.2.files = k.files ∧ result.2.nets = k.nets.push .new

variable {e : ServiceEvent UInt64}

theorem serve_request (hreq : e.call.isRequest = true) : SameChecks (k.serve e).2 k ∧
      k.Settled (k.serve e) ((k.onThread e.tid).submission e.mem e.call) := by
  obtain ⟨ids, hperform⟩ := (k.onThread e.tid).perform_request e.mem hreq
  have hthread := k.sameChecks_onThread e.tid
  have hdeny := ((k.onThread e.tid).sameChecks_deny ids).trans hthread
  unfold serve
  rw [hperform]
  cases (k.onThread e.tid).submission e.mem e.call with
  | none => exact ⟨hdeny, rfl, rfl, rfl⟩
  | some s =>
    refine ⟨(sameChecks_submit _ s).trans hdeny, ?_⟩
    cases s with
    | file request word =>
      refine ⟨rfl, ?_, ?_⟩
      · exact (submitFile_spec ((k.onThread e.tid).deny ids) request word).2.1
      · simp only [settle, submit, submitFile, trySend_nets]
        rfl
    | fetch =>
      refine ⟨rfl, ?_, ?_⟩
      · simp only [settle, submit, submitFetch, trySend_files]
        rfl
      · exact (submitFetch_spec ((k.onThread e.tid).deny ids)).2.1

theorem serve_file {k : Kernel δ} (hk : k.files.Numbered)
    {id : UInt64} (htarget : e.call.target = some (false, id)) :
    SameChecks (k.serve e).2 k ∧
      k.files.Acts id (e.call.fileEffect e.mem) ((k.serve e).1, (k.serve e).2.files) ∧
      (k.serve e).2.nets = k.nets := by
  have hk' : (k.onThread e.tid).files.Numbered := hk
  obtain ⟨files, hstate, hact⟩ := perform_file hk' e.mem htarget
  unfold serve
  rw [hstate]
  exact ⟨⟨rfl, rfl, rfl, hact.reworked.serverSendCap, rfl⟩, hact, rfl⟩

theorem serve_net {k : Kernel δ} (hk : k.nets.Numbered)
    {id : UInt64} (htarget : e.call.target = some (true, id)) :
    SameChecks (k.serve e).2 k ∧
      k.nets.Acts id (e.call.netEffect e.mem) ((k.serve e).1, (k.serve e).2.nets) ∧
      (k.serve e).2.files = k.files := by
  have hk' : (k.onThread e.tid).nets.Numbered := hk
  obtain ⟨nets, hstate, hact⟩ := perform_net hk' e.mem htarget
  unfold serve
  rw [hstate]
  exact ⟨⟨rfl, rfl, rfl, rfl, hact.reworked.serverSendCap⟩, hact, rfl⟩

end Kernel

/-! ## The two runs -/

namespace ClientView

variable {δ : Type} {client : ThreadId} {isServer : ThreadId → Bool}

/-- The two runs agree on what the checks read and, request by request, on the
client's entries. -/
structure Related (s t : ClientView δ) : Prop where
  checks : Kernel.SameChecks s.kernel t.kernel
  files : Service.Matched s.kernel.files (s.ids false) t.kernel.files (t.ids false)
  nets : Service.Matched s.kernel.nets (s.ids true) t.kernel.nets (t.ids true)

variable (s : ClientView δ)

theorem step_ids (client : ThreadId) (e : ServiceEvent UInt64) : (s.step client e).2.ids =
      if e.tid = client ∧ e.call.isRequest = true ∧ (s.kernel.serve e).1.value ≠ 0 then
        Function.update s.ids e.call.isFetch (s.ids e.call.isFetch ++ [(s.kernel.serve e).1.value])
      else s.ids :=
  rfl

theorem step_ids_of_not_own (client : ThreadId)
    (e : ServiceEvent UInt64) (h : ¬ (e.tid = client ∧ e.call.isRequest = true)) :
    (s.step client e).2.ids = s.ids := by
  rw [step_ids]
  exact if_neg fun hown => h ⟨hown.1, hown.2.1⟩

variable {e e' : ServiceEvent UInt64}

theorem step_ids_of_refused (client : ThreadId) (hreply : (s.kernel.serve e).1 = .ret 0) :
    (s.step client e).2.ids = s.ids := by
  rw [step_ids, hreply]
  exact if_neg fun hown => hown.2.2 rfl

variable {fetch : Bool}

/-- An accepted request of the client's. It returns a counter, which is not 0,
and all the client sees of it is that it was accepted. -/
theorem step_accepted {id : UInt64} (htid : e.tid = client) (hreq : e.call.isRequest = true)
    (hfetch : e.call.isFetch = fetch) (hpos : 0 < id.toNat)
    (hreply : (s.kernel.serve e).1 = .ret id) :
    seen e.call (s.step client e).1 = .ret 1 ∧
      (s.step client e).2.ids = Function.update s.ids fetch (s.ids fetch ++ [id]) := by
  have hid : id ≠ 0 := by
    rintro rfl
    exact absurd hpos (by decide)
  constructor
  · rw [show (s.step client e).1 = (s.kernel.serve e).1 from rfl, hreply, seen, if_pos hreq]
    exact congrArg Reply.ret (if_neg hid)
  · rw [step_ids, hreply, hfetch]
    exact if_pos ⟨htid, hreq, hid⟩

theorem related_request_other {s t : ClientView δ} (h : Related s t)
    (hreq : e.call.isRequest = true) (htid : e.tid ≠ client)
    (hsafe : Unmolested client isServer s e) : Related (s.step client e).2 t := by
  obtain ⟨hfwrap, hnwrap⟩ := hsafe.2 hreq
  obtain ⟨hchecks, hsettled⟩ := s.kernel.serve_request hreq
  have hids := s.step_ids_of_not_own client e fun hown =>
    htid hown.1
  have hstep : Kernel.SameChecks (s.step client e).2.kernel t.kernel :=
    hchecks.trans h.checks
  have hkernel : (s.step client e).2.kernel = (s.kernel.serve e).2 := rfl
  cases hsub : (s.kernel.onThread e.tid).submission e.mem e.call with
  | none =>
    rw [hsub] at hsettled
    obtain ⟨-, hfiles, hnets⟩ := hsettled
    exact ⟨hstep, by rw [hids, hkernel, hfiles]; exact h.files,
      by rw [hids, hkernel, hnets]; exact h.nets⟩
  | some sub =>
    rw [hsub] at hsettled
    cases sub with
    | file =>
      obtain ⟨-, hfiles, hnets⟩ := hsettled
      exact ⟨hstep, by rw [hids, hkernel, hfiles]; exact h.files.push_other hfwrap _,
        by rw [hids, hkernel, hnets]; exact h.nets⟩
    | fetch =>
      obtain ⟨-, hfiles, hnets⟩ := hsettled
      exact ⟨hstep, by rw [hids, hkernel, hfiles]; exact h.files,
        by rw [hids, hkernel, hnets]; exact h.nets.push_other hnwrap _⟩

theorem related_entry_other {s t : ClientView δ} (h : Related s t) {id : UInt64}
    (htarget : e.call.target = some (fetch, id)) (hid : id ∉ s.ids fetch) :
    Related (s.step client e).2 t := by
  have hreq : e.call.isRequest = false := by
    rw [isRequest_eq, htarget]
    rfl
  have hids := s.step_ids_of_not_own client e fun hown => by
    rw [hreq] at hown
    exact nomatch hown.2
  have hkernel : (s.step client e).2.kernel = (s.kernel.serve e).2 := rfl
  cases fetch with
  | false =>
    obtain ⟨hchecks, hact, hnets⟩ := Kernel.serve_file h.files.left.numbered htarget
    exact ⟨hchecks.trans h.checks, by rw [hids]; exact h.files.acts_other hid hact,
      by rw [hids, hkernel, hnets]; exact h.nets⟩
  | true =>
    obtain ⟨hchecks, hact, hfiles⟩ := Kernel.serve_net h.nets.left.numbered htarget
    exact ⟨hchecks.trans h.checks, by rw [hids, hkernel, hfiles]; exact h.files,
      by rw [hids]; exact h.nets.acts_other hid hact⟩

theorem related_request_own {s t : ClientView δ} (h : Related s t) (hreq : e.call.isRequest = true)
    (htid : e.tid = client)
    (hsafe : Unmolested client isServer s e)
    (he' : e' = (e.map fun _ => 0).map fun _ => 0) :
    seen e.call (s.step client e).1 = seen e'.call (t.step client e').1 ∧
      Related (s.step client e).2 (t.step client e').2 := by
  obtain ⟨hfwrap, hnwrap⟩ := hsafe.2 hreq
  have htid' : e'.tid = client := by rw [he']; exact htid
  have hreq' : e'.call.isRequest = true := by
    rw [he']
    simpa [ServiceEvent.map] using hreq
  have hfetch : e'.call.isFetch = e.call.isFetch := by
    rw [he']
    simp [ServiceEvent.map]
  have hsub' : (t.kernel.onThread e'.tid).submission e'.mem e'.call =
      (s.kernel.onThread e.tid).submission e.mem e.call := by
    rw [Kernel.submission_congr h.checks, he']
    simp [ServiceEvent.map]
  obtain ⟨hchecks, hsettled⟩ := s.kernel.serve_request hreq
  obtain ⟨hchecks', hsettled'⟩ := t.kernel.serve_request hreq'
  have hboth : Kernel.SameChecks (s.step client e).2.kernel (t.step client e').2.kernel :=
    (hchecks.trans h.checks).trans hchecks'.symm
  have hkernel : (s.step client e).2.kernel = (s.kernel.serve e).2 := rfl
  have hkernel' : (t.step client e').2.kernel = (t.kernel.serve e').2 := rfl
  have hreply : (s.step client e).1 = (s.kernel.serve e).1 := rfl
  have hreply' : (t.step client e').1 = (t.kernel.serve e').1 := rfl
  rw [hsub'] at hsettled'
  cases hsub : (s.kernel.onThread e.tid).submission e.mem e.call with
  | none =>
    rw [hsub] at hsettled hsettled'
    obtain ⟨hret, hfiles, hnets⟩ := hsettled
    obtain ⟨hret', hfiles', hnets'⟩ := hsettled'
    have hids := s.step_ids_of_refused client hret
    have hids' := t.step_ids_of_refused client hret'
    refine ⟨by rw [seen, seen, if_pos hreq, if_pos hreq', hreply, hreply', hret, hret'],
      hboth, ?_, ?_⟩
    · rw [hids, hids', hkernel, hkernel', hfiles, hfiles']
      exact h.files
    · rw [hids, hids', hkernel, hkernel', hnets, hnets']
      exact h.nets
  | some sub =>
    have hkind := (Kernel.submission_server hsub).1
    rw [hsub] at hsettled hsettled'
    cases sub with
    | file request =>
      obtain ⟨hret, hfiles, hnets⟩ := hsettled
      obtain ⟨hret', hfiles', hnets'⟩ := hsettled'
      obtain ⟨hseen, hids⟩ :=
        s.step_accepted htid hreq hkind.symm h.files.left.numbered.pos hret
      obtain ⟨hseen', hids'⟩ := t.step_accepted htid' hreq'
        (hfetch.trans hkind.symm) h.files.right.numbered.pos hret'
      refine ⟨hseen.trans hseen'.symm, hboth, ?_, ?_⟩
      · rw [hids, hids', hkernel, hkernel', hfiles, hfiles']
        exact h.files.push_own hfwrap request
      · rw [hids, hids', hkernel, hkernel', hnets, hnets']
        exact h.nets
    | fetch =>
      obtain ⟨hret, hfiles, hnets⟩ := hsettled
      obtain ⟨hret', hfiles', hnets'⟩ := hsettled'
      obtain ⟨hseen, hids⟩ :=
        s.step_accepted htid hreq hkind.symm h.nets.left.numbered.pos hret
      obtain ⟨hseen', hids'⟩ := t.step_accepted htid' hreq'
        (hfetch.trans hkind.symm) h.nets.right.numbered.pos hret'
      refine ⟨hseen.trans hseen'.symm, hboth, ?_, ?_⟩
      · rw [hids, hids', hkernel, hkernel', hfiles, hfiles']
        exact h.files
      · rw [hids, hids', hkernel, hkernel', hnets, hnets']
        exact h.nets.push_own hnwrap .new

theorem related_entry_own (client : ThreadId) {s t : ClientView δ} (h : Related s t) {j : Nat}
    {id id' : UInt64}
    (htarget : e.call.target = some (fetch, id)) (hj : (s.ids fetch)[j]? = some id)
    (hj' : (t.ids fetch)[j]? = some id') (he' : e' = (e.map fun _ => j).map fun _ => id') :
    seen e.call (s.step client e).1 = seen e'.call (t.step client e').1 ∧
      Related (s.step client e).2 (t.step client e').2 := by
  have hreq : e.call.isRequest = false := by
    rw [isRequest_eq, htarget]
    rfl
  have htarget' : e'.call.target = some (fetch, id') := by
    rw [he']
    simp only [ServiceEvent.map, target_map, htarget]
    rfl
  have hreq' : e'.call.isRequest = false := by
    rw [isRequest_eq, htarget']
    rfl
  have hnot : ¬ (e.tid = client ∧ e.call.isRequest = true) := by simp [hreq]
  have hnot' : ¬ (e'.tid = client ∧ e'.call.isRequest = true) := by simp [hreq']
  have hids := s.step_ids_of_not_own client e hnot
  have hids' := t.step_ids_of_not_own client e' hnot'
  have hkernel : (s.step client e).2.kernel = (s.kernel.serve e).2 := rfl
  have hkernel' : (t.step client e').2.kernel = (t.kernel.serve e').2 := rfl
  unfold seen
  rw [hreq, hreq']
  cases fetch with
  | false =>
    have heffect : e'.call.fileEffect e'.mem = e.call.fileEffect e.mem := by
      rw [he']
      simp only [ServiceEvent.map, ServiceCall.fileEffect_map]
    obtain ⟨hchecks, hact, hnets⟩ := Kernel.serve_file h.files.left.numbered htarget
    obtain ⟨hchecks', hact', hnets'⟩ := Kernel.serve_file h.files.right.numbered htarget'
    rw [heffect] at hact'
    obtain ⟨hreply, hfiles⟩ := h.files.acts_own hj hj' hact hact'
    refine ⟨hreply, (hchecks.trans h.checks).trans hchecks'.symm, ?_, ?_⟩
    · rw [hids, hids']
      exact hfiles
    · rw [hids, hids', hkernel, hkernel', hnets, hnets']
      exact h.nets
  | true =>
    have heffect : e'.call.netEffect e'.mem = e.call.netEffect e.mem := by
      rw [he']
      simp only [ServiceEvent.map, ServiceCall.netEffect_map]
    obtain ⟨hchecks, hact, hfiles⟩ := Kernel.serve_net h.nets.left.numbered htarget
    obtain ⟨hchecks', hact', hfiles'⟩ := Kernel.serve_net h.nets.right.numbered htarget'
    rw [heffect] at hact'
    obtain ⟨hreply, hnets⟩ := h.nets.acts_own hj hj' hact hact'
    refine ⟨hreply, (hchecks.trans h.checks).trans hchecks'.symm, ?_, ?_⟩
    · rw [hids, hids', hkernel, hkernel', hfiles, hfiles']
      exact h.files
    · rw [hids, hids']
      exact hnets

/-- **One call of the full run.** Deleted, it does not matter; kept, it shows
the client the same in both runs. -/
theorem related_step {s t : ClientView δ} (h : Related s t)
    (hsafe : Unmolested client isServer s e) :
    (s.kept client isServer e = none ∧ Related (s.step client e).2 t) ∨
      ∃ e', s.kept client isServer e = some e' ∧ e'.tid = e.tid ∧
        seen e.call (s.step client e).1 = seen e'.call (t.replay client e').1 ∧
        Related (s.step client e).2 (t.replay client e').2 := by
  cases htarget : e.call.target with
  | none =>
    have hreq : e.call.isRequest = true := by
      rw [isRequest_eq, htarget]
      rfl
    by_cases htid : e.tid = client
    · right
      have htarget' : (e.map fun _ => 0).call.target = (none : Option (Bool × Nat)) := by
        simp only [ServiceEvent.map, target_map, htarget]
        rfl
      have hreplay : t.replay client (e.map fun _ => 0) =
          t.step client ((e.map fun _ => (0 : Nat)).map fun _ => 0) := by
        rw [replay, htarget']
      refine ⟨e.map fun _ => 0, by rw [kept, htarget]; exact if_pos htid, rfl, ?_⟩
      have hstep := related_request_own h hreq htid hsafe rfl
      rw [hreplay]
      exact ⟨hstep.1.trans (by simp [seen, ServiceEvent.map]), hstep.2⟩
    · left
      refine ⟨by rw [kept, htarget]; exact if_neg htid, ?_⟩
      exact related_request_other h hreq htid hsafe
  | some target =>
    obtain ⟨fetch, id⟩ := target
    have hother : id ∉ s.ids fetch → Related (s.step client e).2 t :=
      related_entry_other h htarget
    by_cases hwho : e.tid = client ∨ isServer e.tid = true
    · cases hidx : (s.ids fetch).idxOf? id with
      | none =>
        left
        refine ⟨?_, hother (idxOf?_eq_none_iff.mp hidx)⟩
        rw [kept, htarget]
        simp [hwho, hidx]
      | some j =>
        right
        obtain ⟨hlt, hget, -⟩ := idxOf?_eq_some_iff.mp hidx
        have hj : (s.ids fetch)[j]? = some id := by
          rw [List.getElem?_eq_getElem hlt, hget]
        have hlen : (s.ids fetch).length = (t.ids fetch).length := by
          cases fetch with
          | false => exact h.files.length
          | true => exact h.nets.length
        obtain ⟨id', hj'⟩ : ∃ id', (t.ids fetch)[j]? = some id' :=
          ⟨_, List.getElem?_eq_getElem (hlen ▸ hlt)⟩
        have htarget' : (e.map fun _ => j).call.target = some (fetch, j) := by
          simp only [ServiceEvent.map, target_map, htarget]
          rfl
        have hreplay : t.replay client (e.map fun _ => j) =
            t.step client ((e.map fun _ => j).map fun _ => id') := by
          simp only [replay, htarget', hj']
        refine ⟨e.map fun _ => j, ?_, rfl, ?_⟩
        · rw [kept, htarget]
          simp [hwho, hidx]
        · have hstep := related_entry_own client h htarget hj hj' rfl
          rw [hreplay]
          exact ⟨hstep.1.trans (by simp [seen, ServiceEvent.map]), hstep.2⟩
    · left
      refine ⟨by rw [kept, htarget]; exact if_neg hwho, hother ?_⟩
      rcases hsafe.1 (fetch, id) htarget with htid | hserver | hid
      · exact absurd (.inl htid) hwho
      · exact absurd (.inr hserver) hwho
      · exact hid

theorem observed_eq {s t : ClientView δ} (h : Related s t) {events : List (ServiceEvent UInt64)}
    (hsafe : Along (next (step client)) (Unmolested client isServer) s events) :
    observed client isServer s events =
      observedKept client t (keptRun client isServer s events) := by
  induction events generalizing s t with
  | nil => rfl
  | cons e events ih =>
    unfold observed keptRun
    rcases related_step h hsafe.1 with
      ⟨hkept, hrel⟩ | ⟨e', hkept, htid, hseen, hrel⟩
    · rw [hkept, ih hrel hsafe.2]
      simp
    · rw [hkept, ih hrel hsafe.2, Option.toList_some, singleton_append, observedKept, htid, hseen]
      simp

theorem related_start {k : Kernel δ} (hfiles : k.files.Numbered) (hnets : k.nets.Numbered) :
    Related (start k) (start k) := by
  refine ⟨⟨rfl, rfl, rfl, rfl, rfl⟩, ?_, ?_⟩
  · have htracks : k.files.Tracks [] := ⟨hfiles, nodup_nil, nofun⟩
    exact ⟨htracks, htracks, rfl, le_rfl, nofun⟩
  · have htracks : k.nets.Tracks [] := ⟨hnets, nodup_nil, nofun⟩
    exact ⟨htracks, htracks, rfl, le_rfl, nofun⟩

/-- **A client that is left alone.** From any state whose ids are distinct and
below their counters: in a run in which no one but the client and the servers
makes a call under the client's ids, and no counter wraps, the client sees of
its requests what it sees with all the other clients' calls deleted. -/
theorem client_isolated (k : Kernel δ) (hfiles : k.files.Numbered)
    (hnets : k.nets.Numbered) (client : ThreadId) (isServer : ThreadId → Bool)
    (events : List (ServiceEvent UInt64))
    (hsafe : Along (next (step client)) (Unmolested client isServer) (start k) events) :
    observed client isServer (start k) events =
      observedKept client (start k) (keptRun client isServer (start k) events) :=
  observed_eq (related_start hfiles hnets) hsafe

/-- Threads 1 and 2 can both read inode 5; thread 3 is the server. -/
def sampleClients : Kernel Unit :=
  .sample ⟨[some ⟨2, .read, 1⟩]⟩ ⟨[some ⟨2, .read, 1⟩]⟩

theorem sampleClients_files : sampleClients.files.Numbered :=
  ⟨nodup_nil, nofun, by decide⟩

theorem sampleClients_nets : sampleClients.nets.Numbered :=
  ⟨nodup_nil, nofun, by decide⟩

/-- Thread 2 asks first, so thread 1 gets the second id; the server answers
both and each collects its own. -/
def separateClients : List (ServiceEvent UInt64) :=
  [⟨2, .filled 0, .requestFile 0⟩, ⟨1, .filled 0, .requestFile 0⟩,
    ⟨3, .filled 8, .fileReply 1 0x4000 2⟩, ⟨3, .filled 7, .fileReply 2 0x4000 3⟩,
    ⟨2, .filled 0, .filePoll 1 0x5000 16⟩, ⟨1, .filled 0, .filePoll 2 0x5000 16⟩]

theorem client_isolated_separate :
    observed 1 (· = 3) (start sampleClients) separateClients = observedKept 1 (start sampleClients)
        (keptRun 1 (· = 3) (start sampleClients) separateClients) ∧
    observed 1 (· = 3) (start sampleClients) separateClients =
      [.ret 1, ⟨3, some (0x5000, [7, 7, 7])⟩] :=
  ⟨client_isolated sampleClients sampleClients_files sampleClients_nets 1 (· = 3)
    separateClients (by decide), by decide⟩

/-- Thread 2 collects thread 1's answer by guessing its id. -/
def stolenAnswer : List (ServiceEvent UInt64) :=
  [⟨1, .filled 0, .requestFile 0⟩, ⟨3, .filled 7, .fileReply 1 0x4000 3⟩,
    ⟨2, .filled 0, .filePoll 1 0x5000 16⟩, ⟨1, .filled 0, .filePoll 1 0x5000 16⟩]

/-- Thread 2 answers thread 1's request in the server's place. -/
def forgedAnswer : List (ServiceEvent UInt64) :=
  [⟨1, .filled 0, .requestFile 0⟩, ⟨2, .filled 9, .fileReply 1 0x4000 3⟩,
    ⟨1, .filled 0, .filePoll 1 0x5000 16⟩]

/-- **The id is all it takes.** A stolen answer is gone for its owner and its
bytes are with the thief; a forged one is taken for the server's. -/
theorem client_not_isolated :
    observed 1 (· = 3) (start sampleClients) stolenAnswer = [.ret 1, .ret failure] ∧
    observedKept 1 (start sampleClients)
        (keptRun 1 (· = 3) (start sampleClients) stolenAnswer) =
      [.ret 1, ⟨3, some (0x5000, [7, 7, 7])⟩] ∧
    (transcript (step 1) (start sampleClients) stolenAnswer).map Prod.snd =
      [.ret 1, .ret 0, ⟨3, some (0x5000, [7, 7, 7])⟩, .ret failure] ∧
    observed 1 (· = 3) (start sampleClients) forgedAnswer =
      [.ret 1, ⟨3, some (0x5000, [9, 9, 9])⟩] ∧
    observedKept 1 (start sampleClients)
        (keptRun 1 (· = 3) (start sampleClients) forgedAnswer) =
      [.ret 1, .ret failure] := by
  decide

end ClientView

end AgenticOS
