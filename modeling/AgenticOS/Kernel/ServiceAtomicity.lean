import AgenticOS.Kernel.ServiceCalls

/-!
# Requests and their messages

A request leaves a slot in the table and a message in the server's mailbox.
The slot goes in first, and what becomes of the message is only logged. So a
slot can be left that no server will hear of, under an id the client was given
as a success. This module says exactly when that does not happen.
-/

namespace AgenticOS

open Foundation
open List hiding next

namespace Submission

def word : Submission → UInt64 → UInt64
  | .file _ word _ => word
  | .fetch => Kernel.fetchWord

theorem carries_word : ∀ s : Submission, Carries s.word
  | .file _ _ h => h
  | .fetch => Kernel.carries_fetchWord

end Submission

namespace Kernel

variable {δ : Type}

/-! ## The two servers -/

def serverTarget (k : Kernel δ) (fetch : Bool) : Option ObjectId :=
  k.sendTarget (k.serverCap fetch).1 (k.serverCap fetch).2

/-- The server is registered, the send capability resolves and the mailbox has
room. -/
def serverReady (k : Kernel δ) (fetch : Bool) : Bool :=
  (k.serverCap fetch).2 ≠ noServer &&
    k.canSend (k.serverCap fetch).1 (k.serverCap fetch).2

def nextId (k : Kernel δ) (fetch : Bool) : UInt64 :=
  if fetch then k.nets.nextRequestId else k.files.nextRequestId

def pendingIds (k : Kernel δ) (fetch : Bool) : List UInt64 :=
  if fetch then k.nets.ids else k.files.ids

/-- A message that carries the id was put into the server's mailbox. -/
def Announced (k k' : Kernel δ) (fetch : Bool) (id : UInt64) : Prop :=
  ∃ o w, k.serverTarget fetch = some o ∧ k.Enqueued k' o (.word w) ∧ w >>> 32 = id

variable {fetch : Bool} {k k' : Kernel δ} {id : UInt64}

theorem Announced.of_deny {ids : List CapId} (h : (k.deny ids).Announced k' fetch id) :
    k.Announced k' fetch id := by
  obtain ⟨o, w, htarget, henq, hw⟩ := h
  have hobjects : (k.deny ids).core.objects = k.core.objects := Core.deny_objects _ _
  refine ⟨o, w, ?_, henq, hw⟩
  rw [← htarget]
  exact (sendTarget_congr hobjects _ _).symm

/-! ## One request -/

/-- The request fails as a whole or not at all: an id is returned only for a
message that was sent, and with no way to send one the call returns 0 and
leaves the tables alone. -/
structure FailsAtomically (k : Kernel δ) (call : ServiceCall UInt64)
    (result : Reply × Kernel δ) : Prop where
  announced : result.1.value ≠ 0 → k.Announced result.2 call.isFetch result.1.value
  undone : k.serverReady call.isFetch = false →
    result.1.value = 0 ∧ result.2.files.requests = k.files.requests ∧
      result.2.nets.requests = k.nets.requests

/-- A call that gets past its checks finds its server ready, and its id fits
into the message. -/
def deliverable {ι : Type} (k : Kernel δ) (mem : UserMemory) (call : ServiceCall ι) : Bool :=
  match k.submission mem call with
  | some s => k.serverReady s.isFetch && decide ((k.nextId s.isFetch).toNat < 2 ^ 32)
  | none => true

variable (k)

/-- **What submitting does.** The next id is returned and joins the table; the
message goes out exactly when it can. -/
theorem submit_spec (s : Submission) : (k.submit s).1 = k.nextId s.isFetch ∧
      (∀ fetch, (k.submit s).2.pendingIds fetch =
        if fetch = s.isFetch then k.pendingIds fetch ++ [k.nextId s.isFetch]
        else k.pendingIds fetch) ∧
      ((k.canSend (k.serverCap s.isFetch).1 (k.serverCap s.isFetch).2 = true ∧
          ∃ o, k.serverTarget s.isFetch = some o ∧
            k.Enqueued (k.submit s).2 o (.word (s.word (k.nextId s.isFetch)))) ∨
        k.canSend (k.serverCap s.isFetch).1 (k.serverCap s.isFetch).2 = false ∧
          (k.submit s).2.endpoints = k.endpoints) := by
  cases s with
  | file request word =>
    obtain ⟨hid, hfiles, hsend⟩ := k.submitFile_spec request word
    refine ⟨hid, ?_, hsend⟩
    rintro (_ | _)
    · show (k.submitFile request word).2.files.ids = _
      rw [hfiles]
      exact map_append
    · show (k.submitFile request word).2.nets.ids = _
      simp only [submitFile, trySend_nets]
      rfl
  | fetch =>
    obtain ⟨hid, hnets, hsend⟩ := k.submitFetch_spec
    refine ⟨hid, ?_, hsend⟩
    rintro (_ | _)
    · show k.submitFetch.2.files.ids = _
      simp only [submitFetch, trySend_files]
      rfl
    · show k.submitFetch.2.nets.ids = _
      rw [hnets]
      exact map_append

variable {k}

theorem announced_submit {s : Submission} (hready : k.serverReady s.isFetch = true)
    (hid : (k.nextId s.isFetch).toNat < 2 ^ 32) :
    k.Announced (k.submit s).2 s.isFetch (k.nextId s.isFetch) := by
  unfold serverReady at hready
  rw [Bool.and_eq_true] at hready
  obtain ⟨-, -, ⟨-, o, htarget, henq⟩ | ⟨hfalse, -⟩⟩ := k.submit_spec s
  · exact ⟨o, _, htarget, henq, s.carries_word _ hid⟩
  · rw [hready.2] at hfalse
    cases hfalse

theorem serverReady_deny (ids : List CapId) (fetch : Bool) :
    (k.deny ids).serverReady fetch = k.serverReady fetch := by
  have hobjects : (k.deny ids).core.objects = k.core.objects := Core.deny_objects _ _
  have hcap : (k.deny ids).serverCap fetch = k.serverCap fetch := rfl
  unfold serverReady canSend
  rw [hcap, sendTarget_congr hobjects]
  rfl

variable (k) in
theorem submit_changes (s : Submission) : ¬ ((k.submit s).2.files.requests = k.files.requests ∧
      (k.submit s).2.nets.requests = k.nets.requests) := by
  rintro ⟨hfiles, hnets⟩
  have hids := (k.submit_spec s).2.1 s.isFetch
  have hsame : (k.submit s).2.pendingIds s.isFetch = k.pendingIds s.isFetch := by
    unfold pendingIds Service.ids
    rw [hfiles, hnets]
  rw [if_pos rfl, hsame] at hids
  exact absurd hids (by simp)

theorem Announced.id_lt (h : k.Announced k' fetch id) : id.toNat < 2 ^ 32 := by
  obtain ⟨o, w, -, -, rfl⟩ := h
  have hshift := Packed.toNat_shiftRight (show 32 < 64 by decide) w
  have hlt := w.toNat_lt
  exact hshift.trans_lt (by omega)

variable {call : ServiceCall UInt64}

variable (k) in
theorem failsAtomically_iff (mem : UserMemory) (hreq : call.isRequest = true) :
    k.FailsAtomically call (k.perform mem call) ↔ k.deliverable mem call = true := by
  obtain ⟨ids, hperform⟩ := k.perform_request mem hreq
  rw [hperform]
  unfold deliverable
  cases hsub : k.submission mem call with
  | none =>
    exact ⟨fun _ => rfl, fun _ => ⟨fun hne => absurd rfl hne, fun _ => ⟨rfl, rfl, rfl⟩⟩⟩
  | some s =>
    have hkind := (submission_server hsub).1
    have hret : ((k.deny ids).submit s).1 = k.nextId s.isFetch :=
      ((k.deny ids).submit_spec s).1
    rw [Bool.and_eq_true, decide_eq_true_eq]
    constructor
    · rintro ⟨hannounced, hundone⟩
      rw [← hkind] at hannounced hundone
      have hready : k.serverReady s.isFetch = true := by
        by_contra hnot
        rw [Bool.not_eq_true] at hnot
        exact submit_changes (k.deny ids) s (hundone hnot).2
      refine ⟨hready, ?_⟩
      -- an id too large for the message is not 0, so it was announced
      by_contra hlarge
      have hne : k.nextId s.isFetch ≠ 0 := by
        intro hzero
        rw [hzero] at hlarge
        exact hlarge (by decide)
      exact hlarge (hret ▸ (hannounced (hret ▸ hne)).id_lt)
    · rintro ⟨hready, hid⟩
      constructor
      · intro _
        rw [← hkind]
        show k.Announced ((k.deny ids).submit s).2 s.isFetch ((k.deny ids).submit s).1
        rw [hret]
        have hready' : (k.deny ids).serverReady s.isFetch = true := by
          rw [serverReady_deny]
          exact hready
        exact Announced.of_deny (announced_submit hready' hid)
      · intro hnot
        rw [← hkind, hready] at hnot
        cases hnot

/-! ## Runs -/

def served (k : Kernel δ) (events : List (ServiceEvent UInt64)) : Kernel δ :=
  run (next serve) k events

/-- **One call.** An id that is pending after a deliverable call was pending
before, or the call announced it. -/
theorem pendingIds_perform {mem : UserMemory} (hdel : k.deliverable mem call = true)
    (hid : id ∈ (k.perform mem call).2.pendingIds fetch) :
    id ∈ k.pendingIds fetch ∨ k.Announced (k.perform mem call).2 fetch id := by
  cases hreq : call.isRequest with
  | false =>
    left
    obtain ⟨_, _, hk', hfiles, hnets⟩ := k.perform_other mem hreq
    rw [hk'] at hid
    cases fetch with
    | false => exact hfiles.ids_sublist.subset hid
    | true => exact hnets.ids_sublist.subset hid
  | true =>
    obtain ⟨ids, hperform⟩ := k.perform_request mem hreq
    rw [hperform] at hid ⊢
    unfold deliverable at hdel
    cases hsub : k.submission mem call with
    | none =>
      rw [hsub] at hid
      exact .inl hid
    | some s =>
      rw [hsub] at hid hdel
      rw [Bool.and_eq_true, decide_eq_true_eq] at hdel
      have hids := ((k.deny ids).submit_spec s).2.1 fetch
      have hready : (k.deny ids).serverReady s.isFetch = true := by
        rw [serverReady_deny]
        exact hdel.1
      change id ∈ ((k.deny ids).submit s).2.pendingIds fetch at hid
      rw [hids] at hid
      split_ifs at hid with hkind
      · rcases mem_append.mp hid with hold | hnew
        · exact .inl hold
        · right
          rw [mem_singleton.mp hnew, hkind]
          exact Announced.of_deny (announced_submit hready hdel.2)
      · exact .inl hid

/-- The step condition of a run: each call is deliverable when it is made. -/
def DeliverableStep (k : Kernel δ) (e : ServiceEvent UInt64) : Prop :=
  (k.onThread e.tid).deliverable e.mem e.call = true

instance (k : Kernel δ) (e : ServiceEvent UInt64) : Decidable (k.DeliverableStep e) :=
  inferInstanceAs (Decidable (_ = _))

/-- **No slot without a message.** After any run of deliverable calls, a
pending id was pending at the start, or one of the calls announced it. -/
theorem pendingIds_served {events : List (ServiceEvent UInt64)}
    (hdel : Along (next serve) DeliverableStep k events)
    (hid : id ∈ (k.served events).pendingIds fetch) :
    id ∈ k.pendingIds fetch ∨ ∃ pre e post, events = pre ++ e :: post ∧
        ((k.served pre).onThread e.tid).Announced (k.served (pre ++ [e])) fetch id := by
  induction events generalizing k with
  | nil => exact .inl hid
  | cons e events ih =>
    rcases ih hdel.2 hid with hbefore | ⟨pre, e', post, rfl, hann⟩
    · rcases pendingIds_perform hdel.1 hbefore with hold | hann
      · exact .inl hold
      · exact .inr ⟨[], e, events, rfl, hann⟩
    · exact .inr ⟨e :: pre, e', post, rfl, hann⟩

/-- **Requests fail atomically exactly when they are deliverable**, and in a
run of deliverable calls they all do, so that no slot is left without a
message. -/
theorem requests_fail_atomically : (∀ (k : Kernel δ) (mem : UserMemory) (call : ServiceCall UInt64),
      call.isRequest = true →
      (k.FailsAtomically call (k.perform mem call) ↔ k.deliverable mem call = true)) ∧
    ∀ (k : Kernel δ) (events : List (ServiceEvent UInt64)),
      Along (next serve) DeliverableStep k events →
      (∀ pre e post, events = pre ++ e :: post → e.call.isRequest = true →
        ((k.served pre).onThread e.tid).FailsAtomically e.call
          ((k.served pre).serve e)) ∧
      ∀ fetch id, id ∈ (k.served events).pendingIds fetch → id ∈ k.pendingIds fetch ∨
          ∃ pre e post, events = pre ++ e :: post ∧
            ((k.served pre).onThread e.tid).Announced (k.served (pre ++ [e])) fetch id := by
  refine ⟨fun k mem _ hreq => k.failsAtomically_iff mem hreq, fun k events hdel => ⟨?_, ?_⟩⟩
  · intro pre e post hsplit hreq
    have hstep := along_iff_split.mp hdel pre e post hsplit
    exact (failsAtomically_iff _ e.mem hreq).mpr hstep
  · intro fetch id hid
    exact pendingIds_served hdel hid

/-- Thread 1 reads inode 5 and fetches through its socket. -/
def sampleCalls : List (ServiceEvent UInt64) :=
  [⟨1, .filled 7, .requestFile 0⟩, ⟨1, .filled 7, .requestFetch 1⟩]

def fileAndSocket : CapabilityTable := ⟨[some ⟨2, .read, 1⟩, some ⟨3, .send, 1⟩]⟩

theorem requests_fail_atomically_sample :
    (sample fileAndSocket .new).FailsAtomically (.requestFile 0)
      ((sample fileAndSocket .new).perform (.filled 7) (.requestFile 0)) ∧
    ((sample fileAndSocket .new).served sampleCalls).pendingIds true = [1] ∧
    ∃ pre e post, sampleCalls = pre ++ e :: post ∧
      (((sample fileAndSocket .new).served pre).onThread e.tid).Announced
        ((sample fileAndSocket .new).served (pre ++ [e])) true 1 := by
  refine ⟨?_, by decide, ?_⟩
  · exact (requests_fail_atomically.1 _ _ _ (by decide)).mpr (by decide)
  · have hrun := requests_fail_atomically.2 (sample fileAndSocket .new) sampleCalls
      (by decide)
    exact (hrun.2 true 1 (by decide)).resolve_left (by decide)

/-- **A full mailbox.** The 33rd read gets an id and a slot, and the server's
mailbox is as it was; so it is with a send capability that was revoked. -/
theorem requests_leave_slots :
    let full := (sample .new .new).served
      (replicate 32 ⟨0, .filled 7, .requestFileInternal 5⟩)
    let revoked := { sample .new .new with core := (sample .new .new).core.revoke 0 false }
    (full.requestFileInternal 5).1 = 33 ∧
    (full.requestFileInternal 5).2.files.ids = full.files.ids ++ [33] ∧
    (full.requestFileInternal 5).2.endpoints.map (·.endpoint.qLen) = [32, 0] ∧
    full.endpoints.map (·.endpoint.qLen) = [32, 0] ∧
    (revoked.requestFileInternal 5).1 = 1 ∧
    (revoked.requestFileInternal 5).2.files.ids = [1] ∧
    (revoked.requestFileInternal 5).2.endpoints.map (·.endpoint.qLen) = [0, 0] := by
  decide +kernel

end Kernel

end AgenticOS
