import AgenticOS.Kernel.ServiceCalls

/-!
# The request tables as maps

What a request table is for: a partial map from ids to requests. A reply, a
poll or a fetch of write data works on the one entry its id names. What it
returns and what it leaves there depends on that entry, on the caller's memory
and on the arguments, and on nothing else, in particular not on who calls. A
new request goes under an id that was never used before, as long as the counter
has not wrapped.

Two tables can be compared entry by entry along two lists of ids, which is what
comparing two runs with different numbering needs.
-/

namespace AgenticOS

open Foundation List

/-! ## One entry -/

/-- What a call does with an entry: its reply, and the entry afterwards. -/
abbrev EntryEffect (ρ : Type) := Option ρ → Reply × Option ρ

namespace EntryEffect

variable {ρ : Type}

def answer (f : ρ → ρ) : EntryEffect ρ
  | some r => (.ret 0, some (f r))
  | none => (.ret failure, none)

def collect (f : ρ → Option Reply) : EntryEffect ρ := fun entry =>
  match entry.bind f with
  | some reply => (reply, none)
  | none => (.ret failure, entry)

def inspect (f : ρ → Reply) : EntryEffect ρ := fun entry =>
  (match entry with
    | some r => f r
    | none => .ret failure, entry)

def reject : EntryEffect ρ := fun entry => (.ret failure, entry)

end EntryEffect

namespace Service

variable {ρ : Type}

/-- The table's ids are distinct and below the counter, which is not 0. -/
structure Numbered (s : Service ρ) : Prop where
  nodup : s.ids.Nodup
  below : ∀ id ∈ s.ids, id.toNat < s.nextRequestId.toNat
  pos : 0 < s.nextRequestId.toNat

/-- The call returned `reply` and acted on the entry under `id` alone. -/
structure Acts (s : Service ρ) (id : UInt64) (effect : EntryEffect ρ)
    (result : Reply × Service ρ) : Prop where
  reply : result.1 = (effect (s.find id)).1
  entry : ∀ i, result.2.find i = if i = id then (effect (s.find id)).2 else s.find i
  reworked : s.Reworked result.2

variable (s : Service ρ) (id : UInt64)

theorem acts_reject : s.Acts id EntryEffect.reject (.ret failure, s) := by
  refine ⟨rfl, fun i => ?_, .refl s⟩
  split_ifs with h
  · rw [h]
    rfl
  · rfl

theorem acts_inspect {f : ρ → Reply} {reply : Reply}
    (hreply : reply = (EntryEffect.inspect f (s.find id)).1) :
    s.Acts id (EntryEffect.inspect f) (reply, s) := by
  refine ⟨hreply, fun i => ?_, .refl s⟩
  split_ifs with h
  · rw [h]
    rfl
  · rfl

theorem acts_answer (f : ρ → ρ) : s.Acts id (EntryEffect.answer f) (s.answer id f) := by
  refine ⟨?_, fun i => ?_, s.reworked_answer id f⟩
  · unfold answer
    cases s.find id <;> rfl
  · have hlook : Keyed.lookup RequestSlot.id (Keyed.adjust RequestSlot.id id
          (fun slot => { slot with request := f slot.request }) s.requests) i = _ :=
      Keyed.lookup_adjust _ (by intro _; rfl) s.requests id i
    unfold answer
    cases hfind : s.find id with
    | none =>
      split_ifs with h
      · rw [h]
        exact hfind
      · rfl
    | some =>
      show (Keyed.lookup RequestSlot.id _ i).map _ = _
      rw [hlook]
      split_ifs with h
      · rw [Option.map_map]
        unfold find at hfind
        cases hslot : Keyed.lookup RequestSlot.id s.requests id with
        | none =>
          rw [hslot] at hfind
          cases hfind
        | some =>
          rw [hslot] at hfind
          obtain rfl := Option.some.inj hfind
          rfl
      · rfl

variable {s}

theorem acts_collect (hs : s.Numbered) (id : UInt64) (f : ρ → Option Reply) :
    s.Acts id (EntryEffect.collect f) (s.collect id f) := by
  refine ⟨?_, fun i => ?_, s.reworked_collect id f⟩
  · unfold collect EntryEffect.collect
    cases (s.find id).bind f <;> rfl
  · unfold collect EntryEffect.collect
    cases (s.find id).bind f with
    | none =>
      split_ifs with h
      · rw [h]
      · rfl
    | some =>
      show (Keyed.lookup RequestSlot.id (Keyed.remove RequestSlot.id id s.requests) i).map
        _ = _
      split_ifs with h
      · rw [h, Keyed.lookup_remove_self hs.nodup id]
        rfl
      · rw [Keyed.lookup_remove_of_ne h]
        rfl

/-! ## Numbering -/

theorem Reworked.numbered {s' : Service ρ} (h : s.Reworked s') (hs : s.Numbered) : s'.Numbered := by
  refine ⟨hs.nodup.sublist h.ids_sublist, ?_, ?_⟩
  · intro id hid
    rw [h.nextRequestId]
    exact hs.below id (h.ids_sublist.subset hid)
  · rw [h.nextRequestId]
    exact hs.pos

theorem ids_push (request : ρ) : (s.push request).ids = s.ids ++ [s.nextRequestId] :=
  map_append

/-- The counter goes up by one, if it does not wrap. -/
theorem nextRequestId_push (hwrap : s.nextRequestId.toNat + 1 < 2 ^ 64) (request : ρ) :
    (s.push request).nextRequestId.toNat = s.nextRequestId.toNat + 1 := by
  show (s.nextRequestId + 1).toNat = _
  rw [UInt64.toNat_add]
  exact Nat.mod_eq_of_lt hwrap

theorem Numbered.push (hs : s.Numbered) (hwrap : s.nextRequestId.toNat + 1 < 2 ^ 64) (request : ρ) :
    (s.push request).Numbered := by
  have hnext := nextRequestId_push hwrap request
  refine ⟨?_, ?_, by omega⟩
  · rw [ids_push, nodup_append_comm]
    refine nodup_cons.mpr ⟨fun hmem => ?_, hs.nodup⟩
    exact absurd (hs.below _ hmem) (Nat.lt_irrefl _)
  · intro id hid
    rw [ids_push] at hid
    rcases mem_append.mp hid with hold | hnew
    · have hlt := hs.below id hold
      omega
    · rw [mem_singleton.mp hnew]
      omega

theorem find_push (request : ρ) (i : UInt64) : (s.push request).find i =
      (s.find i).or (if s.nextRequestId = i then some request else none) := by
  show (Keyed.lookup RequestSlot.id (s.requests ++ [⟨s.nextRequestId, request⟩]) i).map _ = _
  rw [Keyed.lookup_append_single]
  unfold find
  cases Keyed.lookup RequestSlot.id s.requests i with
  | none =>
    by_cases h : s.nextRequestId = i
    · simp [h]
    · simp [h]
  | some => rfl

theorem find_push_of_lt {i : UInt64} (hi : i.toNat < s.nextRequestId.toNat) (request : ρ) :
    (s.push request).find i = s.find i := by
  have hne : s.nextRequestId ≠ i := by
    rintro rfl
    exact absurd hi (Nat.lt_irrefl _)
  rw [find_push, if_neg hne, Option.or_none]

theorem find_push_self (hs : s.Numbered) (request : ρ) :
    (s.push request).find s.nextRequestId = some request := by
  have hnone : s.find s.nextRequestId = none := by
    unfold find
    rw [Keyed.lookup_eq_none_of_notMem fun hmem =>
      absurd (hs.below _ hmem) (Nat.lt_irrefl _)]
    rfl
  rw [find_push, hnone, if_pos rfl, Option.none_or]

/-! ## Two tables, entry by entry -/

/-- Ids that the table's counter has given out, each once. -/
structure Tracks (s : Service ρ) (ids : List UInt64) : Prop where
  numbered : s.Numbered
  nodup : ids.Nodup
  below : ∀ id ∈ ids, id.toNat < s.nextRequestId.toNat

/-- The entries under the one list of ids are those under the other, and the
second table has given out no more ids than the first. -/
structure Matched (s : Service ρ) (ids : List UInt64) (s' : Service ρ)
    (ids' : List UInt64) : Prop where
  left : s.Tracks ids
  right : s'.Tracks ids'
  length : ids.length = ids'.length
  counter : s'.nextRequestId.toNat ≤ s.nextRequestId.toNat
  entries : ∀ (j : Nat) (i i' : UInt64), ids[j]? = some i → ids'[j]? = some i' →
    s.find i = s'.find i'

section

variable {s' : Service ρ} {ids ids' : List UInt64}

theorem Tracks.push (h : s.Tracks ids) (hwrap : s.nextRequestId.toNat + 1 < 2 ^ 64)
    (request : ρ) : (s.push request).Tracks ids := by
  refine ⟨h.numbered.push hwrap request, h.nodup, fun id hid => ?_⟩
  have hlt := h.below id hid
  rw [nextRequestId_push hwrap]
  omega

theorem Tracks.push_own (h : s.Tracks ids) (hwrap : s.nextRequestId.toNat + 1 < 2 ^ 64)
    (request : ρ) : (s.push request).Tracks (ids ++ [s.nextRequestId]) := by
  refine ⟨h.numbered.push hwrap request, ?_, fun id hid => ?_⟩
  · rw [nodup_append_comm]
    refine nodup_cons.mpr ⟨fun hmem => ?_, h.nodup⟩
    exact absurd (h.below _ hmem) (Nat.lt_irrefl _)
  · rw [nextRequestId_push hwrap]
    rcases mem_append.mp hid with hold | hnew
    · have hlt := h.below id hold
      omega
    · rw [mem_singleton.mp hnew]
      omega

theorem Tracks.reworked (h : s.Tracks ids) (hs : s.Reworked s') : s'.Tracks ids := by
  refine ⟨hs.numbered h.numbered, h.nodup, fun id hid => ?_⟩
  rw [hs.nextRequestId]
  exact h.below id hid

section

variable (h : Matched s ids s' ids')

include h

theorem Matched.push_other (hwrap : s.nextRequestId.toNat + 1 < 2 ^ 64) (request : ρ) :
    Matched (s.push request) ids s' ids' := by
  have hcounter := h.counter
  refine ⟨h.left.push hwrap request, h.right, h.length, ?_, fun j i i' hi hi' => ?_⟩
  · rw [nextRequestId_push hwrap]
    omega
  rw [find_push_of_lt (h.left.below i (mem_of_getElem? hi))]
  exact h.entries j i i' hi hi'

theorem Matched.push_own (hwrap : s.nextRequestId.toNat + 1 < 2 ^ 64) (request : ρ) :
    Matched (s.push request) (ids ++ [s.nextRequestId]) (s'.push request)
      (ids' ++ [s'.nextRequestId]) := by
  have hcounter := h.counter
  have hwrap' : s'.nextRequestId.toNat + 1 < 2 ^ 64 := by omega
  refine ⟨h.left.push_own hwrap request, h.right.push_own hwrap' request, ?_, ?_, ?_⟩
  · simp [h.length]
  · rw [nextRequestId_push hwrap, nextRequestId_push hwrap']
    omega
  · intro j i i' hi hi'
    rcases Nat.lt_or_ge j ids.length with hj | hj
    · -- an earlier request: below both counters
      rw [List.getElem?_append_left hj] at hi
      rw [List.getElem?_append_left (h.length ▸ hj)] at hi'
      rw [find_push_of_lt (h.left.below i (mem_of_getElem? hi)),
        find_push_of_lt (h.right.below i' (mem_of_getElem? hi'))]
      exact h.entries j i i' hi hi'
    · rw [List.getElem?_append_right hj] at hi
      rw [List.getElem?_append_right (h.length ▸ hj)] at hi'
      have hi_eq := mem_singleton.mp (mem_of_getElem? hi)
      have hi'_eq := mem_singleton.mp (mem_of_getElem? hi')
      rw [hi_eq, hi'_eq, find_push_self h.left.numbered, find_push_self h.right.numbered]

variable {effect : EntryEffect ρ} {result : Reply × Service ρ} {id}

theorem Matched.acts_other (hid : id ∉ ids) (hact : s.Acts id effect result) :
    Matched result.2 ids s' ids' := by
  refine ⟨h.left.reworked hact.reworked, h.right, h.length, ?_, fun j i i' hi hi' => ?_⟩
  · rw [hact.reworked.nextRequestId]
    exact h.counter
  have hne : i ≠ id := fun heq => hid (heq ▸ mem_of_getElem? hi)
  rw [hact.entry, if_neg hne]
  exact h.entries j i i' hi hi'

theorem Matched.acts_own {j : Nat} {id' : UInt64}
    (hj : ids[j]? = some id) (hj' : ids'[j]? = some id')
    {result' : Reply × Service ρ} (hact : s.Acts id effect result)
    (hact' : s'.Acts id' effect result') :
    result.1 = result'.1 ∧ Matched result.2 ids result'.2 ids' := by
  have hentry := h.entries j id id' hj hj'
  refine ⟨by rw [hact.reply, hact'.reply, hentry], ?_⟩
  refine ⟨h.left.reworked hact.reworked, h.right.reworked hact'.reworked, h.length, ?_, ?_⟩
  · rw [hact.reworked.nextRequestId, hact'.reworked.nextRequestId]
    exact h.counter
  intro m i i' hi hi'
  rw [hact.entry, hact'.entry]
  -- position m is position j on both sides or on neither
  by_cases hm : m = j
  · subst hm
    rw [hj, Option.some.injEq] at hi
    rw [hj', Option.some.injEq] at hi'
    rw [if_pos hi.symm, if_pos hi'.symm, hentry]
  · have hlt : m < ids.length := (List.getElem?_eq_some_iff.mp hi).1
    have hlt' : m < ids'.length := (List.getElem?_eq_some_iff.mp hi').1
    have hne : i ≠ id := by
      rintro rfl
      exact hm ((List.getElem?_inj hlt h.left.nodup).mp (hi.trans hj.symm))
    have hne' : i' ≠ id' := by
      rintro rfl
      exact hm ((List.getElem?_inj hlt' h.right.nodup).mp (hi'.trans hj'.symm))
    rw [if_neg hne, if_neg hne']
    exact h.entries m i i' hi hi'

end

end

end Service

/-! ## The calls -/

namespace ServiceCall

variable {ι κ : Type}

def map (f : ι → κ) : ServiceCall ι → ServiceCall κ
  | .requestFile arg0 => .requestFile arg0
  | .requestFileInternal inode => .requestFileInternal inode
  | .writeFile arg0 dataVaddr len offset => .writeFile arg0 dataVaddr len offset
  | .requestFetch socketCapId => .requestFetch socketCapId
  | .fileReply id dataVaddr len => .fileReply (f id) dataVaddr len
  | .filePoll id outVaddr outMaxLen => .filePoll (f id) outVaddr outMaxLen
  | .getWriteData id outVaddr maxLen => .getWriteData (f id) outVaddr maxLen
  | .netReply id dataVaddr len => .netReply (f id) dataVaddr len
  | .netPoll id outVaddr outMaxLen => .netPoll (f id) outVaddr outMaxLen

/-- The entry a call is about: in the network service's table or the file
service's, and under which id. -/
def target : ServiceCall ι → Option (Bool × ι)
  | .fileReply id _ _ | .filePoll id _ _ | .getWriteData id _ _ => some (false, id)
  | .netReply id _ _ | .netPoll id _ _ => some (true, id)
  | _ => none

variable (f : ι → κ) (call : ServiceCall ι)

@[simp] theorem isRequest_map : (call.map f).isRequest = call.isRequest := by
  cases call <;> rfl

@[simp] theorem isFetch_map : (call.map f).isFetch = call.isFetch := by
  cases call <;> rfl

theorem isRequest_eq : call.isRequest = call.target.isNone := by
  cases call <;> rfl

theorem target_map : (call.map f).target = call.target.map fun t => (t.1, f t.2) := by
  cases call <;> rfl

def fileEffect (mem : UserMemory) : ServiceCall ι → EntryEffect FileRequest
  | .fileReply _ dataVaddr len =>
    if dataVaddr ≠ 0 ∧ 0 < min len.toNat maxFileBytes ∧
        !mem.readable dataVaddr (UInt64.ofNat (min len.toNat maxFileBytes)) then .reject
    else .answer (·.complete mem dataVaddr len)
  | .filePoll _ outVaddr outMaxLen => .collect (·.poll mem outVaddr outMaxLen)
  | .getWriteData _ outVaddr maxLen => .inspect (·.writeData mem outVaddr maxLen)
  | _ => .reject

def netEffect (mem : UserMemory) : ServiceCall ι → EntryEffect NetRequest
  | .netReply _ dataVaddr len =>
    if !mem.readable dataVaddr (UInt64.ofNat (min len.toNat maxNetBytes)) then .reject
    else .answer (·.complete mem dataVaddr len)
  | .netPoll _ outVaddr outMaxLen => .collect (·.poll mem outVaddr outMaxLen)
  | _ => .reject

theorem fileEffect_map (mem : UserMemory) (call : ServiceCall ι) :
    (call.map f).fileEffect mem = call.fileEffect mem := by
  cases call <;> rfl

theorem netEffect_map (mem : UserMemory) (call : ServiceCall ι) :
    (call.map f).netEffect mem = call.netEffect mem := by
  cases call <;> rfl

end ServiceCall

namespace Kernel

variable {δ : Type}

@[simp] theorem submission_map {ι κ : Type} (f : ι → κ) (k : Kernel δ) (mem : UserMemory)
    (call : ServiceCall ι) : k.submission mem (call.map f) = k.submission mem call := by
  cases call <;> rfl

variable {id : UInt64} {call : ServiceCall UInt64}

/-- **The code refines the map, for files.** A call on a file entry does to the
table what its effect does to the entry, and leaves the rest of the kernel
alone. -/
theorem perform_file {k : Kernel δ} (hk : k.files.Numbered) (mem : UserMemory)
    (htarget : call.target = some (false, id)) :
    ∃ files, (k.perform mem call).2 = { k with files } ∧
      k.files.Acts id (call.fileEffect mem) ((k.perform mem call).1, files) := by
  cases call with
  | fileReply _ dataVaddr len =>
    cases htarget
    refine ⟨_, rfl, ?_⟩
    show k.files.Acts id _ (k.files.fileReply mem id dataVaddr len)
    simp only [Service.fileReply, ServiceCall.fileEffect]
    split_ifs
    · exact k.files.acts_reject id
    · exact k.files.acts_answer id _
  | filePoll =>
    cases htarget
    exact ⟨_, rfl, Service.acts_collect hk id _⟩
  | getWriteData =>
    cases htarget
    refine ⟨k.files, rfl, k.files.acts_inspect id ?_⟩
    simp only [perform, Service.fileGetWriteData, EntryEffect.inspect]
    cases k.files.find id <;> rfl
  | requestFile | requestFileInternal | writeFile | requestFetch | netReply
  | netPoll => cases htarget

theorem perform_net {k : Kernel δ} (hk : k.nets.Numbered) (mem : UserMemory)
    (htarget : call.target = some (true, id)) :
    ∃ nets, (k.perform mem call).2 = { k with nets } ∧
      k.nets.Acts id (call.netEffect mem) ((k.perform mem call).1, nets) := by
  cases call with
  | netReply _ dataVaddr len =>
    cases htarget
    refine ⟨_, rfl, ?_⟩
    show k.nets.Acts id _ (k.nets.netReply mem id dataVaddr len)
    simp only [Service.netReply, ServiceCall.netEffect]
    split_ifs
    · exact k.nets.acts_reject id
    · exact k.nets.acts_answer id _
  | netPoll =>
    cases htarget
    exact ⟨_, rfl, Service.acts_collect hk id _⟩
  | requestFile | requestFileInternal | writeFile | requestFetch | fileReply | filePoll
  | getWriteData => cases htarget

end Kernel

end AgenticOS
