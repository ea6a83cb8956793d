import AgenticOS.Kernel.Services

/-!
# Who may ask for a file

`request_file` and a plain `write_file` go through three attempts that read
the same integer as a slot of the caller's table and as an inode. Taken
together they let the call through exactly when the caller's own table holds
some live file capability with the right in question. Which inode is then
named depends on the first attempt only: the slot's inode if the argument is
such a slot, the argument itself otherwise.
-/

namespace AgenticOS

namespace Kernel

variable {δ : Type}

/-! ## What the caller holds -/

/-- The running thread's own table holds a capability on a live object of this
kind that resolves. -/
def Holds (k : Kernel δ) (wanted : KernelObjectKind → Bool) (required : Rights) : Prop :=
  ∃ t, k.current = some t ∧ t.capTable.Holds wanted required k.core

/-- The id names, in the running thread's own table, a capability on the live
file `inode` that resolves. -/
def NamesFile (k : Kernel δ) (capId : CapId) (required : Rights) (inode : UInt32) : Prop :=
  ∃ t cap, k.current = some t ∧ (t.capTable.resolve capId required k.core).1 = .ok cap ∧
    k.core.objectKind cap.objectId = some (.fileObject inode)

def SlotsFit (k : Kernel δ) : Prop :=
  ∀ t, k.current = some t → t.capTable.slots.length ≤ 2 ^ 32

variable {k : Kernel δ}

theorem NamesFile.holds {c : CapId} {r : Rights} {inode : UInt32}
    (h : k.NamesFile c r inode) : k.Holds (·.isFile) r := by
  obtain ⟨t, cap, ht, hres, hkind⟩ := h
  exact ⟨t, ht, c, cap, _, hres, hkind, rfl⟩

theorem Holds.mono {wanted wanted' : KernelObjectKind → Bool} {r : Rights}
    (hw : ∀ kind, wanted kind = true → wanted' kind = true) (h : k.Holds wanted r) :
    k.Holds wanted' r := by
  obtain ⟨t, ht, c, cap, kind, hres, hkind, hwanted⟩ := h
  exact ⟨t, ht, c, cap, kind, hres, hkind, hw kind hwanted⟩

theorem isFile_of_isFileOf {inode : UInt32} (kind : KernelObjectKind)
    (h : kind.isFileOf inode = true) : kind.isFile = true := by
  cases kind <;> first | rfl | cases h

/-! ## The three attempts -/

variable (k) in
theorem resolveFileCapability_cases (c : CapId) (r : Rights) :
    (∃ inode, k.NamesFile c r inode ∧ k.resolveFileCapability c r = (some inode, k)) ∨
      ∃ ids, (∀ inode, ¬ k.NamesFile c r inode) ∧
        k.resolveFileCapability c r = (none, k.deny ids) := by
  unfold resolveFileCapability
  obtain ⟨t, cap, ht, hres, h⟩ | ⟨e, ids, hmiss, h⟩ :=
    k.resolveCurrentCapability_cases c r
  · rw [h]
    dsimp only
    by_cases hfile : ∃ inode, k.core.objectKind cap.objectId = some (.fileObject inode)
    · obtain ⟨inode, hkind⟩ := hfile
      exact .inl ⟨inode, ⟨t, cap, ht, hres, hkind⟩, by simp only [hkind]⟩
    · refine .inr ⟨[], ?_, ?_⟩
      · rintro inode ⟨t', cap', ht', hres', hkind⟩
        rw [ht, Option.some.injEq] at ht'
        subst ht'
        rw [hres, Except.ok.injEq] at hres'
        exact hfile ⟨inode, hres' ▸ hkind⟩
      · split
        · next inode hkind => exact absurd ⟨inode, hkind⟩ hfile
        · rfl
  · refine .inr ⟨ids, ?_, by rw [h]⟩
    rintro inode ⟨t, cap, ht, hres, -⟩
    rw [hmiss t ht] at hres
    cases hres

theorem scan_current {t : Thread} (ht : k.current = some t)
    (hfit : k.SlotsFit) (wanted : KernelObjectKind → Bool) (r : Rights) :
    (t.capTable.scanFrom wanted r t.capTable.slots 0 k.core).1.isSome = true ↔
      k.Holds wanted r := by
  rw [CapabilityTable.scan_isSome_iff (hfit t ht) k.core, Holds, ht]
  simp

theorem currentHasFileCapability_iff (hfit : k.SlotsFit) (inode : UInt32) (r : Rights) :
    (k.currentHasFileCapability inode r).1 = true ↔ k.Holds (·.isFileOf inode) r := by
  unfold currentHasFileCapability
  cases ht : k.current with
  | none => simp [Holds, ht]
  | some => exact scan_current ht hfit (·.isFileOf inode) r

theorem currentHasAnyFileCapability_iff (hfit : k.SlotsFit) (r : Rights) :
    (k.currentHasAnyFileCapability r).1 = true ↔ k.Holds (·.isFile) r := by
  unfold currentHasAnyFileCapability
  cases ht : k.current with
  | none => simp [Holds, ht]
  | some => exact scan_current ht hfit (·.isFile) r

theorem fileGrant_cases (hfit : k.SlotsFit) (arg0 : UInt32) (r : Rights) :
    (∃ inode, k.fileGrant arg0 r = some inode ∧ (k.NamesFile arg0 r inode ∨
          (∀ n, ¬ k.NamesFile arg0 r n) ∧ k.Holds (·.isFile) r ∧ inode = arg0)) ∨
      k.fileGrant arg0 r = none ∧ ¬ k.Holds (·.isFile) r := by
  unfold fileGrant
  obtain ⟨inode, hnames, h⟩ | ⟨_, hnot, h⟩ := k.resolveFileCapability_cases arg0 r
  · exact .inl ⟨inode, by rw [h]; rfl, .inl hnames⟩
  rw [h]
  by_cases hheld : k.Holds (·.isFile) r
  · have hany := (currentHasAnyFileCapability_iff hfit r).mpr hheld
    exact .inl ⟨arg0, by simp [hany], .inr ⟨hnot, hheld, rfl⟩⟩
  · have hany := (currentHasAnyFileCapability_iff hfit r).not.mpr hheld
    have hfile := (currentHasFileCapability_iff hfit arg0 r).not.mpr
      fun hone => hheld (hone.mono isFile_of_isFileOf)
    exact .inr ⟨by simp [hany, hfile], hheld⟩

/-! ## The two calls -/

/-- A call that names files by `arg0` and asks for `required`, confined to
what its caller holds. Without a file capability it is refused: it returns 0,
and all that changed is the audit log, which got denials, the last one for
`arg0`. With one, a message that it places (`word` of an inode, under the
returned id) names the inode of the slot `arg0`, or `arg0` itself if that is no
such slot. -/
def FileConfined (k : Kernel δ) (arg0 : UInt32) (required : Rights)
    (word : UInt64 → UInt32 → UInt64) (result : UInt64 × Kernel δ) : Prop :=
  (¬ k.Holds (·.isFile) required →
    result.1 = 0 ∧ ∃ ids, result.2 = k.deny (ids ++ [arg0])) ∧
  (result.2.endpoints ≠ k.endpoints →
    ∃ o inode,
      k.sendTarget k.files.senderTable k.files.serverSendCap = some o ∧
      k.Enqueued result.2 o (.word (word result.1 inode)) ∧
      (k.NamesFile arg0 required inode ∨
        (∀ n, ¬ k.NamesFile arg0 required n) ∧ k.Holds (·.isFile) required ∧
          inode = arg0))

/-- What a call that was let through under some denials has to satisfy. -/
def Relays (k : Kernel δ) (word : UInt64 → UInt64) (result : UInt64 × Kernel δ) : Prop :=
  result.2.endpoints ≠ k.endpoints →
    ∃ o, k.sendTarget k.files.senderTable k.files.serverSendCap = some o ∧
      k.Enqueued result.2 o (.word (word result.1))

variable (k)

theorem relays_submitFile (request : FileRequest)
    (word : UInt64 → UInt64) : k.Relays word (k.submitFile request word) := by
  intro hmoved
  obtain ⟨hid, -, ⟨-, o, htarget, henq⟩ | ⟨-, hsame⟩⟩ := k.submitFile_spec request word
  · exact ⟨o, htarget, hid ▸ henq⟩
  · exact absurd hsame hmoved

theorem relays_requestFileInternal (inode : UInt32) :
    k.Relays (readWord · inode) (k.requestFileInternal inode) := by
  unfold requestFileInternal
  split_ifs with hserver
  · exact fun hmoved => absurd rfl hmoved
  · exact k.relays_submitFile _ _

theorem relays_writeFileInternal (mem : UserMemory) (op : UInt8)
    (inode : UInt32) (dataVaddr : UInt64) (len offset : UInt32) :
    k.Relays (writeWord · op inode) (k.writeFileInternal mem op inode dataVaddr len offset) := by
  unfold writeFileInternal
  dsimp only
  split_ifs with hserver hbuffer
  · exact fun hmoved => absurd rfl hmoved
  · exact fun hmoved => absurd rfl hmoved
  · exact k.relays_submitFile _ _

variable {k}

theorem Relays.of_deny {ids : List CapId} {word : UInt64 → UInt64}
    {result : UInt64 × Kernel δ} (h : (k.deny ids).Relays word result) :
    k.Relays word result := by
  intro hmoved
  obtain ⟨o, htarget, henq⟩ := h hmoved
  have hobjects : (k.deny ids).core.objects = k.core.objects := Core.deny_objects _ _
  refine ⟨o, ?_, henq⟩
  rw [← sendTarget_congr hobjects]
  exact htarget

theorem fileConfined_gate (hfit : k.SlotsFit) (arg0 : UInt32)
    (required : Rights) {word : UInt64 → UInt32 → UInt64}
    {relay : Kernel δ → UInt32 → UInt64 × Kernel δ}
    (hrelay : ∀ (k' : Kernel δ) inode, k'.Relays (word · inode) (relay k' inode)) :
    k.FileConfined arg0 required word
      (match k.authorizeFile arg0 required with
        | (some inode, k) => relay k inode
        | (none, k) => (0, k)) := by
  obtain ⟨ids, hauth, hdenied⟩ := k.authorizeFile_eq arg0 required
  obtain ⟨inode, hgrant, hheld⟩ | ⟨hgrant, hnone⟩ := fileGrant_cases hfit arg0 required
  · rw [hauth, hgrant]
    refine ⟨fun hnone => ?_, fun hmoved => ?_⟩
    · rcases hheld with hnames | ⟨-, hheld, -⟩
      · exact absurd hnames.holds hnone
      · exact absurd hheld hnone
    · obtain ⟨o, htarget, henq⟩ := (hrelay (k.deny ids) inode).of_deny hmoved
      exact ⟨o, inode, htarget, henq, hheld⟩
  · obtain ⟨ids', rfl⟩ := hdenied hgrant
    rw [hauth, hgrant]
    exact ⟨fun _ => ⟨rfl, ids', rfl⟩, fun hmoved => absurd rfl hmoved⟩

/-- **File authority.** For a process whose slots all have an id: `request_file`
is confined to what the caller can read, a plain `write_file` to what it can
write. A directory operation (any other operation byte) is relayed for
everyone, for the inode in the argument's low bits. -/
theorem file_authority (k : Kernel δ) (hfit : k.SlotsFit) (arg0 : UInt32) :
    k.FileConfined arg0 .read readWord (k.requestFile arg0) ∧
    ∀ mem dataVaddr len offset, mem.pml4 ≠ k.kernelPml4 → (opOf arg0 = 0 →
        k.FileConfined arg0 .write (writeWord · 0 ·)
          (k.writeFile mem arg0 dataVaddr len offset)) ∧
      (opOf arg0 ≠ 0 → k.Relays (writeWord · (opOf arg0) (arg0 &&& 0x00FFFFFF))
          (k.writeFile mem arg0 dataVaddr len offset)) := by
  refine ⟨fileConfined_gate hfit arg0 .read relays_requestFileInternal, ?_⟩
  intro mem dataVaddr len offset hring3
  constructor
  · intro hop
    unfold writeFile
    rw [if_pos ⟨hop, hring3⟩, hop]
    exact fileConfined_gate hfit arg0 .write fun k' inode =>
      k'.relays_writeFileInternal mem 0 inode dataVaddr len offset
  · intro hop
    unfold writeFile
    rw [if_neg fun h => hop h.1]
    exact k.relays_writeFileInternal mem (opOf arg0) _ dataVaddr len offset

def holdsFive (rights : Rights) : CapabilityTable := ⟨[some ⟨2, rights, 1⟩]⟩

theorem sample_slotsFit {first second : CapabilityTable}
    (h : first.slots.length ≤ 2 ^ 32) : (sample first second).SlotsFit := by
  intro t ht
  obtain rfl : (⟨first, fun _ => 0xFF⟩ : Thread) = t := Option.some.inj ht
  exact h

/-- The capability's slot names inode 5; a process without any is refused. -/
theorem file_authority_sample : ((sample (holdsFive .read) .new).requestFile 0).1 = 1 ∧
    (sample (holdsFive .read) .new).FileConfined 0 .read readWord
      ((sample (holdsFive .read) .new).requestFile 0) ∧
    (sample .new .new).FileConfined 5 .write (writeWord · 0 ·)
      ((sample .new .new).writeFile (.filled 7) 5 0x4000 3 0) := by
  refine ⟨by decide, (file_authority _ (sample_slotsFit (by decide)) 0).1, ?_⟩
  have h := (file_authority (sample .new .new) (sample_slotsFit (by decide)) 5).2
    (.filled 7) 0x4000 3 0 (by decide)
  exact h.1 (by decide)

/-- **One file opens all of them.** A process that can read inode 5 and nothing
else has its request for inode 7 sent to the server; one that holds nothing
has an unlink sent. A refusal leaves two denials. -/
theorem file_authority_any_file :
    ¬ (sample (holdsFive .read) .new).Holds (·.isFileOf 7) .read ∧
    ((sample (holdsFive .read) .new).requestFile 7).1 = 1 ∧
    ((sample (holdsFive .read) .new).requestFile 7).2.endpoints.map
        (fun slot => slot.endpoint.tryReceive.1) = [some (.word (readWord 1 7)), none] ∧
    ((sample .new .new).writeFile (.filled 7) 0x06000007 0x4000 3 0).1 = 1 ∧
    ((sample .new .new).writeFile (.filled 7) 0x06000007 0x4000 3 0).2.endpoints.map
        (fun slot => slot.endpoint.tryReceive.1) =
      [some (.word (writeWord 1 6 7)), none] ∧
    ((sample .new .new).requestFile 7).2.core.audit.events = [.denied 7, .denied 7] := by
  refine ⟨?_, by decide, by decide, by decide, by decide, by decide⟩
  rintro ⟨t, ht, hheld⟩
  obtain rfl : (⟨holdsFive .read, fun _ => 0xFF⟩ : Thread) = t := Option.some.inj ht
  have hscan := (CapabilityTable.scan_isSome_iff (by decide) _).mpr hheld
  exact absurd hscan (by decide)

end Kernel

end AgenticOS
