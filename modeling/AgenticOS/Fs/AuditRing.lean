import AgenticOS.Fs.Integrity

/-!
# The audit ring

The ring lies in the blocks after the file system: a header, and a record for each
slot. Every boot appends a record at the slot that the header names. The allocator
stops at `TOTAL_BLOCKS`, with that number included, and so it can hand out the
header. It does so exactly when no block within the file system is free.
-/

namespace AgenticOS.BlkDriver

open Foundation Ext2 Driver List Function

/-! ## The allocator -/

theorem freeBlocks_pos_iff {bitmap : ByteBlock} : 0 < freeBlocks bitmap ↔
      ∃ b, fileDataBlock + 1 ≤ b ∧ b < totalBlocks ∧ marked bitmap b = false := by
  rw [freeBlocks, Finset.card_pos]
  constructor
  · rintro ⟨b, hb⟩
    obtain ⟨hrange, hfree⟩ := Finset.mem_filter.mp hb
    exact ⟨b, (Finset.mem_Ico.mp hrange).1, (Finset.mem_Ico.mp hrange).2, hfree⟩
  · rintro ⟨b, hge, hlt, hfree⟩
    exact ⟨b, Finset.mem_filter.mpr ⟨Finset.mem_Ico.mpr ⟨hge, hlt⟩, hfree⟩⟩

theorem lt_totalBlocks_iff {bitmap bitmap' : ByteBlock} {block : Nat}
    (h : allocBlock bitmap totalBlocks = some (block, bitmap')) :
    block < totalBlocks ↔ 0 < freeBlocks bitmap := by
  have halloc := allocated_of_allocBit (by decide) (by decide) h
  constructor
  · intro hlt
    exact freeBlocks_pos_iff.mpr ⟨block, halloc.first_le, hlt, halloc.unmarked⟩
  · exact lt_of_free halloc

/-! ## The writes of a request -/

def requestWrites (d : Disk) (r : Request) : List Nat :=
  ((serve (journal d) r.junk [] r.command r.fetched).map fun result =>
    result.2.map Prod.fst).getD []

variable {d : Disk} {w : Nat × ByteBlock}

theorem mem_writesOf {us : List Update} (h : w ∈ writesOf d us) : ∃ u ∈ us, ∃ c, w = u.write c := by
  induction us generalizing d with
  | nil => cases h
  | cons u us ih =>
    rcases mem_cons.mp h with rfl | h
    · exact ⟨u, mem_cons_self, d, rfl⟩
    · obtain ⟨v, hv, c, rfl⟩ := ih h
      exact ⟨v, mem_cons_of_mem _ hv, c, rfl⟩

theorem write_lt {us : List Update} {limit : Nat} (hlimit : rootDataBlock ≤ limit)
    (hplaced : ∀ u ∈ us, u.Placed) (hdata : ∀ n b, .data n b ∈ us → n < limit)
    (h : w ∈ writesOf d us) : w.1 < limit := by
  obtain ⟨u, hu, c, rfl⟩ := mem_writesOf h
  have hlow {n : Nat} (hn : n < 9) : n < limit := lt_of_lt_of_le hn hlimit
  cases u with
  | data n b => exact hdata n b hu
  | inode i =>
    have hblock := (hplaced _ hu).1.block
    exact hlow (show inodeBlock i < 9 by omega)
  | blockBitmap => exact hlow (show blockBitmapBlock < 9 by decide)
  | inodeBitmap => exact hlow (show inodeBitmapBlock < 9 by decide)
  | counters =>
    rcases hplaced _ hu with rfl | rfl
    · exact hlow (show superblockBlock < 9 by decide)
    · exact hlow (show groupDescBlock < 9 by decide)

section

variable {d d' : Disk} {r : Request}

section

variable (h : Consistent totalBlocks d)

include h

theorem Consistent.parent_lt {path : List UInt8}
    (hp : parentOf d path ≠ 0) : blockOf d (parentOf d path) 0 < totalBlocks := by
  obtain ⟨hinUse, hge, -⟩ := h.parent hp
  refine (h.separated.place hinUse ?_).2.1
  exact ((show 0 < rootDataBlock by decide).trans_le hge).ne'

theorem Consistent.made_writes {kind : NodeKind}
    {path : List UInt8} {inode : Nat} {log : List (Nat × ByteBlock)} (hfits : kind.Fits)
    (hroom : parentOf d path ≠ 0 → (splitParentAndBasename path).2 ≠ [] →
      0 < freeBlocks (d blockBitmapBlock))
    (hmade : Made kind d path (inode, log)) : ∀ w ∈ log, w.1 < totalBlocks := by
  cases hmade with
  | refused => exact nofun
  | full block inode blockBitmap inodeBitmap hparent hleaf hblock =>
    intro w hw
    rw [mem_singleton.mp hw]
    exact lt_of_free hblock (hroom hparent hleaf)
  | made block inode blockBitmap inodeBitmap dirBlock gd sb hblock hinode hparent hleaf =>
    obtain ⟨hinUse, hge, -⟩ := h.parent hparent
    have hlt : block < totalBlocks := lt_of_free hblock (hroom hparent hleaf)
    intro w hw
    refine write_lt (by decide) (fun u hu => ?_) (fun n b hu => ?_) hw
    · rcases mem_cons.mp hu with rfl | hu
      · exact isData_of_alloc hblock
      · exact placed_commitUpdates hfits hinUse.1 hge (isInode_of_alloc hinode).1 hblock.le_last u
          hu
    · rcases mem_cons.mp hu with heq | hu
      · cases heq
        exact hlt
      · obtain rfl : n = blockOf d (parentOf d path) 0 := by
          unfold commitUpdates at hu
          split_ifs at hu <;> simp_all
        exact h.parent_lt hparent

theorem Consistent.requestWrites_lt (hr : Careful d r) :
    ∀ n ∈ requestWrites d r, n < totalBlocks := by
  intro n hn
  unfold requestWrites at hn
  rcases hserve : serve (journal d) r.junk [] r.command r.fetched with _ | ⟨replies, log⟩
  · rw [hserve] at hn
    cases hn
  rw [hserve] at hn
  obtain ⟨w, hw, rfl⟩ := List.mem_map.mp hn
  have hserved := served_of_serve (h.ready hr.proper hr.names) hserve
  clear hn hserve
  cases hserved with
  | quiet | ignored => cases hw
  | mkdir hop hmade => exact h.made_writes dirKind_fits (hr.room.node (.inl hop)) hmade w hw
  | create hop hmade =>
    exact h.made_writes (fileKind_fits _) (hr.room.node (.inr hop)) hmade w hw
  | unlink hop hunlinked =>
    cases hunlinked with
    | refused => cases hw
    | unlinked inode dirBlock gd sb hparent =>
      refine write_lt (by decide) (placed_unlinkUpdates (h.parent hparent).2.1)
        (fun n b hu => ?_) hw
      obtain rfl : n = blockOf d (parentOf d r.path) 0 := by
        simp_all [unlinkUpdates]
      exact h.parent_lt hparent
  | write hop hfetched hdata hwrote =>
    rename_i offset len data us blocks
    have hinUse := hr.names hop
    have hfill := hwrote.state.filling
    have hlow := (hwrote.state.room (hr.room.write hop offset data hfetched hdata)).1
    refine write_lt (by decide) (fun u hu => ?_) (fun n b hu => ?_) hw
    · rcases mem_append.mp hu with hu | hu
      · exact hwrote.state.placed (h.separated.owner hinUse) u hu
      · rw [mem_singleton.mp hu]
        exact placed_sizeUpdate hinUse.1 hwrote
    · have hmem : .data n b ∈ us := by
        rcases mem_append.mp hu with hu | hu
        · exact hu
        · cases mem_singleton.mp hu
      obtain ⟨_, k, rfl⟩ := hwrote.state.target n b hmem
      by_cases hzero : blockOf d r.target k = 0
      · exact hlow k hzero
      · rw [hfill.kept k hzero]
        exact (h.separated.place hinUse hzero).2.1

end

end

/-! ## Boots and requests -/

inductive Event where
  | request (r : Request)
  | boot

def eventStep (d : Disk) : Event → Option Disk
  | .request r => serveStep d r
  | .boot => some (runAuditPersistenceProof disk (runFilesystemProof disk d))

def auditWrites (d : Disk) : List Nat := (runAuditPersistenceProof (journal d) []).map Prod.fst

def Clear (d : Disk) : Event → Prop
  | .request r => ∀ n ∈ requestWrites d r, n < auditHeaderBlock
  | .boot => ∀ n ∈ auditWrites (runFilesystemProof disk d),
      auditHeaderBlock ≤ n ∧ n ≤ auditHeaderBlock + ringSlots

def EventCareful (d : Disk) : Event → Prop
  | .request r => Careful d r
  | .boot => True

def RingOk (d : Disk) : Prop := (nextRecord (d auditHeaderBlock)).1 < ringSlots

theorem applyWrites_of_notMem {ws : List (Nat × ByteBlock)} {n : Nat}
    (h : ∀ w ∈ ws, w.1 ≠ n) : applyWrites d ws n = d n := by
  induction ws generalizing d with
  | nil => rfl
  | cons w ws ih =>
    show applyWrites (update d w.1 w.2) ws n = d n
    rw [ih fun v hv => h v (mem_cons_of_mem _ hv), update_of_ne (h w mem_cons_self).symm]

theorem runFilesystemProof_disk (d : Disk) :
    runFilesystemProof disk d = if isFormatted (d superblockBlock) then d else formatted d := rfl

theorem RingOk.runFilesystemProof (h : RingOk d) : RingOk (runFilesystemProof disk d) := by
  rw [runFilesystemProof_disk]
  split_ifs
  · exact h
  · have hheader : formatted d auditHeaderBlock = d auditHeaderBlock :=
      applyWrites_of_notMem (by decide)
    rwa [RingOk, hheader]

theorem nextRecord_buildAuditHeader {slot count : Nat} (hslot : slot < ringSlots) :
    (nextRecord (buildAuditHeader slot count)).1 = slot := by
  have hmagic : (buildAuditHeader slot count).field 0 4 = auditMagic := by
    show (((zeroBlock.setField 0 4 auditMagic).setField 4 4 slot).setField 8 8 count).field 0 4 = _
    rw [ByteBlock.field_setField_of_disjoint (.inl (by decide)),
      ByteBlock.field_setField_of_disjoint (.inl (by decide)), ByteBlock.field_setField]
    decide
  have hfield : (buildAuditHeader slot count).field 4 4 = slot := by
    show (((zeroBlock.setField 0 4 auditMagic).setField 4 4 slot).setField 8 8 count).field 4 4 = _
    rw [ByteBlock.field_setField_of_disjoint (.inl (by decide)), ByteBlock.field_setField]
    exact Nat.mod_eq_of_lt (hslot.trans (by decide))
  rw [nextRecord, if_pos hmagic, hfield]

theorem record_bounds (h : RingOk d) :
    auditHeaderBlock < (auditRecordBlockStart + (nextRecord (d auditHeaderBlock)).1) % 2 ^ 32 ∧
      (auditRecordBlockStart + (nextRecord (d auditHeaderBlock)).1) % 2 ^ 32 ≤
        auditHeaderBlock + ringSlots := by
  have hslot : (nextRecord (d auditHeaderBlock)).1 < 4 := h
  show 64 < (65 + _) % 2 ^ 32 ∧ (65 + _) % 2 ^ 32 ≤ 68
  omega

theorem auditWrites_eq (d : Disk) :
    auditWrites d = [(auditRecordBlockStart + (nextRecord (d auditHeaderBlock)).1) % 2 ^ 32,
      auditHeaderBlock] := rfl

theorem runAudit_disk (d : Disk) : runAuditPersistenceProof disk d = update (update d
      ((auditRecordBlockStart + (nextRecord (d auditHeaderBlock)).1) % 2 ^ 32)
      (buildAuditRecord (nextRecord (d auditHeaderBlock)).2 auditMessage)) auditHeaderBlock
      (buildAuditHeader (((nextRecord (d auditHeaderBlock)).1 + 1) % 2 ^ 32 % ringSlots)
        ((nextRecord (d auditHeaderBlock)).2 + 1)) := by
  simp only [runAuditPersistenceProof, disk]

theorem event_kept {d' : Disk} {e : Event} (h : Consistent totalBlocks d) (hring : RingOk d)
    (he : EventCareful d e) (hstep : eventStep d e = some d') :
    Consistent totalBlocks d' ∧ RingOk d' := by
  cases e with
  | request =>
    obtain ⟨_, hserve⟩ := exists_of_serveStep hstep
    refine ⟨h.step he.proper he.names (.inr ⟨rfl, he.room⟩) hserve, ?_⟩
    have hwrites := h.requestWrites_lt he
    rw [serveOn, serve_disk] at hserve
    obtain ⟨⟨_, log⟩, hlog, heq⟩ := Option.map_eq_some_iff.mp hserve
    cases heq
    have hheader : applyWrites d log auditHeaderBlock = d auditHeaderBlock := by
      refine applyWrites_of_notMem fun w hw => (hwrites w.1 ?_).ne
      rw [requestWrites, hlog]
      exact List.mem_map_of_mem hw
    show RingOk (applyWrites d log)
    rwa [RingOk, hheader]
  | boot =>
    cases hstep
    have hformatted : Consistent totalBlocks (runFilesystemProof disk d) := by
      rw [runFilesystemProof_disk]
      split_ifs
      · exact h
      · exact consistent_formatted d
    have hring' := hring.runFilesystemProof
    generalize runFilesystemProof disk d = c at hformatted hring'
    obtain ⟨hgt, -⟩ := record_bounds hring'
    have hlow {n : Nat} (hn : n < auditHeaderBlock) : runAuditPersistenceProof disk c n = c n := by
      rw [runAudit_disk, update_of_ne hn.ne, update_of_ne (hn.trans hgt).ne]
    constructor
    · refine hformatted.congr (fun j hj => .of_eq ?_) (fun j => ?_) (fun b _ => ?_)
        fun n _ hlt _ => hlow hlt
      · have hblock := hj.block
        rw [inodeOf, hlow (show inodeBlock j < 64 by omega), inodeOf]
      · unfold InUse
        rw [hlow (by decide)]
      · unfold Used
        rw [hlow (by decide)]
    · rw [RingOk, runAudit_disk, update_self, nextRecord_buildAuditHeader]
      · exact Nat.mod_lt _ (by decide)
      · exact Nat.mod_lt _ (by decide)

theorem clear_of_kept {e : Event} (h : Consistent totalBlocks d) (hring : RingOk d)
    (he : EventCareful d e) : Clear d e := by
  cases e with
  | request => exact h.requestWrites_lt he
  | boot =>
    have hring' := hring.runFilesystemProof
    show ∀ n ∈ auditWrites (runFilesystemProof disk d), _
    generalize runFilesystemProof disk d = c at hring' ⊢
    obtain ⟨hgt, hle⟩ := record_bounds hring'
    rw [auditWrites_eq]
    intro n hn
    simp only [mem_cons, not_mem_nil, or_false] at hn
    obtain rfl | rfl := hn
    · exact ⟨hgt.le, hle⟩
    · exact ⟨le_rfl, Nat.le_add_right _ _⟩

/-- **The two regions do not meet.** An allocation stays within the file system exactly
if one of its blocks is free. And in every run of boots and careful requests from a
formatted disk, requests write below the ring and records go into it. -/
theorem regions_disjoint (bitmap : ByteBlock) (d₀ : Disk) :
    (∀ block bitmap', allocBlock bitmap totalBlocks = some (block, bitmap') →
      (block < auditHeaderBlock ↔ 0 < freeBlocks bitmap)) ∧
    (RingOk d₀ → ∀ (events : List Event) (d : Disk),
      Meets eventStep EventCareful (formatted d₀) events →
      attempt eventStep (formatted d₀) events = some d →
      ∀ e, EventCareful d e → Clear d e) := by
  refine ⟨fun _ _ h => lt_totalBlocks_iff h, fun _ events d hmeets hrun e he => ?_⟩
  have hstart : RingOk (formatted d₀) := by
    have hheader : formatted d₀ auditHeaderBlock = d₀ auditHeaderBlock :=
      applyWrites_of_notMem (by decide)
    rwa [RingOk, hheader]
  have hstep (d : Disk) (e : Event) (d' : Disk) (h : Consistent totalBlocks d ∧ RingOk d)
      (he : EventCareful d e) (hs : eventStep d e = some d') :
      Consistent totalBlocks d' ∧ RingOk d' := event_kept h.1 h.2 he hs
  obtain ⟨hcons, hring'⟩ : Consistent totalBlocks d ∧ RingOk d :=
    attempt_invariant hstep ⟨consistent_formatted d₀, hstart⟩ hmeets hrun
  exact clear_of_kept hcons hring' he

/-- A write that allocates no block, and the boot after it. -/
theorem regions_disjoint_append : RingOk (fun _ => zeroBlock) ∧
    Clear (formatted fun _ => zeroBlock) (.request appendRequest) ∧
    ∃ d, attempt eventStep (formatted fun _ => zeroBlock) [.request appendRequest] = some d ∧
      Clear d .boot := by
  have hring : RingOk fun _ => zeroBlock := by
    show (nextRecord zeroBlock).1 < ringSlots
    decide
  have hclear := (regions_disjoint zeroBlock _).2 hring
  refine ⟨hring, hclear [] _ trivial rfl (.request appendRequest) careful_append, ?_⟩
  refine exists_run_imp (Q := fun _ => True) (by decide +kernel) fun d hrun _ => ?_
  exact hclear [.request appendRequest] d ⟨careful_append, fun _ _ => trivial⟩ hrun .boot trivial

/-- The 54th block that is allocated from a fresh bitmap is the header of the ring. -/
theorem alloc_reaches_ring :
    (allocBlock ((fun b => ((allocBlock b totalBlocks).map Prod.snd).getD b)^[53] buildBlockBitmap)
      totalBlocks).map Prod.fst = some auditHeaderBlock := by
  decide +kernel

end AgenticOS.BlkDriver
