import AgenticOS.Fs.Serving

/-!
# The structure is kept

Three things break the structure of the file system: UNLINK of `.` or `..` or
through a path whose parent is not a directory, WRITE to a directory, and an
allocation when only the block after the file system is left. A run without them
keeps it, whatever else the requests name.
-/

namespace AgenticOS.BlkDriver

open Foundation Ext2 Driver List Option

/-- UNLINK removes an entry of a directory, and not one of the two that every directory
has. WRITE is not to a directory. -/
structure Proper (d : Disk) (r : Request) : Prop where
  unlink : r.command.op = .unlink → r.leaf ≠ [] → ∀ i t, lookup d r.parentPath = some (i, t) →
    t = ftDir ∧ r.leaf ≠ dot ∧ r.leaf ≠ dotDot
  write : r.command.op = .write → ∀ offset data, r.fetched = some (offset, data) → data ≠ [] →
    (inodeOf d r.target).mode &&& sIfDir = 0

/-- There are as many free blocks within the file system as the request allocates. -/
structure HasRoom (d : Disk) (r : Request) : Prop where
  node : r.command.op = .mkdir ∨ r.command.op = .create → parentOf d r.path ≠ 0 → r.leaf ≠ [] →
    0 < freeBlocks (d blockBitmapBlock)
  write : r.command.op = .write → ∀ offset data, r.fetched = some (offset, data) → data ≠ [] →
    missing (inodeOf d r.target).directBlocks offset data.length 0 ≤
      freeBlocks (d blockBitmapBlock)

def NamesInUse (d : Disk) (r : Request) : Prop := r.command.op = .write → InUse d r.target

section

variable {d d' : Disk} {r : Request} {limit : Nat} {path : List UInt8}

theorem lookup_parentOf (h : parentOf d path ≠ 0) :
    ∃ t, lookup d (splitParentAndBasename path).1 = some (parentOf d path, t) := by
  unfold parentOf at h ⊢
  rcases hlookup : lookup d (splitParentAndBasename path).1 with _ | ⟨i, t⟩
  · rw [hlookup] at h
    exact absurd rfl h
  · exact ⟨t, rfl⟩

variable {i inode : Nat}

theorem Consistent.reachable (h : Consistent limit d) {t : UInt8}
    (hr : Reachable d i t) : InUse d i ∧ blockOf d i 0 ≠ 0 := by
  obtain ⟨_, _, htree⟩ := h.tree
  exact ⟨(htree.reachable hr).1, (htree.reachable hr).2.1⟩

theorem Consistent.parent (h : Consistent limit d) (hp : parentOf d path ≠ 0) :
    InUse d (parentOf d path) ∧ rootDataBlock ≤ blockOf d (parentOf d path) 0 ∧
      Used d (blockOf d (parentOf d path) 0) := by
  obtain ⟨_, _, htree⟩ := h.tree
  obtain ⟨t, hlookup⟩ := lookup_parentOf hp
  obtain ⟨hinUse, hblock, -⟩ := htree.reachable (reachable_of_lookup hlookup)
  obtain ⟨hge, -, hmark⟩ := h.separated.place hinUse hblock
  exact ⟨hinUse, hge, hmark⟩

theorem Directory.removed {live : Nat → Prop} {route : Nat → List Nat}
    {leaf : List UInt8} {dirBlock : ByteBlock} (htree : Tree d live route) (hi : live i)
    (h : removeDirEntry (d (blockOf d i 0)) leaf = some (inode, dirBlock)) :
    InUse d inode ∧ Removed (d (blockOf d i 0)) leaf inode dirBlock := by
  have hremoved := removed_of_removeDirEntry (htree.dir hi).wellFormed h
  refine ⟨?_, hremoved⟩
  obtain ⟨_, e, _, hbefore, -, rfl, -⟩ := hremoved.entries
  refine (htree.entry hi (e := e) ?_).1
  rw [entries, if_neg (htree.dir hi).block, hbefore]
  exact mem_append_right _ mem_cons_self

theorem Separated.owner (h : Separated (InUse d) limit d) (hi : InUse d i) :
    Owner d (inodeOf d i).directBlocks :=
  ⟨length_directBlocks _ _, fun _ hk => ⟨(h.place hi hk).1, (h.place hi hk).2.2⟩,
    fun _ _ heq hne => (h.inj hi hi heq hne).2⟩

theorem Consistent.ready (h : Consistent limit d) (hp : Proper d r) (hn : NamesInUse d r) :
    Ready d r := by
  obtain ⟨_, _, htree⟩ := h.tree
  refine ⟨fun _ hparent => ?_, fun hop hparent hleaf => ?_, fun hop _ _ _ _ => ?_⟩
  · obtain ⟨hinUse, hge, hmark⟩ := h.parent hparent
    exact ⟨hinUse.1, hge, hmark⟩
  · obtain ⟨t, hlookup⟩ := lookup_parentOf hparent
    obtain ⟨rfl, -, -⟩ := hp.unlink hop hleaf _ t hlookup
    have hlive := (htree.reachable (reachable_of_lookup hlookup)).2.2.mp rfl
    exact ⟨(h.parent hparent).2.1, fun _ _ hremove =>
      (Directory.removed htree hlive hremove).1.1⟩
  · exact ⟨(hn hop).1, h.separated.owner (hn hop)⟩

/-! ## One request -/

theorem lt_of_free {bitmap bitmap' : ByteBlock} {block : Nat}
    (h : Allocated bitmap (fileDataBlock + 1) totalBlocks block bitmap')
    (hfree : 0 < freeBlocks bitmap) : block < totalBlocks := by
  obtain ⟨b, hb⟩ := Finset.card_pos.mp hfree
  obtain ⟨hrange, hunmarked⟩ := Finset.mem_filter.mp hb
  obtain ⟨hge, hlt⟩ := Finset.mem_Ico.mp hrange
  by_contra hblock
  have hmarked := h.below b hge (hlt.trans_le (not_lt.mp hblock))
  rw [hunmarked] at hmarked
  cases hmarked

theorem Consistent.made (h : Consistent limit d) {kind : NodeKind} {log : List (Nat × ByteBlock)}
    (hfits : kind.Fits)
    (hkind : ∀ inode parent, IsInode inode → IsInode parent → kind.fileType = ftDir →
      kind.MakesDir parent inode)
    (hroom : ∀ block bitmap, parentOf d path ≠ 0 → (splitParentAndBasename path).2 ≠ [] →
      Allocated (d blockBitmapBlock) (fileDataBlock + 1) totalBlocks block bitmap → block < limit)
    (hmade : Made kind d path (inode, log)) : Consistent limit (applyWrites d log) := by
  cases hmade with
  | refused => exact h
  | full block inode blockBitmap inodeBitmap _ _ hblock =>
    -- the block that was written belongs to nobody
    have hge : 11 ≤ block := hblock.first_le
    rw [applyWrites_writesOf]
    have hother (n : Nat) (hn : n ≠ block) : applyUpdates d
        [.data block (kind.content inode (parentOf d path))] n = d n := Function.update_of_ne hn _ _
    refine h.congr (fun j hj => .of_eq ?_) (fun j => ?_) (fun b _ => ?_) fun n _ _ hmark => ?_
    · exact inodeOf_update (.inr (show 8 < block by omega)) hj
    · unfold InUse
      rw [hother inodeBitmapBlock (show 4 ≠ block by omega)]
    · unfold Used
      rw [hother blockBitmapBlock (show 3 ≠ block by omega)]
    · refine hother n ?_
      rintro rfl
      exact unused_of_alloc hblock hmark
  | made block inode blockBitmap inodeBitmap dirBlock gd sb hblock hinode hparent hleaf hadd =>
    obtain ⟨hinUse, hge, hmark⟩ := h.parent hparent
    have hdirne : blockOf d (parentOf d path) 0 ≠ 0 :=
      ((show 0 < rootDataBlock by decide).trans_le hge).ne'
    obtain ⟨hisInode, hlt⟩ := isInode_of_alloc hinode
    have hunused := unused_of_alloc hblock
    have hdata := isData_of_alloc hblock
    have hadded := added_of_addDirEntry hisInode.1 hlt hadd
    have hnode := @nodeMade_applyUpdates _ _ _ _ _ dirBlock _ _ gd sb hfits hinUse
      hge hmark hblock hinode
    rw [applyWrites_writesOf]
    obtain ⟨_, _, htree⟩ := h.tree
    exact ⟨h.separated.made hnode hunused hdata (hroom block blockBitmap hparent hleaf hblock),
      _, _, htree.made h.separated hnode (fresh_of_alloc hinode) hunused hdata hinUse hdirne hadded
        (hkind inode _ hisInode hinUse.1)⟩

theorem dirKind_fits : dirKind.Fits := ⟨by decide, by decide⟩

theorem fileKind_fits (junk : ByteBlock) : (fileKind junk).Fits :=
  ⟨show sIfReg ||| mode644 < 2 ^ 16 by decide, show 0 < 2 ^ 32 by decide⟩

theorem dirKind_makesDir {parent : Nat} (hinode : IsInode inode) (hparent : IsInode parent) :
    dirKind.MakesDir parent inode := by
  have hlt {i : Nat} (hi : IsInode i) : i < 2 ^ 32 :=
    hi.2.trans_lt (show numInodes < 2 ^ 32 by decide)
  obtain ⟨hentries, hwf⟩ :=
    readDirEntries_initDirBlock hinode.1 (hlt hinode) hparent.1 (hlt hparent)
  refine ⟨by decide, hwf, ?_, ?_⟩
  · show ∀ e ∈ readDirEntries (initDirBlock inode parent), _
    rw [hentries]
    simp
  · show ((readDirEntries (initDirBlock inode parent)).map DirEntry.name).Nodup
    rw [hentries]
    exact (by decide : [dot, dotDot].Nodup)

theorem Consistent.step (h : Consistent limit d) (hp : Proper d r) (hn : NamesInUse d r)
    (hroom : limit = totalBlocks + 1 ∨ limit = totalBlocks ∧ HasRoom d r)
    {replies : List ReplyRequest} (hs : serveOn d r = some (replies, d')) :
    Consistent limit d' := by
  have hblock (hop : r.command.op = .mkdir ∨ r.command.op = .create) (block : Nat)
      (bitmap : ByteBlock) (hparent : parentOf d r.path ≠ 0) (hleaf : r.leaf ≠ [])
      (halloc : Allocated (d blockBitmapBlock) (fileDataBlock + 1) totalBlocks block bitmap) :
      block < limit := by
    rcases hroom with rfl | ⟨rfl, hroom⟩
    · exact Nat.lt_succ_of_le halloc.le_last
    · exact lt_of_free halloc (hroom.node hop hparent hleaf)
  obtain ⟨_, hserved, rfl⟩ := served_of_serveOn (h.ready hp hn) hs
  cases hserved with
  | quiet | ignored => exact h
  | mkdir hop hmade =>
    exact h.made dirKind_fits (fun _ _ hinode hparent _ => dirKind_makesDir hinode hparent)
      (hblock (.inl hop)) hmade
  | create hop hmade =>
    refine h.made (fileKind_fits _) (fun _ _ _ _ htype => ?_) (hblock (.inr hop)) hmade
    exact absurd htype (show ftReg ≠ ftDir by decide)
  | unlink hop hunlinked =>
    cases hunlinked with
    | refused => exact h
    | unlinked inode dirBlock gd sb hparent hleaf hremove =>
      obtain ⟨live, route, htree⟩ := h.tree
      obtain ⟨t, hlookup⟩ := lookup_parentOf hparent
      obtain ⟨rfl, hdot, hdotDot⟩ := hp.unlink hop hleaf _ t hlookup
      have hlive := (htree.reachable (reachable_of_lookup hlookup)).2.2.mp rfl
      obtain ⟨hinUse, hremoved⟩ := Directory.removed htree hlive hremove
      have hnode := @nodeUnlinked_applyUpdates _ _ _ dirBlock gd sb
        (h.parent hparent).2.1 hinUse.1 fun b hb => by
          obtain ⟨hne, k, -, rfl⟩ := mem_blocksOf.mp hb
          have hlt := (h.separated.place hinUse hne).2.1
          rcases hroom with rfl | ⟨rfl, -⟩
          · exact Nat.le_of_lt_succ hlt
          · exact hlt.le
      rw [applyWrites_writesOf]
      exact ⟨h.separated.unlinked hnode hinUse, _, _,
        htree.unlinked h.separated hlive hnode hremoved hdot hdotDot⟩
  | write hop hfetched hdata hwrote =>
    rename_i offset w data us blocks
    have hinUse := hn hop
    have hwritten := fileWritten_applyUpdates hinUse.1 hwrote
    have hfill := hwrote.state.filling
    have hfresh (k : Nat) (hk : blockOf d r.target k = 0) : blocks.getD k 0 < limit := by
      rcases hroom with rfl | ⟨rfl, hroom⟩
      · by_cases hzero : blocks.getD k 0 = 0
        · rw [hzero]
          decide
        · exact Nat.lt_succ_of_le (hfill.fresh k hk hzero).2.1
      · exact (hwrote.state.room (hroom.write hop offset data hfetched hdata)).1 k hk
    rw [applyWrites_writesOf]
    refine ⟨?_, ?_⟩
    · exact (h.separated.written (fun _ hj => hj.1) hinUse hwritten hfill hfresh).mono
        fun j hj => (hwritten.inUse j).mp hj
    · obtain ⟨live, route, htree⟩ := h.tree
      refine ⟨live, route, htree.written h.separated hinUse (fun hlive => ?_) hwritten hfill
        (hwrote.size_pos hdata)⟩
      exact (htree.dir hlive).mode (hp.write hop offset data hfetched hdata)

end

/-! ## A fresh disk -/

def formatted (d : Disk) : Disk := applyWrites d formatWrites

theorem formatted_apply (d : Disk) {n : Nat} (hn : 0 < n) (hlt : n < 11) :
    formatted d n = freshDisk n := by
  interval_cases n <;> rfl

theorem blockOf_freshDisk : ∀ i < numInodes + 1, ∀ k < 12,
    blockOf freshDisk i k = if i = rootInode ∧ k = 0 then rootDataBlock
      else if i = Ext2.fileInode ∧ k = 0 then fileDataBlock else 0 := by
  decide +kernel

theorem entries_freshDisk : entries freshDisk rootInode =
    [⟨rootInode, ftDir, dot⟩, ⟨rootInode, ftDir, dotDot⟩, ⟨Ext2.fileInode, ftReg, fileName⟩] := by
  decide +kernel

theorem wellFormed_freshDisk : WellFormed (freshDisk rootDataBlock) := by
  show ∀ r ∈ records (freshDisk rootDataBlock), r.inode ≠ 0 → 8 + r.nameLen ≤ r.recLen
  decide +kernel

theorem separated_freshDisk : Separated (InUse freshDisk) totalBlocks freshDisk := by
  have hused : Used freshDisk rootDataBlock ∧ Used freshDisk fileDataBlock := by decide +kernel
  -- the root and the file have a block each
  have hview {i k : Nat} (hi : InUse freshDisk i) (hne : blockOf freshDisk i k ≠ 0) :
      k = 0 ∧ (i = rootInode ∧ blockOf freshDisk i k = rootDataBlock ∨
        i = Ext2.fileInode ∧ blockOf freshDisk i k = fileDataBlock) := by
    have hk : k < 12 := by
      by_contra hge
      exact hne (blockOf_eq_zero _ _ (not_lt.mp hge))
    have hblock := blockOf_freshDisk i (Nat.lt_succ_of_le hi.1.2) k hk
    split_ifs at hblock with hroot hfile
    · exact ⟨hroot.2, .inl ⟨hroot.1, hblock⟩⟩
    · exact ⟨hfile.2, .inr ⟨hfile.1, hblock⟩⟩
    · exact absurd hblock hne
  constructor
  · intro i k hi hne
    obtain ⟨-, ⟨-, heq⟩ | ⟨-, heq⟩⟩ := hview hi hne
    · rw [heq]
      exact ⟨le_rfl, by decide, hused.1⟩
    · rw [heq]
      exact ⟨by decide, by decide, hused.2⟩
  · intro i j k l hi hj heq hne
    obtain ⟨rfl, hi'⟩ := hview hi hne
    obtain ⟨rfl, hj'⟩ := hview hj (heq ▸ hne)
    obtain ⟨rfl, hbi⟩ | ⟨rfl, hbi⟩ := hi' <;> obtain ⟨rfl, hbj⟩ | ⟨rfl, hbj⟩ := hj'
    · exact ⟨rfl, rfl⟩
    · rw [hbi, hbj] at heq
      exact absurd heq (by decide)
    · rw [hbi, hbj] at heq
      exact absurd heq (by decide)
    · exact ⟨rfl, rfl⟩

theorem tree_freshDisk : Tree freshDisk (· = rootInode)
    fun i => if i = rootInode then [rootInode] else [i, rootInode] := by
  have hinUse : InUse freshDisk rootInode ∧ InUse freshDisk Ext2.fileInode := by decide +kernel
  have hroot : blockOf freshDisk rootInode 0 = rootDataBlock :=
    blockOf_freshDisk rootInode (by decide) 0 (by decide)
  have hfile : blockOf freshDisk Ext2.fileInode 0 = fileDataBlock :=
    blockOf_freshDisk Ext2.fileInode (by decide) 0 (by decide)
  refine ⟨⟨rfl, rfl⟩, ?_⟩
  rintro i rfl
  refine ⟨hinUse.1, by decide +kernel, by rw [hroot]; decide, ?_, rfl, ?_, ?_, ?_, ?_, ?_⟩
  · rw [hroot]
    exact wellFormed_freshDisk
  · intro j hj
    rw [if_pos rfl, mem_singleton] at hj
    subst hj
    exact ⟨rfl, List.Subset.refl _⟩
  · rw [entries_freshDisk]
    intro e he
    simp only [mem_cons, not_mem_nil, or_false] at he
    obtain rfl | rfl | rfl := he
    · exact .inl mem_cons_self
    · exact .inl mem_cons_self
    · exact .inr ⟨hinUse.2, by rw [hfile]; decide, by decide, rfl, by decide, by decide⟩
  · rw [entries_freshDisk]
    decide
  · rw [entries_freshDisk]
    decide
  · rw [entries_freshDisk]
    decide

theorem consistent_formatted (d : Disk) : Consistent totalBlocks (formatted d) := by
  have hfresh : Consistent totalBlocks freshDisk := ⟨separated_freshDisk, _, _, tree_freshDisk⟩
  refine hfresh.congr (fun j hj => .of_eq ?_) (fun j => ?_) (fun b _ => ?_) fun n hn hlt hused => ?_
  · have hblock := hj.block
    rw [inodeOf, formatted_apply d (by omega) (by omega), inodeOf]
  · unfold InUse
    rw [formatted_apply d (by decide) (by decide)]
  · unfold Used
    rw [formatted_apply d (by decide) (by decide)]
  · have hmarks : ∀ n < totalBlocks, 11 ≤ n → ¬ Used freshDisk n := by decide +kernel
    refine formatted_apply d ((show 0 < rootDataBlock by decide).trans_le hn) ?_
    by_contra hge
    exact hmarks n hlt (not_lt.mp hge) hused

/-! ## Runs -/

def serveStep (d : Disk) (r : Request) : Option Disk := (serveOn d r).map Prod.snd

theorem exists_of_serveStep {d d' : Disk} {r : Request} (h : serveStep d r = some d') :
    ∃ replies, serveOn d r = some (replies, d') := by
  obtain ⟨⟨replies, _⟩, hserve, rfl⟩ := map_eq_some_iff.mp h
  exact ⟨replies, hserve⟩

structure Careful (d : Disk) (r : Request) : Prop where
  names : NamesInUse d r
  proper : Proper d r
  room : HasRoom d r

theorem consistent_of_attempt {d0 d : Disk} {requests : List Request}
    (hmeets : Meets serveStep Careful (formatted d0) requests)
    (hrun : attempt serveStep (formatted d0) requests = some d) : Consistent totalBlocks d := by
  refine attempt_invariant (fun d r _ h hr hstep => ?_) (consistent_formatted d0) hmeets hrun
  obtain ⟨_, hserve⟩ := exists_of_serveStep hstep
  exact h.step hr.proper hr.names (.inr ⟨rfl, hr.room⟩) hserve

/-- **The structure invariant.** From a formatted disk, it holds after every run whose
requests are all careful. -/
theorem structure_kept (d₀ : Disk) (requests : List Request) {d : Disk}
    (hmeets : Meets serveStep Careful (formatted d₀) requests)
    (hrun : attempt serveStep (formatted d₀) requests = some d) : Sound d :=
  (consistent_of_attempt hmeets hrun).sound

def appendRequest : Request :=
  ⟨zeroBlock, ⟨1, .write, 11⟩, some (35, [33]), by rintro _ _ ⟨⟩; decide⟩

theorem careful_append : Careful (formatted fun _ => zeroBlock) appendRequest := by
  refine ⟨fun _ => by decide +kernel, ⟨nofun, fun _ offset data hfetched _ => ?_⟩,
    ⟨fun hop => absurd hop (by decide), fun _ offset data hfetched _ => ?_⟩⟩
  · decide +kernel
  · cases hfetched
    decide +kernel

theorem structure_kept_append :
    ∃ d, attempt serveStep (formatted fun _ => zeroBlock) [appendRequest] = some d ∧ Sound d := by
  refine exists_run_imp (Q := fun _ => True) (by decide +kernel) fun d hrun _ => ?_
  exact structure_kept _ [appendRequest] ⟨careful_append, fun _ _ => trivial⟩ hrun

/-- UNLINK of `.` on a fresh disk frees the root, which `..` still names. -/
theorem unlink_dot_breaks_structure :
    ∃ r : Request, r.command.op = .unlink ∧ r.path = dot ∧
      ∃ d, attempt serveStep (formatted fun _ => zeroBlock) [r] = some d ∧ ¬ Sound d := by
  let r : Request := ⟨zeroBlock, ⟨1, .unlink, 0⟩, some (0, dot), by rintro _ _ ⟨⟩; decide⟩
  refine ⟨r, rfl, rfl, exists_run_imp (Q := fun d => ∃ e ∈ entries d rootInode, ¬ InUse d e.inode)
    (by decide +kernel) ?_⟩
  rintro d - ⟨e, he, hfree⟩ hsound
  exact hfree (hsound.entry rootInode e .root he)

end AgenticOS.BlkDriver
