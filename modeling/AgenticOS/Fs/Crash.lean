import AgenticOS.Fs.Integrity

/-!
# Power failure

The writes of a request reach the disk one at a time, so a power failure can leave
the disk after any number of them. WRITE and UNLINK are ordered well: bitmaps
get their marks before an inode names the block, and lose them after the entry is
gone. CREATE and MKDIR write the entry before the inode is marked, and a failure in
between leaves an entry for an inode that the next CREATE hands out again.
-/

namespace AgenticOS.BlkDriver

open Foundation Ext2 Driver List Function

/-- **What a power failure may leave.** Every entry that can be reached names an inode in
use, with the fields that it has before the request or after all of it, and its blocks
are marked. -/
def Intact (before after d : Disk) : Prop :=
  ∀ dir e, Reachable d dir ftDir → e ∈ entries d dir →
    InUse d e.inode ∧
    (∃ c, (c = before ∨ c = after) ∧ InUse c e.inode ∧ SameInode c d e.inode) ∧
    ∀ k, blockOf d e.inode k ≠ 0 → Used d (blockOf d e.inode k)

theorem Intact.allocated {before after d : Disk} (h : Intact before after d) {dir : Nat}
    {e : DirEntry} (hdir : Reachable d dir ftDir) (he : e ∈ entries d dir) :
    (∀ inode bitmap, allocInode (d inodeBitmapBlock) numInodes = some (inode, bitmap) →
      e.inode ≠ inode) ∧
    ∀ block bitmap, allocBlock (d blockBitmapBlock) totalBlocks = some (block, bitmap) →
      ∀ k, blockOf d e.inode k ≠ block := by
  obtain ⟨hinUse, -, hused⟩ := h dir e hdir he
  refine ⟨fun inode bitmap halloc => ?_, fun block bitmap halloc k => ?_⟩
  · rintro rfl
    exact fresh_of_alloc (allocated_of_allocBit (by decide) (by decide) halloc) hinUse
  · rintro rfl
    have hblock := allocated_of_allocBit (by decide) (by decide) halloc
    exact unused_of_alloc hblock (hused k (by have := hblock.first_le; omega))

section

variable {before after c d : Disk} {limit : Nat}

section

variable (h : Consistent limit c)

include h

section

variable (hcase : c = before ∨ c = after)

include hcase

/-- A disk with the directories and inodes of a consistent one, and no fewer marks. -/
theorem Consistent.intact (hentries : ∀ i, Reachable c i ftDir → entries d i = entries c i)
    (hnode : ∀ j, InUse c j → SameInode c d j) (hinUse : ∀ j, InUse c j → InUse d j)
    (hused : ∀ b, 0 < b → Used c b → Used d b) : Intact before after d := by
  intro dir e hdir he
  rw [reachable_congr hentries] at hdir
  rw [hentries dir hdir] at he
  have hold := (h.reachable (.entry hdir he)).1
  have hsame := hnode _ hold
  refine ⟨hinUse _ hold, ⟨c, hcase, hold, hsame⟩, fun k hne => ?_⟩
  rw [hsame.blocks] at hne ⊢
  exact hused _ (Nat.pos_of_ne_zero hne) (h.separated.place hold hne).2.2

theorem Consistent.intact_self : Intact before after c :=
  h.intact hcase (fun _ _ => rfl) (fun _ _ => .of_eq rfl) (fun _ hj => hj) fun _ _ hb => hb

theorem Consistent.intact_of_agree (hagree : ∀ n, blockBitmapBlock ≤ n → d n = c n) :
    Intact before after d := by
  have hnode (j : Nat) (hj : InUse c j) : SameInode c d j := by
    have hblock := hj.1.block
    refine .of_eq ?_
    rw [inodeOf, hagree _ (show 3 ≤ inodeBlock j by omega), inodeOf]
  refine h.intact hcase (fun i hi => ?_) hnode (fun j hj => ?_) fun b _ _ => ?_
  · obtain ⟨hinUse, hblock⟩ := h.reachable hi
    refine entries_congr ((hnode i hinUse).blocks 0) fun _ => hagree _ ?_
    exact (show blockBitmapBlock ≤ rootDataBlock by decide).trans
      (h.separated.place hinUse hblock).1
  · rwa [InUse, hagree _ (by decide)]
  · rwa [Used, hagree _ le_rfl]

end

end

end

section

variable {d : Disk} {us : List Update} {n k point : Nat}

theorem applyUpdates_preserves {P : Disk → Prop} (h : ∀ u ∈ us, ∀ c, P c → P (u.apply c))
    (hd : P d) : P (applyUpdates d us) := by
  induction us generalizing d with
  | nil => exact hd
  | cons u us ih =>
    exact ih (fun v hv => h v (mem_cons_of_mem _ hv)) (h u mem_cons_self d hd)

theorem used_applyUpdates (hus : ∀ u ∈ us, u.Placed)
    (hmarks : ∀ b, .blockBitmap b ∈ us → marked b n = true) (hn : Used d n) :
    Used (applyUpdates d us) n := by
  refine applyUpdates_preserves (P := (Used · n)) (fun u hu c hc => ?_) hn
  by_cases hbitmap : ∃ b, u = .blockBitmap b
  · obtain ⟨b, rfl⟩ := hbitmap
    exact hmarks b hu
  · rw [Used, apply_blockBitmapBlock (hus u hu) fun b hb => hbitmap ⟨b, hb⟩]
    exact hc

theorem inUse_applyUpdates (hus : ∀ u ∈ us, u.Placed)
    (hmarks : ∀ b, .inodeBitmap b ∈ us → marked b n = true) (hn : InUse d n) :
    InUse (applyUpdates d us) n := by
  refine ⟨hn.1, applyUpdates_preserves (P := fun c => marked (c inodeBitmapBlock) n = true)
    (fun u hu c hc => ?_) hn.2⟩
  by_cases hbitmap : ∃ b, u = .inodeBitmap b
  · obtain ⟨b, rfl⟩ := hbitmap
    exact hmarks b hu
  · rw [apply_inodeBitmapBlock (hus u hu) fun b hb => hbitmap ⟨b, hb⟩]
    exact hc

theorem applyUpdates_take_of_counters (hus : ∀ u ∈ us.drop point, ∃ m b, u = .counters m b ∧ m < 3)
    (hk : point ≤ k) (hn : blockBitmapBlock ≤ n) :
    applyUpdates d (us.take k) n = applyUpdates d us n := by
  have hcounters {c : Disk} {vs : List Update} (hvs : vs ⊆ us.drop point) :
      applyUpdates c vs n = c n := by
    refine applyUpdates_keeps (· n) (fun u hu c => update_of_ne ?_ _ _) c
    obtain ⟨m, b, rfl, hm⟩ := hus u (hvs hu)
    exact (hm.trans_le hn).ne'
  obtain ⟨j, rfl⟩ := Nat.exists_eq_add_of_le hk
  conv_rhs => rw [← take_append_drop point us]
  rw [take_add, applyUpdates_append, applyUpdates_append, hcounters (take_subset _ _),
    hcounters (List.Subset.refl _)]

end

/-! ## Making a node -/

/-- The number of writes of a new node up to the one that marks its inode. -/
def NodeKind.commitPoint (kind : NodeKind) : Nat := if kind.linksParent then 6 else 5

section

variable {kind : NodeKind} {d c : Disk} {parent inode block k limit : Nat}
  {dirBlock blockBitmap inodeBitmap gd sb : ByteBlock} {leaf : List UInt8}

/-- The entry is there and the inode is not marked. -/
structure Torn (d : Disk) (parent inode block : Nat) (content dirBlock : ByteBlock) (c : Disk) :
    Prop where
  data : ∀ n, rootDataBlock ≤ n →
    c n = Function.update (Function.update d block content) (blockOf d parent 0) dirBlock n
  inodes : ∀ j, IsInode j → j ≠ inode → SameInode d c j
  inUse : ∀ j, InUse c j ↔ InUse d j
  used : ∀ b, 0 < b → Used d b → Used c b

theorem torn_applyUpdates (hkind : kind.Fits) (hparent : IsInode parent)
    (hdir : rootDataBlock ≤ blockOf d parent 0)
    (hblock : Allocated (d blockBitmapBlock) (fileDataBlock + 1) totalBlocks block blockBitmap)
    (hinode : Allocated (d inodeBitmapBlock) (Ext2.fileInode + 1) numInodes inode inodeBitmap)
    (hentry : 2 ≤ k) (hk : k < kind.commitPoint) :
    Torn d parent inode block (kind.content inode parent) dirBlock
      (applyUpdates d ((.data block (kind.content inode parent) ::
        commitUpdates kind d parent inode block dirBlock blockBitmap inodeBitmap gd sb).take
          k)) := by
  have hisInode := (isInode_of_alloc hinode).1
  have hge := isData_of_alloc hblock
  generalize hus : Update.data block (kind.content inode parent) ::
    commitUpdates kind d parent inode block dirBlock blockBitmap inodeBitmap gd sb = us
  have hplaced : ∀ u ∈ us, u.Placed := by
    rw [← hus]
    intro u hu
    rcases mem_cons.mp hu with rfl | hu
    · exact hge
    · exact placed_commitUpdates hkind hparent hdir hisInode hblock.le_last u hu
  have hmem {u : Update} (hu : u ∈ us.take k) : u ∈ us := mem_of_mem_take hu
  -- the prefix ends before the inode bitmap
  have hnoBitmap (b : ByteBlock) : .inodeBitmap b ∉ us.take k := by
    intro hb
    have hb' := (take_subset_take_left us (Nat.le_pred_of_lt hk)) hb
    rw [← hus, NodeKind.commitPoint, commitUpdates] at hb'
    split_ifs at hb' <;> simp at hb'
  refine ⟨fun n hn => ?_, fun j hj hji => ?_, fun j => ?_, fun b hb hused => ?_⟩
  · obtain ⟨j, rfl⟩ := Nat.exists_eq_add_of_le hentry
    have hsplit : us.take (2 + j) = [.data block (kind.content inode parent),
        .data (blockOf d parent 0) dirBlock] ++ (us.drop 2).take j := by
      rw [take_add, ← hus]
      rfl
    rw [hsplit, applyUpdates_append]
    refine applyUpdates_of_data (fun u hu => hplaced u ?_) hn fun m b hmem => ?_
    · exact mem_of_mem_drop (mem_of_mem_take hu)
    · have hrest := mem_of_mem_take hmem
      rw [← hus, commitUpdates] at hrest
      split_ifs at hrest <;> simp at hrest
  · refine sameInode_applyUpdates hparent (fun u hu => hplaced u (hmem hu))
      (fun i _ _ _ _ hnode => ?_) hj hji
    have hnode := hmem hnode
    rw [← hus, commitUpdates] at hnode
    split_ifs at hnode
    · simp only [mem_cons, mem_append, not_mem_nil, or_false, reduceCtorEq, false_or,
        Update.inode.injEq] at hnode
      rcases hnode with ⟨rfl, rfl, rfl, -, rfl⟩ | ⟨rfl, -⟩
      · exact .inr ⟨rfl, rfl, rfl, rfl⟩
      · exact .inl rfl
    · simp only [mem_cons, mem_append, not_mem_nil, or_false, reduceCtorEq, false_or,
        Update.inode.injEq] at hnode
      exact .inl hnode.1
  · rw [InUse, applyUpdates_inodeBitmapBlock (fun u hu => hplaced u (hmem hu)) hnoBitmap, InUse]
  · refine used_applyUpdates (fun u hu => hplaced u (hmem hu)) (fun b' hb' => ?_) hused
    have hb' := hmem hb'
    obtain rfl : b' = blockBitmap := by
      rw [← hus, commitUpdates] at hb'
      split_ifs at hb' <;> simpa using hb'
    exact (hblock.marked_iff b hb).mpr (.inr hused)

/-- A new node on a disk: its inode and block are free, and its entry fits the parent. -/
structure Adding (d : Disk) (parent inode block : Nat) (fileType : UInt8) (leaf : List UInt8)
    (dirBlock : ByteBlock) : Prop where
  inUse : InUse d parent
  directory : blockOf d parent 0 ≠ 0
  unused : ¬ Used d block
  fresh : ¬ InUse d inode
  added : Added (d (blockOf d parent 0)) inode fileType leaf dirBlock

theorem Adding.ne (ha : Adding d parent inode block kind.fileType leaf dirBlock) {j : Nat}
    (hj : InUse d j) : j ≠ inode := by
  rintro rfl
  exact ha.fresh hj

section

variable (h : Consistent limit d) (ha : Adding d parent inode block kind.fileType leaf dirBlock)
  (ht : Torn d parent inode block (kind.content inode parent) dirBlock c)
include h ha ht

theorem Torn.entries_parent : ∃ pre post, entries d parent = pre ++ post ∧
    entries c parent = pre ++ newEntry inode kind.fileType leaf ++ post := by
  obtain ⟨pre, post, hbefore, hafter⟩ := ha.added.entries
  refine ⟨pre, post, ?_, ?_⟩
  · rw [entries, if_neg ha.directory, hbefore]
  · rw [entries, (ht.inodes parent ha.inUse.1 (ha.ne ha.inUse)).blocks, if_neg ha.directory,
      ht.data _ (h.separated.place ha.inUse ha.directory).1, update_self, hafter]

theorem Torn.entries_other {i : Nat} (hi : Reachable d i ftDir) (hip : i ≠ parent) :
    entries c i = entries d i := by
  obtain ⟨hinUse, hblock⟩ := h.reachable hi
  obtain ⟨hge, -, hmark⟩ := h.separated.place hinUse hblock
  refine entries_congr ((ht.inodes i hinUse.1 (ha.ne hinUse)).blocks 0) fun _ => ?_
  have hdir : blockOf d i 0 ≠ blockOf d parent 0 := fun heq =>
    hip (h.separated.inj hinUse ha.inUse heq hblock).1
  have hnew : blockOf d i 0 ≠ block := by
    intro heq
    exact ha.unused (heq ▸ hmark)
  rw [ht.data _ hge, update_of_ne hdir, update_of_ne hnew]

/-- An entry without a name, or in what is not a directory, does not matter. -/
theorem Torn.intact (after : Disk)
    (hhidden : ¬ Reachable d parent ftDir ∨ newEntry inode kind.fileType leaf = []) :
    Intact d after c := by
  refine h.intact (.inl rfl) (fun i hi => ?_) (fun j hj => ht.inodes j hj.1 (ha.ne hj))
    (fun j => (ht.inUse j).mpr) ht.used
  by_cases hip : i = parent
  · subst hip
    obtain ⟨_, _, hbefore, hafter⟩ := ht.entries_parent h ha
    rw [hbefore, hafter, hhidden.resolve_left (not_not_intro hi), append_nil]
  · exact ht.entries_other h ha hi hip

theorem Torn.not_intact (after : Disk) (hreach : Reachable d parent ftDir)
    (hname : newEntry inode kind.fileType leaf ≠ []) : ¬ Intact d after c := by
  intro hintact
  obtain ⟨_, _, hbefore, hafter⟩ := ht.entries_parent h ha
  have hgrow {i : Nat} {t : UInt8} (hi : Reachable d i t) : Reachable c i t := by
    induction hi with
    | root => exact .root
    | @entry dir e hdir' he ih =>
      refine .entry ih ?_
      by_cases hip : dir = parent
      · subst hip
        rw [hbefore, mem_append] at he
        rw [hafter, append_assoc, mem_append, mem_append]
        exact he.imp_right .inr
      · rwa [ht.entries_other h ha hdir' hip]
  obtain ⟨e, he⟩ := exists_mem_of_ne_nil _ hname
  have heq : e.inode = inode := by
    unfold newEntry at he
    split_ifs at he
    · cases he
    · rw [mem_singleton.mp he]
  have hmem : e ∈ entries c parent := by
    rw [hafter]
    exact mem_append_left _ (mem_append_right _ he)
  have hused := (hintact parent e (hgrow hreach) hmem).1
  rw [heq, ht.inUse] at hused
  exact ha.fresh hused

end

theorem Consistent.intact_data (h : Consistent limit d) (hge : rootDataBlock ≤ block)
    (hunused : ¬ Used d block) (after : Disk) (b : ByteBlock) :
    Intact d after (applyUpdates d [.data block b]) := by
  have hplaced : ∀ u ∈ [Update.data block b], u.Placed := by
    intro u hu
    rw [mem_singleton.mp hu]
    exact hge
  have hnode (j : Nat) (hj : InUse d j) : SameInode d (applyUpdates d [.data block b]) j :=
    .of_eq (inodeOf_applyUpdates hplaced hj.1 (by simp))
  refine h.intact (.inl rfl) (fun i hi => ?_) hnode (fun j hj => ?_) fun n _ hused => ?_
  · obtain ⟨hinUse, hblock⟩ := h.reachable hi
    refine entries_congr ((hnode i hinUse).blocks 0) fun _ => ?_
    refine update_of_ne ?_ _ _
    rintro rfl
    exact hunused (h.separated.place hinUse hblock).2.2
  · exact inUse_applyUpdates hplaced (by simp) hj
  · exact used_applyUpdates hplaced (by simp) hused

end

theorem newEntry_eq_nil_iff {inode : Nat} {fileType : UInt8} {name : List UInt8} :
    newEntry inode fileType name = [] ↔ name.length % 256 = 0 := by
  rw [newEntry, ← storedName_eq_nil_iff]
  simp

/-- The new entry cannot be seen: the parent is not a directory, or the name has no length
in the byte that stores it. -/
def Hidden (d : Disk) (r : Request) : Prop :=
  (∀ i, lookup d r.parentPath ≠ some (i, ftDir)) ∨ r.leaf.length % 256 = 0

/-- The power does not fail while the entry of a new node is there without the mark of
its inode. -/
def Untorn (d : Disk) (r : Request) (k : Nat) : Prop :=
  match r.command.op with
  | .create => k ≤ 1 ∨ 5 ≤ k ∨ Hidden d r
  | .mkdir => k ≤ 1 ∨ 6 ≤ k ∨ Hidden d r
  | _ => True

section

variable {d : Disk} {r : Request} {limit k : Nat} {log : List (Nat × ByteBlock)}

section

variable (h : Consistent limit d)

include h

theorem Consistent.intact_made_iff {kind : NodeKind} {inode : Nat}
    (hfits : kind.Fits) (hmade : Made kind d r.path (inode, log))
    (hafter : Consistent limit (applyWrites d log)) (hk : k ≤ log.length) :
    Intact d (applyWrites d log) (applyWrites d (log.take k)) ↔
      k ≤ 1 ∨ kind.commitPoint ≤ k ∨ Hidden d r := by
  cases hmade with
  | refused =>
    rw [take_nil]
    exact iff_of_true (h.intact_self (.inl rfl)) (.inl (hk.trans (Nat.zero_le 1)))
  | full block inode blockBitmap inodeBitmap _ _ hblock =>
    rw [length_writesOf] at hk
    refine iff_of_true ?_ (.inl hk)
    rw [take_writesOf, applyWrites_writesOf]
    rcases Nat.le_one_iff_eq_zero_or_eq_one.mp hk with rfl | rfl
    · exact h.intact_self (.inl rfl)
    · exact h.intact_data (isData_of_alloc hblock) (unused_of_alloc hblock) _ _
  | made block inode blockBitmap inodeBitmap dirBlock gd sb hblock hinode hparent hleaf hadd =>
    obtain ⟨hinUse, hge, -⟩ := h.parent hparent
    obtain ⟨t, hlookup⟩ := lookup_parentOf hparent
    obtain ⟨hisInode, hlt⟩ := isInode_of_alloc hinode
    have hadding : Adding d (parentOf d r.path) inode block kind.fileType
        (splitParentAndBasename r.path).2 dirBlock := by
      exact ⟨hinUse, ((show 0 < rootDataBlock by decide).trans_le hge).ne', unused_of_alloc hblock,
        fresh_of_alloc hinode, added_of_addDirEntry hisInode.1 hlt hadd⟩
    have hhidden : Hidden d r ↔ ¬ Reachable d (parentOf d r.path) ftDir ∨
        newEntry inode kind.fileType (splitParentAndBasename r.path).2 = [] := by
      obtain ⟨_, _, htree⟩ := h.tree
      refine or_congr ⟨fun hno hreach => ?_, fun hno i heq => ?_⟩ ?_
      · have hdir := (htree.reachable (reachable_of_lookup hlookup)).2.2
        rw [hdir.mpr ((htree.reachable hreach).2.2.mp rfl)] at hlookup
        exact hno _ hlookup
      · have hsame := heq.symm.trans hlookup
        rw [Option.some.injEq, Prod.mk.injEq] at hsame
        exact hno (hsame.1 ▸ reachable_of_lookup heq)
      · exact newEntry_eq_nil_iff.symm
    rw [applyWrites_writesOf] at hafter
    rw [take_writesOf, applyWrites_writesOf, applyWrites_writesOf, hhidden]
    by_cases hearly : k ≤ 1
    · refine iff_of_true ?_ (.inl hearly)
      rcases Nat.le_one_iff_eq_zero_or_eq_one.mp hearly with rfl | rfl
      · exact h.intact_self (.inl rfl)
      · exact h.intact_data (isData_of_alloc hblock) hadding.unused _ _
    by_cases hlate : kind.commitPoint ≤ k
    · refine iff_of_true ?_ (.inr (.inl hlate))
      -- only the counters are missing
      refine hafter.intact_of_agree (.inr rfl) fun n hn =>
        applyUpdates_take_of_counters ?_ hlate hn
      unfold commitUpdates NodeKind.commitPoint
      intro u hu
      split_ifs at hu <;>
      · simp only [cons_append, nil_append, drop_succ_cons, drop_zero,
          mem_cons, not_mem_nil, or_false] at hu
        rcases hu with rfl | rfl
        · exact ⟨_, _, rfl, by decide⟩
        · exact ⟨_, _, rfl, by decide⟩
    have htorn := @torn_applyUpdates _ d _ _ _ _ dirBlock _ _ gd sb hfits
      hinUse.1 hge hblock hinode (not_le.mp hearly) (not_le.mp hlate)
    constructor
    · intro hintact
      refine .inr (.inr ?_)
      by_contra hvisible
      rw [not_or, not_not] at hvisible
      exact htorn.not_intact h hadding _ hvisible.1 hvisible.2 hintact
    · rintro (hle | hle | hno)
      · exact absurd hle hearly
      · exact absurd hle hlate
      · exact htorn.intact h hadding _ hno

theorem Consistent.intact_unlinked {done : Bool}
    (hunlinked : Unlinked d r.path (done, log)) (hafter : Consistent limit (applyWrites d log))
    (hle : limit ≤ totalBlocks + 1) (hp : Proper d r) (hop : r.command.op = .unlink) :
    Intact d (applyWrites d log) (applyWrites d (log.take k)) := by
  cases hunlinked with
  | refused =>
    rw [take_nil]
    exact h.intact_self (.inl rfl)
  | unlinked inode dirBlock gd sb hparent hleaf hremove =>
    have hdir := (h.parent hparent).2.1
    obtain ⟨_, _, htree⟩ := h.tree
    obtain ⟨t, hlookup⟩ := lookup_parentOf hparent
    obtain ⟨rfl, -, -⟩ := hp.unlink hop hleaf _ t hlookup
    have hlive := (htree.reachable (reachable_of_lookup hlookup)).2.2.mp rfl
    have hinUse := (Directory.removed htree hlive hremove).1
    have hplaced := @placed_unlinkUpdates d (parentOf d r.path) inode dirBlock gd sb hdir
    have hnode := @nodeUnlinked_applyUpdates _ _ _ dirBlock gd sb hdir hinUse.1 fun b hb => by
        obtain ⟨hne, l, -, rfl⟩ := mem_blocksOf.mp hb
        exact Nat.le_of_lt_succ ((h.separated.place hinUse hne).2.1.trans_le hle)
    rw [applyWrites_writesOf] at hafter
    rw [take_writesOf, applyWrites_writesOf, applyWrites_writesOf]
    cases k with
    | zero => exact h.intact_self (.inl rfl)
    | succ k =>
      generalize hus : unlinkUpdates d (parentOf d r.path) inode dirBlock gd sb = us at *
      have hmem {u : Update} (hu : u ∈ us.take (k + 1)) : u ∈ us := mem_of_mem_take hu
      have hplaced' : ∀ u ∈ us.take (k + 1), u.Placed := fun u hu => hplaced u (hmem hu)
      have hsame (j : Nat) (hj : InUse (applyUpdates d us) j) :
          SameInode (applyUpdates d us) (applyUpdates d (us.take (k + 1))) j := by
        refine .of_eq ((inodeOf_applyUpdates hplaced' hj.1 fun i _ _ _ blocks hi => ?_).trans
          (hnode.inodes j hj.1).symm)
        have hi := hmem hi
        rw [← hus] at hi
        simp [unlinkUpdates] at hi
      have hdata (n : Nat) (hn : rootDataBlock ≤ n) :
          applyUpdates d (us.take (k + 1)) n = applyUpdates d us n := by
        have hrest (j : Nat) : applyUpdates d (us.take (j + 1)) n =
            update d (blockOf d (parentOf d r.path) 0) dirBlock n := by
          have hcons : us.take (j + 1) = .data (blockOf d (parentOf d r.path) 0) dirBlock ::
              (us.drop 1).take j := by
            rw [← hus]
            rfl
          rw [hcons, applyUpdates_cons]
          refine applyUpdates_of_data (fun u hu => hplaced u ?_) hn fun m b hm => ?_
          · exact mem_of_mem_drop (mem_of_mem_take hu)
          · have hm := mem_of_mem_take hm
            rw [← hus] at hm
            simp [unlinkUpdates] at hm
        rw [hrest k, ← hrest us.length, take_of_length_le (Nat.le_succ _)]
      refine hafter.intact (.inr rfl) (fun i hi => ?_) hsame (fun j hj => ?_) fun b hb hused => ?_
      · obtain ⟨hinUse', hblock⟩ := hafter.reachable hi
        exact entries_congr ((hsame i hinUse').blocks 0) fun _ =>
          hdata _ (hafter.separated.place hinUse' hblock).1
      · refine inUse_applyUpdates hplaced' (fun b hb => ?_) ((hnode.inUse j).mp hj).2
        have hb := hmem hb
        rw [← hus] at hb hj
        obtain rfl : b = freeInode (d inodeBitmapBlock) inode := by
          simpa [unlinkUpdates] using hb
        exact hj.2
      · refine used_applyUpdates hplaced' (fun b' hb' => ?_) ((hnode.used b hb).mp hused).2
        have hb' := hmem hb'
        rw [← hus] at hb' hused
        obtain rfl : b' = (blocksOf d inode).foldl freeBlock (d blockBitmapBlock) := by
          simpa [unlinkUpdates] using hb'
        exact hused

theorem Consistent.intact_wrote {i offset w : Nat} {data : List UInt8}
    {us : List Update} {blocks : List Nat} (hi : InUse d i)
    (hmode : (inodeOf d i).mode &&& sIfDir = 0) (hwrote : Wrote d i offset data us blocks w)
    (hafter : Consistent limit (applyUpdates d (us ++ [sizeUpdate d i offset blocks w]))) :
    Intact d (applyUpdates d (us ++ [sizeUpdate d i offset blocks w]))
      (applyUpdates d ((us ++ [sizeUpdate d i offset blocks w]).take k)) := by
  by_cases hk : us.length < k
  · rw [take_of_length_le (by simpa using hk)]
    exact hafter.intact_self (.inr rfl)
  rw [take_append_of_le_length (not_lt.mp hk)]
  have hharmless {u : Update} (hu : u ∈ us.take k) : Harmless d (inodeOf d i).directBlocks u :=
    hwrote.state.harmless u (mem_of_mem_take hu)
  have hplaced : ∀ u ∈ us.take k, u.Placed := fun u hu =>
    hwrote.state.placed (h.separated.owner hi) u (mem_of_mem_take hu)
  have hsame (j : Nat) (hj : InUse d j) : SameInode d (applyUpdates d (us.take k)) j :=
    .of_eq (inodeOf_applyUpdates hplaced hj.1 fun _ _ _ _ _ hmem => (hharmless hmem).elim)
  refine h.intact (.inl rfl) (fun j hj => ?_) hsame (fun j hj => ?_) fun b hb hused => ?_
  · obtain ⟨hinUse, hblock⟩ := h.reachable hj
    obtain ⟨hge, -, hmark⟩ := h.separated.place hinUse hblock
    refine entries_congr ((hsame j hinUse).blocks 0) fun _ =>
      applyUpdates_of_data hplaced hge fun m b hm heq => ?_
    -- the file is not a directory, so the block is not one of its own
    rcases hharmless hm with ⟨-, l, hown⟩ | ⟨-, -, hunused⟩
    · obtain ⟨_, _, htree⟩ := h.tree
      obtain ⟨rfl, -⟩ := h.separated.inj hinUse hi (heq.trans hown.symm) hblock
      exact (htree.dir ((htree.reachable hj).2.2.mp rfl)).mode hmode
    · exact hunused (heq ▸ hmark)
  · exact inUse_applyUpdates hplaced (fun _ hmem => (hharmless hmem).elim) hj
  · exact used_applyUpdates hplaced (fun _ hb' => hharmless hb' b hb hused) hused

end

end

theorem intact_format (d : Disk) (hd : isFormatted (d superblockBlock) = false) (k : Nat) :
    isFormatted (applyWrites d (formatWrites.take k) superblockBlock) = false ∨
      Intact (formatted d) (formatted d) (applyWrites d (formatWrites.take k)) := by
  by_cases hk : formatWrites.length ≤ k
  · rw [take_of_length_le hk]
    exact .inr ((consistent_formatted d).intact_self (.inl rfl))
  · -- the superblock is written last
    left
    rw [← hd]
    have hk : k < 10 := not_le.mp hk
    interval_cases k <;> rfl

/-- **Power failure.** While the disk is formatted it does not count as formatted before
the end. From a consistent disk, a proper request leaves an intact disk at every point
exactly if the power does not fail between the entry and the mark of a new node, and on
an intact disk nothing is handed out that an entry uses. -/
theorem crash_intact_iff (d : Disk) : (isFormatted (d superblockBlock) = false → ∀ k,
      isFormatted (applyWrites d (formatWrites.take k) superblockBlock) = false ∨
        Intact (formatted d) (formatted d) (applyWrites d (formatWrites.take k))) ∧
    (∀ r replies log, Consistent (totalBlocks + 1) d → Proper d r → NamesInUse d r →
      serve (journal d) r.junk [] r.command r.fetched = some (replies, log) →
      ∀ k ≤ log.length, Intact d (applyWrites d log) (applyWrites d (log.take k)) ↔ Untorn d r k) ∧
    ∀ before after, Intact before after d → ∀ dir e, Reachable d dir ftDir → e ∈ entries d dir →
      (∀ inode bitmap, allocInode (d inodeBitmapBlock) numInodes = some (inode, bitmap) →
        e.inode ≠ inode) ∧
      ∀ block bitmap, allocBlock (d blockBitmapBlock) totalBlocks = some (block, bitmap) →
        ∀ k, blockOf d e.inode k ≠ block := by
  refine ⟨intact_format d, fun r replies log h hp hn hserve k hk => ?_,
    fun before after h dir e hdir he => h.allocated hdir he⟩
  have hafter : Consistent (totalBlocks + 1) (applyWrites d log) := by
    refine @Consistent.step _ _ _ _ h hp hn (.inl rfl) replies ?_
    rw [serveOn, serve_disk, hserve]
    rfl
  have hready := h.ready hp hn
  cases served_of_serve hready hserve with
  | quiet _ hop =>
    rw [take_nil]
    refine iff_of_true (h.intact_self (.inl rfl)) ?_
    rcases hop with hop | hop | hop <;> simp only [Untorn, hop]
  | ignored hop =>
    rw [take_nil]
    refine iff_of_true (h.intact_self (.inl rfl)) ?_
    simp only [Untorn, hop]
  | mkdir hop hmade =>
    simp only [Untorn, hop]
    exact h.intact_made_iff dirKind_fits hmade hafter hk
  | create hop hmade =>
    simp only [Untorn, hop]
    exact h.intact_made_iff (fileKind_fits _) hmade hafter hk
  | unlink hop hunlinked =>
    refine iff_of_true (h.intact_unlinked hunlinked hafter le_rfl hp hop) ?_
    simp only [Untorn, hop]
  | write hop hfetched hdata hwrote =>
    refine iff_of_true ?_ ?_
    · rw [applyWrites_writesOf] at hafter
      rw [take_writesOf, applyWrites_writesOf, applyWrites_writesOf]
      exact h.intact_wrote (hn hop) (hp.write hop _ _ hfetched hdata) hwrote hafter
    · simp only [Untorn, hop]

theorem crash_intact_append :
    ∃ replies log, serve (journal (formatted fun _ => zeroBlock)) appendRequest.junk []
        appendRequest.command appendRequest.fetched = some (replies, log) ∧
      ∀ k ≤ log.length, Intact (formatted fun _ => zeroBlock)
        (applyWrites (formatted fun _ => zeroBlock) log)
        (applyWrites (formatted fun _ => zeroBlock) (log.take k)) := by
  refine exists_pair_of_isSome (by decide +kernel) fun replies log hserve k hk => ?_
  have hcareful := careful_append
  refine ((crash_intact_iff _).2.1 appendRequest replies log ?_ hcareful.proper hcareful.names
    hserve k hk).mpr trivial
  exact (consistent_formatted _).mono (Nat.le_succ _)

/-- CREATE of `a` on a fresh disk, with a power failure after the second write: the new
entry names an inode that is not marked. -/
theorem torn_create_not_intact :
    ∃ (r : Request) (replies : List ReplyRequest) (log : List (Nat × ByteBlock)),
      r.command.op = .create ∧ r.path = [97] ∧
      serve (journal (formatted fun _ => zeroBlock)) r.junk [] r.command r.fetched =
        some (replies, log) ∧ 2 ≤ log.length ∧
      ¬ Intact (formatted fun _ => zeroBlock) (applyWrites (formatted fun _ => zeroBlock) log)
        (applyWrites (formatted fun _ => zeroBlock) (log.take 2)) := by
  let r : Request := ⟨zeroBlock, ⟨1, .create, 0⟩, some (0, [97]), by rintro _ _ ⟨⟩; decide⟩
  have hdangling : (serve (journal (formatted fun _ => zeroBlock)) r.junk [] r.command
      r.fetched).map (fun out => decide (2 ≤ out.2.length ∧
        ∃ e ∈ entries (applyWrites (formatted fun _ => zeroBlock) (out.2.take 2)) rootInode,
          ¬ InUse (applyWrites (formatted fun _ => zeroBlock) (out.2.take 2)) e.inode)) =
      some true := by
    decide +kernel
  obtain ⟨⟨replies, log⟩, hserve, hentry⟩ := Option.map_eq_some_iff.mp hdangling
  obtain ⟨hlength, e, he, hfree⟩ := of_decide_eq_true hentry
  exact ⟨r, replies, log, rfl, rfl, hserve, hlength,
    fun hintact => hfree (hintact rootInode e .root he).1⟩

end AgenticOS.BlkDriver
