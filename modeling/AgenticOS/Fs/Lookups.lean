import AgenticOS.Fs.Integrity

/-!
# LOOKUP after CREATE and UNLINK

A new entry is found under its path, and a removed one is not, as long as no
directory has two entries of one name. The driver does not look for the name before
it adds an entry, stores the length of a name in one byte, and takes any inode for
a directory when it adds.
-/

namespace AgenticOS.BlkDriver

open Foundation Ext2 Driver List Option

/-! ## Replies -/

def lookupReplies (d : Disk) (id : UInt64) (bytes : List UInt8) : List ReplyRequest :=
  (serveLookup disk d id (some (0, bytes))).1

def foundReply (id : UInt64) (inode : Nat) (fileType : UInt8) (size : Nat) : ReplyRequest :=
  .ofBytes id (leBytes 4 inode ++ [fileType, 0, 0, 0] ++ leBytes 4 size ++ [0, 0, 0, 0])

theorem lookupReplies_of_some {d : Disk} {bytes : List UInt8} {i : Nat} {t : UInt8}
    (h : lookup d (pathOf bytes) = some (i, t)) (id : UInt64) :
    lookupReplies d id bytes = [foundReply id i t (inodeOf d i).size] := by
  unfold lookupReplies serveLookup
  dsimp only
  rw [driverResolvePath_disk, h]
  rfl

theorem lookupReplies_of_none {d : Disk} {bytes : List UInt8} (h : lookup d (pathOf bytes) = none)
    (id : UInt64) : lookupReplies d id bytes = [.empty id] := by
  unfold lookupReplies serveLookup
  dsimp only
  rw [driverResolvePath_disk, h]

/-! ## Walks on two disks -/

/-- A walk can be taken on another disk, if what is found on the way is found there. -/
theorem walk_transfer {a b : Disk} {R : Nat → UInt8 → Prop}
    (h : ∀ i, R i ftDir → ∀ name e, (entries a i).find? (fun e => e.name = name) = some e →
      (entries b i).find? (fun e => e.name = name) = some e ∧ R e.inode e.fileType)
    {path : List (List UInt8)} {cur next : Nat × UInt8} (hcur : R cur.1 cur.2)
    (hw : walk a path cur = some next) : walk b path cur = some next := by
  induction path generalizing cur with
  | nil => exact hw
  | cons segment rest ih =>
    rw [walk] at hw ⊢
    split_ifs at hw ⊢ with hdir
    rw [not_not.mp hdir] at hcur
    obtain ⟨_, hfind, hrest⟩ := bind_eq_some_iff.mp hw
    obtain ⟨e, he, rfl⟩ := map_eq_some_iff.mp hfind
    obtain ⟨hfound, hR⟩ := h _ hcur segment e he
    rw [hfound]
    exact ih hR hrest

theorem find?_insert {pre new post : List DirEntry} {name : List UInt8}
    (h : ∀ e ∈ new, e.name ≠ name) :
    (pre ++ new ++ post).find? (fun e => e.name = name) =
      (pre ++ post).find? (fun e => e.name = name) := by
  have hnone : new.find? (fun e => e.name = name) = none :=
    List.find?_eq_none.mpr fun e he => by simpa using h e he
  rw [List.find?_append, List.find?_append, hnone, or_none, ← List.find?_append]

def NamesDistinct (d : Disk) : Prop :=
  ∀ i, Reachable d i ftDir → ((entries d i).map DirEntry.name).Nodup

/-- The name of a new entry fits and is new in its directory, and what is removed is
an entry of a directory. -/
structure Tidy (d : Disk) (r : Request) : Prop where
  node : r.command.op = .mkdir ∨ r.command.op = .create → r.leaf ≠ [] →
    ∀ i t, lookup d r.parentPath = some (i, t) →
      t = ftDir ∧ r.leaf.length < 256 ∧ ∀ e ∈ entries d i, e.name ≠ r.leaf
  unlink : r.command.op = .unlink → r.leaf ≠ [] → ∀ i t, lookup d r.parentPath = some (i, t) →
    t = ftDir ∧ r.leaf ≠ dot ∧ r.leaf ≠ dotDot

def ChangesNames (r : Request) : Prop :=
  r.command.op = .mkdir ∨ r.command.op = .create ∨ r.command.op = .unlink ∨ r.command.op = .lookup

def Request.fileType (r : Request) : UInt8 := if r.command.op = .mkdir then ftDir else ftReg

/-- What LOOKUP finds after a request, by what the request replied. -/
structure Agrees (d : Disk) (r : Request) (replies : List ReplyRequest) (d' : Disk) : Prop where
  made : r.command.op = .mkdir ∨ r.command.op = .create → ∀ i : UInt32,
    replies = [.ofBytes r.command.requestId (leBytes 4 i.toNat)] →
      (∀ offset bytes, r.fetched = some (offset, bytes) → ∀ id, ∃ size,
        lookupReplies d' id bytes = [foundReply id i.toNat r.fileType size]) ∧
      ∀ path j t, lookup d path = some (j, t) → lookup d' path = some (j, t)
  removed : r.command.op = .unlink → replies = [.ofBytes r.command.requestId [1]] →
    ∀ offset bytes, r.fetched = some (offset, bytes) → ∀ id,
      lookupReplies d' id bytes = [.empty id]
  failed : replies = [.empty r.command.requestId] ∨
      r.command.op = .unlink ∧ replies = [.ofBytes r.command.requestId [0]] →
    ∀ id bytes, lookupReplies d' id bytes = lookupReplies d id bytes

section

variable {d d' : Disk} {limit : Nat}

theorem lookupReplies_congr (hentries : ∀ i, Reachable d i ftDir → entries d' i = entries d i)
    (hsize : ∀ i t, Reachable d i t → (inodeOf d' i).size = (inodeOf d i).size) (id : UInt64)
    (bytes : List UInt8) : lookupReplies d' id bytes = lookupReplies d id bytes := by
  have hlookup : lookup d' (pathOf bytes) = lookup d (pathOf bytes) := by
    ext next
    constructor
    · refine walk_transfer (R := Reachable d) (fun i hi name e he => ?_) .root
      rw [hentries i hi] at he
      exact ⟨he, .entry hi (List.mem_of_find?_eq_some he)⟩
    · refine walk_transfer (R := Reachable d) (fun i hi name e he => ?_) .root
      rw [hentries i hi]
      exact ⟨he, .entry hi (List.mem_of_find?_eq_some he)⟩
  rcases hfound : lookup d (pathOf bytes) with _ | ⟨i, t⟩
  · rw [lookupReplies_of_none hfound, lookupReplies_of_none (hlookup.trans hfound)]
  · rw [lookupReplies_of_some hfound, lookupReplies_of_some (hlookup.trans hfound),
      hsize i t (reachable_of_lookup hfound)]

/-! ## A new entry -/

variable {kind : NodeKind} {path leaf : List UInt8} {inode block parent : Nat}
  {dirBlock : ByteBlock}

theorem newEntry_eq {fileType : UInt8} {leaf : List UInt8} (hne : leaf ≠ [])
    (hlt : leaf.length < 256) : newEntry inode fileType leaf = [⟨inode, fileType, leaf⟩] := by
  have hstored : storedName leaf = leaf := by
    rw [storedName, Nat.mod_eq_of_lt hlt, take_length]
  rw [newEntry, hstored, if_neg hne]

/-- The directories after a node has been made. -/
structure Entered (kind : NodeKind) (d : Disk) (parent inode : Nat) (leaf : List UInt8)
    (d' : Disk) : Prop where
  inParent : ∃ pre post, entries d parent = pre ++ post ∧
    entries d' parent = pre ++ [⟨inode, kind.fileType, leaf⟩] ++ post
  others : ∀ i, Reachable d i ftDir → i ≠ parent → entries d' i = entries d i
  new : kind.fileType = ftDir → (∀ e ∈ entries d' inode, e.inode = inode ∨ e.inode = parent) ∧
    ((entries d' inode).map DirEntry.name).Nodup

variable {i : Nat}

section

variable (h : Entered kind d parent inode leaf d')

include h

theorem Entered.find (hnew : ∀ e ∈ entries d parent, e.name ≠ leaf) (hi : Reachable d i ftDir)
    {name : List UInt8} {e : DirEntry}
    (he : (entries d i).find? (fun e => e.name = name) = some e) :
    (entries d' i).find? (fun e => e.name = name) = some e ∧ Reachable d e.inode e.fileType := by
  have hmem := List.mem_of_find?_eq_some he
  refine ⟨?_, .entry hi hmem⟩
  by_cases hip : i = parent
  · subst hip
    have hname : e.name = name := by simpa using List.find?_some he
    obtain ⟨_, _, hentries, hentries'⟩ := h.inParent
    rw [hentries', find?_insert, ← hentries, he]
    intro _ he'
    rw [mem_singleton.mp he', ← hname]
    exact (hnew e hmem).symm
  · rw [h.others i hi hip, he]

theorem Entered.reachable (hparent : Reachable d parent ftDir) {t : UInt8} (hr : Reachable d' i t)
    (ht : t = ftDir) :
    Reachable d i ftDir ∨ i = inode ∧ kind.fileType = ftDir := by
  induction hr with
  | root => exact .inl .root
  | @entry dir e _ he ih =>
    rcases ih rfl with hdir | ⟨rfl, hkind⟩
    · have hold (hmem : e ∈ entries d dir) :
          Reachable d e.inode ftDir ∨ e.inode = inode ∧ kind.fileType = ftDir :=
        .inl (ht ▸ .entry hdir hmem)
      by_cases hip : dir = parent
      · subst hip
        obtain ⟨_, _, hentries, hentries'⟩ := h.inParent
        rw [hentries', append_assoc, mem_append, mem_append] at he
        rcases he with he | he | he
        · exact hold (hentries ▸ mem_append_left _ he)
        · rw [mem_singleton.mp he] at ht ⊢
          exact .inr ⟨rfl, ht⟩
        · exact hold (hentries ▸ mem_append_right _ he)
      · exact hold (h.others dir hdir hip ▸ he)
    · rcases (h.new hkind).1 e he with heq | heq
      · exact .inr ⟨heq, hkind⟩
      · rw [heq]
        exact .inl hparent

theorem Entered.namesDistinct (hnames : NamesDistinct d)
    (hparent : Reachable d parent ftDir) (hnew : ∀ e ∈ entries d parent, e.name ≠ leaf) :
    NamesDistinct d' := by
  intro i hi
  rcases h.reachable hparent hi rfl with hold | ⟨rfl, hkind⟩
  · by_cases hip : i = parent
    · subst hip
      obtain ⟨_, _, hentries, hentries'⟩ := h.inParent
      have hnodup := hnames i hold
      rw [hentries] at hnodup hnew
      rw [hentries', append_assoc, singleton_append, map_append, map_cons,
        nodup_middle, ← map_append]
      refine nodup_cons.mpr ⟨fun hmem => ?_, hnodup⟩
      obtain ⟨e, he, hname⟩ := List.mem_map.mp hmem
      exact hnew e he hname
    · rw [h.others i hold hip]
      exact hnames i hold
  · exact (h.new hkind).2

end

theorem Entered.lookup_new (h : Entered kind d (parentOf d path) inode
      (splitParentAndBasename path).2 d')
    (hleaf : (splitParentAndBasename path).2 ≠ [])
    (hlookup : lookup d (splitParentAndBasename path).1 = some (parentOf d path, ftDir))
    (hnew : ∀ e ∈ entries d (parentOf d path), e.name ≠ (splitParentAndBasename path).2) :
    lookup d' path = some (inode, kind.fileType) := by
  have hwalk : walk d' (components (splitParentAndBasename path).1) (rootInode, ftDir) =
      some (parentOf d path, ftDir) :=
    walk_transfer (R := Reachable d) (fun i hi name e he => h.find hnew hi he) .root hlookup
  obtain ⟨pre, _, hentries, hentries'⟩ := h.inParent
  have hpre : pre.find? (fun e => e.name = (splitParentAndBasename path).2) = none := by
    refine List.find?_eq_none.mpr fun e he => ?_
    simpa using hnew e (hentries ▸ mem_append_left _ he)
  rw [lookup, components_split hleaf, walk_append, hwalk, bind_some, walk,
    if_neg (not_not.mpr rfl), hentries', append_assoc, List.find?_append, hpre,
    none_or, singleton_append, List.find?_cons_of_pos (by simp)]
  rfl

/-! ## A removed entry -/

/-- The directories after an entry has been removed. -/
structure Dropped (d : Disk) (parent : Nat) (leaf : List UInt8) (d' : Disk) : Prop where
  inParent : ∃ pre e post, entries d parent = pre ++ [e] ++ post ∧
    entries d' parent = pre ++ post ∧ e.name = leaf
  others : ∀ i, Reachable d i ftDir → i ≠ parent → entries d' i = entries d i

section

variable (h : Dropped d parent leaf d')

include h

theorem Dropped.sublist (hi : Reachable d i ftDir) : (entries d' i).Sublist (entries d i) := by
  by_cases hip : i = parent
  · subst hip
    obtain ⟨_, e, _, hentries, hentries', -⟩ := h.inParent
    rw [hentries, hentries', append_assoc]
    exact Sublist.append_left (sublist_append_right _ _) _
  · rw [h.others i hi hip]

theorem Dropped.reachable {t : UInt8} (hr : Reachable d' i t) : Reachable d i t := by
  induction hr with
  | root => exact .root
  | entry _ he ih => exact .entry ih ((h.sublist ih).subset he)

theorem Dropped.namesDistinct (hnames : NamesDistinct d) : NamesDistinct d' := by
  intro i hi
  have hold := h.reachable hi
  exact (hnames i hold).sublist ((h.sublist hold).map _)

theorem Dropped.find (hnames : NamesDistinct d)
    (hi : Reachable d i ftDir) {name : List UInt8} {e : DirEntry}
    (he : (entries d' i).find? (fun e => e.name = name) = some e) :
    (entries d i).find? (fun e => e.name = name) = some e ∧ Reachable d e.inode e.fileType := by
  have hmem := List.mem_of_find?_eq_some he
  refine ⟨?_, .entry hi ((h.sublist hi).subset hmem)⟩
  by_cases hip : i = parent
  · subst hip
    have hname : e.name = name := by simpa using List.find?_some he
    obtain ⟨_, _, _, hentries, hentries', -⟩ := h.inParent
    have hnodup := hnames i hi
    rw [hentries, append_assoc, singleton_append, map_append, map_cons,
      nodup_middle, ← map_append] at hnodup
    rw [hentries, find?_insert, ← hentries', he]
    intro _ he' heq
    rw [mem_singleton.mp he', ← hname] at heq
    rw [hentries'] at hmem
    exact (nodup_cons.mp hnodup).1 (heq ▸ List.mem_map_of_mem hmem)
  · rw [← h.others i hi hip, he]

end

theorem Dropped.lookup_gone {path : List UInt8}
    (h : Dropped d (parentOf d path) (splitParentAndBasename path).2 d') (hnames : NamesDistinct d)
    (hleaf : (splitParentAndBasename path).2 ≠ [])
    (hlookup : lookup d (splitParentAndBasename path).1 = some (parentOf d path, ftDir)) :
    lookup d' path = none := by
  rw [lookup, components_split hleaf, walk_append]
  rcases hwalk : walk d' (components (splitParentAndBasename path).1) (rootInode, ftDir) with
    _ | cur
  · rfl
  · -- the walk to the parent ends where it ended before
    have hold : lookup d (splitParentAndBasename path).1 = some cur :=
      walk_transfer (R := Reachable d) (fun i hi name e he => h.find hnames hi he) .root hwalk
    rw [hlookup] at hold
    cases hold
    obtain ⟨_, _, _, hentries, hentries', hname⟩ := h.inParent
    have hnodup := hnames _ (reachable_of_lookup hlookup)
    rw [hentries, append_assoc, singleton_append, map_append, map_cons,
      nodup_middle, ← map_append, hname] at hnodup
    have hnone : (entries d' (parentOf d path)).find?
        (fun e => e.name = (splitParentAndBasename path).2) = none := by
      rw [hentries']
      refine List.find?_eq_none.mpr fun e he hfound => ?_
      have hfound' : e.name = (splitParentAndBasename path).2 := by simpa using hfound
      exact (nodup_cons.mp hnodup).1 (hfound' ▸ List.mem_map_of_mem he)
    rw [bind_some, walk, if_neg (not_not.mpr rfl), hnone]
    rfl

/-! ## One request -/

variable {r : Request}

theorem nodeReply_zero_ne (id : UInt64) (bytes : List UInt8) :
    nodeReply id 0 ≠ .ofBytes id bytes := nofun

variable {id : UInt64}

theorem inode_of_nodeReply {i : UInt32} (hne : inode ≠ 0)
    (hlt : inode < 2 ^ 32) (h : nodeReply id inode = .ofBytes id (leBytes 4 i.toNat)) :
    inode = i.toNat := by
  rw [nodeReply, if_pos hne] at h
  have hbytes : leBytes 4 inode = leBytes 4 i.toNat :=
    Option.some.inj (congrArg ReplyRequest.data h)
  have hvalue := congrArg leValue hbytes
  rw [leValue_leBytes, leValue_leBytes] at hvalue
  have hi : i.toNat < 2 ^ 32 := i.toNat_lt
  omega

variable {log : List (Nat × ByteBlock)}

theorem Consistent.agrees_made (h : Consistent limit d) (hnames : NamesDistinct d)
    {kind : NodeKind} (htype : r.fileType = kind.fileType)
    (hop : r.command.op = .mkdir ∨ r.command.op = .create) (hr : Tidy d r) (hfits : kind.Fits)
    (hkind : ∀ inode parent, IsInode inode → IsInode parent → kind.fileType = ftDir →
      kind.MakesDir parent inode)
    (hmade : Made kind d r.path (inode, log)) :
    NamesDistinct (applyWrites d log) ∧
      Agrees d r [nodeReply r.command.requestId inode] (applyWrites d log) := by
  have hnot : r.command.op ≠ .unlink := by
    rcases hop with hop | hop <;> rw [hop] <;> exact nofun
  cases hmade with
  | refused =>
    refine ⟨hnames, ⟨fun _ i hreply => ?_, fun hop' => absurd hop' hnot, fun _ _ _ => rfl⟩⟩
    exact absurd (singleton_inj.mp hreply) (nodeReply_zero_ne _ _)
  | full block inode blockBitmap inodeBitmap _ _ hblock =>
    have hge : 11 ≤ block := hblock.first_le
    rw [applyWrites_writesOf]
    -- the block that was written belongs to nobody
    have hdata (n : Nat) (hn : n ≠ block) : applyUpdates d
        [.data block (kind.content inode (parentOf d r.path))] n = d n :=
      Function.update_of_ne hn _ _
    have hnode {i : Nat} {t : UInt8} (hi : Reachable d i t) : inodeOf (applyUpdates d
        [.data block (kind.content inode (parentOf d r.path))]) i = inodeOf d i :=
      inodeOf_update (.inr (show 8 < block by omega)) (h.reachable hi).1.1
    have hentries (i : Nat) (hi : Reachable d i ftDir) : entries (applyUpdates d
        [.data block (kind.content inode (parentOf d r.path))]) i = entries d i := by
      refine entries_congr (by rw [blockOf, hnode hi, blockOf]) fun hne => hdata _ fun heq => ?_
      have hmark := (h.separated.place (h.reachable hi).1 hne).2.2
      exact unused_of_alloc hblock (heq ▸ hmark)
    refine ⟨fun i hi => ?_, ⟨fun _ i hreply => ?_, fun hop' => absurd hop' hnot, fun _ => ?_⟩⟩
    · rw [reachable_congr hentries] at hi
      rw [hentries i hi]
      exact hnames i hi
    · exact absurd (singleton_inj.mp hreply) (nodeReply_zero_ne _ _)
    · exact lookupReplies_congr hentries fun i t hi => by rw [hnode hi]
  | made block inode blockBitmap inodeBitmap dirBlock gd sb hblock hinode hparent hleaf hadd =>
    obtain ⟨t, hlookup⟩ := lookup_parentOf hparent
    obtain ⟨rfl, hshort, hnew⟩ := hr.node hop hleaf _ t hlookup
    have hreach := reachable_of_lookup hlookup
    obtain ⟨hinUse, hge, hmark⟩ := h.parent hparent
    have hpblock := (h.reachable hreach).2
    obtain ⟨hisInode, hlt⟩ := isInode_of_alloc hinode
    have hne {i : Nat} (hi : InUse d i) : i ≠ inode := by
      rintro rfl
      exact fresh_of_alloc hinode hi
    have hnode := @nodeMade_applyUpdates _ _ _ _ _ dirBlock _ _ gd sb hfits hinUse
      hge hmark hblock hinode
    have hadded := added_of_addDirEntry hisInode.1 hlt hadd
    rw [applyWrites_writesOf]
    have hentered : Entered kind d (parentOf d r.path) inode (splitParentAndBasename r.path).2
        (applyUpdates d (.data block (kind.content inode (parentOf d r.path)) ::
          commitUpdates kind d (parentOf d r.path) inode block dirBlock blockBitmap inodeBitmap
            gd sb)) := by
      refine ⟨?_, fun i hi hip => ?_, fun hdir => ?_⟩
      · obtain ⟨pre, post, hbefore, hafter⟩ :=
          hnode.entries_parent hinUse (hne hinUse) hpblock hadded
        rw [newEntry_eq hleaf hshort] at hafter
        exact ⟨pre, post, hbefore, hafter⟩
      · obtain ⟨hiUse, hiblock⟩ := h.reachable hi
        exact entries_congr ((hnode.inodes i hiUse.1 (hne hiUse)).blocks 0) fun _ =>
          h.separated.data_made hnode (unused_of_alloc hblock) hinUse hiUse hiblock hip
      · have hmakes := hkind inode _ hisInode hinUse.1 hdir
        rw [hnode.entries_new (isData_of_alloc hblock)]
        exact ⟨fun e he => (hmakes.entries e he).2.imp And.left And.left, hmakes.names⟩
    refine ⟨hentered.namesDistinct hnames hreach hnew, ⟨fun _ i hreply => ?_,
      fun hop' => absurd hop' hnot, fun hfailed => ?_⟩⟩
    · have hi := inode_of_nodeReply (by have := hisInode.1; omega) hlt (singleton_inj.mp hreply)
      refine ⟨fun _ bytes hfetched id => ?_, fun path j t hpath => ?_⟩
      · have hpath : pathOf bytes = r.path := by rw [Request.path, hfetched]; rfl
        have hfound := hentered.lookup_new hleaf hlookup hnew
        rw [← hpath] at hfound
        rw [← hi, htype]
        exact ⟨_, lookupReplies_of_some (hpath ▸ hfound) id⟩
      · exact walk_transfer (R := Reachable d) (fun i hi _ e he => hentered.find hnew hi he)
          .root hpath
    · rcases hfailed with hreply | ⟨hop', -⟩
      · refine absurd (singleton_inj.mp hreply) (nodeReply_ne_empty ?_)
        have := hisInode.1
        omega
      · exact absurd hop' hnot

theorem Consistent.agrees_unlinked (h : Consistent (totalBlocks + 1) d) (hnames : NamesDistinct d)
    (hop : r.command.op = .unlink) (hr : Tidy d r) {done : Bool}
    (hunlinked : Unlinked d r.path (done, log)) :
    NamesDistinct (applyWrites d log) ∧
      Agrees d r [.ofBytes r.command.requestId [if done then 1 else 0]] (applyWrites d log) := by
  have hnot : ¬ (r.command.op = .mkdir ∨ r.command.op = .create) := by
    rw [hop]
    exact nofun
  cases hunlinked with
  | refused => exact ⟨hnames, ⟨fun hop' => absurd hop' hnot, nofun, fun _ _ _ => rfl⟩⟩
  | unlinked inode dirBlock gd sb hparent hleaf hremove =>
    obtain ⟨_, _, htree⟩ := h.tree
    obtain ⟨t, hlookup⟩ := lookup_parentOf hparent
    obtain ⟨rfl, -, -⟩ := hr.unlink hop hleaf _ t hlookup
    have hreach := reachable_of_lookup hlookup
    have hlive := (htree.reachable hreach).2.2.mp rfl
    obtain ⟨hinUse, hge, -⟩ := h.parent hparent
    have hpblock := (h.reachable hreach).2
    obtain ⟨hgone, hremoved⟩ := Directory.removed htree hlive hremove
    have hnode := @nodeUnlinked_applyUpdates _ _ _ dirBlock gd sb hge hgone.1 fun b hb => by
        obtain ⟨hne, k, -, rfl⟩ := mem_blocksOf.mp hb
        exact Nat.le_of_lt_succ (h.separated.place hgone hne).2.1
    rw [applyWrites_writesOf]
    have hdropped : Dropped d (parentOf d r.path) (splitParentAndBasename r.path).2
        (applyUpdates d (unlinkUpdates d (parentOf d r.path) inode dirBlock gd sb)) := by
      refine ⟨?_, fun i hi hip => ?_⟩
      · obtain ⟨pre, e, post, hbefore, hafter, -, hname⟩ :=
          hnode.entries_parent hinUse hpblock hremoved
        exact ⟨pre, e, post, by rw [hbefore, append_assoc, singleton_append], hafter, hname⟩
      · obtain ⟨hiUse, hiblock⟩ := h.reachable hi
        exact entries_congr (hnode.blocks hiUse.1 0) fun _ =>
          h.separated.data_unlinked hnode hinUse hiUse hiblock hip
    refine ⟨hdropped.namesDistinct hnames, ⟨fun hop' => absurd hop' hnot,
      fun _ _ _ bytes hfetched id => ?_, ?_⟩⟩
    · have hpath : pathOf bytes = r.path := by rw [Request.path, hfetched]; rfl
      refine lookupReplies_of_none ?_ id
      rw [hpath]
      exact hdropped.lookup_gone hnames hleaf hlookup
    · rintro (hreply | ⟨-, hreply⟩)
      · exact absurd (singleton_inj.mp hreply) nofun
      · exact absurd (singleton_inj.mp hreply) (by simp [ReplyRequest.ofBytes])

theorem Consistent.agrees (h : Consistent (totalBlocks + 1) d) (hnames : NamesDistinct d)
    (hop : ChangesNames r) (hr : Tidy d r) {replies : List ReplyRequest}
    (hs : serveOn d r = some (replies, d')) :
    Consistent (totalBlocks + 1) d' ∧ NamesDistinct d' ∧ Agrees d r replies d' := by
  have hnot : r.command.op ≠ .write := by
    rcases hop with hop | hop | hop | hop <;> rw [hop] <;> exact nofun
  have hproper : Proper d r := ⟨hr.unlink, fun hw => absurd hw hnot⟩
  have hnamed : NamesInUse d r := fun hw => absurd hw hnot
  refine ⟨h.step hproper hnamed (.inl rfl) hs, ?_⟩
  obtain ⟨_, hserved, rfl⟩ := served_of_serveOn (h.ready hproper hnamed) hs
  cases hserved with
  | quiet replies hquiet =>
    refine ⟨hnames, ⟨fun hop' => ?_, fun hop' => ?_, fun _ _ _ => rfl⟩⟩
    · rcases hop' with hop' | hop' <;> rw [hop'] at hquiet <;> simp at hquiet
    · rw [hop'] at hquiet
      simp at hquiet
  | ignored hw | write hw => exact absurd hw hnot
  | mkdir hmk hmade =>
    refine h.agrees_made hnames ?_ (.inl hmk) hr dirKind_fits
      (fun _ _ hinode hparent _ => dirKind_makesDir hinode hparent) hmade
    rw [Request.fileType, if_pos hmk]
    rfl
  | create hcr hmade =>
    refine h.agrees_made hnames ?_ (.inr hcr) hr (fileKind_fits _)
      (fun _ _ _ _ htype => absurd htype (show ftReg ≠ ftDir by decide)) hmade
    rw [Request.fileType, hcr]
    rfl
  | unlink hun hunlinked => exact h.agrees_unlinked hnames hun hr hunlinked

end

/-! ## Runs -/

theorem namesDistinct_formatted (d : Disk) : NamesDistinct (formatted d) := by
  have hroot : entries (formatted d) rootInode = entries freshDisk rootInode := by
    have hinode : inodeOf (formatted d) rootInode = inodeOf freshDisk rootInode := by
      rw [inodeOf, formatted_apply d (by decide) (by decide), inodeOf]
    have hblock : blockOf freshDisk rootInode 0 = rootDataBlock :=
      blockOf_freshDisk rootInode (by decide) 0 (by decide)
    refine entries_congr (by rw [blockOf, hinode, blockOf]) fun _ => ?_
    rw [hblock, formatted_apply d (by decide) (by decide)]
  -- the root is the only directory
  have honly {i : Nat} {t : UInt8} (hr : Reachable (formatted d) i t) (ht : t = ftDir) :
      i = rootInode := by
    induction hr with
    | root => rfl
    | @entry dir e _ he ih =>
      rw [ih rfl, hroot, entries_freshDisk] at he
      simp only [mem_cons, not_mem_nil, or_false] at he
      obtain rfl | rfl | rfl := he
      · rfl
      · rfl
      · exact absurd ht (show ftReg ≠ ftDir by decide)
  intro i hi
  rw [honly hi rfl, hroot, entries_freshDisk]
  decide

def NameCareful (d : Disk) (r : Request) : Prop := ChangesNames r ∧ Tidy d r

/-- **LOOKUP agrees with CREATE, MKDIR and UNLINK**, at every point of a run from a
formatted disk. -/
theorem lookups_agree (d₀ : Disk) (requests : List Request) {d : Disk}
    (hmeets : Meets serveStep NameCareful (formatted d₀) requests)
    (hrun : attempt serveStep (formatted d₀) requests = some d) (r : Request)
    (hr : NameCareful d r) (replies : List ReplyRequest) (d' : Disk)
    (hs : serveOn d r = some (replies, d')) : Agrees d r replies d' := by
  have hstep (d : Disk) (r : Request) (d' : Disk)
      (h : Consistent (totalBlocks + 1) d ∧ NamesDistinct d) (hr : NameCareful d r)
      (hs : serveStep d r = some d') : Consistent (totalBlocks + 1) d' ∧ NamesDistinct d' := by
    obtain ⟨replies, hserve⟩ := exists_of_serveStep hs
    obtain ⟨hcons, hnames, -⟩ := h.1.agrees h.2 hr.1 hr.2 hserve
    exact ⟨hcons, hnames⟩
  have hstart : Consistent (totalBlocks + 1) (formatted d₀) :=
    (consistent_formatted d₀).mono (Nat.le_succ _)
  obtain ⟨hcons, hnames⟩ :=
    attempt_invariant hstep ⟨hstart, namesDistinct_formatted d₀⟩ hmeets hrun
  exact (hcons.agrees hnames hr.1 hr.2 hs).2.2

def createRequest : Request :=
  ⟨zeroBlock, ⟨1, .create, 0⟩, some (0, bytesOf "a"), by rintro _ _ ⟨⟩; decide⟩

theorem lookups_agree_create :
    ∃ d', serveOn (formatted fun _ => zeroBlock) createRequest =
        some ([.ofBytes 1 (leBytes 4 12)], d') ∧
      ∀ id, ∃ size, lookupReplies d' id (bytesOf "a") = [foundReply id 12 ftReg size] := by
  have hreply : (serveOn (formatted fun _ => zeroBlock) createRequest).map Prod.fst =
      some [.ofBytes 1 (leBytes 4 12)] := by
    decide +kernel
  have hparent : lookup (formatted fun _ => zeroBlock) createRequest.parentPath =
      some (rootInode, ftDir) := by
    decide +kernel
  have hnew : ∀ e ∈ entries (formatted fun _ => zeroBlock) rootInode,
      e.name ≠ createRequest.leaf := by
    decide +kernel
  have hcareful : NameCareful (formatted fun _ => zeroBlock) createRequest := by
    refine ⟨.inr (.inl rfl), ⟨fun _ _ i t hlookup => ?_, nofun⟩⟩
    rw [hparent] at hlookup
    cases hlookup
    exact ⟨rfl, by decide, hnew⟩
  obtain ⟨⟨_, d'⟩, hserve, rfl⟩ := map_eq_some_iff.mp hreply
  have hagrees :=
    lookups_agree (fun _ => zeroBlock) [] trivial rfl createRequest hcareful _ d' hserve
  exact ⟨d', hserve, ((hagrees.made (.inr rfl)) 12 rfl).1 0 _ rfl⟩

/-- CREATE of a name that is there makes a second entry, and LOOKUP finds the first. -/
theorem create_twice_not_found :
    ∃ (r : Request) (d' : Disk), r.command.op = .create ∧ r.path = fileName ∧
      serveOn (formatted fun _ => zeroBlock) r = some ([.ofBytes 1 (leBytes 4 12)], d') ∧
      lookup d' fileName = some (11, ftReg) ∧
      ¬ Agrees (formatted fun _ => zeroBlock) r [.ofBytes 1 (leBytes 4 12)] d' := by
  let r : Request := ⟨zeroBlock, ⟨1, .create, 0⟩, some (0, fileName), by rintro _ _ ⟨⟩; decide⟩
  have hrun : (serveOn (formatted fun _ => zeroBlock) r).map
      (fun result => (result.1, lookup result.2 fileName)) =
        some ([.ofBytes 1 (leBytes 4 12)], some (11, ftReg)) := by
    decide +kernel
  obtain ⟨⟨_, d'⟩, hserve, heq⟩ := map_eq_some_iff.mp hrun
  obtain ⟨rfl, hlookup⟩ := Prod.mk.inj heq
  refine ⟨r, d', rfl, by decide +kernel, hserve, hlookup, fun hagrees => ?_⟩
  obtain ⟨_, hfound⟩ := (hagrees.made (.inr rfl) 12 rfl).1 0 _ rfl 1
  have hpath : pathOf fileName = fileName := by decide +kernel
  rw [lookupReplies_of_some (hpath.symm ▸ hlookup)] at hfound
  have hdata := congrArg ReplyRequest.data (singleton_inj.mp hfound)
  have hbytes := Option.some.inj hdata
  have hfirst := congrArg (fun bytes : List UInt8 => bytes.head?) hbytes
  exact absurd (show some (11 : UInt8) = some 12 from hfirst) (by decide)

end AgenticOS.BlkDriver
