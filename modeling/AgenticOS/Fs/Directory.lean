import AgenticOS.Fs.Ext2

/-!
# Directory blocks

What adding and removing an entry does to the entries that are read back. A
directory block is a chain of records that follow each other without gaps. Adding
an entry replaces one record by one or two that cover the same bytes; removing one
takes its record over into the record before it.

A record may be longer than its name needs, so what the last record before a
removed one gets is not looked at. It must not be shorter: a name that does not fit
its record is skipped, and could become visible when the record grows.
-/

namespace AgenticOS.Ext2

open Foundation List ByteBlock

variable {b b' : ByteBlock} {off off' : Nat} {rs : List DirRecord}

/-! ## Chains of records -/

def Continues (b : ByteBlock) (off : Nat) : Prop :=
  off + 8 ≤ blockSize ∧ 8 ≤ (recordAt b off).recLen ∧ off + (recordAt b off).recLen ≤ blockSize

inductive Chain (b : ByteBlock) : Nat → List DirRecord → Nat → Prop
  | nil (off : Nat) : Chain b off [] off
  | cons {off off' : Nat} {rs : List DirRecord} (hgo : Continues b off)
      (hrest : Chain b (off + (recordAt b off).recLen) rs off') :
      Chain b off (recordAt b off :: rs) off'

theorem Chain.le (h : Chain b off rs off') : off ≤ off' := by
  induction h with
  | nil => exact le_rfl
  | cons _ _ ih => exact (Nat.le_add_right _ _).trans ih

theorem Chain.eq_of_nil (h : Chain b off [] off') : off' = off := by
  cases h
  rfl

theorem Chain.append {off1 off2 off3 : Nat} {rs1 rs2 : List DirRecord} (h1 : Chain b off1 rs1 off2)
    (h2 : Chain b off2 rs2 off3) : Chain b off1 (rs1 ++ rs2) off3 := by
  induction h1 with
  | nil => exact h2
  | cons hgo _ ih => exact .cons hgo (ih h2)

variable {post pre : List DirRecord} {r : DirRecord}

/-- A chain can be cut at each of its records. -/
theorem Chain.split (h : Chain b off (pre ++ r :: post) off') :
    Chain b off pre r.off ∧ r = recordAt b r.off ∧ Continues b r.off ∧
      Chain b (r.off + r.recLen) post off' := by
  induction pre generalizing off with
  | nil =>
    cases h with
    | cons hgo hrest => exact ⟨.nil _, rfl, hgo, hrest⟩
  | cons p pre ih =>
    cases h with
    | cons hgo hrest =>
      obtain ⟨hpre, hr, hgo', hpost⟩ := ih hrest
      exact ⟨.cons hgo hpre, hr, hgo', hpost⟩

theorem recordAt_congr (h : ∀ i, off ≤ i → i < off + 8 → b i = b' i) :
    recordAt b off = recordAt b' off := by
  have hinode : b.field off 4 = b'.field off 4 :=
    field_congr fun i hle hlt => h i hle (by omega)
  have hlen : b.field (off + 4) 2 = b'.field (off + 4) 2 :=
    field_congr fun i hle hlt => h i (by omega) (by omega)
  rw [recordAt, recordAt, hinode, hlen, h (off + 6) (by omega) (by omega),
    h (off + 7) (by omega) (by omega)]

theorem Chain.congr (h : Chain b off rs off') (heq : ∀ i, off ≤ i → i < off' → b i = b' i) :
    Chain b' off rs off' := by
  induction h with
  | nil => exact .nil _
  | @cons off off' rs hgo hrest ih =>
    have hle := hrest.le
    have hrec : recordAt b off = recordAt b' off :=
      recordAt_congr fun i hi hi' => heq i hi (by have := hgo.2.1; omega)
    have hgo' : Continues b' off := by
      unfold Continues at hgo ⊢
      rwa [← hrec]
    have hrest' := ih fun i hi hi' => heq i (by omega) hi'
    rw [hrec] at hrest' ⊢
    exact .cons hgo' hrest'

theorem recordsFrom_of_chain {fuel : Nat} (h : Chain b off rs off') (hstop : ¬ Continues b off')
    (hfuel : blockSize < off + 8 * fuel + 8) : recordsFrom b fuel off = rs := by
  induction h generalizing fuel with
  | nil =>
    cases fuel with
    | zero => rfl
    | succ =>
      unfold Continues at hstop
      rw [recordsFrom]
      split_ifs with hend
      · rfl
      · rw [if_pos (by omega)]
  | @cons off off' rs hgo hrest ih =>
    obtain ⟨hend, _, _⟩ := hgo
    cases fuel with
    | zero => omega
    | succ =>
      rw [recordsFrom, if_neg (by omega)]
      rw [if_neg (by omega), ih hstop (by omega)]

theorem chain_recordsFrom (b : ByteBlock) (fuel off : Nat) :
    ∃ off', Chain b off (recordsFrom b fuel off) off' ∧
      (blockSize < off + 8 * fuel + 8 → ¬ Continues b off') := by
  induction fuel generalizing off with
  | zero => exact ⟨off, .nil _, fun h hgo => by have := hgo.1; omega⟩
  | succ fuel ih =>
    rw [recordsFrom]
    split_ifs with hend
    · exact ⟨off, .nil _, fun _ hgo => by have := hgo.1; omega⟩
    · dsimp only
      split_ifs with hbad
      · refine ⟨off, .nil _, fun _ hgo => ?_⟩
        obtain ⟨-, _, _⟩ := hgo
        omega
      · obtain ⟨off', hchain, hstop⟩ := ih (off + (recordAt b off).recLen)
        refine ⟨off', .cons ⟨by omega, by omega, by omega⟩ hchain, fun h => hstop (by omega)⟩

/-- The records of a block are the longest chain from its start. -/
theorem records_eq_iff : records b = rs ↔ ∃ off', Chain b 0 rs off' ∧ ¬ Continues b off' := by
  constructor
  · rintro rfl
    obtain ⟨off', hchain, hstop⟩ := chain_recordsFrom b (blockSize / 8) 0
    exact ⟨off', hchain, hstop (by decide)⟩
  · rintro ⟨off', hchain, hstop⟩
    exact recordsFrom_of_chain hchain hstop (by decide)

/-- The records of the block are `pre`, then `old` from `lo` to `hi`, then `post`. -/
structure Around (b : ByteBlock) (pre old post : List DirRecord) (lo hi : Nat) : Prop where
  before : Chain b 0 pre lo
  within : Chain b lo old hi
  after : ∃ off, Chain b hi post off ∧ ¬ Continues b off

variable {old : List DirRecord} {hi lo : Nat}

theorem Around.records_eq (h : Around b pre old post lo hi) : records b = pre ++ old ++ post := by
  obtain ⟨off, hpost, hstop⟩ := h.after
  exact records_eq_iff.mpr ⟨off, (h.before.append h.within).append hpost, hstop⟩

theorem around_of_records (h : records b = pre ++ r :: post) :
    r = recordAt b r.off ∧ Continues b r.off ∧ Around b pre [r] post r.off (r.off + r.recLen) := by
  obtain ⟨off', hchain, hstop⟩ := records_eq_iff.mp h
  obtain ⟨hpre, hr, hgo, hpost⟩ := hchain.split
  refine ⟨hr, hgo, hpre, ?_, off', hpost, hstop⟩
  have hone : Chain b r.off [recordAt b r.off] _ := .cons hgo (.nil _)
  rwa [← hr] at hone

variable {mid : List DirRecord}

/-- **Replacing records.** If `b'` has the records `mid` where `b` has `old`, and is the
same elsewhere, then the other records stay. -/
theorem Around.replace (h : Around b pre old post lo hi) (hmid : Chain b' lo mid hi)
    (heq : ∀ i, i < lo ∨ hi ≤ i → b i = b' i) : Around b' pre mid post lo hi := by
  obtain ⟨off, hpost, hstop⟩ := h.after
  refine ⟨h.before.congr fun i _ hlt => heq i (Or.inl hlt), hmid, off,
    hpost.congr fun i hle _ => heq i (Or.inr hle), fun hgo => hstop ?_⟩
  have hrec : recordAt b off = recordAt b' off :=
    recordAt_congr fun i hle _ => heq i (Or.inr (hpost.le.trans hle))
  unfold Continues at hgo ⊢
  rwa [hrec]

/-! ## Entries of records -/

theorem DirRecord.entry_congr
    (h : ∀ i, r.off ≤ i → i < r.off + r.recLen → b i = b' i) : r.entry b = r.entry b' := by
  unfold DirRecord.entry
  split_ifs with hvisible
  · have hname : b.window (r.off + 8) r.nameLen = b'.window (r.off + 8) r.nameLen :=
      window_congr fun i _ _ => h i (by omega) (by omega)
    rw [hname]
  · rfl

theorem Chain.bounds (h : Chain b off rs off') (hr : r ∈ rs) :
    off ≤ r.off ∧ r.off + r.recLen ≤ off' := by
  obtain ⟨_, _, rfl⟩ := append_of_mem hr
  obtain ⟨hpre, -, -, hpost⟩ := h.split
  exact ⟨hpre.le, hpost.le⟩

theorem Chain.filterMap_congr (h : Chain b off rs off')
    (heq : ∀ i, off ≤ i → i < off' → b i = b' i) :
    rs.filterMap (DirRecord.entry b) = rs.filterMap (DirRecord.entry b') := by
  refine List.filterMap_congr fun r hr => DirRecord.entry_congr fun i _ _ => ?_
  obtain ⟨_, _⟩ := h.bounds hr
  exact heq i (by omega) (by omega)

theorem Around.readDirEntries_replace (h : Around b pre old post lo hi) (hmid : Chain b' lo mid hi)
    (heq : ∀ i, i < lo ∨ hi ≤ i → b i = b' i) :
    readDirEntries b = pre.filterMap (DirRecord.entry b) ++ old.filterMap (DirRecord.entry b) ++
        post.filterMap (DirRecord.entry b) ∧
      readDirEntries b' = pre.filterMap (DirRecord.entry b) ++
        mid.filterMap (DirRecord.entry b') ++ post.filterMap (DirRecord.entry b) := by
  obtain ⟨_, hpost, -⟩ := h.after
  constructor
  · rw [readDirEntries, h.records_eq, filterMap_append, filterMap_append]
  · rw [readDirEntries, (h.replace hmid heq).records_eq, filterMap_append,
      filterMap_append, h.before.filterMap_congr fun i _ hlt => heq i (Or.inl hlt),
      hpost.filterMap_congr fun i hle _ => heq i (Or.inr hle)]

/-! ## Writing a record -/

variable {inode recLen : Nat} {fileType : UInt8} {name : List UInt8}

theorem writeDirEntry_apply_of_notMem {i : Nat} (h : i < off ∨ off + 8 + name.length ≤ i) :
    writeDirEntry b off inode recLen fileType name i = b i := by
  unfold writeDirEntry
  rw [patch_apply_of_notMem (by omega),
    patch_apply_of_notMem (by simp only [length_cons, length_nil]; omega),
    setField_apply_of_notMem (by omega), setField_apply_of_notMem (by omega)]

theorem recordAt_writeDirEntry (b : ByteBlock) (off inode recLen : Nat) (fileType : UInt8)
    (name : List UInt8) :
    recordAt (writeDirEntry b off inode recLen fileType name) off =
      ⟨off, inode % 2 ^ 32, recLen % 2 ^ 16, name.length % 256, fileType⟩ := by
  have hhead : recordAt (writeDirEntry b off inode recLen fileType name) off =
      recordAt (((b.setField off 4 inode).setField (off + 4) 2 recLen).patch (off + 6)
        [UInt8.ofNat name.length, fileType]) off :=
    recordAt_congr fun i _ hlt => patch_apply_of_notMem (by omega)
  have hfield {k n : Nat} (hk : k + n ≤ off + 6) :
      (((b.setField off 4 inode).setField (off + 4) 2 recLen).patch (off + 6)
        [UInt8.ofNat name.length, fileType]).field k n =
      ((b.setField off 4 inode).setField (off + 4) 2 recLen).field k n :=
    field_congr fun i _ hlt => patch_apply_of_notMem (by omega)
  rw [hhead, recordAt, hfield (by omega), hfield (by omega),
    field_setField_of_disjoint (by omega), field_setField,
    field_setField, patch_apply_of_mem (by omega) (by simp),
    patch_apply_of_mem (by omega) (by simp)]
  simp

/-- The name that a record of `name` is read back with: its length is one byte. -/
def storedName (name : List UInt8) : List UInt8 := name.take (name.length % 256)

theorem window_writeDirEntry (b : ByteBlock) (off inode recLen : Nat) (fileType : UInt8)
    (name : List UInt8) :
    (writeDirEntry b off inode recLen fileType name).window (off + 8) (name.length % 256) =
      storedName name := by
  refine ext_getElem ?_ fun k hk _ => ?_
  · rw [length_window, storedName, length_take]
    exact (Nat.min_eq_left (Nat.mod_le _ _)).symm
  · rw [length_window] at hk
    rw [getElem_window, writeDirEntry, patch_apply_of_mem (Nat.le_add_right _ _) (by omega)]
    simp [storedName]

def newEntry (inode : Nat) (fileType : UInt8) (name : List UInt8) : List DirEntry :=
  if storedName name = [] then [] else [⟨inode, fileType, storedName name⟩]

theorem storedName_eq_nil_iff : storedName name = [] ↔ name.length % 256 = 0 := by
  rw [storedName, take_eq_nil_iff]
  constructor
  · rintro (h | rfl)
    · exact h
    · rfl
  · exact Or.inl

theorem chain_writeDirEntry (b : ByteBlock) (off : Nat) {inode recLen : Nat} (fileType : UInt8)
    {name : List UInt8} (hinode : 0 < inode) (hlt : inode < 2 ^ 32)
    (hroom : 8 + name.length ≤ recLen) (hmax : off + recLen ≤ blockSize) :
    ∃ r : DirRecord, Chain (writeDirEntry b off inode recLen fileType name) off [r] (off + recLen) ∧
      [r].filterMap (DirRecord.entry (writeDirEntry b off inode recLen fileType name)) =
        newEntry inode fileType name ∧ 8 + r.nameLen ≤ r.recLen := by
  have hrec : recordAt (writeDirEntry b off inode recLen fileType name) off =
      ⟨off, inode, recLen, name.length % 256, fileType⟩ := by
    rw [recordAt_writeDirEntry, Nat.mod_eq_of_lt hlt,
      Nat.mod_eq_of_lt (by unfold blockSize at hmax; omega)]
  have hgo : Continues (writeDirEntry b off inode recLen fileType name) off := by
    unfold Continues
    rw [hrec]
    dsimp only
    omega
  have hchain := Chain.cons hgo (.nil _)
  have hname := window_writeDirEntry b off inode recLen fileType name
  rw [hrec] at hchain
  generalize writeDirEntry b off inode recLen fileType name = b' at hchain hname
  refine ⟨_, hchain, ?_, by dsimp only; omega⟩
  rw [filterMap_cons, filterMap_nil, DirRecord.entry, newEntry]
  dsimp only
  by_cases hzero : name.length % 256 = 0
  · rw [if_neg (by omega), if_pos (storedName_eq_nil_iff.mpr hzero)]
  · rw [if_pos ⟨by omega, by omega, by omega⟩, if_neg (mt storedName_eq_nil_iff.mp hzero), hname]

/-! ## The length of a record -/

theorem recordAt_setRecLen (b : ByteBlock) (off : Nat) {n : Nat} (hn : n ≤ blockSize) :
    recordAt (b.setField (off + 4) 2 n) off = { recordAt b off with recLen := n } := by
  have hmod : n % 256 ^ 2 = n := Nat.mod_eq_of_lt (by unfold blockSize at hn; omega)
  rw [recordAt, recordAt, field_setField_of_disjoint (by omega), field_setField,
    hmod, setField_apply_of_notMem (by omega),
    setField_apply_of_notMem (by omega)]

theorem recordAt_setUnused (b : ByteBlock) (off : Nat) :
    recordAt (b.setField off 4 0) off = { recordAt b off with inode := 0 } := by
  have hlen : (b.setField off 4 0).field (off + 4) 2 = b.field (off + 4) 2 :=
    field_setField_of_disjoint (by omega)
  rw [recordAt, recordAt, field_setField, hlen, Nat.zero_mod,
    setField_apply_of_notMem (by omega), setField_apply_of_notMem (by omega)]

theorem DirRecord.entry_withRecLen {n : Nat}
    (hfits : r.inode ≠ 0 → 8 + r.nameLen ≤ n ∧ 8 + r.nameLen ≤ r.recLen)
    (heq : ∀ i, r.off + 8 ≤ i → i < r.off + 8 + r.nameLen → b i = b' i) :
    { r with recLen := n }.entry b' = r.entry b := by
  unfold DirRecord.entry
  dsimp only
  rw [window_congr heq]
  by_cases hused : r.inode = 0
  · rw [if_neg fun h => h.1 hused, if_neg fun h => h.1 hused]
  · obtain ⟨_, _⟩ := hfits hused
    by_cases hname : 0 < r.nameLen
    · rw [if_pos ⟨hused, hname, by omega⟩, if_pos ⟨hused, hname, by omega⟩]
    · rw [if_neg fun h => hname h.2.1, if_neg fun h => hname h.2.1]

/-! ## Adding an entry -/

def WellFormed (b : ByteBlock) : Prop :=
  ∀ r ∈ records b, r.inode ≠ 0 → 8 + r.nameLen ≤ r.recLen

theorem le_roundUp4 (n : Nat) : n ≤ roundUp4 n := by
  unfold roundUp4
  omega

theorem Around.wellFormed_replace (h : Around b pre old post lo hi) (hmid : Chain b' lo mid hi)
    (heq : ∀ i, i < lo ∨ hi ≤ i → b i = b' i)
    (hfits : ∀ r ∈ mid, r.inode ≠ 0 → 8 + r.nameLen ≤ r.recLen) (hwf : WellFormed b) :
    WellFormed b' := by
  intro r hr hne
  rw [(h.replace hmid heq).records_eq] at hr
  unfold WellFormed at hwf
  rw [h.records_eq] at hwf
  rcases mem_append.mp hr with hr | hpost
  · rcases mem_append.mp hr with hpre | hmid'
    · exact hwf r (mem_append_left _ (mem_append_left _ hpre)) hne
    · exact hfits r hmid' hne
  · exact hwf r (mem_append_right _ hpost) hne

/-- What adding an entry to a block does: the entry appears somewhere among the others. -/
structure Added (b : ByteBlock) (inode : Nat) (fileType : UInt8) (name : List UInt8)
    (b' : ByteBlock) : Prop where
  entries : ∃ pre post, readDirEntries b = pre ++ post ∧
    readDirEntries b' = pre ++ newEntry inode fileType name ++ post
  wellFormed : WellFormed b → WellFormed b'

theorem Around.added (h : Around b pre old post lo hi) (hmid : Chain b' lo mid hi)
    (heq : ∀ i, i < lo ∨ hi ≤ i → b i = b' i)
    (hentries : mid.filterMap (DirRecord.entry b') =
      old.filterMap (DirRecord.entry b) ++ newEntry inode fileType name)
    (hfits : ∀ r ∈ mid, r.inode ≠ 0 → 8 + r.nameLen ≤ r.recLen) :
    Added b inode fileType name b' := by
  obtain ⟨hbefore, hafter⟩ := h.readDirEntries_replace hmid heq
  refine ⟨⟨_, _, hbefore, ?_⟩, h.wellFormed_replace hmid heq hfits⟩
  rw [hafter, hentries, ← append_assoc]

theorem added_of_addDirEntry (hinode : 0 < inode) (hlt : inode < 2 ^ 32)
    (h : addDirEntry b inode fileType name = some b') : Added b inode fileType name b' := by
  obtain ⟨r, hfind, hwrite⟩ := Option.map_eq_some_iff.mp h
  obtain ⟨hroom, _, _, hrecords, -⟩ := find?_eq_some_iff_append.mp hfind
  obtain ⟨hr, ⟨_, hmin, hmax⟩, haround⟩ := around_of_records hrecords
  rw [← hr] at hmin hmax
  have hneed := le_roundUp4 (8 + name.length)
  rw [DirRecord.hasRoom, decide_eq_true_eq] at hroom
  split_ifs at hwrite with hunused
  · -- the unused record is taken over as it is
    obtain ⟨r', hmid, hentry, hfits⟩ := chain_writeDirEntry b r.off fileType hinode hlt
      (show 8 + name.length ≤ r.recLen by omega) hmax
    have hnone : r.entry b = none := if_neg fun hvisible => hvisible.1 hunused
    rw [hwrite] at hmid hentry
    refine haround.added hmid (fun i hi => ?_) ?_ ?_
    · rw [← hwrite, writeDirEntry_apply_of_notMem (by omega)]
    · rw [hentry, filterMap_cons, hnone]
      rfl
    · intro r'' hr'' _
      rwa [mem_singleton.mp hr'']
  · -- the record in use keeps what it needs, and the new one gets the rest
    have hsize : r.actualSize = roundUp4 (8 + r.nameLen) := if_neg hunused
    have hname := le_roundUp4 (8 + r.nameLen)
    obtain ⟨r', hmid, hentry, hfits⟩ := chain_writeDirEntry
      (b.setField (r.off + 4) 2 r.actualSize) (r.off + r.actualSize) fileType hinode hlt
      (show 8 + name.length ≤ r.recLen - r.actualSize by omega) (by omega)
    rw [hwrite] at hmid hentry
    have hbefore (i : Nat) (hi : i < r.off + r.actualSize) :
        b' i = (b.setField (r.off + 4) 2 r.actualSize) i := by
      rw [← hwrite, writeDirEntry_apply_of_notMem (Or.inl hi)]
    have hkept : recordAt b' r.off = { r with recLen := r.actualSize } := by
      have hset := recordAt_setRecLen b r.off (show r.actualSize ≤ blockSize by omega)
      rw [← hr] at hset
      rw [← hset]
      exact recordAt_congr fun i hle hlt => hbefore i (by omega)
    have hgo : Continues b' r.off := by
      unfold Continues
      rw [hkept]
      dsimp only
      omega
    have hchain' : Chain b' r.off [recordAt b' r.off, r'] (r.off + r.recLen) := by
      refine .cons hgo ?_
      rw [hkept]
      have hend' : r.off + r.actualSize + (r.recLen - r.actualSize) = r.off + r.recLen := by omega
      rwa [hend'] at hmid
    have hold : (recordAt b' r.off).entry b' = r.entry b := by
      rw [hkept]
      refine DirRecord.entry_withRecLen (fun _ => by omega) fun i hle hlt => ?_
      rw [hbefore i (by omega), setField_apply_of_notMem (by omega)]
    refine haround.added hchain' (fun i hi => ?_) ?_ ?_
    · rw [← hwrite, writeDirEntry_apply_of_notMem (by omega), setField_apply_of_notMem (by omega)]
    · rw [← hentry, ← singleton_append, filterMap_append]
      congr 1
      rw [filterMap_cons, filterMap_cons, hold]
      rfl
    · intro r'' hr'' _
      rcases mem_cons.mp hr'' with rfl | hr''
      · rw [hkept]
        dsimp only
        omega
      · rwa [mem_singleton.mp hr'']

/-! ## Removing an entry -/

/-- What removing an entry does: the first entry of that name is gone. -/
structure Removed (b : ByteBlock) (name : List UInt8) (inode : Nat) (b' : ByteBlock) : Prop where
  entries : ∃ pre e post, readDirEntries b = pre ++ e :: post ∧ readDirEntries b' = pre ++ post ∧
    e.inode = inode ∧ e.name = name ∧ ∀ e' ∈ pre, e'.name ≠ name
  wellFormed : WellFormed b'

theorem removeFrom_eq_some {target : List UInt8} {prev : Option DirRecord} {rs : List DirRecord}
    {inode : Nat} (h : removeFrom b target prev rs = some (inode, b')) :
    ∃ pre r post e, rs = pre ++ r :: post ∧ r.entry b = some e ∧ e.name = target ∧
      (∀ r' ∈ pre, ∀ e', r'.entry b = some e' → e'.name ≠ target) ∧ inode = r.inode ∧
      b' = match (prev.toList ++ pre).getLast? with
        | some p => b.setField (p.off + 4) 2 (p.recLen + r.recLen)
        | none => b.setField r.off 4 0 := by
  induction rs generalizing prev with
  | nil => cases h
  | cons r rest ih =>
    unfold removeFrom at h
    split_ifs at h with hmatch
    · obtain ⟨e, hentry, hname⟩ := (Option.any_eq_true _ _).mp hmatch
      refine ⟨[], r, rest, e, rfl, hentry, of_decide_eq_true hname, nofun, ?_⟩
      rcases prev with _ | p
      · cases h
        exact ⟨rfl, rfl⟩
      · cases h
        exact ⟨rfl, rfl⟩
    · obtain ⟨pre, r', post, e, rfl, hentry, hname, hbefore, hinode, hb'⟩ := ih h
      refine ⟨r :: pre, r', post, e, rfl, hentry, hname, ?_, hinode, ?_⟩
      · intro r'' hr'' e' he'
        rcases mem_cons.mp hr'' with rfl | hmem
        · intro heq
          exact hmatch ((Option.any_eq_true _ _).mpr ⟨e', he', decide_eq_true heq⟩)
        · exact hbefore r'' hmem e' he'
      · rw [hb']
        have hlast : (prev.toList ++ r :: pre).getLast? = ((some r).toList ++ pre).getLast? := by
          rw [getLast?_append_of_ne_nil _ (cons_ne_nil _ _)]
          rfl
        rw [hlast]

theorem Around.removed {e : DirEntry}
    (h : Around b pre old post lo hi) (hmid : Chain b' lo mid hi) (kept : List DirEntry)
    (heq : ∀ i, i < lo ∨ hi ≤ i → b i = b' i)
    (hold : old.filterMap (DirRecord.entry b) = kept ++ [e])
    (hnew : mid.filterMap (DirRecord.entry b') = kept) (hname : e.name = name)
    (hfirst : ∀ e' ∈ pre.filterMap (DirRecord.entry b) ++ kept, e'.name ≠ name)
    (hfits : ∀ r ∈ mid, r.inode ≠ 0 → 8 + r.nameLen ≤ r.recLen) (hwf : WellFormed b) :
    Removed b name e.inode b' := by
  obtain ⟨hbefore, hafter⟩ := h.readDirEntries_replace hmid heq
  refine ⟨⟨_, e, post.filterMap (DirRecord.entry b), ?_, ?_, rfl, hname, hfirst⟩,
    h.wellFormed_replace hmid heq hfits hwf⟩
  · rw [hbefore, hold]
    simp only [append_assoc, cons_append, nil_append]
  · rw [hafter, hnew]

theorem removed_of_removeDirEntry {inode : Nat} (hwf : WellFormed b)
    (h : removeDirEntry b name = some (inode, b')) : Removed b name inode b' := by
  obtain ⟨pre, r, post, e, hrecords, hentry, hname, hbefore, rfl, hb'⟩ := removeFrom_eq_some h
  obtain ⟨hr, ⟨hend, hmin, hmax⟩, haround⟩ := around_of_records hrecords
  rw [← hr] at hmin hmax
  have hinode : e.inode = r.inode := by
    unfold DirRecord.entry at hentry
    split_ifs at hentry
    cases hentry
    rfl
  have hfirst : ∀ e' ∈ pre.filterMap (DirRecord.entry b), e'.name ≠ name := by
    intro e' he'
    obtain ⟨r', hr', hsome⟩ := mem_filterMap.mp he'
    exact hbefore r' hr' e' hsome
  rw [← hinode]
  rcases eq_nil_or_concat' pre with rfl | ⟨pre, p, rfl⟩
  · -- the first record of the block is marked as unused
    have hset : b' = b.setField r.off 4 0 := hb'
    have hrec : recordAt b' r.off = { r with inode := 0 } := by
      rw [hset, recordAt_setUnused, ← hr]
    have hgo : Continues b' r.off := by
      unfold Continues
      rw [hrec]
      exact ⟨hend, hmin, hmax⟩
    have hmid : Chain b' r.off [recordAt b' r.off] (r.off + r.recLen) := by
      refine .cons hgo ?_
      rw [hrec]
      exact .nil _
    refine haround.removed hmid [] (fun i hi => ?_) ?_ ?_ hname ?_ ?_ hwf
    · rw [hset, setField_apply_of_notMem (by omega)]
    · rw [filterMap_cons, hentry]
      rfl
    · rw [hrec, filterMap_cons]
      rfl
    · rwa [append_nil]
    · intro r' hr' hne
      rw [mem_singleton.mp hr', hrec] at hne
      exact absurd rfl hne
  · -- the record before it takes its bytes over
    rw [append_assoc] at hrecords
    obtain ⟨hp, ⟨_, _, _⟩, haroundp⟩ := around_of_records hrecords
    have hnext : r.off = p.off + p.recLen := by
      obtain ⟨-, -, -, hnil⟩ := haround.before.split
      exact hnil.eq_of_nil
    have hboth : Around b pre [p, r] post p.off (r.off + r.recLen) :=
      ⟨haroundp.before, haroundp.within.append (hnext ▸ haround.within), haround.after⟩
    have hset : b' = b.setField (p.off + 4) 2 (p.recLen + r.recLen) := by
      rw [hb', Option.toList_none, nil_append, getLast?_concat]
    have hrec : recordAt b' p.off = { p with recLen := p.recLen + r.recLen } := by
      rw [hset, recordAt_setRecLen b p.off (by omega), ← hp]
    have hgo : Continues b' p.off := by
      unfold Continues
      rw [hrec]
      dsimp only
      omega
    have hmid : Chain b' p.off [recordAt b' p.off] (r.off + r.recLen) := by
      refine .cons hgo ?_
      rw [hrec, hnext, Nat.add_assoc]
      exact .nil _
    have hpfits : p.inode ≠ 0 → 8 + p.nameLen ≤ p.recLen :=
      hwf p (hrecords ▸ mem_append_right _ mem_cons_self)
    have hkept : (recordAt b' p.off).entry b' = p.entry b := by
      rw [hrec]
      refine DirRecord.entry_withRecLen (fun hne => ?_) fun i _ _ => ?_
      · omega
      · rw [hset, setField_apply_of_notMem (by omega)]
    refine hboth.removed hmid (p.entry b).toList (fun i hi => ?_) ?_ ?_ hname ?_ ?_ hwf
    · rw [hset, setField_apply_of_notMem (by omega)]
    · rw [filterMap_cons, filterMap_cons, hentry]
      cases p.entry b <;> rfl
    · rw [filterMap_cons, hkept]
      cases p.entry b <;> rfl
    · cases hpe : p.entry b <;> simpa [hpe] using hfirst
    · intro r' hr' hne
      rw [mem_singleton.mp hr', hrec] at hne ⊢
      have := hpfits hne
      dsimp only
      omega

/-! ## A fresh directory -/

theorem readDirEntries_initDirBlock {dirInode parentInode : Nat} (hdir : 0 < dirInode)
    (hdir' : dirInode < 2 ^ 32) (hparent : 0 < parentInode) (hparent' : parentInode < 2 ^ 32) :
    readDirEntries (initDirBlock dirInode parentInode) =
        [⟨dirInode, ftDir, dot⟩, ⟨parentInode, ftDir, dotDot⟩] ∧
      WellFormed (initDirBlock dirInode parentInode) := by
  obtain ⟨_, hchain1, hentry1, _⟩ := chain_writeDirEntry zeroBlock 0 ftDir hdir hdir'
    (show 8 + dot.length ≤ 12 by decide) (by decide)
  obtain ⟨_, hchain2, hentry2, _⟩ := chain_writeDirEntry
    (writeDirEntry zeroBlock 0 dirInode 12 ftDir dot) 12 ftDir hparent hparent'
    (show 8 + dotDot.length ≤ blockSize - 12 by decide) (by decide)
  have heq (i : Nat) (hi : i < 12) : writeDirEntry zeroBlock 0 dirInode 12 ftDir dot i =
      initDirBlock dirInode parentInode i := (writeDirEntry_apply_of_notMem (Or.inl hi)).symm
  rw [hchain1.filterMap_congr fun i _ hlt => heq i hlt] at hentry1
  have hchain := (hchain1.congr fun i _ hlt => heq i hlt).append hchain2
  have hrecords := records_eq_iff.mpr ⟨_, hchain, fun hgo => absurd hgo.1 (by decide)⟩
  constructor
  · rw [readDirEntries, hrecords, filterMap_append, hentry1]
    exact congrArg _ hentry2
  · intro r hr _
    rw [hrecords] at hr
    rcases mem_append.mp hr with hr | hr
    · rwa [mem_singleton.mp hr]
    · rwa [mem_singleton.mp hr]

end AgenticOS.Ext2
