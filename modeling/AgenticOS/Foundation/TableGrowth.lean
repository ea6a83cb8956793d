import AgenticOS.Foundation.TableForest

/-!
# Tables built on demand

An allocator hands out frames, a store is a memory with such an allocator, and
`grow` follows a path and puts a fresh empty table wherever one is missing.
All the allocator has to promise is that a frame it hands out was not taken.
-/

namespace AgenticOS.Foundation

open List

/-- An allocator of frames; `null` says that there are none left, and `free`
may refuse a frame. -/
structure FrameSource (σ F : Type*) where
  alloc : σ → F × σ
  free : σ → F → σ
  null : F
  ok : σ → Prop
  taken : σ → F → Prop
  alloc_ok : ∀ s, ok s → ok (alloc s).2
  alloc_fresh : ∀ s, ok s → (alloc s).1 ≠ null → ¬ taken s (alloc s).1
  alloc_taken : ∀ s, ok s → (alloc s).1 ≠ null →
    ∀ f, taken (alloc s).2 f ↔ taken s f ∨ f = (alloc s).1
  alloc_null : ∀ s, ok s → (alloc s).1 = null → ∀ f, taken (alloc s).2 f ↔ taken s f
  free_ok : ∀ s f, ok s → ok (free s f)
  free_taken : ∀ s f, ok s → ∀ g, g ≠ f → (taken (free s f) g ↔ taken s g)

namespace FrameSource

variable {σ F : Type*} (A : FrameSource σ F)

/-- One frame after the other given back. -/
def freeAll (s : σ) (frames : List F) : σ := frames.foldl A.free s

variable {A} {s : σ} {frames : List F}

theorem freeAll_ok (hs : A.ok s) : A.ok (A.freeAll s frames) := by
  induction frames generalizing s with
  | nil => exact hs
  | cons f frames ih => exact ih (A.free_ok s f hs)

theorem freeAll_taken (hs : A.ok s) {g : F} (hg : g ∉ frames) :
    A.taken (A.freeAll s frames) g ↔ A.taken s g := by
  induction frames generalizing s with
  | nil => exact Iff.rfl
  | cons f frames ih =>
    rw [mem_cons, not_or] at hg
    exact (ih (A.free_ok s f hs) hg.2).trans (A.free_taken s f hs g hg.1)

/-- The next `n` allocations succeed. -/
def Supplies (A : FrameSource σ F) : Nat → σ → Prop
  | 0, _ => True
  | n + 1, s => (A.alloc s).1 ≠ A.null ∧ A.Supplies n (A.alloc s).2

def decidableSupplies [DecidableEq F] (A : FrameSource σ F) :
    ∀ (n : Nat) (s : σ), Decidable (A.Supplies n s)
  | 0, _ => .isTrue trivial
  | n + 1, s =>
    have := decidableSupplies A n (A.alloc s).2
    inferInstanceAs (Decidable (_ ∧ _))

instance [DecidableEq F] (A : FrameSource σ F) (n : Nat) (s : σ) : Decidable (A.Supplies n s) :=
  decidableSupplies A n s

theorem Supplies.of_succ {n : Nat} (h : A.Supplies (n + 1) s) : A.Supplies n s := by
  induction n generalizing s with
  | zero => trivial
  | succ n ih => exact ⟨h.1, ih h.2⟩

end FrameSource

/-- A memory and the state of the allocator of its frames. -/
structure Store (σ F I W : Type*) where
  mem : F → I → W
  frames : σ

namespace Store

variable {σ F I W : Type*} [DecidableEq F] [DecidableEq I] (A : FrameSource σ F)
  (E : EntryFormat F W) (link : F → W)

/-- A frame from the allocator, emptied unless it is `null`. -/
def alloc (s : Store σ F I W) : F × Store σ F I W :=
  ((A.alloc s.frames).1,
    { mem :=
        if (A.alloc s.frames).1 = A.null then s.mem
        else fill s.mem (A.alloc s.frames).1 fun _ => E.empty
      frames := (A.alloc s.frames).2 })

omit [DecidableEq I] in
theorem alloc_mem_of_ne {A : FrameSource σ F} {E : EntryFormat F W} {s : Store σ F I W} {f : F}
    (hf : f ≠ (A.alloc s.frames).1) (i : I) : (s.alloc A E).2.mem f i = s.mem f i := by
  unfold alloc
  split_ifs
  · rfl
  · dsimp only
    rw [fill_of_ne hf]

/-- A fresh table, or failure. -/
def newTable (s : Store σ F I W) : Option (F × Store σ F I W) :=
  if (A.alloc s.frames).1 = A.null then none else some (s.alloc A E)

/-- Makes sure that the word at `f`, `i` names a table. -/
def ensure (s : Store σ F I W) (f : F) (i : I) : Option (Store σ F I W) :=
  if E.present (s.mem f i) then some s
  else do
    let (n, s') ← s.newTable A E
    return { s' with mem := write s'.mem f i (link n) }

/-- The table at the end of a path, with the missing ones put in. -/
def grow : Store σ F I W → F → List I → Option (F × Store σ F I W)
  | s, f, [] => some (f, s)
  | s, f, i :: π => do
    let s' ← s.ensure A E link f i
    grow s' (E.target (s'.mem f i)) π

section

variable {A E link} {s : Store σ F I W} {n : Nat}

theorem exists_ensure (f : F) (i : I) (h : A.Supplies (n + 1) s.frames) :
    ∃ s', s.ensure A E link f i = some s' ∧ A.Supplies n s'.frames := by
  unfold ensure newTable
  split_ifs with hpresent hnull
  · exact ⟨s, rfl, h.of_succ⟩
  · exact absurd hnull h.1
  · exact ⟨_, rfl, h.2⟩

/-- One frame for each table of the path is enough. -/
theorem exists_grow (f : F) (π : List I) (h : A.Supplies (n + π.length) s.frames) :
    ∃ g s', s.grow A E link f π = some (g, s') ∧ A.Supplies n s'.frames := by
  induction π generalizing s f with
  | nil => exact ⟨f, s, rfl, h⟩
  | cons i π ih =>
    rcases exists_ensure f i h with ⟨s1, hensure, h1⟩
    rcases ih (E.target (s1.mem f i)) h1 with ⟨g, s', hgrow, h'⟩
    refine ⟨g, s', ?_, h'⟩
    rw [grow, hensure]
    exact hgrow

end

/-! ## What growing keeps -/

variable {A E link} {depth : F → Option Nat} {shared : I → Prop} {s s' s'' : Store σ F I W}
  {r r₀ f g : F} {π π₀ : List I} {i j : I}

variable (A E) in
/-- The tables form a forest, and their frames are taken and not `null`. -/
structure Tended (depth : F → Option Nat) (shared : I → Prop) (s : Store σ F I W) : Prop where
  ok : A.ok s.frames
  forest : E.Forest s.mem depth shared
  taken : ∀ {r π f}, E.TableAt s.mem depth r π f → A.taken s.frames f
  real : ∀ {r π f}, E.TableAt s.mem depth r π f → f ≠ A.null

section

omit [DecidableEq F] [DecidableEq I]
variable (h : Tended A E depth shared s)
include h

theorem Tended.of_tables_eq {m' : F → I → W}
    (hsame : ∀ {r π f}, E.TableAt s.mem depth r π f → ∀ i, m' f i = s.mem f i) :
    Tended A E depth shared { s with mem := m' } where
  ok := h.ok
  forest := h.forest.of_tables_eq hsame
  taken := fun ht => h.taken ((EntryFormat.tableAt_of_tables_eq hsame).mp ht)
  real := fun ht => h.real ((EntryFormat.tableAt_of_tables_eq hsame).mp ht)

theorem Tended.of_frames {frames : σ} (hok : A.ok frames)
    (htaken : ∀ {r π f}, E.TableAt s.mem depth r π f → A.taken frames f) :
    Tended A E depth shared { s with frames := frames } :=
  ⟨hok, h.forest, htaken, h.real⟩

theorem Tended.mono {depth' : F → Option Nat}
    (hdepth : ∀ r d, depth' r = some d → depth r = some d) : Tended A E depth' shared s where
  ok := h.ok
  forest := h.forest.mono hdepth
  taken := fun ⟨d, hd, hπ, hf⟩ => h.taken ⟨d, hdepth _ d hd, hπ, hf⟩
  real := fun ⟨d, hd, hπ, hf⟩ => h.real ⟨d, hdepth _ d hd, hπ, hf⟩

end

variable {d : Nat}

omit [DecidableEq I] in
theorem Tended.newRoot {k : F} {row : I → W} (h : Tended A E depth shared s)
    (hnull : (A.alloc s.frames).1 ≠ A.null)
    (hcopied : ∀ j, E.present (row j) = true → depth k = some d ∧ shared j ∧ row j = s.mem k j) :
    E.Clonable s.mem depth shared k (A.alloc s.frames).1 d row ∧
      Tended A E (Function.update depth (A.alloc s.frames).1 (some d)) shared
        ⟨fill s.mem (A.alloc s.frames).1 row, (A.alloc s.frames).2⟩ := by
  have hfresh := A.alloc_fresh s.frames h.ok hnull
  have htaken := A.alloc_taken s.frames h.ok hnull
  have hc : E.Clonable s.mem depth shared k (A.alloc s.frames).1 d row :=
    ⟨fun r π ht => hfresh (h.taken ht), hcopied⟩
  refine ⟨hc, A.alloc_ok _ h.ok, hc.forest h.forest, ?_, ?_⟩
  · intro r π f ht
    rcases hc.tableAt_cases ht with ⟨-, ht⟩ | ⟨-, -, rfl⟩ | ⟨-, -, -, -, -, -, ht⟩
    · exact (htaken f).mpr (.inl (h.taken ht))
    · exact (htaken _).mpr (.inr rfl)
    · exact (htaken f).mpr (.inl (h.taken ht))
  · intro r π f ht
    rcases hc.tableAt_cases ht with ⟨-, ht⟩ | ⟨-, -, rfl⟩ | ⟨-, -, -, -, -, -, ht⟩
    · exact h.real ht
    · exact hnull
    · exact h.real ht

variable (A E) in
/-- What a store and its tables keep when tables are put in below `r₀`: tables
stay where they are, new ones are on fresh frames, no entry at the last level
changes, and of the frames taken before only absent words on the way along
`path` change. -/
structure Grows (depth : F → Option Nat) (r₀ : F) (path : List I) (s s' : Store σ F I W) :
    Prop where
  tables : ∀ {r π f}, E.TableAt s.mem depth r π f → E.TableAt s'.mem depth r π f
  fresh : ∀ {r π f}, E.TableAt s'.mem depth r π f →
    E.TableAt s.mem depth r π f ∨ ¬ A.taken s.frames f
  entries : ∀ {r π i}, depth r = some π.length → E.entryAt s'.mem r π i = E.entryAt s.mem r π i
  taken : ∀ {f}, A.taken s.frames f → A.taken s'.frames f
  words : ∀ {f i}, A.taken s.frames f → s'.mem f i ≠ s.mem f i →
    E.present (s.mem f i) = false ∧ ∃ π, E.TableAt s.mem depth r₀ π f ∧ π ++ [i] <+: path

variable {path : List I}

omit [DecidableEq F] [DecidableEq I] in
theorem Grows.refl : Grows A E depth r₀ path s s where
  tables := id
  fresh := .inl
  entries := fun _ => rfl
  taken := id
  words := fun _ h => absurd rfl h

omit [DecidableEq F] [DecidableEq I] in
theorem Grows.trans (h : Grows A E depth r₀ path s s')
    (h' : Grows A E depth r₀ path s' s'') : Grows A E depth r₀ path s s'' where
  tables := fun ht => h'.tables (h.tables ht)
  fresh := by
    intro r π f ht
    rcases h'.fresh ht with ht' | hnew
    · exact h.fresh ht'
    · exact .inr fun hold => hnew (h.taken hold)
  entries := fun hd => (h'.entries hd).trans (h.entries hd)
  taken := fun hf => h'.taken (h.taken hf)
  words := by
    intro f i hf hne
    by_cases hfirst : s'.mem f i = s.mem f i
    · rw [← hfirst] at hne ⊢
      obtain ⟨habsent, π, ht, hpath⟩ := h'.words (h.taken hf) hne
      refine ⟨habsent, π, ?_, hpath⟩
      exact (h.fresh ht).resolve_right fun hnew => hnew hf
    · exact h.words hf hfirst

/-- Words for tables name their frame. -/
def Links (A : FrameSource σ F) (E : EntryFormat F W) (link : F → W) : Prop :=
  ∀ s, A.ok s → (A.alloc s).1 ≠ A.null →
    E.present (link (A.alloc s).1) = true ∧ E.target (link (A.alloc s).1) = (A.alloc s).1

theorem ensure_cases (hlink : Links A E link) (hs : Tended A E depth shared s)
    (hf : E.TableAt s.mem depth r₀ π₀ f) (hd : depth r₀ = some d)
    (hlen : π₀.length < d) (hens : s.ensure A E link f i = some s') :
    (E.present (s.mem f i) = true ∧ s' = s) ∨ ((A.alloc s.frames).1 ≠ A.null ∧
        E.Linkable s.mem depth r₀ π₀ f i (A.alloc s.frames).1 (link (A.alloc s.frames).1) ∧
        s' = ⟨E.linked s.mem f i (A.alloc s.frames).1 (link (A.alloc s.frames).1),
          (A.alloc s.frames).2⟩) := by
  unfold ensure at hens
  split_ifs at hens with hp
  · cases hens
    exact .inl ⟨hp, rfl⟩
  · rw [newTable] at hens
    split_ifs at hens with hnull
    · cases hens
    obtain ⟨hpresent, htarget⟩ := hlink s.frames hs.ok hnull
    refine .inr ⟨hnull, ⟨hf, ⟨d, hd, hlen⟩, Bool.eq_false_iff.mpr hp, ?_, hpresent, htarget⟩, ?_⟩
    · exact fun r _ ht => A.alloc_fresh s.frames hs.ok hnull (hs.taken ht)
    · rw [← Option.some_inj.mp hens]
      simp only [if_neg hnull, EntryFormat.linked]

theorem ensure_spec (hlink : Links A E link) (hs : Tended A E depth shared s)
    (hf : E.TableAt s.mem depth r₀ π₀ f) (hd : depth r₀ = some d)
    (hlen : π₀.length < d) (hpath : π₀ ++ [i] <+: path)
    (hens : s.ensure A E link f i = some s') :
    Tended A E depth shared s' ∧ Grows A E depth r₀ path s s' ∧
      E.TableAt s'.mem depth r₀ (π₀ ++ [i]) (E.target (s'.mem f i)) := by
  rcases ensure_cases hlink hs hf hd hlen hens with ⟨hp, rfl⟩ | ⟨hnull, hl, rfl⟩
  · obtain ⟨d', hd', hlen', hf⟩ := hf
    refine ⟨hs, Grows.refl, d, hd, ?_, EntryFormat.descend_snoc hf hp⟩
    rw [length_append]
    exact hlen
  · have hfresh := A.alloc_fresh s.frames hs.ok hnull
    have htaken := A.alloc_taken s.frames hs.ok hnull
    refine ⟨⟨A.alloc_ok _ hs.ok, hl.forest hs.forest, ?_, ?_⟩, ?_, ?_⟩
    · intro r π g ht
      rcases hl.tableAt_iff.mp ht with ht | ⟨rfl, -⟩
      · exact (htaken g).mpr (.inl (hs.taken ht))
      · exact (htaken _).mpr (.inr rfl)
    · intro r π g ht
      rcases hl.tableAt_iff.mp ht with ht | ⟨rfl, -⟩
      · exact hs.real ht
      · exact hnull
    · constructor
      · exact fun ht => hl.tableAt_iff.mpr (.inl ht)
      · intro r π g ht
        rcases hl.tableAt_iff.mp ht with ht | ⟨rfl, -⟩
        · exact .inl ht
        · exact .inr hfresh
      · exact fun hr => hl.entryAt_eq hs.forest hr
      · exact fun hg => (htaken _).mpr (.inl hg)
      · intro g j hg hne
        have hgn : g ≠ (A.alloc s.frames).1 := by
          rintro rfl
          exact hfresh hg
        by_cases hgj : g = f ∧ j = i
        · obtain ⟨rfl, rfl⟩ := hgj
          exact ⟨hl.absent, π₀, hf, hpath⟩
        · exact absurd (EntryFormat.linked_of_ne hgn hgj) hne
    · dsimp only
      rw [EntryFormat.linked_link, hl.target]
      obtain ⟨d', hd', hlen', hf⟩ := hf
      refine hl.tableAt_iff.mpr (.inr ⟨rfl, d, π₀, hd, ?_, rfl, hf⟩)
      rw [length_append]
      exact hlen

/-- **Growing a path.** What `grow` returns is the table at the end of the
path, and nothing else has changed but for new tables. -/
theorem grow_spec (hlink : Links A E link) (hd : depth r₀ = some d) :
    ∀ {π : List I} {s : Store σ F I W} {π₀ : List I} {f : F},
      Tended A E depth shared s → E.TableAt s.mem depth r₀ π₀ f → (π₀ ++ π).length ≤ d →
      s.grow A E link f π = some (g, s') →
      Tended A E depth shared s' ∧ Grows A E depth r₀ (π₀ ++ π) s s' ∧
        E.TableAt s'.mem depth r₀ (π₀ ++ π) g
  | [], s, π₀, f, hs, hf, _, hgrow => by
    cases hgrow
    rw [append_nil]
    exact ⟨hs, Grows.refl, hf⟩
  | i :: π, s, π₀, f, hs, hf, hlen, hgrow => by
    rw [List.length_append, length_cons] at hlen
    obtain ⟨s1, hens, hgrow⟩ := Option.bind_eq_some_iff.mp hgrow
    have hpath : π₀ ++ [i] <+: π₀ ++ i :: π := ⟨π, append_assoc ..⟩
    obtain ⟨hs1, hgrows1, hf1⟩ := ensure_spec hlink hs hf hd (by omega) hpath hens
    have hlen1 : (π₀ ++ [i] ++ π).length ≤ d := by
      rw [length_append, length_append, length_singleton]
      omega
    obtain ⟨hs', hgrows', hg⟩ := grow_spec hlink hd hs1 hf1 hlen1 hgrow
    rw [append_assoc] at hg hgrows'
    exact ⟨hs', hgrows1.trans hgrows', hg⟩

/-! ## Words above the last level -/

section

variable {S : F → List I → Prop} {P : W → Prop}

omit [DecidableEq F] [DecidableEq I] in
variable (E) in
/-- The present words that lead on to a table, at the paths that `S` names, satisfy `P`. -/
def Interior (depth : F → Option Nat) (S : F → List I → Prop) (P : W → Prop)
    (m : F → I → W) : Prop :=
  ∀ r π f i, E.TableAt m depth r π f → depth r ≠ some π.length → S r (π ++ [i]) →
    E.present (m f i) = true → P (m f i)

omit [DecidableEq F] [DecidableEq I] in
theorem Interior.of_tables_eq {m' : F → I → W} (h : Interior E depth S P s.mem)
    (hkeep : ∀ {r π f}, E.TableAt s.mem depth r π f → ∀ i, m' f i = s.mem f i) :
    Interior E depth S P m' := by
  intro r π f i ht hlevel hS hpresent
  have hold := (EntryFormat.tableAt_of_tables_eq hkeep).mp ht
  rw [hkeep hold] at hpresent ⊢
  exact h r π f i hold hlevel hS hpresent

theorem Interior.ensure (h : Interior E depth S P s.mem) (hlink : Links A E link)
    (hP : ∀ q, A.ok q → P (link (A.alloc q).1)) (hs : Tended A E depth shared s)
    (hf : E.TableAt s.mem depth r₀ π₀ f) {d : Nat} (hd : depth r₀ = some d)
    (hlen : π₀.length < d) (hens : s.ensure A E link f i = some s') :
    Interior E depth S P s'.mem := by
  rcases ensure_cases hlink hs hf hd hlen hens with ⟨-, rfl⟩ | ⟨hnull, hl, rfl⟩
  · exact h
  · intro r π g j ht hlevel hS hpresent
    dsimp only at hpresent ⊢
    rcases hl.tableAt_iff.mp ht with hold | ⟨rfl, -⟩
    · by_cases hgj : g = f ∧ j = i
      · rw [hgj.1, hgj.2, EntryFormat.linked_link]
        exact hP _ hs.ok
      · have hgn : g ≠ (A.alloc s.frames).1 := by
          rintro rfl
          exact A.alloc_fresh _ hs.ok hnull (hs.taken hold)
        rw [EntryFormat.linked_of_ne hgn hgj] at hpresent ⊢
        exact h r π g j hold hlevel hS hpresent
    · -- the fresh table is empty
      rw [hl.linked_fresh, E.present_empty] at hpresent
      cases hpresent

theorem Interior.grow (hlink : Links A E link) (hP : ∀ q, A.ok q → P (link (A.alloc q).1))
    {d : Nat} (hd : depth r₀ = some d) :
    ∀ {π : List I} {s : Store σ F I W} {π₀ : List I} {f : F},
      Interior E depth S P s.mem → Tended A E depth shared s → E.TableAt s.mem depth r₀ π₀ f →
      (π₀ ++ π).length ≤ d → s.grow A E link f π = some (g, s') → Interior E depth S P s'.mem
  | [], s, π₀, f, h, _, _, _, hgrow => by
    cases hgrow
    exact h
  | i :: π, s, π₀, f, h, hs, hf, hlen, hgrow => by
    rw [List.length_append, length_cons] at hlen
    obtain ⟨s1, hens, hgrow⟩ := Option.bind_eq_some_iff.mp hgrow
    have hlt : π₀.length < d := by omega
    obtain ⟨hs1, -, hf1⟩ := ensure_spec hlink hs hf hd hlt (prefix_refl _) hens
    have hlen1 : (π₀ ++ [i] ++ π).length ≤ d := by
      rw [length_append, length_append, length_singleton]
      omega
    exact grow hlink hP hd (h.ensure hlink hP hs hf hd hlt hens) hs1 hf1 hlen1 hgrow

theorem Interior.writeLeaf (h : Interior E depth S P s.mem) (hs : Tended A E depth shared s)
    (hf : E.TableAt s.mem depth r₀ π₀ f) (hleaf : depth r₀ = some π₀.length) (i : I) (w : W) :
    Interior E depth S P (write s.mem f i w) := by
  intro r π g j ht hlevel hS hpresent
  have hold := (hs.forest.tableAt_writeLeaf hf hleaf).mp ht
  have hne : g ≠ f := by
    rintro rfl
    rcases hs.forest.unique hold hf with ⟨rfl, hdepth, -⟩
    exact hlevel (hdepth.trans hleaf)
  rw [write_of_ne fun hsame => hne hsame.1] at hpresent ⊢
  exact h r π g j hold hlevel hS hpresent

end

/-! ## Tables of one root each

Where nothing is shared, an entry at the last level belongs to one root. -/

section

variable {w : W}

variable (A E) in
/-- The one entry at `π₀`, `i` below `r₀` becomes `w`. -/
structure Sets (depth : F → Option Nat) (r₀ : F) (π₀ : List I) (i : I) (w : W)
    (s s' : Store σ F I W) : Prop where
  tended : Tended A E depth (fun _ => False) s'
  entries : ∀ {r π j}, depth r = some π.length →
    E.entryAt s'.mem r π j = if r = r₀ ∧ π = π₀ ∧ j = i then w else E.entryAt s.mem r π j

theorem Tended.write (h : Tended A E depth (fun _ => False) s)
    (hf : E.TableAt s.mem depth r₀ π₀ f) (hleaf : depth r₀ = some π₀.length) :
    Sets A E depth r₀ π₀ i w s { s with mem := write s.mem f i w } := by
  constructor
  · constructor
    · exact h.ok
    · exact h.forest.writeLeaf hf hleaf
    · exact fun ht => h.taken ((h.forest.tableAt_writeLeaf hf hleaf).mp ht)
    · exact fun ht => h.real ((h.forest.tableAt_writeLeaf hf hleaf).mp ht)
  · intro r π j hd
    rw [h.forest.entryAt_writeLeaf hf hleaf hd le_rfl]
    have hsame : E.descend s.mem r π = some f ↔ r = r₀ ∧ π = π₀ := by
      constructor
      · intro hπ
        rcases h.forest.unique ⟨_, hd, le_rfl, hπ⟩ hf with ⟨hpath, -, rfl | ⟨_, _, -, hno⟩⟩
        · exact ⟨rfl, hpath⟩
        · exact hno.elim
      · rintro ⟨rfl, rfl⟩
        rcases hf with ⟨_, -, -, hπ⟩
        exact hπ
    simp only [hsame, and_assoc]

theorem Tended.growWrite (h : Tended A E depth (fun _ => False) s) (hlink : Links A E link)
    (hleaf : depth r₀ = some π₀.length) (hgrow : s.grow A E link r₀ π₀ = some (f, s')) :
    Sets A E depth r₀ π₀ i w s { s' with mem := Foundation.write s'.mem f i w } := by
  rcases grow_spec hlink hleaf h (EntryFormat.tableAt_root hleaf) le_rfl hgrow with
    ⟨hs', hgrows, hf⟩
  have hset : Sets A E depth r₀ π₀ i w s' { s' with mem := Foundation.write s'.mem f i w } :=
    hs'.write hf hleaf
  refine ⟨hset.tended, ?_⟩
  intro r _ j hd
  rw [hset.entries hd, hgrows.entries hd]

omit [DecidableEq I] in
theorem Tended.newEmptyRoot (h : Tended A E depth shared s) (d : Nat)
    (hnull : (A.alloc s.frames).1 ≠ A.null) :
    depth (A.alloc s.frames).1 = none ∧
      Tended A E (Function.update depth (A.alloc s.frames).1 (some d)) shared (s.alloc A E).2 ∧
      (∀ {r π j}, depth r = some π.length →
        E.entryAt (s.alloc A E).2.mem r π j = E.entryAt s.mem r π j) ∧
      ∀ {π j}, π.length ≤ d → E.entryAt (s.alloc A E).2.mem (A.alloc s.frames).1 π j = E.empty := by
  have hcopied : ∀ j : I, E.present E.empty = true →
      depth (A.alloc s.frames).1 = some d ∧ shared j ∧ E.empty = s.mem (A.alloc s.frames).1 j := by
    intro j hpresent
    rw [E.present_empty] at hpresent
    cases hpresent
  rcases h.newRoot hnull hcopied with ⟨hc, hs'⟩
  have hstore : (s.alloc A E).2 =
      ⟨fill s.mem (A.alloc s.frames).1 fun _ => E.empty, (A.alloc s.frames).2⟩ := by
    simp only [alloc, if_neg hnull]
  rw [hstore]
  refine ⟨?_, hs', ?_, ?_⟩
  · cases hd : depth (A.alloc s.frames).1 with
    | none => rfl
    | some =>
      exact absurd (h.taken (EntryFormat.tableAt_root hd)) (A.alloc_fresh s.frames h.ok hnull)
  · exact fun hd => hc.entryAt_old hd le_rfl
  · intro π j hπ
    cases π with
    | nil =>
      rw [EntryFormat.entryAt_of_some EntryFormat.descend_nil]
      dsimp only
      rw [fill_same]
    | cons =>
      rw [hc.entryAt_new hπ, E.present_empty]
      rfl

end

end Store

end AgenticOS.Foundation
