import Mathlib

/-!
# Forests of translation tables

Tables of several levels that lie in one memory: a frame holds a word per
index, a present word names the frame of the next table, and a path of indices
leads from a root to a table. Frames, indices and words are arbitrary types.

`Forest` says that no frame serves as two tables: the frame of a table
determines the path to it, and its root as well unless the path starts with a
shared index. Entries are only followed as far as the tables of a root reach;
what a word at the last level names is not a table.

Writing at the last level changes the one entry, hanging a fresh empty table
into an absent entry changes no entry at the last level, and both keep the
forest.
-/

namespace AgenticOS.Foundation

open List Function Option

/-- How the words of a table are read. -/
structure EntryFormat (F W : Type*) where
  present : W → Bool
  target : W → F
  empty : W
  present_empty : present empty = false

section

variable {F I W : Type*} [DecidableEq F] [DecidableEq I]

def write (m : F → I → W) (f : F) (i : I) (w : W) : F → I → W :=
  fun g j => if g = f ∧ j = i then w else m g j

def fill (m : F → I → W) (f : F) (row : I → W) : F → I → W :=
  fun g j => if g = f then row j else m g j

@[simp] theorem write_same (m : F → I → W) (f : F) (i : I) (w : W) : write m f i w f i = w :=
  if_pos ⟨rfl, rfl⟩

theorem write_of_ne {m : F → I → W} {f g : F} {i j : I} {w : W} (h : ¬ (g = f ∧ j = i)) :
    write m f i w g j = m g j :=
  if_neg h

omit [DecidableEq I] in
@[simp] theorem fill_same (m : F → I → W) (f : F) (row : I → W) (j : I) :
    fill m f row f j = row j :=
  if_pos rfl

omit [DecidableEq I] in
theorem fill_of_ne {m : F → I → W} {f g : F} {row : I → W} (h : g ≠ f) (j : I) :
    fill m f row g j = m g j :=
  if_neg h

end

namespace EntryFormat

variable {F I W : Type*} (E : EntryFormat F W)

/-! ## Following a path -/

/-- The table that a path leads to. -/
def descend (m : F → I → W) : F → List I → Option F
  | r, [] => some r
  | r, i :: π => if E.present (m r i) then descend m (E.target (m r i)) π else none

/-- The word at the end of a path, `empty` where a table is missing. -/
def entryAt (m : F → I → W) (r : F) (π : List I) (i : I) : W :=
  match E.descend m r π with
  | some f => m f i
  | none => E.empty

variable {E} {m m' : F → I → W} {r r' f g n : F} {π π' σ : List I} {i j : I}

@[simp] theorem descend_nil : E.descend m r [] = some r := rfl

theorem descend_cons_of_present (h : E.present (m r i) = true) :
    E.descend m r (i :: π) = E.descend m (E.target (m r i)) π :=
  if_pos h

theorem descend_cons_of_absent (h : E.present (m r i) = false) : E.descend m r (i :: π) = none :=
  if_neg (by rw [h]; exact Bool.false_ne_true)

theorem descend_append :
    E.descend m r (π ++ σ) = (E.descend m r π).bind fun f => E.descend m f σ := by
  induction π generalizing r with
  | nil => rfl
  | cons i π ih =>
    rw [cons_append]
    cases h : E.present (m r i) with
    | true => rw [descend_cons_of_present h, descend_cons_of_present h, ih]
    | false => rw [descend_cons_of_absent h, descend_cons_of_absent h, bind_none]

section

variable (h : E.descend m r π = some f)

include h

theorem descend_append_of_some : E.descend m r (π ++ σ) = E.descend m f σ := by
  rw [descend_append, h, bind_some]

theorem descend_snoc (hp : E.present (m f i) = true) :
    E.descend m r (π ++ [i]) = some (E.target (m f i)) := by
  rw [descend_append_of_some h, descend_cons_of_present hp, descend_nil]

theorem entryAt_of_some : E.entryAt m r π i = m f i := by
  rw [entryAt, h]

end

theorem entryAt_of_none (h : E.descend m r π = none) : E.entryAt m r π i = E.empty := by
  rw [entryAt, h]

/-- A path depends on the words it passes only. -/
theorem descend_congr
    (h : ∀ π1 i π2 g, π = π1 ++ i :: π2 → E.descend m r π1 = some g → m' g i = m g i) :
    E.descend m' r π = E.descend m r π := by
  induction π generalizing r with
  | nil => rfl
  | cons i π ih =>
    have hword : m' r i = m r i := h [] i π r rfl rfl
    cases hp : E.present (m r i) with
    | false => rw [descend_cons_of_absent hp, descend_cons_of_absent (hword ▸ hp)]
    | true =>
      rw [descend_cons_of_present hp, descend_cons_of_present (hword ▸ hp), hword]
      apply ih
      intro π1 j π2 g hsplit _
      refine h (i :: π1) j π2 g (by rw [hsplit]; rfl) ?_
      rwa [descend_cons_of_present hp]

/-- Where a path that leads nowhere breaks off. -/
theorem exists_absent_of_descend_eq_none (h : E.descend m r π = none) :
    ∃ π1 i π2 g, π = π1 ++ i :: π2 ∧ E.descend m r π1 = some g ∧ E.present (m g i) = false := by
  induction π generalizing r with
  | nil => cases h
  | cons i π ih =>
    cases hp : E.present (m r i) with
    | false => exact ⟨[], i, π, r, rfl, rfl, hp⟩
    | true =>
      rw [descend_cons_of_present hp] at h
      obtain ⟨π1, j, π2, g, rfl, _, habsent⟩ := ih h
      exact ⟨i :: π1, j, π2, g, rfl, by rwa [descend_cons_of_present hp], habsent⟩

theorem present_of_descend (h : E.descend m r (σ ++ i :: π) = some f)
    (hg : E.descend m r σ = some g) : E.present (m g i) = true := by
  rw [descend_append_of_some hg] at h
  cases hp : E.present (m g i) with
  | true => rfl
  | false =>
    rw [descend_cons_of_absent hp] at h
    cases h

/-! ## Tables of a forest

`depth r = some d` says that `r` is a root with `d` levels of tables below
it. -/

section

variable (E) in
/-- `f` is the table at `π` below the root `r`. -/
def TableAt (m : F → I → W) (depth : F → Option Nat) (r : F) (π : List I) (f : F) : Prop :=
  ∃ d, depth r = some d ∧ π.length ≤ d ∧ E.descend m r π = some f

variable (E) in
/-- No frame is the table of two paths, nor of two roots unless the path to it
starts with a shared index. -/
structure Forest (m : F → I → W) (depth : F → Option Nat) (shared : I → Prop) : Prop where
  unique : ∀ {r r' π π' f}, E.TableAt m depth r π f → E.TableAt m depth r' π' f →
    π = π' ∧ depth r = depth r' ∧ (r = r' ∨ ∃ i σ, π = i :: σ ∧ shared i)

variable {depth depth' : F → Option Nat} {shared : I → Prop} {d : Nat}

theorem tableAt_root (h : depth r = some d) : E.TableAt m depth r [] r :=
  ⟨d, h, Nat.zero_le d, rfl⟩

/-- A table at the root is the root itself, and no other root leads to it. -/
theorem Forest.root_unique (h : E.Forest m depth shared) (hd : depth r = some d)
    (hr : E.TableAt m depth r' π r) : π = [] ∧ r' = r := by
  obtain ⟨hπ, -, hroot⟩ := h.unique hr (tableAt_root hd)
  refine ⟨hπ, ?_⟩
  rcases hroot with hroot | ⟨i, σ, hcons, -⟩
  · exact hroot
  · rw [hπ] at hcons
    cases hcons

theorem Forest.mono (h : E.Forest m depth shared)
    (hdepth : ∀ r d, depth' r = some d → depth r = some d) : E.Forest m depth' shared := by
  constructor
  intro r r' _ _ f hr hr'
  obtain ⟨d, hd, hlen, hf⟩ := hr
  obtain ⟨d', hd', hlen', hf'⟩ := hr'
  obtain ⟨hπ, hdd, hroot⟩ :=
    h.unique ⟨d, hdepth r d hd, hlen, hf⟩ ⟨d', hdepth r' d' hd', hlen', hf'⟩
  rw [hdepth r d hd, hdepth r' d' hd'] at hdd
  exact ⟨hπ, by rw [hd, hd', hdd], hroot⟩

/-! ### Words outside of the tables -/

section

variable (hsame : ∀ {r π f}, E.TableAt m depth r π f → ∀ i, m' f i = m f i)

include hsame in
theorem descend_of_tables_eq (hd : depth r = some d) (hπ : π.length ≤ d) :
    E.descend m' r π = E.descend m r π := by
  apply descend_congr
  intro π1 j π2 g hsplit hg
  have hlen : π.length = π1.length + (π2.length + 1) := by
    rw [hsplit, length_append, length_cons]
  exact hsame ⟨d, hd, by omega, hg⟩ j

include hsame in
theorem tableAt_of_tables_eq : E.TableAt m' depth r π f ↔ E.TableAt m depth r π f := by
  constructor
  · rintro ⟨d, hd, hπ, hf⟩
    rw [descend_of_tables_eq hsame hd hπ] at hf
    exact ⟨d, hd, hπ, hf⟩
  · rintro ⟨d, hd, hπ, hf⟩
    refine ⟨d, hd, hπ, ?_⟩
    rwa [descend_of_tables_eq hsame hd hπ]

include hsame in
theorem entryAt_of_tables_eq (hd : depth r = some d) (hπ : π.length ≤ d) :
    E.entryAt m' r π i = E.entryAt m r π i := by
  unfold entryAt
  rw [descend_of_tables_eq hsame hd hπ]
  cases hf : E.descend m r π with
  | none => rfl
  | some => exact hsame ⟨d, hd, hπ, hf⟩ i

include hsame in
theorem Forest.of_tables_eq (h : E.Forest m depth shared) : E.Forest m' depth shared := by
  constructor
  intro r _ _ _ f hr hr'
  rw [tableAt_of_tables_eq hsame] at hr hr'
  exact h.unique hr hr'

end

/-! ### Writing at the last level -/

section

variable [DecidableEq F] [DecidableEq I] {r₀ : F} {π₀ : List I} {w : W}

section

variable (h : E.Forest m depth shared)

include h

section

variable (hf : E.TableAt m depth r₀ π₀ f)

include hf

section

variable (hleaf : depth r₀ = some π₀.length)

include hleaf

theorem Forest.descend_writeLeaf (hd : depth r = some d) (hπ : π.length ≤ d) :
    E.descend (write m f i w) r π = E.descend m r π := by
  apply descend_congr
  intro π1 j π2 g hsplit hg
  apply write_of_ne
  rintro ⟨rfl, rfl⟩
  have hlen : π.length = π1.length + (π2.length + 1) := by
    rw [hsplit, length_append, length_cons]
  -- a path through the last level would be too long
  obtain ⟨hpath, hdepth, -⟩ := h.unique ⟨d, hd, by omega, hg⟩ hf
  rw [hd, hleaf, some_inj] at hdepth
  rw [hpath] at hlen
  omega

theorem Forest.tableAt_writeLeaf :
    E.TableAt (write m f i w) depth r π g ↔ E.TableAt m depth r π g := by
  constructor
  · rintro ⟨d, hd, hπ, hg⟩
    rw [h.descend_writeLeaf hf hleaf hd hπ] at hg
    exact ⟨d, hd, hπ, hg⟩
  · rintro ⟨d, hd, hπ, hg⟩
    refine ⟨d, hd, hπ, ?_⟩
    rwa [h.descend_writeLeaf hf hleaf hd hπ]

theorem Forest.writeLeaf : E.Forest (write m f i w) depth shared := by
  constructor
  intro r _ _ _ g hr hr'
  rw [h.tableAt_writeLeaf hf hleaf] at hr hr'
  exact h.unique hr hr'

/-- The one entry written, as seen from any root. -/
theorem Forest.entryAt_writeLeaf (hd : depth r = some d) (hπ : π.length ≤ d) :
    E.entryAt (write m f i w) r π j =
      if E.descend m r π = some f ∧ j = i then w else E.entryAt m r π j := by
  unfold entryAt
  rw [h.descend_writeLeaf hf hleaf hd hπ]
  cases hg : E.descend m r π with
  | none => simp
  | some => simp [write]

end

end

end

end

/-! ### Hanging in a fresh table -/

section

variable [DecidableEq F] [DecidableEq I] {r₀ : F} {π₀ : List I} {w : W}

variable (E) in
/-- The frame `n` emptied and named by the word at `f`, `i`. -/
def linked (m : F → I → W) (f : F) (i : I) (n : F) (w : W) : F → I → W :=
  write (fill m n fun _ => E.empty) f i w

variable (E) in
/-- A fresh frame for an absent entry above the last level. -/
structure Linkable (m : F → I → W) (depth : F → Option Nat) (r₀ : F) (π₀ : List I) (f : F)
    (i : I) (n : F) (w : W) : Prop where
  table : E.TableAt m depth r₀ π₀ f
  interior : ∃ d, depth r₀ = some d ∧ π₀.length < d
  absent : E.present (m f i) = false
  fresh : ∀ r π, ¬ E.TableAt m depth r π n
  present : E.present w = true
  target : E.target w = n

omit [DecidableEq F] [DecidableEq I] in
theorem Linkable.ne (hl : E.Linkable m depth r₀ π₀ f i n w) : f ≠ n := by
  rintro rfl
  exact hl.fresh _ _ hl.table

theorem linked_link : E.linked m f i n w f i = w := write_same _ _ _ _

theorem Linkable.linked_fresh (hl : E.Linkable m depth r₀ π₀ f i n w) (j : I) :
    E.linked m f i n w n j = E.empty := by
  rw [linked, write_of_ne fun h => hl.ne h.1.symm, fill_same]

theorem linked_of_ne (hg : g ≠ n) (hgj : ¬ (g = f ∧ j = i)) : E.linked m f i n w g j = m g j := by
  rw [linked, write_of_ne hgj, fill_of_ne hg]

section

variable (hl : E.Linkable m depth r₀ π₀ f i n w)

include hl

/-- Paths that lead somewhere still lead there. -/
theorem Linkable.descend_of_some (hd : depth r = some d) (hπ : π.length ≤ d)
    (hg : E.descend m r π = some g) : E.descend (E.linked m f i n w) r π = some g := by
  rw [← hg]
  apply descend_congr
  intro π1 j π2 h hsplit hh
  have hlen : π.length = π1.length + (π2.length + 1) := by
    rw [hsplit, length_append, length_cons]
  apply linked_of_ne
  · rintro rfl
    exact hl.fresh r π1 ⟨d, hd, by omega, hh⟩
  · rintro ⟨rfl, rfl⟩
    rw [hsplit] at hg
    have hp := present_of_descend hg hh
    rw [hl.absent] at hp
    cases hp

/-- A path that now leads somewhere and did not before ends at the new
table. -/
theorem Linkable.descend_of_none (hd : depth r = some d) (hπ : π.length ≤ d)
    (hnone : E.descend m r π = none) :
    E.descend (E.linked m f i n w) r π = none ∨ E.descend (E.linked m f i n w) r π = some n ∧
        ∃ π1, π = π1 ++ [i] ∧ E.descend m r π1 = some f := by
  obtain ⟨π1, j, π2, g, rfl, hg, _⟩ := exists_absent_of_descend_eq_none hnone
  rw [length_append, length_cons] at hπ
  have hg' := hl.descend_of_some hd (by omega) hg
  rw [descend_append_of_some hg']
  have hgn : g ≠ n := by
    rintro rfl
    exact hl.fresh r π1 ⟨d, hd, by omega, hg⟩
  by_cases hgj : g = f ∧ j = i
  · obtain ⟨rfl, rfl⟩ := hgj
    have hp : E.present (E.linked m g j n w g j) = true := by
      rw [linked_link]
      exact hl.present
    rw [descend_cons_of_present hp, linked_link, hl.target]
    cases π2 with
    | nil => exact .inr ⟨rfl, π1, rfl, hg⟩
    | cons =>
      left
      apply descend_cons_of_absent
      rw [hl.linked_fresh, E.present_empty]
  · left
    apply descend_cons_of_absent
    rwa [linked_of_ne hgn hgj]

theorem Linkable.tableAt_iff :
    E.TableAt (E.linked m f i n w) depth r π g ↔ E.TableAt m depth r π g ∨
        (g = n ∧ ∃ d π1, depth r = some d ∧ π.length ≤ d ∧ π = π1 ++ [i] ∧
          E.descend m r π1 = some f) := by
  constructor
  · rintro ⟨d, hd, hπ, hg⟩
    cases hold : E.descend m r π with
    | some =>
      rw [hl.descend_of_some hd hπ hold] at hg
      exact .inl ⟨d, hd, hπ, hg ▸ hold⟩
    | none =>
      rcases hl.descend_of_none hd hπ hold with hnone | ⟨hn, π1, hsplit, hf⟩
      · rw [hnone] at hg
        cases hg
      · rw [hn, some_inj] at hg
        exact .inr ⟨hg.symm, d, π1, hd, hπ, hsplit, hf⟩
  · rintro (⟨d, hd, hπ, hg⟩ | ⟨rfl, d, π1, hd, hπ, rfl, hf⟩)
    · exact ⟨d, hd, hπ, hl.descend_of_some hd hπ hg⟩
    · refine ⟨d, hd, hπ, ?_⟩
      rw [length_append] at hπ
      have hf' := hl.descend_of_some hd (by omega) hf
      have hp : E.present (E.linked m f i g w f i) = true := by
        rw [linked_link]
        exact hl.present
      rw [descend_snoc hf' hp, linked_link, hl.target]

theorem Linkable.forest (h : E.Forest m depth shared) :
    E.Forest (E.linked m f i n w) depth shared := by
  constructor
  intro r r' π π' g hr hr'
  rw [hl.tableAt_iff] at hr hr'
  rcases hr with hr | ⟨rfl, d, π1, hd, hlen, rfl, hf⟩
  · rcases hr' with hr' | ⟨rfl, -⟩
    · exact h.unique hr hr'
    · exact absurd hr (hl.fresh r π)
  · rcases hr' with hr' | ⟨-, d', π1', hd', hlen', rfl, hf'⟩
    · exact absurd hr' (hl.fresh r' π')
    · rw [length_append] at hlen hlen'
      obtain ⟨rfl, hdepth, hroot⟩ := h.unique ⟨d, hd, by omega, hf⟩ ⟨d', hd', by omega, hf'⟩
      refine ⟨rfl, hdepth, hroot.imp_right ?_⟩
      rintro ⟨j, σ, rfl, hj⟩
      exact ⟨j, σ ++ [i], rfl, hj⟩

theorem Linkable.entryAt_eq (h : E.Forest m depth shared) (hd : depth r = some π.length) :
    E.entryAt (E.linked m f i n w) r π j = E.entryAt m r π j := by
  cases hold : E.descend m r π with
  | some =>
    rw [entryAt_of_some hold, entryAt_of_some (hl.descend_of_some hd le_rfl hold)]
    apply linked_of_ne
    · rintro rfl
      exact hl.fresh r π ⟨_, hd, le_rfl, hold⟩
    · rintro ⟨rfl, -⟩
      -- `f` is a table above the last level
      obtain ⟨rfl, hdepth, -⟩ := h.unique ⟨_, hd, le_rfl, hold⟩ hl.table
      obtain ⟨d, hd0, _⟩ := hl.interior
      rw [hd, hd0, some_inj] at hdepth
      omega
  | none =>
    rw [entryAt_of_none hold]
    rcases hl.descend_of_none hd le_rfl hold with hnone | ⟨hn, -⟩
    · rw [entryAt_of_none hnone]
    · rw [entryAt_of_some hn, hl.linked_fresh]

end

end

/-! ### A new root

A fresh frame whose present words, if any, are copies of the shared words of
another root. -/

section

variable [DecidableEq F] {k : F} {row : I → W}

variable (E) in
structure Clonable (m : F → I → W) (depth : F → Option Nat) (shared : I → Prop) (k n : F)
    (d : Nat) (row : I → W) : Prop where
  fresh : ∀ r π, ¬ E.TableAt m depth r π n
  copied : ∀ j, E.present (row j) = true → depth k = some d ∧ shared j ∧ row j = m k j

section

variable (hc : E.Clonable m depth shared k n d row)

include hc

/-- The tables of the other roots keep away from the new frame. -/
theorem Clonable.tables_eq (ht : E.TableAt m depth r π f) (i : I) : fill m n row f i = m f i := by
  apply fill_of_ne
  rintro rfl
  exact hc.fresh r π ht

theorem Clonable.descend_old {d' : Nat} (hd : depth r = some d') (hπ : π.length ≤ d') :
    E.descend (fill m n row) r π = E.descend m r π :=
  descend_of_tables_eq hc.tables_eq hd hπ

/-- Below the new root one is in the shared part of the old one. -/
theorem Clonable.descend_new (hπ : (j :: π).length ≤ d) : E.descend (fill m n row) n (j :: π) =
      if E.present (row j) then E.descend m k (j :: π) else none := by
  have hword : fill m n row n j = row j := fill_same _ _ _ _
  split_ifs with hp
  · obtain ⟨hroot, -, hcopy⟩ := hc.copied j hp
    have hkn : k ≠ n := by
      rintro rfl
      exact hc.fresh k [] (tableAt_root hroot)
    have hkj : fill m n row k j = row j := by rw [fill_of_ne hkn, hcopy]
    rw [← hc.descend_old hroot hπ, descend_cons_of_present (by rw [hword]; exact hp),
      descend_cons_of_present (by rw [hkj]; exact hp), hword, hkj]
  · apply descend_cons_of_absent
    rw [hword]
    exact Bool.eq_false_iff.mpr hp

theorem Clonable.tableAt_cases (ht : E.TableAt (fill m n row) (update depth n (some d)) r π g) :
    (r ≠ n ∧ E.TableAt m depth r π g) ∨ (r = n ∧ π = [] ∧ g = n) ∨
      (r = n ∧ depth k = some d ∧ ∃ j σ, π = j :: σ ∧ shared j ∧ E.TableAt m depth k π g) := by
  obtain ⟨d', hd, hπ, hg⟩ := ht
  by_cases hr : r = n
  · subst hr
    rw [update_self, some_inj] at hd
    subst hd
    cases π with
    | nil => exact .inr (.inl ⟨rfl, rfl, (some_inj.mp hg).symm⟩)
    | cons j σ =>
      rw [hc.descend_new hπ] at hg
      split_ifs at hg with hp
      obtain ⟨hroot, hj, -⟩ := hc.copied j hp
      exact .inr (.inr ⟨rfl, hroot, j, σ, rfl, hj, d, hroot, hπ, hg⟩)
  · rw [update_of_ne hr] at hd
    rw [hc.descend_old hd hπ] at hg
    exact .inl ⟨hr, d', hd, hπ, hg⟩

theorem Clonable.forest (h : E.Forest m depth shared) :
    E.Forest (fill m n row) (update depth n (some d)) shared := by
  constructor
  intro r r' π π' g hr hr'
  rcases hc.tableAt_cases hr with ⟨hne, ht⟩ | ⟨rfl, rfl, rfl⟩ | ⟨rfl, hk, j, σ, rfl, hj, ht⟩
  · rcases hc.tableAt_cases hr' with
      ⟨hne', ht'⟩ | ⟨rfl, rfl, rfl⟩ | ⟨rfl, hk, j, σ, rfl, hj, ht'⟩
    · rw [update_of_ne hne, update_of_ne hne']
      exact h.unique ht ht'
    · exact absurd ht (hc.fresh r π)
    · obtain ⟨rfl, hdepth, -⟩ := h.unique ht ht'
      rw [update_of_ne hne, update_self, hdepth, hk]
      exact ⟨rfl, rfl, .inr ⟨j, σ, rfl, hj⟩⟩
  · rcases hc.tableAt_cases hr' with ⟨hne', ht'⟩ | ⟨rfl, rfl, -⟩ | ⟨rfl, -, j, σ, rfl, hj, ht'⟩
    · exact absurd ht' (hc.fresh r' π')
    · exact ⟨rfl, rfl, .inl rfl⟩
    · exact absurd ht' (hc.fresh _ _)
  · rcases hc.tableAt_cases hr' with
      ⟨hne', ht'⟩ | ⟨rfl, rfl, rfl⟩ | ⟨rfl, -, j', σ', rfl, hj', ht'⟩
    · obtain ⟨rfl, hdepth, -⟩ := h.unique ht ht'
      rw [update_of_ne hne', update_self, ← hdepth, hk]
      exact ⟨rfl, rfl, .inr ⟨j, σ, rfl, hj⟩⟩
    · exact absurd ht (hc.fresh _ _)
    · obtain ⟨hπ, -, -⟩ := h.unique ht ht'
      exact ⟨hπ, rfl, .inl rfl⟩

theorem Clonable.entryAt_old {d' : Nat} (hd : depth r = some d') (hπ : π.length ≤ d') :
    E.entryAt (fill m n row) r π i = E.entryAt m r π i :=
  entryAt_of_tables_eq hc.tables_eq hd hπ

theorem Clonable.entryAt_new (hπ : (j :: π).length ≤ d) : E.entryAt (fill m n row) n (j :: π) i =
      if E.present (row j) then E.entryAt m k (j :: π) i else E.empty := by
  rw [entryAt, hc.descend_new hπ]
  split_ifs with hp
  · obtain ⟨hroot, -, -⟩ := hc.copied j hp
    rw [← hc.entryAt_old hroot hπ, entryAt, hc.descend_old hroot hπ]
  · rfl

end

end

end

end EntryFormat

end AgenticOS.Foundation
