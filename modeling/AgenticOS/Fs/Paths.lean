import AgenticOS.Fs.Ext2

/-!
# Paths and their components

The walk along a path takes its components in turn, and slashes at the ends or
next to each other make no difference. The last component is the name that
`split_parent_and_basename` splits off.
-/

namespace AgenticOS.Ext2

open Foundation List

variable {acc path xs ys : List UInt8}

theorem componentsFrom_slash (acc ys : List UInt8) : componentsFrom acc (slash :: ys) =
      (if acc = [] then [] else [acc.reverse]) ++ componentsFrom [] ys := rfl

theorem componentsFrom_append_slash (acc xs ys : List UInt8) :
    componentsFrom acc (xs ++ slash :: ys) = componentsFrom acc xs ++ componentsFrom [] ys := by
  induction xs generalizing acc with
  | nil => rw [nil_append, componentsFrom_slash, componentsFrom]
  | cons c xs ih =>
    simp only [cons_append, componentsFrom]
    split_ifs
    · rw [ih, nil_append, nil_append]
    · rw [ih, append_assoc]
    · exact ih _

theorem componentsFrom_of_notMem (h : ∀ c ∈ xs, isSlash c = false) :
    componentsFrom acc xs = if acc.reverse ++ xs = [] then [] else [acc.reverse ++ xs] := by
  induction xs generalizing acc with
  | nil => simp [componentsFrom]
  | cons c xs ih =>
    have hc := h c mem_cons_self
    rw [componentsFrom, if_neg (by rw [hc]; decide), ih fun d hd => h d (mem_cons_of_mem _ hd)]
    simp

theorem eq_slash_of_isSlash {c : UInt8} (h : isSlash c = true) : c = slash := beq_iff_eq.mp h

theorem componentsFrom_dropWhile (path : List UInt8) :
    componentsFrom [] (path.dropWhile isSlash) = componentsFrom [] path := by
  induction path with
  | nil => rfl
  | cons c path ih =>
    rw [dropWhile_cons]
    split_ifs with hc
    · rw [ih, eq_slash_of_isSlash hc, componentsFrom_slash, if_pos rfl, nil_append]
    · rfl

theorem componentsFrom_dropWhile_reverse (acc path : List UInt8) :
    componentsFrom acc (path.reverse.dropWhile isSlash).reverse = componentsFrom acc path := by
  induction path using reverseRecOn with
  | nil => rfl
  | append_singleton path c ih =>
    rw [reverse_append, reverse_singleton, singleton_append, dropWhile_cons]
    split_ifs with hc
    · rw [ih, eq_slash_of_isSlash hc, componentsFrom_append_slash]
      exact (append_nil _).symm
    · simp

theorem components_eq (path : List UInt8) : components path = componentsFrom [] path := by
  rw [components, trimSlashes, componentsFrom_dropWhile_reverse, componentsFrom_dropWhile]

theorem dropWhile_eq_nil_or_slash (xs : List UInt8) : xs.dropWhile (fun c => !isSlash c) = [] ∨
      ∃ ys, xs.dropWhile (fun c => !isSlash c) = slash :: ys := by
  rcases h : xs.dropWhile (fun c => !isSlash c) with _ | ⟨c, ys⟩
  · exact .inl rfl
  · have hne : xs.dropWhile (fun c => !isSlash c) ≠ [] := by
      rw [h]
      exact nofun
    have hhead := head_dropWhile_not (fun c => !isSlash c) hne
    simp only [h, head_cons, Bool.not_eq_false'] at hhead
    exact .inr ⟨ys, by rw [eq_slash_of_isSlash hhead]⟩

theorem isSlash_of_mem_takeWhile {xs : List UInt8} {c : UInt8}
    (h : c ∈ xs.takeWhile fun c => !isSlash c) : isSlash c = false := by
  have hc := mem_takeWhile_imp h
  rwa [Bool.not_eq_true'] at hc

/-- The components are what `PathComponentIterator` yields: one call of `next` after
the other. -/
theorem componentsFrom_next {remainder : List UInt8} (h : ∀ c, remainder.head? = some c →
    isSlash c = false) :
    componentsFrom [] remainder = match nextComponent remainder with
      | none => []
      | some (segment, rest) => segment :: componentsFrom [] rest := by
  unfold nextComponent
  split_ifs with hnil
  · rw [hnil]
    rfl
  · have hsplit := takeWhile_append_dropWhile (p := fun c => !isSlash c) (l := remainder)
    have hsegment : remainder.takeWhile (fun c => !isSlash c) ≠ [] := by
      obtain ⟨c, rest, rfl⟩ := exists_cons_of_ne_nil hnil
      rw [takeWhile_cons, h c rfl]
      exact nofun
    have hone : componentsFrom [] (remainder.takeWhile fun c => !isSlash c) =
        [remainder.takeWhile fun c => !isSlash c] := by
      rw [componentsFrom_of_notMem fun c => isSlash_of_mem_takeWhile]
      exact if_neg hsegment
    dsimp only
    conv_lhs => rw [← hsplit]
    rw [componentsFrom_dropWhile]
    obtain hend | ⟨ys, hend⟩ := dropWhile_eq_nil_or_slash remainder
    · rw [hend, append_nil, hone]
      rfl
    · rw [hend, componentsFrom_append_slash, hone, componentsFrom_slash]
      rfl

def yielded : Nat → List UInt8 → List (List UInt8)
  | 0, _ => []
  | n + 1, remainder => match nextComponent remainder with
    | none => []
    | some (segment, rest) => segment :: yielded n rest

theorem yielded_of_le {n : Nat} {remainder : List UInt8} (hn : remainder.length ≤ n)
    (h : ∀ c, remainder.head? = some c → isSlash c = false) :
    yielded n remainder = componentsFrom [] remainder := by
  induction n generalizing remainder with
  | zero =>
    rw [length_eq_zero_iff.mp (Nat.le_zero.mp hn)]
    rfl
  | succ n ih =>
    rw [componentsFrom_next h, yielded]
    cases remainder with
    | nil => rfl
    | cons c rest =>
      refine congrArg (_ :: ·) (ih ?_ fun d hd => ?_)
      · rw [dropWhile_cons, h c rfl]
        exact (length_dropWhile_le _ _).trans
          ((length_dropWhile_le _ _).trans (Nat.le_of_succ_le_succ hn))
      · have hhead := head?_dropWhile_not isSlash ((c :: rest).dropWhile fun c => !isSlash c)
        rwa [hd] at hhead

/-- **The whole iteration.** As many calls as there are bytes yield all components. -/
theorem yielded_components (path : List UInt8) :
    yielded path.length (trimSlashes path) = components path := by
  have htrim : trimSlashes path <+: path.dropWhile isSlash := by
    rw [trimSlashes, ← reverse_suffix, reverse_reverse]
    exact dropWhile_suffix _
  refine yielded_of_le (htrim.length_le.trans (length_dropWhile_le _ _)) fun c hc => ?_
  have hhead := head?_dropWhile_not isSlash path
  obtain ⟨_, hrest⟩ := htrim
  rwa [← hrest, head?_append, hc] at hhead

theorem components_split (hleaf : (splitParentAndBasename path).2 ≠ []) :
    components path = components (splitParentAndBasename path).1 ++
      [(splitParentAndBasename path).2] := by
  rw [components_eq (splitParentAndBasename path).1]
  unfold components splitParentAndBasename at *
  dsimp only at *
  generalize trimSlashes path = t at *
  have hone : componentsFrom [] (t.reverse.takeWhile fun c => !isSlash c).reverse =
      [(t.reverse.takeWhile fun c => !isSlash c).reverse] := by
    rw [componentsFrom_of_notMem fun c hc => isSlash_of_mem_takeWhile (mem_reverse.mp hc)]
    exact if_neg hleaf
  have hsplit : t = (t.reverse.dropWhile fun c => !isSlash c).reverse ++
      (t.reverse.takeWhile fun c => !isSlash c).reverse := by
    rw [← reverse_append, takeWhile_append_dropWhile, reverse_reverse]
  generalize (t.reverse.takeWhile fun c => !isSlash c).reverse = leaf at *
  obtain hend | ⟨ys, hend⟩ := dropWhile_eq_nil_or_slash t.reverse
  · -- the path is a name
    rw [hend, reverse_nil, nil_append] at hsplit
    rw [hsplit, hone, Nat.sub_self]
    rfl
  · rw [hend, reverse_cons, append_assoc, singleton_append] at hsplit
    have htake : t.take (t.length - leaf.length - 1) = ys.reverse := by
      rw [hsplit, length_append, length_cons]
      have hlen : ys.reverse.length + (leaf.length + 1) - leaf.length - 1 = ys.reverse.length := by
        omega
      rw [hlen, take_left]
    rw [htake]
    conv_lhs => rw [hsplit]
    rw [componentsFrom_append_slash, hone]

/-! ## Resolving a path -/

/-- `resolve_path` with a reader that always gives the same block for a directory. -/
def resolvePath (read : Nat → Option ByteBlock) (path : List UInt8) (start : Nat) :
    Option (Nat × UInt8) :=
  (resolveFrom (fun s inode => (read inode, s)) (components path) (start, ftDir) ()).1

def lookupIn (read : Nat → Option ByteBlock) (dir : Nat × UInt8) (name : List UInt8) :
    Option (Nat × UInt8) :=
  if dir.2 ≠ ftDir then none else (read dir.1).bind fun buf => findDirEntry buf name

/-- The segments between the slashes, the empty ones left out. -/
def segments (path : List UInt8) : List (List UInt8) := (path.splitOn slash).filter (· ≠ [])

theorem modifyHead_nil_append (xss : List (List UInt8)) :
    xss.modifyHead (([] : List UInt8).reverse ++ ·) = xss := by
  cases xss <;> rfl

theorem componentsFrom_eq_splitOn (acc path : List UInt8) : componentsFrom acc path =
      ((path.splitOn slash).modifyHead (acc.reverse ++ ·)).filter (· ≠ []) := by
  unfold splitOn
  induction path generalizing acc with
  | nil => by_cases hacc : acc = [] <;> simp [componentsFrom, splitOnP_nil, hacc]
  | cons c path ih =>
    rw [splitOnP_cons_eq_if_modifyHead, componentsFrom]
    show (if (c == slash) = true then _ else _) = _
    split_ifs with hc hacc
    · rw [ih, modifyHead_nil_append, hacc]
      rfl
    · rw [ih, modifyHead_nil_append]
      simp [hacc]
    · rw [ih, modifyHead_modifyHead]
      congr 2
      ext xs
      simp

theorem components_eq_segments (path : List UInt8) : components path = segments path := by
  rw [components_eq, componentsFrom_eq_splitOn, modifyHead_nil_append, segments]

variable {read : Nat → Option ByteBlock}

theorem resolvePath_eq_foldlM (path : List UInt8) (start : Nat) :
    resolvePath read path start = (components path).foldlM (lookupIn read) (start, ftDir) := by
  unfold resolvePath
  generalize components path = names
  generalize (start, ftDir) = cur
  induction names generalizing cur with
  | nil => rfl
  | cons name names ih =>
    rw [resolveFrom, foldlM_cons, lookupIn]
    split_ifs
    · rfl
    · cases read cur.1 with
      | none => rfl
      | some buf =>
        dsimp only [Option.bind_some]
        cases findDirEntry buf name with
        | none => rfl
        | some next => exact ih next

theorem leaf_ne_nil (h : components path ≠ []) : (splitParentAndBasename path).2 ≠ [] := by
  intro hleaf
  refine h ?_
  rw [splitParentAndBasename, reverse_eq_nil_iff] at hleaf
  rw [components]
  rcases ht : (trimSlashes path).reverse with _ | ⟨c, rest⟩
  · rw [reverse_eq_nil_iff.mp ht]
    rfl
  · -- what is left of a path does not end in a slash
    rw [ht] at hleaf
    rw [trimSlashes, reverse_reverse] at ht
    have hne : (path.dropWhile isSlash).reverse.dropWhile isSlash ≠ [] := by
      rw [ht]
      exact cons_ne_nil c rest
    have hc := head_dropWhile_not isSlash hne
    simp only [ht, head_cons] at hc
    rw [takeWhile_cons_of_pos (by rw [hc]; rfl)] at hleaf
    cases hleaf

/-- **Resolving a path.** It is the lookup of one segment after the other; slashes at the ends
and next to each other make no difference, and the last lookup is that of the name that
`split_parent_and_basename` splits off. -/
theorem resolvePath_compositional (read : Nat → Option ByteBlock) (path : List UInt8)
    (start : Nat) :
    resolvePath read path start = (segments path).foldlM (lookupIn read) (start, ftDir) ∧
    resolvePath read (slash :: path) start = resolvePath read path start ∧
    resolvePath read (path ++ [slash]) start = resolvePath read path start ∧
    (∀ rest, resolvePath read (path ++ slash :: slash :: rest) start =
      resolvePath read (path ++ slash :: rest) start) ∧
    (segments path ≠ [] → resolvePath read path start =
      (resolvePath read (splitParentAndBasename path).1 start).bind fun dir =>
        lookupIn read dir (splitParentAndBasename path).2) := by
  rw [← components_eq_segments]
  have hsame {path path' : List UInt8} (h : componentsFrom [] path' = componentsFrom [] path) :
      resolvePath read path' start = resolvePath read path start := by
    rw [resolvePath_eq_foldlM, resolvePath_eq_foldlM, components_eq, components_eq, h]
  refine ⟨resolvePath_eq_foldlM path start, hsame rfl, hsame ?_, fun rest => hsame ?_,
    fun hne => ?_⟩
  · rw [componentsFrom_append_slash]
    exact append_nil _
  · rw [componentsFrom_append_slash, componentsFrom_append_slash]
    rfl
  · rw [resolvePath_eq_foldlM, resolvePath_eq_foldlM, components_split (leaf_ne_nil hne),
      foldlM_append]
    simp only [foldlM_cons, foldlM_nil, bind_pure]
    rfl

end AgenticOS.Ext2
