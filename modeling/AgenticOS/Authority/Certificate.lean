import AgenticOS.Authority.Graph
import AgenticOS.Foundation.Packed

/-!
# Impossibility certificates

A certificate binds "this principal cannot reach this page" to a checksum of
the live grants (`kernel_common/src/impossibility_certificate.rs`), and its
verification compares checksums only. So its soundness is a matter of
collisions, and its survival of an exact undo a matter of the order in which
the table lists its grants.
-/

namespace AgenticOS.AuthorityGraph

open Foundation Function List Option

/-! ## The checksum -/

def fnvOffset : UInt64 := 0xcbf29ce484222325
def fnvPrime : UInt64 := 0x100000001b3

def mix (h v : UInt64) : UInt64 := xorMul fnvPrime h v

def grantWords (g : Grant) : List UInt64 :=
  (match g.principal with
    | .cpuProcess id => [0, id.toUInt64, 0]
    | .pciDevice bus device function =>
      [1, bus.toUInt64, (device.toUInt64 <<< 8) ||| function.toUInt64]) ++
  [g.physBase, g.len, g.writable.toUInt64, g.executable.toUInt64]

def checksumGraph (g : Graph) : UInt64 :=
  g.foldl
    (fun h slot =>
      match slot with
      | none => h
      | some x => absorb mix h (grantWords x))
    fnvOffset

structure Certificate where
  principal : Principal
  physPage : UInt64
  graphChecksum : UInt64
  deriving DecidableEq

inductive Verdict where
  | valid
  | stale
  deriving DecidableEq

def issue (g : Graph) (principal : Principal) (physPage : UInt64) : Option Certificate :=
  if isReachable g principal physPage then none
  else some { principal, physPage, graphChecksum := checksumGraph g }

def verify (g : Graph) (cert : Certificate) : Verdict :=
  if checksumGraph g ≠ cert.graphChecksum then .stale else .valid

variable {cert : Certificate} {g : Graph}

theorem verify_eq_valid_iff : verify g cert = .valid ↔ checksumGraph g = cert.graphChecksum := by
  unfold verify
  split_ifs with h <;> simp_all

theorem verify_eq_stale_iff : verify g cert = .stale ↔ checksumGraph g ≠ cert.graphChecksum := by
  unfold verify
  split_ifs with h <;> simp_all

/-! ## What the checksum sees

It is a function of the live grants in table order, and one changed word
changes it. -/

def sumOf (xs : List Grant) : UInt64 := absorb mix fnvOffset (xs.flatMap grantWords)

theorem checksumGraph_eq (g : Graph) : checksumGraph g = sumOf (live g) := by
  have h : ∀ h0, g.foldl (fun h slot =>
        match slot with
        | none => h
        | some x => absorb mix h (grantWords x)) h0 =
      absorb mix h0 ((live g).flatMap grantWords) := by
    induction g with
    | nil => intro h0; rfl
    | cons slot g ih =>
      intro h0
      cases slot with
      | none => exact ih h0
      | some =>
        rw [foldl_cons, ih, live_some, flatMap_cons, absorb_append]
  exact h fnvOffset

theorem isUnit_fnvPrime : IsUnit fnvPrime :=
  IsUnit.of_mul_eq_one 0xce965057aff6957b (by decide)

theorem mix_state_injective (v : UInt64) : Injective (mix · v) :=
  xorMul_state_injective isUnit_fnvPrime v

theorem mix_word_injective (h : UInt64) : Injective (mix h) :=
  xorMul_word_injective isUnit_fnvPrime h

variable {xs ys : List Grant}

theorem sumOf_append_right_inj {zs : List Grant} :
    sumOf (xs ++ zs) = sumOf (ys ++ zs) ↔ sumOf xs = sumOf ys := by
  simp only [sumOf, flatMap_append, absorb_append]
  exact (absorb_injective mix_state_injective _).eq_iff

theorem toUInt64_bool_injective : Injective Bool.toUInt64 := by
  unfold Injective
  decide

theorem toNat_packed (device function : UInt8) :
    ((device.toUInt64 <<< 8) ||| function.toUInt64).toNat =
      device.toNat * 256 + function.toNat := by
  rw [show (8 : UInt64) = UInt64.ofNat 8 from rfl, Packed.toNat_shiftLeft_or (by decide)]
  · simp
  · rw [UInt8.toNat_toUInt64]
    exact device.toNat_lt.trans (by decide)
  · rw [UInt8.toNat_toUInt64]
    exact function.toNat_lt

theorem grantWords_injective : Injective grantWords := by
  rintro ⟨principal, base, len, w, x⟩ ⟨principal', base', len', w', x'⟩ h
  cases principal with
  | cpuProcess =>
    cases principal' with
    | cpuProcess =>
      simp only [grantWords, cons_append, nil_append, List.cons.injEq] at h
      obtain ⟨-, hpid, -, hbase, hlen, hw, hx, -⟩ := h
      rw [UInt32.toUInt64_inj.mp hpid, hbase, hlen, toUInt64_bool_injective hw,
        toUInt64_bool_injective hx]
    | pciDevice =>
      simp [grantWords] at h
  | pciDevice bus device function =>
    cases principal' with
    | cpuProcess => simp [grantWords] at h
    | pciDevice bus' device' function' =>
      simp only [grantWords, cons_append, nil_append, List.cons.injEq] at h
      obtain ⟨-, hbus, hpacked, hbase, hlen, hw, hx, -⟩ := h
      have hnat : device.toNat * 256 + function.toNat = device'.toNat * 256 + function'.toNat := by
        rw [← toNat_packed, hpacked, toNat_packed]
      have hf := function.toNat_lt
      have hf' := function'.toNat_lt
      have hdevice : device = device' := UInt8.toNat_inj.mp (by omega)
      have hfunction : function = function' := UInt8.toNat_inj.mp (by omega)
      rw [UInt8.toUInt64_inj.mp hbus, hdevice, hfunction, hbase, hlen,
        toUInt64_bool_injective hw, toUInt64_bool_injective hx]

/-! ## One changed field -/

/-- The grant `x` differs from `y` in exactly one field. -/
inductive FieldChange (y : Grant) : Grant → Prop
  | principal (v) : v ≠ y.principal → FieldChange y { y with principal := v }
  | physBase (v) : v ≠ y.physBase → FieldChange y { y with physBase := v }
  | len (v) : v ≠ y.len → FieldChange y { y with len := v }
  | writable (v) : v ≠ y.writable → FieldChange y { y with writable := v }
  | executable (v) : v ≠ y.executable → FieldChange y { y with executable := v }

theorem toNat_xor_div {h v : UInt64} {k : Nat} (hv : v.toNat < 2 ^ k) :
    (h ^^^ v).toNat / 2 ^ k = h.toNat / 2 ^ k := by
  rw [UInt64.toNat_xor, Nat.xor_div_two_pow, Nat.div_eq_of_lt hv, Nat.xor_zero]

/-- Modulo `2 ^ 64` the product of the prime with a sum of a multiple of it and a short number
is short at zero only. -/
theorem short_product {c e s : Int} (hc : -1 ≤ c ∧ c ≤ 1) (he : -2 ^ 33 < e ∧ e < 2 ^ 33)
    (hs : -2 ^ 16 < s ∧ s < 2 ^ 16)
    (h : 2 ^ 64 ∣ (c * 0x100000001b3 + e) * 0x100000001b3 - s) : c = 0 ∧ e = 0 := by
  obtain ⟨k, _⟩ := h
  obtain ⟨m, hm⟩ : ∃ m, m = 2 ^ 24 * k - 2 ^ 40 * c - 870 * c - e := ⟨_, rfl⟩
  have hlow : 189225 * c + 435 * e - s = 2 ^ 40 * m := by
    rw [hm]
    linarith
  have hm : -4 < m ∧ m < 4 := by omega
  obtain ⟨hc, _⟩ := hc
  obtain ⟨hm, _⟩ := hm
  interval_cases c <;> interval_cases m <;> omega

/-- The running values `x`, `y` and `x'`, `y'` inside the words of two principals. -/
theorem mul_prime_apart {x x' y y' : UInt64} (hx : x.toNat / 2 ^ 1 = x'.toNat / 2 ^ 1)
    (hy : y.toNat / 2 ^ 32 = (x * fnvPrime).toNat / 2 ^ 32)
    (hy' : y'.toNat / 2 ^ 32 = (x' * fnvPrime).toNat / 2 ^ 32)
    (hz : (y * fnvPrime).toNat / 2 ^ 16 = (y' * fnvPrime).toNat / 2 ^ 16) :
    x = x' ∧ y = y' := by
  have hmul (v : UInt64) : (v * fnvPrime).toNat = v.toNat * 0x100000001b3 % 2 ^ 64 :=
    UInt64.toNat_mul v _
  obtain ⟨_, _⟩ := short_product (c := x.toNat - x'.toNat)
    (e := y.toNat - (x * fnvPrime).toNat - (y'.toNat - (x' * fnvPrime).toNat))
    (s := (y * fnvPrime).toNat - (y' * fnvPrime).toNat) (by omega) (by omega) (by omega)
    (by rw [hmul, hmul, hmul, hmul]; omega)
  obtain rfl : x = x' := UInt64.toNat_inj.mp (by omega)
  exact ⟨rfl, UInt64.toNat_inj.mp (by omega)⟩

theorem absorb_principal_inj {h t t' i i' d d' : UInt64} (ht : t.toNat < 2 ^ 1)
    (ht' : t'.toNat < 2 ^ 1) (hi : i.toNat < 2 ^ 32) (hi' : i'.toNat < 2 ^ 32)
    (hd : d.toNat < 2 ^ 16) (hd' : d'.toNat < 2 ^ 16)
    (heq : absorb mix h [t, i, d] = absorb mix h [t', i', d']) : t = t' ∧ i = i' ∧ d = d' := by
  have hlast := isUnit_fnvPrime.mul_left_injective heq
  have hhigh := congrArg (UInt64.toNat · / 2 ^ 16) hlast
  simp only [toNat_xor_div hd, toNat_xor_div hd'] at hhigh
  obtain ⟨htt, hii⟩ := mul_prime_apart ((toNat_xor_div ht).trans (toNat_xor_div ht').symm)
    (toNat_xor_div hi) (toNat_xor_div hi') hhigh
  obtain rfl := (UInt64.xor_right_inj h).mp htt
  obtain rfl := (UInt64.xor_right_inj _).mp hii
  exact ⟨rfl, rfl, (UInt64.xor_right_inj _).mp hlast⟩

theorem grantWords_principal (p : Principal) : ∃ t i d : UInt64, t.toNat < 2 ^ 1 ∧
    i.toNat < 2 ^ 32 ∧ d.toNat < 2 ^ 16 ∧ ∀ base len w x, grantWords ⟨p, base, len, w, x⟩ =
      [t, i, d] ++ [base, len, w.toUInt64, x.toUInt64] := by
  cases p with
  | cpuProcess id =>
    exact ⟨0, id.toUInt64, 0, by decide, id.toNat_lt, by decide, fun _ _ _ _ => rfl⟩
  | pciDevice bus device function =>
    refine ⟨1, _, _, by decide, bus.toNat_lt.trans (by decide), ?_, fun _ _ _ _ => rfl⟩
    have := device.toNat_lt
    have := function.toNat_lt
    rw [toNat_packed]
    omega

theorem FieldChange.absorb_ne {x y : Grant} (hx : FieldChange y x) (h : UInt64) :
    absorb mix h (grantWords x) ≠ absorb mix h (grantWords y) := by
  obtain ⟨p, base, len, w, e⟩ := y
  obtain ⟨t, i, d, ht, hi, hd, hwords⟩ := grantWords_principal p
  have one (pre : List UInt64) {v v' : UInt64} (post : List UInt64) (hne : v ≠ v') :
      absorb mix h (pre ++ v :: post) ≠ absorb mix h (pre ++ v' :: post) :=
    fun heq => hne (absorb_word_inj mix_state_injective mix_word_injective heq)
  cases hx with
  | principal q hne =>
    obtain ⟨_, _, _, ht', hi', hd', hwords'⟩ := grantWords_principal q
    intro heq
    rw [hwords, hwords', absorb_append, absorb_append] at heq
    obtain ⟨rfl, rfl, rfl⟩ := absorb_principal_inj ht' ht hi' hi hd' hd
      (absorb_injective mix_state_injective _ heq)
    have hsame := grantWords_injective ((hwords' base len w e).trans (hwords base len w e).symm)
    exact hne (congrArg Grant.principal hsame)
  | physBase v hne =>
    rw [hwords, hwords]
    exact one [t, i, d] _ hne
  | len v hne =>
    rw [hwords, hwords]
    exact one [t, i, d, base] _ hne
  | writable v hne =>
    rw [hwords, hwords]
    exact one [t, i, d, base, len] _ (toUInt64_bool_injective.ne hne)
  | executable v hne =>
    rw [hwords, hwords]
    exact one [t, i, d, base, len, w.toUInt64] _ (toUInt64_bool_injective.ne hne)

theorem FieldChange.checksumGraph_ne {i : Nat} {x y : Grant} (hx : FieldChange y x)
    (hy : g[i]? = some (some y)) : checksumGraph (g.set i (some x)) ≠ checksumGraph g := by
  obtain ⟨hi, hget⟩ := List.getElem?_eq_some_iff.mp hy
  have hg : g = g.take i ++ some y :: g.drop (i + 1) := by
    rw [← hget, getElem_cons_drop, take_append_drop]
  conv_rhs => rw [hg]
  have hlive (z : Grant) : live (g.take i ++ some z :: g.drop (i + 1)) =
      live (g.take i) ++ [z] ++ live (g.drop (i + 1)) := by simp
  rw [set_eq_take_append_cons_drop, if_pos hi, checksumGraph_eq, checksumGraph_eq, hlive, hlive,
    Ne, sumOf_append_right_inj]
  simp only [sumOf, flatMap_append, absorb_append, flatMap_singleton]
  exact hx.absorb_ne _

/-- **A changed field is noticed.** Changing one field of one live grant changes the checksum,
so that every certificate valid before is stale. -/
theorem field_change_is_stale (g : Graph) (i : Nat) (x y : Grant) (hy : g[i]? = some (some y))
    (hx : FieldChange y x) : checksumGraph (g.set i (some x)) ≠ checksumGraph g ∧
      ∀ cert, verify g cert = .valid → verify (g.set i (some x)) cert = .stale := by
  have hsum := hx.checksumGraph_ne hy
  refine ⟨hsum, fun cert hvalid => ?_⟩
  rw [verify_eq_valid_iff] at hvalid
  rw [verify_eq_stale_iff, ← hvalid]
  exact hsum

theorem field_change_is_stale_owner : checksumGraph
    [none, some ⟨.pciDevice 0 3 0, 0x8000, 0x1000, true, false⟩] ≠ checksumGraph
    [none, some ⟨.cpuProcess 3, 0x8000, 0x1000, true, false⟩] :=
  (field_change_is_stale [none, some ⟨.cpuProcess 3, 0x8000, 0x1000, true, false⟩] 1 _ _ rfl
    (.principal (.pciDevice 0 3 0) (by decide))).1

/-! ## Soundness -/

/-- The certificates for this page issued on `g₁` are true of `g₂` whenever
they are found valid there. -/
def SoundBetween (g₁ g₂ : Graph) (principal : Principal) (physPage : UInt64) : Prop :=
  ∀ cert, issue g₁ principal physPage = some cert → verify g₂ cert = .valid →
    isReachable g₂ principal physPage = false

/-- The checksum has changed, or the principal has been granted nothing new. -/
def NothingNew (g₁ g₂ : Graph) (principal : Principal) : Prop :=
  checksumGraph g₁ ≠ checksumGraph g₂ ∨ ∀ x ∈ live g₂, x.principal = principal → x ∈ live g₁

variable {g₁ g₂ : Graph} {principal : Principal}

theorem NothingNew.soundBetween {physPage : UInt64} (h : NothingNew g₁ g₂ principal) :
    SoundBetween g₁ g₂ principal physPage := by
  intro cert hissue hvalid
  unfold issue at hissue
  split_ifs at hissue with hnot
  cases hissue
  have hsame := h.resolve_left (not_not.mpr (verify_eq_valid_iff.mp hvalid).symm)
  rw [← Bool.not_eq_true]
  intro hreach
  obtain ⟨x, hx, hprincipal, hcovers⟩ := isReachable_iff.mp hreach
  exact hnot (isReachable_iff.mpr ⟨x, hsame x hx hprincipal, hprincipal, hcovers⟩)

def slotsBefore (g : Graph) (x : Grant) : Graph := g.takeWhile (· ≠ some x)

/-- The live grants before `x` that stand in front of the first empty slot. -/
def before (g : Graph) (x : Grant) : List Grant :=
  live ((slotsBefore g x).takeWhile Option.isSome)

/-- The live grants before `x` that stand behind the first empty slot. -/
def between (g : Graph) (x : Grant) : List Grant :=
  live ((slotsBefore g x).dropWhile Option.isSome)

theorem split_of_unique {x : Grant} (hx : x ∈ live g)
    (hunique : g.countP (hit x.principal x.physBase) = 1) :
    ∃ post, g = slotsBefore g x ++ some x :: post ∧ (revoke g x.principal x.physBase).2 =
        slotsBefore g x ++ none :: post := by
  have hsplit : slotsBefore g x ++ g.dropWhile (· ≠ some x) = g :=
    takeWhile_append_dropWhile
  cases hdrop : g.dropWhile (· ≠ some x) with
  | nil =>
    rw [hdrop, append_nil] at hsplit
    have hmem := mem_live.mp hx
    rw [← hsplit] at hmem
    simpa using mem_takeWhile_imp hmem
  | cons slot post =>
    have hslot : slot = some x := by
      have h := head?_dropWhile_not (· ≠ some x) g
      rw [hdrop] at h
      simpa using h
    subst hslot
    rw [hdrop] at hsplit
    refine ⟨post, hsplit.symm, ?_⟩
    have hhit : hit x.principal x.physBase (some x) = true := by simp [hit]
    rw [← hsplit, countP_append, countP_cons, if_pos hhit] at hunique
    have hpre : (slotsBefore g x).countP (hit x.principal x.physBase) = 0 := by omega
    have hpost : post.countP (hit x.principal x.physBase) = 0 := by omega
    have hmiss {g' : Graph} (h : g'.countP (hit x.principal x.physBase) = 0) :
        (g'.map fun slot => if hit x.principal x.physBase slot then none else slot) = g' :=
      revoke_of_no_hit h
    calc (revoke g x.principal x.physBase).2
        = (revoke (slotsBefore g x ++ some x :: post) x.principal x.physBase).2 := by
          rw [hsplit]
      _ = slotsBefore g x ++ none :: post := by
          rw [revoke, map_append, map_cons, hmiss hpre, hmiss hpost, if_pos hhit]

theorem live_regrant {x : Grant} {post : Graph} :
    live (grant (slotsBefore g x ++ none :: post) x).2 =
      before g x ++ x :: between g x ++ live post := by
  have hfull : ∀ slot ∈ (slotsBefore g x).takeWhile isSome, slot.isSome :=
    fun _ => mem_takeWhile_imp
  have hsplit := takeWhile_append_dropWhile (p := isSome) (l := slotsBefore g x)
  unfold before between
  cases hdrop : (slotsBefore g x).dropWhile isSome with
  | nil =>
    -- no hole in front: the grant goes back into its own slot
    rw [hdrop, append_nil] at hsplit
    rw [hsplit] at hfull ⊢
    rw [grant_split x hfull]
    simp
  | cons slot =>
    have hnone : slot = none := by
      have h := head?_dropWhile_not isSome (slotsBefore g x)
      rw [hdrop] at h
      simpa using h
    subst hnone
    rw [hdrop] at hsplit
    conv_lhs => rw [← hsplit, append_assoc, cons_append, grant_split x hfull]
    simp

/-- **Exact undo.** A valid certificate goes stale when the only grant `x` of
its principal at its base is revoked and is valid again after granting `x`
again, if and only if mixing `x` changes the running checksum at its place and
mixing it at the first empty slot instead gives the same value. The second
condition holds in particular when no live grant stands between the first
empty slot and `x`. -/
theorem certificate_undo_iff (g : Graph) (x : Grant) (cert : Certificate) (hx : x ∈ live g)
    (hunique : g.countP (hit x.principal x.physBase) = 1) (hvalid : verify g cert = .valid) :
    (verify (grant (revoke g x.principal x.physBase).2 x).2 cert = .valid ∧
        verify (revoke g x.principal x.physBase).2 cert = .stale) ↔
      sumOf (before g x ++ x :: between g x) = sumOf (before g x ++ between g x ++ [x]) ∧
        sumOf (before g x ++ between g x ++ [x]) ≠ sumOf (before g x ++ between g x) := by
  obtain ⟨post, hg, hrevoke⟩ := split_of_unique hx hunique
  have hpre : live (slotsBefore g x) = before g x ++ between g x := by
    rw [before, between, ← live_append, takeWhile_append_dropWhile]
  have hlive : live g = (before g x ++ between g x ++ [x]) ++ live post := by
    conv_lhs => rw [hg]
    simp [hpre]
  rw [verify_eq_valid_iff, checksumGraph_eq, hlive] at hvalid
  rw [verify_eq_valid_iff, verify_eq_stale_iff, hrevoke, checksumGraph_eq, checksumGraph_eq,
    live_regrant, live_append, hpre, live_none, ← hvalid, sumOf_append_right_inj, ne_eq,
    sumOf_append_right_inj, ne_eq, eq_comm (a := sumOf (before g x ++ between g x))]

theorem certificate_undo_second_slot :
    let x : Grant := ⟨.pciDevice 0 3 0, 0x8000, 0x1000, true, false⟩
    let g : Graph := [some ⟨.cpuProcess 1, 0x400000, 0x2000, true, false⟩, some x, none]
    let cert : Certificate := ⟨.pciDevice 0 3 0, 0x400000, checksumGraph g⟩
    verify (grant (revoke g x.principal x.physBase).2 x).2 cert = .valid ∧
      verify (revoke g x.principal x.physBase).2 cert = .stale :=
  (certificate_undo_iff _ _ _ (by decide) (by decide) (by decide)).mpr (by decide)

/-- Three grants, the first one revoked: revoking the third and granting it
again puts it in front of the second, and a certificate that was valid before
is stale for good. -/
theorem certificate_lost_by_undo :
    let a : Grant := ⟨.cpuProcess 1, 0x400000, 0x1000, true, false⟩
    let b : Grant := ⟨.cpuProcess 2, 0x500000, 0x1000, true, false⟩
    let x : Grant := ⟨.cpuProcess 3, 0x600000, 0x1000, true, false⟩
    let full := (grant (grant (grant [none, none, none] a).2 b).2 x).2
    let g := (revoke full a.principal a.physBase).2
    x ∈ live g ∧ g.countP (hit x.principal x.physBase) = 1 ∧
      ∃ cert, issue g (.cpuProcess 3) 0x400000 = some cert ∧ verify g cert = .valid ∧
        verify (grant (revoke g x.principal x.physBase).2 x).2 cert = .stale := by
  refine ⟨by decide, by decide, ⟨.cpuProcess 3, 0x400000, _⟩, rfl, ?_, ?_⟩ <;> decide

end AgenticOS.AuthorityGraph
