import AgenticOS.Foundation.LittleEndian

/-!
# Application packages

`kernel_rs/src/package.rs`: a header and an ELF file, with an Adler-32 checksum of
the file in the header. The checksum covers neither the version nor the manifest
mask, which says what capabilities the application may get, nor the place of the
file in the package.
-/

namespace AgenticOS

open Foundation List

/-! ## Adler-32 -/

namespace Adler32

def step (ab : UInt32 × UInt32) (byte : UInt8) : UInt32 × UInt32 :=
  let a := (ab.1 + byte.toUInt32) % 65521
  (a, (ab.2 + a) % 65521)

end Adler32

def adler32 (data : List UInt8) : UInt32 :=
  let (a, b) := data.foldl Adler32.step (1, 0)
  (b <<< 16) ||| a

namespace Adler32

/-- The bytes, each counted once for itself and once for every byte behind it. -/
def weighted : List UInt8 → Nat
  | [] => 0
  | byte :: data => (data.length + 1) * byte.toNat + weighted data

variable {data data' : List UInt8} {ab : UInt32 × UInt32}

theorem weighted_append : weighted (data ++ data') =
    weighted data + data'.length * (data.map UInt8.toNat).sum + weighted data' := by
  induction data with
  | nil => simp [weighted]
  | cons byte data ih =>
    rw [cons_append, weighted, weighted, ih, length_append, map_cons, sum_cons]
    ring

theorem toNat_step (ha : ab.1.toNat < 65521) (hb : ab.2.toNat < 65521) (byte : UInt8) :
    (step ab byte).1.toNat = (ab.1.toNat + byte.toNat) % 65521 ∧
      (step ab byte).2.toNat = (ab.2.toNat + (step ab byte).1.toNat) % 65521 := by
  have hbyte := byte.toNat_lt
  simp only [step, UInt32.toNat_mod, UInt32.toNat_add, UInt8.toNat_toUInt32, UInt32.reduceToNat]
  omega

/-- The lower half is the sum of the bytes, the upper one their weighted sum. -/
theorem foldl_step (ha : ab.1.toNat < 65521) (hb : ab.2.toNat < 65521) :
    (data.foldl step ab).1.toNat = (ab.1.toNat + (data.map UInt8.toNat).sum) % 65521 ∧
      (data.foldl step ab).2.toNat =
        (ab.2.toNat + data.length * ab.1.toNat + weighted data) % 65521 := by
  induction data generalizing ab with
  | nil => simp [weighted, Nat.mod_eq_of_lt ha, Nat.mod_eq_of_lt hb]
  | cons byte data ih =>
    obtain ⟨hfst, hsnd⟩ := toNat_step ha hb byte
    rw [foldl_cons]
    obtain ⟨iha, ihb⟩ := ih (hfst ▸ Nat.mod_lt _ (by decide)) (hsnd ▸ Nat.mod_lt _ (by decide))
    rw [iha, ihb, hsnd, hfst, ← ZMod.natCast_eq_natCast_iff', ← ZMod.natCast_eq_natCast_iff']
    simp only [Nat.cast_add, Nat.cast_mul, ZMod.natCast_mod, weighted, map_cons, sum_cons,
      length_cons, Nat.cast_one]
    constructor <;> ring

theorem toNat_adler32 : (adler32 data).toNat = (data.length + weighted data) % 65521 * 65536 +
    (1 + (data.map UInt8.toNat).sum) % 65521 := by
  obtain ⟨ha, hb⟩ := @foldl_step data (1, 0) (by decide) (by decide)
  rw [adler32]
  generalize data.foldl step (1, 0) = ab at ha hb
  have hlt : ab.1.toNat < 2 ^ 16 := by omega
  have hfit : ab.2.toNat * 2 ^ 16 < 2 ^ 32 := by omega
  show ((ab.2 <<< 16) ||| ab.1).toNat = _
  rw [UInt32.toNat_or, UInt32.toNat_shiftLeft, Nat.shiftLeft_eq]
  show ab.2.toNat * 2 ^ 16 % 2 ^ 32 ||| ab.1.toNat = _
  rw [Nat.mod_eq_of_lt hfit, Nat.mul_comm, ← Nat.two_pow_add_eq_or_of_lt hlt, ha, hb]
  simp [Nat.mul_comm]

theorem adler32_ne {i : Nat} (h : DiffersAt data data' i) : adler32 data' ≠ adler32 data := by
  obtain ⟨a, x, y, b, -, hne, rfl, rfl⟩ := h
  intro heq
  have hnat := congrArg UInt32.toNat heq
  rw [toNat_adler32, toNat_adler32, map_append, map_append, map_cons,
    map_cons, sum_append, sum_append, sum_cons, sum_cons] at hnat
  have hx := x.toNat_lt
  have hy := y.toNat_lt
  exact hne (UInt8.toNat_inj.mp (by omega))

/-- Two unequal bytes of `data` less than 65521 places apart are exchanged in `data'`. -/
def Exchanged (data data' : List UInt8) : Prop :=
  ∃ a x m y b, x ≠ y ∧ m.length + 1 < 65521 ∧ data = a ++ x :: (m ++ y :: b) ∧
    data' = a ++ y :: (m ++ x :: b)

theorem adler32_ne_of_exchanged (h : Exchanged data data') : adler32 data' ≠ adler32 data := by
  obtain ⟨a, x, m, y, b, hne, hm, rfl, rfl⟩ := h
  intro heq
  have hnat := congrArg UInt32.toNat heq
  rw [toNat_adler32, toNat_adler32] at hnat
  simp only [length_append, length_cons] at hnat
  generalize a.length + (m.length + (b.length + 1) + 1) = n at hnat
  have hupper : (n + weighted (a ++ y :: (m ++ x :: b))) % 65521 =
      (n + weighted (a ++ x :: (m ++ y :: b))) % 65521 := by omega
  rw [← ZMod.natCast_eq_natCast_iff'] at hupper
  have : Fact (Nat.Prime 65521) := ⟨by norm_num⟩
  have hprod : ((m.length + 1 : ℕ) : ZMod 65521) * (x.toNat - y.toNat) = 0 := by
    simp only [weighted_append, weighted, length_append, length_cons, Nat.cast_add,
      Nat.cast_mul, Nat.cast_one] at hupper ⊢
    linear_combination -hupper
  rcases mul_eq_zero.mp hprod with h | h
  · exact Nat.not_dvd_of_pos_of_lt (Nat.succ_pos _) hm ((ZMod.natCast_eq_zero_iff _ _).mp h)
  · have hxy := (ZMod.natCast_eq_natCast_iff' _ _ _).mp (sub_eq_zero.mp h)
    have hx := x.toNat_lt
    have hy := y.toNat_lt
    exact hne (UInt8.toNat_inj.mp (by omega))

/-- **Small corruptions.** A changed byte and an exchange of two bytes are noticed, and the
checksum of a concatenation is the combination of the two checksums. -/
theorem adler32_detects (data data' : List UInt8) :
    ((∃ i, DiffersAt data data' i) ∨ Exchanged data data' → adler32 data' ≠ adler32 data) ∧
    (adler32 (data ++ data')).toNat =
      ((adler32 data).toNat / 65536 + (adler32 data').toNat / 65536 +
        data'.length * ((adler32 data).toNat % 65536 + 65520)) % 65521 * 65536 +
      ((adler32 data).toNat % 65536 + (adler32 data').toNat % 65536 + 65520) % 65521 := by
  refine ⟨fun h => h.elim (fun ⟨i, h⟩ => adler32_ne h) adler32_ne_of_exchanged, ?_⟩
  have hlow (d : List UInt8) : (adler32 d).toNat % 65536 =
      (1 + (d.map UInt8.toNat).sum) % 65521 := by
    rw [toNat_adler32]
    omega
  have hhigh (d : List UInt8) : (adler32 d).toNat / 65536 =
      (d.length + weighted d) % 65521 := by
    rw [toNat_adler32]
    omega
  have hzero : ((65521 : ℕ) : ZMod 65521) = 0 := ZMod.natCast_self _
  rw [hlow, hlow, hhigh, hhigh, toNat_adler32, weighted_append, length_append, map_append,
    sum_append]
  refine congrArg₂ (· * 65536 + ·) ?_ (by omega)
  rw [← ZMod.natCast_eq_natCast_iff']
  push_cast [ZMod.natCast_mod] at hzero ⊢
  linear_combination -(data'.length : ZMod 65521) * hzero

end Adler32

/-! ## Packages -/

structure PackageHeader where
  magic : List UInt8
  version : UInt32
  manifestMask : UInt16
  flags : UInt16
  elfOffset : UInt32
  elfSize : UInt32
  checksum : UInt32
  name : List UInt8
  deriving DecidableEq

inductive PackageError where
  | tooShort
  | badMagic
  | invalidOffsets
  | checksumMismatch (expected actual : UInt32)
  | updateVersionDowngrade (oldVersion newVersion : UInt32)
  deriving DecidableEq

structure Package where
  header : PackageHeader
  elf : List UInt8
  deriving DecidableEq

namespace Package

def magic : List UInt8 := [0x41, 0x47, 0x59, 0x50, 0x4b, 0x47, 0x31, 0]

/-- `size_of::<PackageHeader>()`. -/
def headerSize : Nat := 60

def readHeader (bytes : List UInt8) : PackageHeader where
  magic := slice bytes 0 8
  version := u32At bytes 8
  manifestMask := u16At bytes 12
  flags := u16At bytes 14
  elfOffset := u32At bytes 16
  elfSize := u32At bytes 20
  checksum := u32At bytes 24
  name := slice bytes 28 32

/-- The bytes of the package that its header gives for the ELF file. -/
def elfOf (bytes : List UInt8) : List UInt8 :=
  slice bytes (readHeader bytes).elfOffset.toNat (readHeader bytes).elfSize.toNat

/-- The place of the ELF file is in the package, behind the header. -/
def Placed (bytes : List UInt8) : Prop :=
  headerSize ≤ (readHeader bytes).elfOffset.toNat ∧
    (readHeader bytes).elfOffset.toNat + (readHeader bytes).elfSize.toNat ≤ bytes.length

instance (bytes : List UInt8) : Decidable (Placed bytes) := inferInstanceAs (Decidable (_ ∧ _))

def parseAndVerify (bytes : List UInt8) : Except PackageError Package :=
  if bytes.length < headerSize then .error .tooShort
  else
    let hdr := readHeader bytes
    if hdr.magic ≠ magic then .error .badMagic
    else if ¬ Placed bytes then .error .invalidOffsets
    else
      let elf := elfOf bytes
      let computed := adler32 elf
      if computed ≠ hdr.checksum then .error (.checksumMismatch hdr.checksum computed)
      else .ok ⟨hdr, elf⟩

/-- `install_package_into_current_thread`: the installer gets the ELF file and the
manifest. -/
def installPackageIntoCurrentThread {ρ : Type*}
    (install : List UInt8 → UInt64 → UInt16 → ρ → Option (UInt64 × UInt64))
    (pkgBytes : List UInt8) (stackVaddr : UInt64) (requests : ρ) : Option (UInt64 × UInt64) :=
  match parseAndVerify pkgBytes with
  | .error _ => none
  | .ok pkg => install pkg.elf stackVaddr pkg.header.manifestMask requests

variable {p q bytes : List UInt8} {pkg : Package} {i : Nat}

theorem parseAndVerify_eq_ok : parseAndVerify bytes = .ok pkg ↔
    headerSize ≤ bytes.length ∧ (readHeader bytes).magic = magic ∧ Placed bytes ∧
      adler32 (elfOf bytes) = (readHeader bytes).checksum ∧
      pkg = ⟨readHeader bytes, elfOf bytes⟩ := by
  unfold parseAndVerify
  dsimp only
  split_ifs with hshort hmagic hplaced hsum
  · exact iff_of_false nofun fun h => not_le.mpr hshort h.1
  · exact iff_of_false nofun fun h => hmagic h.2.1
  · exact iff_of_false nofun fun h => hsum h.2.2.2.1
  · rw [Except.ok.injEq]
    constructor
    · exact fun h => ⟨not_lt.mp hshort, not_not.mp hmagic, hplaced, not_not.mp hsum, h.symm⟩
    · exact fun h => h.2.2.2.2.symm
  · exact iff_of_false nofun fun h => hplaced h.2.2.1

/-! ## One byte of a package -/

/-- What is installed from `r` is what is installed from `pkg`. -/
def Unchanged (pkg : Package) (r : Except PackageError Package) : Prop :=
  ∀ pkg', r = .ok pkg' → pkg'.header.version = pkg.header.version ∧
    pkg'.header.manifestMask = pkg.header.manifestMask ∧ pkg'.elf = pkg.elf

/-- The byte at `i` is not one of the version or of the manifest mask. If it is
one of the place of the ELF file, the file at the new place is the old one, is not
in the package or does not have the checksum. -/
def Covered (pkg : Package) (q : List UInt8) (i : Nat) : Prop :=
  ¬ (8 ≤ i ∧ i < 14) ∧ (16 ≤ i → i < 24 → Placed q →
    adler32 (elfOf q) = (readHeader q).checksum → elfOf q = pkg.elf)

section

variable (hd : DiffersAt p q i)

include hd

theorem u32At_eq {off : Nat} (hi : i < off ∨ off + 4 ≤ i) : u32At q off = u32At p off := by
  rw [u32At, u32At, hd.slice_eq hi]

theorem u16At_eq {off : Nat} (hi : i < off ∨ off + 2 ≤ i) : u16At q off = u16At p off := by
  rw [u16At, u16At, hd.slice_eq hi]

theorem place_eq (hi : ¬ (16 ≤ i ∧ i < 24)) : (readHeader q).elfOffset = (readHeader p).elfOffset ∧
      (readHeader q).elfSize = (readHeader p).elfSize :=
  ⟨u32At_eq hd (by omega), u32At_eq hd (by omega)⟩

theorem elfOf_eq (hplaced : Placed p) (hi : i < headerSize)
    (hplace : ¬ (16 ≤ i ∧ i < 24)) : elfOf q = elfOf p := by
  obtain ⟨hoffset, hsize⟩ := place_eq hd hplace
  rw [elfOf, elfOf, hoffset, hsize, hd.slice_eq (.inl (hi.trans_le hplaced.1))]

end

theorem parseAndVerify_manifest (hp : parseAndVerify p = .ok pkg) (hd : DiffersAt p q i)
    (hle : 8 ≤ i) (hlt : i < 14) : parseAndVerify q = .ok ⟨readHeader q, elfOf q⟩ := by
  obtain ⟨_, hmagic, hplaced, hsum, -⟩ := parseAndVerify_eq_ok.mp hp
  obtain ⟨hoffset, hsize⟩ := place_eq hd (by omega)
  have hheader : headerSize = 60 := rfl
  refine parseAndVerify_eq_ok.mpr ⟨by rwa [hd.length_eq], ?_, ?_, ?_, rfl⟩
  · exact (hd.slice_eq (.inr hle)).trans hmagic
  · rwa [Placed, hoffset, hsize, hd.length_eq]
  · rw [elfOf_eq hd hplaced (by omega) (by omega), hsum]
    exact (u32At_eq hd (by omega)).symm

theorem install_of_unchanged {ρ : Type*} {install : List UInt8 → UInt64 → UInt16 → ρ →
      Option (UInt64 × UInt64)} {stackVaddr : UInt64} {requests : ρ}
    (hp : parseAndVerify p = .ok pkg) (hsame : Unchanged pkg (parseAndVerify q)) :
    installPackageIntoCurrentThread install q stackVaddr requests = none ∨
      installPackageIntoCurrentThread install q stackVaddr requests =
        installPackageIntoCurrentThread install p stackVaddr requests := by
  rw [installPackageIntoCurrentThread, installPackageIntoCurrentThread, hp]
  cases hq : parseAndVerify q with
  | error => exact .inl rfl
  | ok pkg' =>
    obtain ⟨-, hmask, helf⟩ := hsame pkg' hq
    refine .inr ?_
    dsimp only
    rw [hmask, helf]

theorem unchanged_iff (hp : parseAndVerify p = .ok pkg) (hd : DiffersAt p q i) :
    Unchanged pkg (parseAndVerify q) ↔ Covered pkg q i := by
  obtain ⟨_, hmagic, hplaced, hsum, rfl⟩ := parseAndVerify_eq_ok.mp hp
  have hlen' : headerSize ≤ q.length := by rwa [hd.length_eq]
  have hheader : headerSize = 60 := rfl
  constructor
  · refine fun hsame => ⟨?_, fun hle hlt hplaced' hsum' => ?_⟩
    · rintro ⟨hle, hlt⟩
      obtain ⟨hversion, hmask, -⟩ := hsame _ (parseAndVerify_manifest hp hd hle hlt)
      by_cases hi : i < 12
      · exact (hd.slice hle (by omega)).ne (slice_eq_of_u32At (by omega) (by omega) hversion)
      · exact (hd.slice (not_lt.mp hi) (by omega)).ne
          (slice_eq_of_u16At (by omega) (by omega) hmask)
    · have hq : parseAndVerify q = .ok ⟨readHeader q, elfOf q⟩ :=
        parseAndVerify_eq_ok.mpr
          ⟨hlen', (hd.slice_eq (by omega)).trans hmagic, hplaced', hsum', rfl⟩
      exact (hsame _ hq).2.2
  · rintro ⟨hmanifest, hplace⟩ _ hq
    obtain ⟨-, -, hplaced', hsum', rfl⟩ := parseAndVerify_eq_ok.mp hq
    refine ⟨u32At_eq hd (by omega), u16At_eq hd (by omega), ?_⟩
    by_cases hi : 16 ≤ i ∧ i < 24
    · exact hplace hi.1 hi.2 hplaced' hsum'
    obtain ⟨hoffset, hsize⟩ := place_eq hd hi
    by_cases hin : (readHeader p).elfOffset.toNat ≤ i ∧
        i < (readHeader p).elfOffset.toNat + (readHeader p).elfSize.toNat
    · -- the byte is one of the file
      have hstart := hplaced.1
      have hchecksum : (readHeader q).checksum = (readHeader p).checksum := u32At_eq hd (by omega)
      rw [elfOf, hoffset, hsize, hchecksum, ← hsum] at hsum'
      exact absurd hsum' (Adler32.adler32_ne (hd.slice hin.1 hin.2))
    · show elfOf q = elfOf p
      rw [elfOf, elfOf, hoffset, hsize, hd.slice_eq (by omega)]

/-- **One byte of a package.** A package in which one byte is changed is
rejected, or the same version, mask and file are read from it, exactly if the byte is
covered. Then nothing is installed from it, or what is installed from the old one. -/
theorem unchanged_iff_covered (hp : parseAndVerify p = .ok pkg) (hd : DiffersAt p q i) :
    (Unchanged pkg (parseAndVerify q) ↔ Covered pkg q i) ∧
      (Covered pkg q i → ∀ (ρ : Type) install stackVaddr (requests : ρ),
        installPackageIntoCurrentThread install q stackVaddr requests = none ∨
          installPackageIntoCurrentThread install q stackVaddr requests =
            installPackageIntoCurrentThread install p stackVaddr requests) := by
  refine ⟨unchanged_iff hp hd, fun hcovered _ _ _ _ => ?_⟩
  exact install_of_unchanged hp ((unchanged_iff hp hd).mpr hcovered)

/-- A package of version 1 for the mask 0x0101, with the file `[0x7f]`. -/
def sample : List UInt8 :=
  magic ++ [1, 0, 0, 0] ++ [0x01, 0x01] ++ [0, 0] ++ [60, 0, 0, 0] ++ [1, 0, 0, 0] ++
    [0x80, 0, 0x80, 0] ++ List.replicate 32 0 ++ [0x7f]

theorem differsAt_sample : DiffersAt sample (sample.set 60 0) 60 :=
  ⟨sample.take 60, 0x7f, 0, [], rfl, by decide, rfl, rfl⟩

theorem unchanged_iff_covered_sample :
    ∃ pkg, parseAndVerify sample = .ok pkg ∧
      (Unchanged pkg (parseAndVerify (sample.set 60 0)) ↔ Covered pkg (sample.set 60 0) 60) := by
  have hp : parseAndVerify sample = .ok ⟨readHeader sample, [0x7f]⟩ := by decide +kernel
  exact ⟨_, hp, (unchanged_iff_covered hp differsAt_sample).1⟩

/-- **A wider manifest.** One byte of the mask is changed, and the package is
accepted with every capability kind below 8. -/
theorem accepts_wider_manifest :
    DiffersAt sample (sample.set 12 0xff) 12 ∧
      (parseAndVerify sample).map (fun pkg => pkg.header.manifestMask) = .ok 0x0101 ∧
      (parseAndVerify (sample.set 12 0xff)).map (fun pkg => pkg.header.manifestMask) =
        .ok 0x01ff := by
  refine ⟨⟨sample.take 12, 0x01, 0xff, sample.drop 13, rfl, by decide, rfl, rfl⟩, ?_, ?_⟩
  · decide +kernel
  · decide +kernel

end Package

end AgenticOS
