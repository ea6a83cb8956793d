import AgenticOS.Crypto.Sha256
import AgenticOS.Foundation.LittleEndian

/-!
# Signed update packages

`kernel_rs/src/update.rs`: a package is a header and a payload. The header holds
the SHA-256 digest of the payload and an HMAC tag, and the tag is over the digest
alone. The version that the anti-rollback check reads is in the header too, but
nothing covers it.
-/

namespace AgenticOS

open Foundation List

/-! ## Banks -/

inductive BankSlot where
  | bankA | bankB
  deriving DecidableEq

def BankSlot.alternate : BankSlot → BankSlot
  | .bankA => .bankB
  | .bankB => .bankA

inductive UpdateError where
  | tooShort
  | badMagic
  | invalidOffsets
  | tamperedPayload
  | badSignature
  | versionDowngrade (currentVersion newVersion : UInt32)
  | rollbackUnavailable
  deriving DecidableEq

structure DualBankManager where
  activeBank : BankSlot
  bankAVersion : UInt32
  bankBVersion : UInt32
  rollbackAvailable : Bool
  deriving DecidableEq

namespace DualBankManager

def new (initialVersion : UInt32) : DualBankManager where
  activeBank := .bankA
  bankAVersion := initialVersion
  bankBVersion := 0
  rollbackAvailable := false

def activeVersion (m : DualBankManager) : UInt32 :=
  match m.activeBank with
  | .bankA => m.bankAVersion
  | .bankB => m.bankBVersion

end DualBankManager

/-! ## Packages -/

structure SignedPackageHeader where
  magic : List UInt8
  version : UInt32
  flags : UInt32
  payloadOffset : UInt32
  payloadSize : UInt32
  sha256Digest : List UInt8
  hmacSignature : List UInt8
  name : List UInt8
  deriving DecidableEq

namespace SignedPackage

def magic : List UInt8 := [0x41, 0x47, 0x59, 0x50, 0x4b, 0x47, 0x32, 0]

/-- `size_of::<SignedPackageHeader>()`. -/
def headerSize : Nat := 120

def readHeader (bytes : List UInt8) : SignedPackageHeader where
  magic := slice bytes 0 8
  version := u32At bytes 8
  flags := u32At bytes 12
  payloadOffset := u32At bytes 16
  payloadSize := u32At bytes 20
  sha256Digest := slice bytes 24 32
  hmacSignature := slice bytes 56 32
  name := slice bytes 88 32

def headerBytes (hdr : SignedPackageHeader) : List UInt8 :=
  hdr.magic ++ leBytes 4 hdr.version.toNat ++ leBytes 4 hdr.flags.toNat ++
    leBytes 4 hdr.payloadOffset.toNat ++ leBytes 4 hdr.payloadSize.toNat ++ hdr.sha256Digest ++
    hdr.hmacSignature ++ hdr.name

end SignedPackage

open SignedPackage

namespace DualBankManager

/-- `stage_update`, which leaves the manager as it is. -/
def stageUpdate (m : DualBankManager) (packageBytes key : List UInt8) :
    Except UpdateError (BankSlot × UInt32 × List UInt8) :=
  if packageBytes.length < headerSize then .error .tooShort
  else
    let hdr := readHeader packageBytes
    if hdr.magic ≠ SignedPackage.magic then .error .badMagic
    else
      let start := hdr.payloadOffset.toNat
      let stop := start + hdr.payloadSize.toNat
      if start < headerSize ∨ packageBytes.length < stop then .error .invalidOffsets
      else
        let payload := slice packageBytes start hdr.payloadSize.toNat
        if hdr.version ≤ m.activeVersion then
          .error (.versionDowngrade m.activeVersion hdr.version)
        else if ¬ constantTimeEq (Sha256.digest payload) hdr.sha256Digest then
          .error .tamperedPayload
        else if ¬ constantTimeEq (HmacSha256.mac key hdr.sha256Digest) hdr.hmacSignature then
          .error .badSignature
        else .ok (m.activeBank.alternate, hdr.version, payload)

end DualBankManager

structure SigningCall where
  version : UInt32
  name : List UInt8
  payload : List UInt8
  deriving DecidableEq

namespace SignedPackage

def nameBytes (name : List UInt8) : List UInt8 :=
  name.take 32 ++ List.replicate (32 - name.length) 0

def signedHeader (call : SigningCall) (key : List UInt8) : SignedPackageHeader :=
  let digest := Sha256.digest call.payload
  { magic := magic
    version := call.version
    flags := 0
    payloadOffset := UInt32.ofNat headerSize
    payloadSize := UInt32.ofNat call.payload.length
    sha256Digest := digest
    hmacSignature := HmacSha256.mac key digest
    name := nameBytes call.name }

def createSignedPackage (call : SigningCall) (key : List UInt8) : List UInt8 :=
  headerBytes (signedHeader call key) ++ call.payload

/-! ## Reading what was written -/

structure Sized (hdr : SignedPackageHeader) : Prop where
  magic : hdr.magic.length = 8
  digest : hdr.sha256Digest.length = 32
  signature : hdr.hmacSignature.length = 32
  name : hdr.name.length = 32

theorem length_headerBytes {hdr : SignedPackageHeader} (h : Sized hdr) :
    (headerBytes hdr).length = headerSize := by
  simp only [headerBytes, length_append, length_leBytes, h.magic, h.digest, h.signature, h.name]
  rfl

theorem readHeader_append {hdr : SignedPackageHeader} (h : Sized hdr) (payload : List UInt8) :
    readHeader (headerBytes hdr ++ payload) = hdr := by
  obtain ⟨hmagic, hdigest, hsignature, hname⟩ := h
  simp (disch := simp only [hmagic, hdigest, hsignature, length_leBytes]; decide) only
    [readHeader, headerBytes, append_assoc, u32At_append_of_le, slice_append_of_le, hmagic,
      hdigest, hsignature, length_leBytes, Nat.reduceSub, u32At_leBytes_append]
  rw [slice_append_self hmagic, slice_append_self hdigest, slice_append_self hsignature,
    slice_append_self hname]

theorem sized_signedHeader (call : SigningCall) (key : List UInt8) :
    Sized (signedHeader call key) where
  magic := rfl
  digest := rfl
  signature := rfl
  name := by
    show (nameBytes call.name).length = 32
    rw [nameBytes, length_append, length_take, length_replicate]
    omega

def withVersion (bytes : List UInt8) (version : UInt32) : List UInt8 :=
  bytes.take 8 ++ leBytes 4 version.toNat ++ bytes.drop 12

theorem withVersion_createSignedPackage (call : SigningCall) (key : List UInt8)
    (version : UInt32) : withVersion (createSignedPackage call key) version =
      createSignedPackage { call with version } key := by
  have hlen (v : UInt32) : (magic ++ leBytes 4 v.toNat).length = 12 := by
    rw [length_append, length_leBytes]
    rfl
  simp only [withVersion, createSignedPackage, headerBytes, signedHeader, append_assoc]
  have htake (post : List UInt8) : (magic ++ post).take 8 = magic := rfl
  rw [htake, ← append_assoc magic (leBytes 4 call.version.toNat), ← hlen call.version, drop_left]

end SignedPackage

/-! ## Acceptance -/

variable {m : DualBankManager} {bytes key payload : List UInt8} {bank : BankSlot} {version : UInt32}

namespace DualBankManager

theorem stageUpdate_eq_ok : m.stageUpdate bytes key = .ok (bank, version, payload) ↔
    headerSize ≤ bytes.length ∧ (readHeader bytes).magic = SignedPackage.magic ∧
      headerSize ≤ (readHeader bytes).payloadOffset.toNat ∧
      (readHeader bytes).payloadOffset.toNat + (readHeader bytes).payloadSize.toNat ≤ bytes.length ∧
      m.activeVersion < version ∧
      Sha256.digest payload = (readHeader bytes).sha256Digest ∧
      HmacSha256.mac key (readHeader bytes).sha256Digest = (readHeader bytes).hmacSignature ∧
      bank = m.activeBank.alternate ∧ version = (readHeader bytes).version ∧
      payload = slice bytes (readHeader bytes).payloadOffset.toNat
        (readHeader bytes).payloadSize.toNat := by
  unfold stageUpdate
  dsimp only
  split_ifs with hshort hmagic hoffsets hversion hdigest hsignature
  · exact iff_of_false nofun fun h => not_le.mpr hshort h.1
  · exact iff_of_false nofun fun h => hmagic h.2.1
  · refine iff_of_false nofun fun h => ?_
    obtain hstart | hstop := hoffsets
    · exact not_le.mpr hstart h.2.2.1
    · exact not_le.mpr hstop h.2.2.2.1
  · refine iff_of_false nofun ?_
    rintro ⟨-, -, -, -, hlt, -, -, -, rfl, -⟩
    exact UInt32.not_lt.mpr hversion hlt
  · rw [constantTimeEq_iff] at hdigest hsignature
    rw [not_or, not_lt, not_lt] at hoffsets
    simp only [Except.ok.injEq, Prod.mk.injEq]
    constructor
    · rintro ⟨rfl, rfl, rfl⟩
      exact ⟨not_lt.mp hshort, not_not.mp hmagic, hoffsets.1, hoffsets.2,
        UInt32.not_le.mp hversion, hdigest, hsignature, rfl, rfl, rfl⟩
    · rintro ⟨-, -, -, -, -, -, -, rfl, rfl, rfl⟩
      exact ⟨rfl, rfl, rfl⟩
  · exact iff_of_false nofun fun h => hsignature (constantTimeEq_iff.mpr h.2.2.2.2.2.2.1)
  · refine iff_of_false nofun ?_
    rintro ⟨-, -, -, -, -, heq, -, -, -, rfl⟩
    exact hdigest (constantTimeEq_iff.mpr heq)

/-- **Signed packages are accepted**, under any version above the active one. -/
theorem stageUpdate_createSignedPackage {call : SigningCall}
    (hversion : m.activeVersion < call.version) (hpayload : call.payload.length < 2 ^ 32) :
    m.stageUpdate (createSignedPackage call key) key =
      .ok (m.activeBank.alternate, call.version, call.payload) := by
  have hsized := sized_signedHeader call key
  have hread : readHeader (createSignedPackage call key) = signedHeader call key :=
    readHeader_append hsized call.payload
  have hsize : (signedHeader call key).payloadSize.toNat = call.payload.length :=
    UInt32.toNat_ofNat_of_lt' hpayload
  have hoffset : (signedHeader call key).payloadOffset.toNat = headerSize := rfl
  have hlen : (createSignedPackage call key).length = headerSize + call.payload.length := by
    rw [createSignedPackage, length_append, length_headerBytes hsized]
  rw [stageUpdate_eq_ok, hread, hsize, hoffset, hlen]
  refine ⟨Nat.le_add_right _ _, rfl, le_rfl, le_rfl, hversion, rfl, rfl, rfl, rfl, ?_⟩
  rw [createSignedPackage, slice_append_of_le (length_headerBytes hsized).le,
    length_headerBytes hsized, Nat.sub_self, slice, drop_zero, take_length]

end DualBankManager

namespace SignedPackage

variable {calls : List SigningCall}

/-- A valid tag is on a digest that was signed. -/
def Unforged (calls : List SigningCall) (bytes key : List UInt8) : Prop :=
  HmacSha256.mac key (readHeader bytes).sha256Digest = (readHeader bytes).hmacSignature →
    ∃ call ∈ calls, Sha256.digest call.payload = (readHeader bytes).sha256Digest

def NoCollision (calls : List SigningCall) (payload : List UInt8) : Prop :=
  ∀ call ∈ calls, Sha256.digest call.payload = Sha256.digest payload → call.payload = payload

def VersionSigned (calls : List SigningCall) (bytes : List UInt8) : Prop :=
  ∃ call ∈ calls, (readHeader bytes).version = call.version ∧
    (readHeader bytes).sha256Digest = Sha256.digest call.payload

/-- **What an accepted package proves.** Its payload was signed. It was signed
under the version that was accepted exactly if the header has the version and the
digest of one call. -/
theorem accepted_iff_signed (hforge : Unforged calls bytes key)
    (hcollision : NoCollision calls payload)
    (haccept : m.stageUpdate bytes key = .ok (bank, version, payload)) :
    (∃ call ∈ calls, call.payload = payload) ∧
      ((∃ call ∈ calls, call.version = version ∧ call.payload = payload) ↔
        VersionSigned calls bytes) := by
  obtain ⟨-, -, -, -, -, hdigest, htag, -, rfl, -⟩ :=
    DualBankManager.stageUpdate_eq_ok.mp haccept
  refine ⟨?_, ?_, ?_⟩
  · obtain ⟨call, hcall, hsigned⟩ := hforge htag
    exact ⟨call, hcall, hcollision call hcall (hsigned.trans hdigest.symm)⟩
  · rintro ⟨call, hcall, hversion, rfl⟩
    exact ⟨call, hcall, hversion.symm, hdigest.symm⟩
  · rintro ⟨call, hcall, hversion, hsigned⟩
    exact ⟨call, hcall, hversion.symm, hcollision call hcall (hsigned.symm.trans hdigest.symm)⟩

theorem unforged_createSignedPackage {call signed : SigningCall} (hsigned : signed ∈ calls)
    (hpayload : signed.payload = call.payload) :
    Unforged calls (createSignedPackage call key) key := by
  refine fun _ => ⟨signed, hsigned, ?_⟩
  rw [createSignedPackage, readHeader_append (sized_signedHeader _ _), hpayload]
  rfl

def rootUpdateKey : List UInt8 := [
  0x41, 0x47, 0x45, 0x4e, 0x54, 0x49, 0x43, 0x5f, 0x4f, 0x53, 0x5f, 0x52, 0x4f, 0x4f, 0x54, 0x5f,
  0x54, 0x52, 0x55, 0x53, 0x54, 0x5f, 0x4b, 0x45, 0x59, 0x5f, 0x32, 0x30, 0x32, 0x36, 0x21, 0x21]

/-- A call that signed the payload `[1, 2, 3]` under version 2. -/
def sampleCall : SigningCall := ⟨2, [], [1, 2, 3]⟩

theorem noCollision_sample : NoCollision [sampleCall] [1, 2, 3] := by
  intro _ hcall _
  rw [mem_singleton.mp hcall]
  rfl

theorem accepted_iff_signed_sample : (∃ call ∈ [sampleCall], call.payload = [1, 2, 3]) ∧
      ((∃ call ∈ [sampleCall], call.version = 2 ∧ call.payload = [1, 2, 3]) ↔
        VersionSigned [sampleCall] (createSignedPackage sampleCall rootUpdateKey)) := by
  have haccept : (DualBankManager.new 1).stageUpdate (createSignedPackage sampleCall rootUpdateKey)
      rootUpdateKey = .ok (.bankB, 2, [1, 2, 3]) :=
    DualBankManager.stageUpdate_createSignedPackage (by decide) (by decide)
  exact accepted_iff_signed (unforged_createSignedPackage (mem_singleton_self _) rfl)
    noCollision_sample haccept

/-- **An old payload under a new version.** The only package that was ever
signed is under version 2. With 7 written over its version it is accepted where
5 is active. -/
theorem accepts_raised_version : (DualBankManager.new 5).stageUpdate
        (withVersion (createSignedPackage sampleCall rootUpdateKey) 7) rootUpdateKey =
          .ok (.bankB, 7, [1, 2, 3]) ∧
      Unforged [sampleCall] (withVersion (createSignedPackage sampleCall rootUpdateKey) 7)
        rootUpdateKey ∧
      NoCollision [sampleCall] [1, 2, 3] ∧
      ¬ ∃ call ∈ [sampleCall], call.version = 7 ∧ call.payload = [1, 2, 3] := by
  rw [withVersion_createSignedPackage]
  exact ⟨DualBankManager.stageUpdate_createSignedPackage (by decide) (by decide),
    unforged_createSignedPackage (mem_singleton_self _) rfl, noCollision_sample, by decide⟩

end SignedPackage

end AgenticOS
