import AgenticOS.Foundation.CounterMode
import AgenticOS.Foundation.LittleEndian

/-!
# ChaCha20 and the encryption of sectors

The stream cipher of `kernel_common/src/crypto.rs`. Byte `i` of the output is byte `i`
of the input with byte `i` of the keystream, and everything else about the cipher
follows from that. A sector gets a nonce of its own from its number, so no two
blocks of any two sectors have the same state to begin with.
-/

namespace AgenticOS

open Foundation

abbrev Bytes (n : Nat) := { bytes : List UInt8 // bytes.length = n }

namespace ChaCha20

abbrev State := Fin 16 → UInt32

def rotateLeft (x n : UInt32) : UInt32 := (x <<< n) ||| (x >>> (32 - n))

def quarterRound (state : State) (a b c d : Fin 16) : State :=
  let state := Function.update state a (state a + state b)
  let state := Function.update state d (rotateLeft (state d ^^^ state a) 16)
  let state := Function.update state c (state c + state d)
  let state := Function.update state b (rotateLeft (state b ^^^ state c) 12)
  let state := Function.update state a (state a + state b)
  let state := Function.update state d (rotateLeft (state d ^^^ state a) 8)
  let state := Function.update state c (state c + state d)
  Function.update state b (rotateLeft (state b ^^^ state c) 7)

/-- The state that the rounds start from: constants, key, counter and nonce. -/
def initialState (key : Bytes 32) (nonce : Bytes 12) (counter : UInt32) : State :=
  ![0x61707865, 0x3320646e, 0x79622d32, 0x6b206574,
    u32At key.1 0, u32At key.1 4, u32At key.1 8, u32At key.1 12,
    u32At key.1 16, u32At key.1 20, u32At key.1 24, u32At key.1 28,
    counter, u32At nonce.1 0, u32At nonce.1 4, u32At nonce.1 8]

def doubleRound (state : State) : State :=
  let state := quarterRound state 0 4 8 12
  let state := quarterRound state 1 5 9 13
  let state := quarterRound state 2 6 10 14
  let state := quarterRound state 3 7 11 15
  let state := quarterRound state 0 5 10 15
  let state := quarterRound state 1 6 11 12
  let state := quarterRound state 2 7 8 13
  quarterRound state 3 4 9 14

def blockOf (initial : State) : List UInt8 :=
  let state := doubleRound^[10] initial
  (List.finRange 16).flatMap fun i => leBytes 4 (state i + initial i).toNat

def block (key : Bytes 32) (nonce : Bytes 12) (counter : UInt32) : List UInt8 :=
  blockOf (initialState key nonce counter)

-- the test vector of RFC 8439
example : (block ⟨(List.range 32).map UInt8.ofNat, by decide⟩
    ⟨[0, 0, 0, 9, 0, 0, 0, 0x4a, 0, 0, 0, 0], by decide⟩ 1).take 8 =
    [0x10, 0xf1, 0xe7, 0xe4, 0xd1, 0x3b, 0x59, 0x15] := by decide +kernel

variable (key : Bytes 32)

@[simp] theorem length_block (nonce : Bytes 12) (counter : UInt32) :
    (block key nonce counter).length = 64 := by
  simp [block, blockOf]

def keystream (key : Bytes 32) (nonce : Bytes 12) : Keystream where
  size := 64
  pos := by decide
  block := block key nonce
  length_block := length_block key nonce

def applyKeystream (key : Bytes 32) (nonce : Bytes 12) (startCounter : UInt32)
    (data : List UInt8) : List UInt8 :=
  (keystream key nonce).apply startCounter data

/-- The nonce of a sector: its number and `SECT`. -/
def sectorNonce (lba : UInt64) : Bytes 12 :=
  ⟨leBytes 8 lba.toNat ++ [0x53, 0x45, 0x43, 0x54], by rw [List.length_append, length_leBytes]; rfl⟩

def transformSector (key : Bytes 32) (sectorLba : UInt64) (sectorData : List UInt8) : List UInt8 :=
  applyKeystream key (sectorNonce sectorLba) 1 sectorData

@[simp] theorem length_transformSector (lba : UInt64) (data : List UInt8) :
    (transformSector key lba data).length = data.length := by
  rw [transformSector, applyKeystream, Keystream.apply_eq, List.length_mapIdx]

/-! ## Sectors -/

/-- The state that block `j` of a sector starts from. -/
def sectorState (key : Bytes 32) (lba : UInt64) (j : Nat) : State :=
  initialState key (sectorNonce lba) (1 + UInt32.ofNat j)

theorem getElem?_transformSector (lba : UInt64) (data : List UInt8) (i : Nat) :
    (transformSector key lba data)[i]? =
      data[i]?.map (· ^^^ (blockOf (sectorState key lba (i / 64))).getD (i % 64) 0) :=
  Keystream.getElem?_apply 1 data i

theorem sectorNonce_inj {lba lba' : UInt64}
    (hlow : u32At (sectorNonce lba).1 0 = u32At (sectorNonce lba').1 0)
    (hhigh : u32At (sectorNonce lba).1 4 = u32At (sectorNonce lba').1 4) : lba = lba' := by
  have hlen (lba : UInt64) : (sectorNonce lba).1.length = 12 := (sectorNonce lba).2
  have hslices (lba : UInt64) : leBytes 8 lba.toNat =
      slice (sectorNonce lba).1 0 4 ++ slice (sectorNonce lba).1 4 4 := by
    have htake : (sectorNonce lba).1.take (4 + 4) = leBytes 8 lba.toNat :=
      List.take_left' (length_leBytes 8 _)
    rw [← htake, List.take_add]
    rfl
  have hbytes : leBytes 8 lba.toNat = leBytes 8 lba'.toNat := by
    rw [hslices, hslices, slice_eq_of_u32At (by rw [hlen]; decide) (by rw [hlen]; decide) hlow,
      slice_eq_of_u32At (by rw [hlen]; decide) (by rw [hlen]; decide) hhigh]
  have hvalue := congrArg leValue hbytes
  rw [leValue_leBytes, leValue_leBytes,
    Nat.mod_eq_of_lt (show lba.toNat < 256 ^ 8 from lba.toNat_lt),
    Nat.mod_eq_of_lt (show lba'.toNat < 256 ^ 8 from lba'.toNat_lt)] at hvalue
  exact UInt64.toNat_inj.mp hvalue

theorem sectorState_inj {key key' : Bytes 32} {lba lba' : UInt64} {j j' : Nat} (hj : j < 8)
    (hj' : j' < 8) (h : sectorState key lba j = sectorState key' lba' j') :
    lba = lba' ∧ j = j' := by
  have hcounter : 1 + UInt32.ofNat j = 1 + UInt32.ofNat j' := congrFun h 12
  have hnat := congrArg UInt32.toNat (add_left_cancel hcounter)
  rw [UInt32.toNat_ofNat_of_lt' (hj.trans (by decide)),
    UInt32.toNat_ofNat_of_lt' (hj'.trans (by decide))] at hnat
  exact ⟨sectorNonce_inj (congrFun h 13) (congrFun h 14), hnat⟩

/-- **Sector encryption.** The cipher undoes itself, can start at any block, and works byte
by byte. Byte `i` of a sector meets the block of `sectorState` with number `i / 64`, and
these states are all different. -/
theorem sector_cipher : (∀ key nonce counter data,
      applyKeystream key nonce counter (applyKeystream key nonce counter data) = data) ∧
    (∀ key nonce counter a b, 64 ∣ a.length → applyKeystream key nonce counter (a ++ b) =
      applyKeystream key nonce counter a ++
        applyKeystream key nonce (counter + UInt32.ofNat (a.length / 64)) b) ∧
    (∀ key nonce counter (data data' : List UInt8) (i : Nat), data[i]? = data'[i]? →
      (applyKeystream key nonce counter data)[i]? = (applyKeystream key nonce counter data')[i]?) ∧
    (∀ key lba (data : List UInt8) (i : Nat), (transformSector key lba data)[i]? =
      data[i]?.map (· ^^^ (blockOf (sectorState key lba (i / 64))).getD (i % 64) 0)) ∧
    ∀ key key' lba lba' j j', j < 8 → j' < 8 → (lba, j) ≠ (lba', j') →
      sectorState key lba j ≠ sectorState key' lba' j' := by
  refine ⟨fun key nonce counter data => Keystream.apply_apply counter data,
    fun key nonce counter a b ha => @Keystream.apply_append (keystream key nonce) counter a ha b,
    fun key nonce counter data data' i h => ?_, getElem?_transformSector,
    fun key key' lba lba' j j' hj hj' hne h => ?_⟩
  · unfold applyKeystream
    rw [Keystream.getElem?_apply, Keystream.getElem?_apply, h]
  · obtain ⟨rfl, rfl⟩ := sectorState_inj hj hj' h
    exact hne rfl

end ChaCha20

end AgenticOS
