import AgenticOS.Crypto.Sha256

/-!
# The hash is the one of the standard

FIPS 180-4 defines SHA-256 on a whole message: pad it, cut it into blocks and fold
the compression function over them. The constants are bits of roots of primes. The
streaming hasher gives the same digest, however the message is cut into chunks.
-/

namespace AgenticOS.Fips180

abbrev Word := BitVec 32

/-! ## The standard -/

def primes : List Nat :=
  (List.range 312).filter fun n => 2 ≤ n ∧ ∀ m < n, 2 ≤ m → ¬ m ∣ n

/-- The first 32 bits of the fractional part of the `n`-th root of `p`. -/
def rootBits (n p : Nat) : Word := BitVec.ofNat 32 (Nat.nthRoot n (p * 2 ^ (32 * n)))

def constant (t : Nat) : Word := rootBits 3 (primes.getD t 0)

def initial : Fin 8 → Word := fun i => rootBits 2 (primes.getD i 0)

def ch (x y z : Word) : Word := (x &&& y) ^^^ (~~~x &&& z)

def maj (x y z : Word) : Word := (x &&& y) ^^^ (x &&& z) ^^^ (y &&& z)

def bigSigma0 (x : Word) : Word := x.rotateRight 2 ^^^ x.rotateRight 13 ^^^ x.rotateRight 22

def bigSigma1 (x : Word) : Word := x.rotateRight 6 ^^^ x.rotateRight 11 ^^^ x.rotateRight 25

def smallSigma0 (x : Word) : Word := x.rotateRight 7 ^^^ x.rotateRight 18 ^^^ (x >>> 3)

def smallSigma1 (x : Word) : Word := x.rotateRight 17 ^^^ x.rotateRight 19 ^^^ (x >>> 10)

/-- The `t`-th word of a block, its bytes from high to low. -/
def messageWord (block : List UInt8) (t : Nat) : Word :=
  (block.getD (4 * t) 0).toBitVec ++ (block.getD (4 * t + 1) 0).toBitVec ++
    (block.getD (4 * t + 2) 0).toBitVec ++ (block.getD (4 * t + 3) 0).toBitVec

def schedule (block : List UInt8) (t : Nat) : Word :=
  if t < 16 then messageWord block t
  else smallSigma1 (schedule block (t - 2)) + schedule block (t - 7) +
    smallSigma0 (schedule block (t - 15)) + schedule block (t - 16)

def step (w : Nat → Word) (v : Fin 8 → Word) (t : Nat) : Fin 8 → Word :=
  let t₁ := v 7 + bigSigma1 (v 4) + ch (v 4) (v 5) (v 6) + constant t + w t
  let t₂ := bigSigma0 (v 0) + maj (v 0) (v 1) (v 2)
  ![t₁ + t₂, v 0, v 1, v 2, v 3 + t₁, v 4, v 5, v 6]

def compress (hash : Fin 8 → Word) (block : List UInt8) : Fin 8 → Word :=
  (List.range 64).foldl (step (schedule block)) hash + hash

def bigEndian (n x : Nat) : List UInt8 :=
  (List.range n).map fun i => UInt8.ofNat (x / 256 ^ (n - 1 - i))

theorem exists_zeroBytes (len : Nat) : ∃ z, (len + 1 + z + 8) % 64 = 0 :=
  ⟨(119 - len % 64) % 64, by omega⟩

/-- The least number of zero bytes that fills the last block. -/
def zeroBytes (len : Nat) : Nat := Nat.find (exists_zeroBytes len)

def padded (message : List UInt8) : List UInt8 :=
  message ++ 0x80 :: List.replicate (zeroBytes message.length) 0 ++
    bigEndian 8 (8 * message.length)

def blocks (bytes : List UInt8) : List (List UInt8) :=
  (List.range (bytes.length / 64)).map fun i => (bytes.drop (64 * i)).take 64

def sha256 (message : List UInt8) : List UInt8 :=
  (List.finRange 8).flatMap fun i =>
    bigEndian 4 ((blocks (padded message)).foldl compress initial i).toNat

def macKey (key : List UInt8) : List UInt8 :=
  let key := if 64 < key.length then sha256 key else key
  key ++ List.replicate (64 - key.length) 0

def hmac (key message : List UInt8) : List UInt8 :=
  sha256 ((macKey key).map (· ^^^ 0x5c) ++ sha256 ((macKey key).map (· ^^^ 0x36) ++ message))

end AgenticOS.Fips180

namespace AgenticOS.Sha256

open Fips180 List Function UInt64

/-! ## Words -/

theorem toBitVec_k : ∀ t < 64, (k.getD t 0).toBitVec = constant t := by decide +kernel

theorem toBitVec_smallSigma0 (x : UInt32) :
    (Sha256.smallSigma0 x).toBitVec = Fips180.smallSigma0 x.toBitVec := rfl

theorem toBitVec_smallSigma1 (x : UInt32) :
    (Sha256.smallSigma1 x).toBitVec = Fips180.smallSigma1 x.toBitVec := rfl

theorem toBitVec_or_shiftLeft (b0 b1 b2 b3 : UInt8) :
    ((b0.toUInt32 <<< 24) ||| (b1.toUInt32 <<< 16) ||| (b2.toUInt32 <<< 8) |||
      b3.toUInt32).toBitVec = b0.toBitVec ++ b1.toBitVec ++ b2.toBitVec ++ b3.toBitVec := by
  have hshift (b : UInt8) (n : Nat) (hn : n ≤ 24) : b.toNat <<< n % 2 ^ 32 = b.toNat <<< n := by
    refine Nat.mod_eq_of_lt ?_
    rw [Nat.shiftLeft_eq]
    calc b.toNat * 2 ^ n < 2 ^ 8 * 2 ^ n := Nat.mul_lt_mul_of_pos_right b.toNat_lt (by positivity)
      _ ≤ 2 ^ 8 * 2 ^ 24 := Nat.mul_le_mul_left _ (Nat.pow_le_pow_right (by decide) hn)
  have hconcat : (b0.toBitVec ++ b1.toBitVec ++ b2.toBitVec ++ b3.toBitVec).toNat =
      b0.toNat <<< 24 ||| b1.toNat <<< 16 ||| b2.toNat <<< 8 ||| b3.toNat := by
    rw [BitVec.toNat_append, BitVec.toNat_append, BitVec.toNat_append, Nat.shiftLeft_or_distrib,
      Nat.shiftLeft_or_distrib, Nat.shiftLeft_or_distrib, ← Nat.shiftLeft_add, ← Nat.shiftLeft_add,
      ← Nat.shiftLeft_add]
    rfl
  apply BitVec.eq_of_toNat_eq
  refine Eq.trans ?_ hconcat.symm
  rw [← hshift b0 24 le_rfl, ← hshift b1 16 (by decide), ← hshift b2 8 (by decide)]
  rfl

variable (block : List UInt8)

theorem toBitVec_beWord (t : Nat) : (beWord block (t * 4)).toBitVec = messageWord block t := by
  rw [mul_comm t 4]
  exact toBitVec_or_shiftLeft _ _ _ _

theorem ofNat_eq_of_mod {m n : Nat} (h : m % 256 = n % 256) : UInt8.ofNat m = UInt8.ofNat n := by
  apply UInt8.toNat_inj.mp
  rwa [UInt8.toNat_ofNat', UInt8.toNat_ofNat']

theorem bigEndian_add (m n x : Nat) :
    bigEndian (m + n) x = bigEndian m (x / 256 ^ n) ++ bigEndian n x := by
  unfold bigEndian
  rw [range_add, map_append, List.map_map]
  congr 1
  · refine map_congr_left fun i hi => ?_
    have hi := mem_range.mp hi
    rw [Nat.div_div_eq_div_mul, ← pow_add, show n + (m - 1 - i) = m + n - 1 - i by omega]
  · refine map_congr_left fun i _ => ?_
    rw [comp_apply, show m + n - 1 - (m + i) = n - 1 - i by omega]

theorem bigEndian_congr {n x y : Nat} (h : x % 256 ^ n = y % 256 ^ n) :
    bigEndian n x = bigEndian n y := by
  refine map_congr_left fun i hi => ofNat_eq_of_mod ?_
  have hi := mem_range.mp hi
  have hdigit (z : Nat) : z / 256 ^ (n - 1 - i) % 256 = z % 256 ^ n / 256 ^ (n - 1 - i) % 256 := by
    conv_rhs => rw [show n = n - 1 - i + (i + 1) by omega, pow_add]
    rw [show n - 1 - i + (i + 1) - 1 - i = n - 1 - i by omega, Nat.mod_mul_right_div_self,
      Nat.mod_mod_of_dvd _ (dvd_pow_self 256 (Nat.succ_ne_zero i))]
  rw [hdigit, h, ← hdigit]

theorem beBytes_eq (w : UInt32) : beBytes w = bigEndian 4 w.toNat := by
  have hbyte (v : UInt32) (n : Nat) (h : v.toNat % 256 = n % 256) : v.toUInt8 = UInt8.ofNat n := by
    rw [← ofNat_eq_of_mod h]
    apply UInt8.toNat_inj.mp
    simp
  show [_, _, _, _] = [_, _, _, _]
  congr 1
  · exact hbyte _ _ (by simp [Nat.shiftRight_eq_div_pow])
  · congr 1
    · exact hbyte _ _ (by simp [Nat.shiftRight_eq_div_pow])
    · congr 1
      · exact hbyte _ _ (by simp [Nat.shiftRight_eq_div_pow])
      · congr 1
        exact hbyte _ _ (by simp)

theorem lengthBytes_eq (len : Nat) :
    lengthBytes (UInt64.ofNat len * 8) = bigEndian 8 (8 * len) := by
  have hbits : (ofNat len * 8).toNat = 8 * len % 2 ^ 64 := by
    rw [UInt64.toNat_mul, toNat_ofNat']
    simp [Nat.mul_mod, mul_comm]
  rw [lengthBytes, beBytes_eq, beBytes_eq, show 8 = 4 + 4 from rfl, bigEndian_add]
  congr 1
  · refine bigEndian_congr ?_
    rw [toNat_toUInt32, UInt64.toNat_shiftRight, hbits, Nat.shiftRight_eq_div_pow]
    simp
    omega
  · refine bigEndian_congr ?_
    rw [toNat_toUInt32, hbits]
    omega

/-! ## Blocks -/

theorem toBitVec_extend (n : Nat) : extend^[n] ((List.range 16).map fun i => beWord block (i * 4)) =
      (List.range (16 + n)).map fun t => (⟨Fips180.schedule block t⟩ : UInt32) := by
  induction n with
  | zero =>
    refine map_congr_left fun t ht => ?_
    rw [Fips180.schedule, if_pos (mem_range.mp ht), ← toBitVec_beWord]
  | succ n ih =>
    rw [iterate_succ_apply', ih, extend, ← add_assoc, range_succ, map_append]
    have hget {j : Nat} (hj : j < 16 + n) :
        ((range (16 + n)).map fun t => (⟨Fips180.schedule block t⟩ : UInt32)).getD j 0 =
          ⟨Fips180.schedule block j⟩ := by
      simp [hj]
    simp only [length_map, length_range]
    rw [hget (by omega), hget (by omega), hget (by omega), hget (by omega)]
    congr 2
    apply UInt32.toBitVec_inj.mp
    have hnext : Fips180.schedule block (16 + n) =
        Fips180.smallSigma1 (Fips180.schedule block (16 + n - 2)) +
          Fips180.schedule block (16 + n - 7) +
          Fips180.smallSigma0 (Fips180.schedule block (16 + n - 15)) +
          Fips180.schedule block (16 + n - 16) := by
      rw [Fips180.schedule, if_neg (by omega)]
    simp only [UInt32.toBitVec_add, toBitVec_smallSigma0, toBitVec_smallSigma1]
    rw [hnext]
    abel

theorem schedule_eq :
    Sha256.schedule block = (List.range 64).map fun t => (⟨Fips180.schedule block t⟩ : UInt32) :=
  toBitVec_extend block 48

def words (s : HashWords) : Fin 8 → Word :=
  ![s.a.toBitVec, s.b.toBitVec, s.c.toBitVec, s.d.toBitVec, s.e.toBitVec, s.f.toBitVec,
    s.g.toBitVec, s.h.toBitVec]

theorem words_h0 : words h0 = initial := by decide +kernel

variable (s : HashWords)

theorem words_round (w : Nat → Word) {t : Nat} (ht : t < 64) :
    words (round s (k.getD t 0, ⟨w t⟩)) = step w (words s) t := by
  funext i
  rw [step, ← toBitVec_k t ht]
  fin_cases i <;> rfl

theorem words_processBlock (block : List UInt8) :
    words (processBlock s block) = compress (words s) block := by
  have hzip : k.zip (Sha256.schedule block) = (range 64).map
      fun t => (k.getD t 0, (⟨Fips180.schedule block t⟩ : UInt32)) := by
    have hk : k = (range 64).map fun t => k.getD t 0 := by decide
    rw [schedule_eq]
    conv_lhs => rw [hk]
    rw [zip_map']
  have hrounds : ∀ ts : List Nat, (∀ t ∈ ts, t < 64) → ∀ s, words ((ts.map
      fun t => (k.getD t 0, (⟨Fips180.schedule block t⟩ : UInt32))).foldl round s) =
      ts.foldl (step (Fips180.schedule block)) (words s) := by
    intro ts
    induction ts with
    | nil => exact fun _ _ => rfl
    | cons t ts ih =>
      intro hts s
      rw [map_cons, foldl_cons, foldl_cons,
        ih fun u hu => hts u (mem_cons_of_mem _ hu), words_round s _ (hts t mem_cons_self)]
  rw [compress, ← hrounds _ (fun t ht => mem_range.mp ht), ← hzip, processBlock]
  generalize (k.zip (Sha256.schedule block)).foldl round s = v
  rw [add_comm (words v)]
  funext i
  fin_cases i <;> rfl

/-! ## The stream -/

section

variable {state : HashWords} {a b : List UInt8} {n m : Nat} {len : UInt64}

theorem words_absorb (n : Nat) (state : HashWords) (data : List UInt8) :
    words (absorb n state data) = ((List.range n).map fun i =>
      (data.drop (64 * i)).take 64).foldl compress (words state) := by
  induction n generalizing state data with
  | zero => rfl
  | succ n ih =>
    rw [absorb, ih, words_processBlock, range_succ_eq_map, map_cons, List.map_map, foldl_cons]
    congr 1
    refine map_congr_left fun i _ => ?_
    rw [comp_apply, drop_drop, show 64 * i.succ = 64 + 64 * i by omega]

theorem absorb_append_left (h : 64 * n ≤ a.length) :
    absorb n state (a ++ b) = absorb n state a := by
  induction n generalizing state a with
  | zero => rfl
  | succ n ih =>
    rw [absorb, absorb, take_append_of_le_length (by omega),
      drop_append_of_le_length (by omega), ih (by rw [length_drop]; omega)]

theorem absorb_append (h : a.length = 64 * n) :
    absorb (n + m) state (a ++ b) = absorb m (absorb n state a) b := by
  induction n generalizing state a with
  | zero =>
    obtain rfl := eq_nil_of_length_eq_zero h
    rw [zero_add]
    rfl
  | succ n ih =>
    rw [Nat.add_right_comm, absorb, absorb, take_append_of_le_length (by omega),
      drop_append_of_le_length (by omega), ih (by rw [length_drop]; omega)]

theorem absorb_block (h : a.length = 64 * n) (hb : b.length = 64) :
    absorb (n + 1) state (a ++ b) = processBlock (absorb n state a) b := by
  rw [absorb_append h]
  show processBlock _ (b.take 64) = _
  rw [take_of_length_le hb.le]

attribute [ext] Sha256

theorem absorbAll_append (h : a.length = 64 * n) :
    absorbAll state len (a ++ b) = absorbAll (absorb n state a) len b := by
  have hdiv : (a ++ b).length / 64 = n + b.length / 64 := by
    rw [length_append, h]
    omega
  ext1
  · show absorb ((a ++ b).length / 64) state (a ++ b) = _
    rw [hdiv, absorb_append h]
    rfl
  · show (a ++ b).drop ((a ++ b).length / 64 * 64) = b.drop (b.length / 64 * 64)
    rw [hdiv, show (n + b.length / 64) * 64 = a.length + b.length / 64 * 64 by omega,
      drop_length_add_append]
  · rfl

end

/-- **One chunk.** What waits and the new data are absorbed as if they came at once. -/
theorem update_eq (s : Sha256) (data : List UInt8) : s.update data =
      absorbAll s.state (s.totalLen + UInt64.ofNat data.length) (s.buffer ++ data) := by
  have hbuffered := s.buffered
  unfold update
  dsimp only
  split_ifs with hwaits hshort
  · have hdiv : (s.buffer ++ data).length / 64 = 0 := by
      rw [length_append]
      omega
    ext1
    · show s.state = absorb ((s.buffer ++ data).length / 64) s.state (s.buffer ++ data)
      rw [hdiv]
      rfl
    · show s.buffer ++ data = (s.buffer ++ data).drop ((s.buffer ++ data).length / 64 * 64)
      rw [hdiv]
      rfl
    · rfl
  · -- the block is completed first
    have hfull : (s.buffer ++ data.take (64 - s.buffer.length)).length = 64 := by
      rw [length_append, length_take]
      omega
    have hsplit : s.buffer ++ data =
        s.buffer ++ data.take (64 - s.buffer.length) ++ data.drop (64 - s.buffer.length) := by
      rw [append_assoc, take_append_drop]
    have hblock : absorb 1 s.state _ = _ := absorb_block (a := []) (n := 0) rfl hfull
    rw [hsplit, absorbAll_append (n := 1) hfull]
    exact congrArg (absorbAll · _ _) hblock.symm
  · rw [eq_nil_of_length_eq_zero (Nat.eq_zero_of_not_pos hwaits), nil_append]

def hashed (message : List UInt8) : Sha256 :=
  absorbAll h0 (UInt64.ofNat message.length) message

def wholeBlocks (message : List UInt8) : List UInt8 := message.take (message.length / 64 * 64)

variable (message : List UInt8)

theorem length_wholeBlocks : (wholeBlocks message).length = 64 * (message.length / 64) := by
  rw [wholeBlocks, length_take]
  omega

theorem wholeBlocks_append_buffer : wholeBlocks message ++ (hashed message).buffer = message :=
  take_append_drop _ _

theorem state_hashed :
    (hashed message).state = absorb (message.length / 64) h0 (wholeBlocks message) := by
  have h : absorb (message.length / 64) h0 (wholeBlocks message ++ (hashed message).buffer) = _ :=
    absorb_append_left (length_wholeBlocks message).ge
  rwa [wholeBlocks_append_buffer] at h

theorem update_hashed (message data : List UInt8) :
    (hashed message).update data = hashed (message ++ data) := by
  have htotal : (hashed message).totalLen + ofNat data.length = ofNat (message ++ data).length := by
    rw [length_append, ofNat_add]
    rfl
  rw [update_eq, state_hashed, htotal, ← absorbAll_append (length_wholeBlocks message),
    ← append_assoc, wholeBlocks_append_buffer]
  rfl

/-- **Chunks.** However a message is cut, the hasher ends in the same state. -/
theorem foldl_update_hashed (chunks : List (List UInt8)) :
    chunks.foldl update (hashed message) = hashed (message ++ chunks.flatten) := by
  induction chunks generalizing message with
  | nil => rw [flatten_nil, append_nil]; rfl
  | cons chunk chunks ih =>
    rw [foldl_cons, update_hashed, ih, flatten_cons, append_assoc]

/-! ## The padding -/

theorem zeroBytes_eq {len z : Nat} (hz : z < 64) (h : (len + 1 + z + 8) % 64 = 0) :
    zeroBytes len = z := by
  refine (Nat.find_eq_iff _).mpr ⟨h, fun y _ _ => ?_⟩
  omega

theorem digestBytes_eq :
    digestBytes s = (finRange 8).flatMap fun i => bigEndian 4 (words s i).toNat := by
  unfold digestBytes
  simp only [flatMap_cons, flatMap_nil, beBytes_eq]
  rfl

theorem finalize_hashed : (hashed message).finalize = Fips180.sha256 message := by
  have hlength (x : Nat) : (bigEndian 8 x).length = 8 := by
    rw [bigEndian, length_map, length_range]
  have hbuffer : (hashed message).buffer.length = message.length % 64 := by
    show (message.drop _).length = _
    rw [length_drop]
    omega
  have hpadded : padded message = wholeBlocks message ++ ((hashed message).buffer ++ 0x80 ::
      replicate (zeroBytes message.length) 0 ++ bigEndian 8 (8 * message.length)) := by
    rw [← append_assoc, ← append_assoc, wholeBlocks_append_buffer]
    rfl
  -- the digest of the padded message, once its blocks are known
  have hdigest {n : Nat} {state : HashWords} (hn : (padded message).length = 64 * n)
      (h : absorb n h0 (padded message) = state) : digestBytes state = Fips180.sha256 message := by
    rw [digestBytes_eq, ← h, words_absorb, words_h0, Fips180.sha256, blocks, hn,
      Nat.mul_div_cancel_left _ (by decide)]
  have hw := length_wholeBlocks message
  unfold finalize
  dsimp only
  rw [show (hashed message).totalLen = ofNat message.length from rfl, lengthBytes_eq]
  split_ifs with hlong
  · rw [length_append, hbuffer, length_singleton] at hlong
    have hzero : zeroBytes message.length = 63 - message.length % 64 + 56 := by
      refine zeroBytes_eq ?_ ?_ <;> omega
    have hfirst : ((hashed message).buffer ++ 0x80 ::
        replicate (63 - message.length % 64) 0).length = 64 := by
      simp [hbuffer]
      omega
    have hlast : (replicate 56 0 ++ bigEndian 8 (8 * message.length)).length = 64 := by
      rw [length_append, length_replicate, hlength]
    have htwo : padded message = wholeBlocks message ++ ((hashed message).buffer ++ 0x80 ::
        replicate (63 - message.length % 64) 0) ++
        (replicate 56 0 ++ bigEndian 8 (8 * message.length)) := by
      rw [hpadded, hzero, replicate_add]
      simp
    refine hdigest (n := message.length / 64 + 1 + 1) ?_ ?_
    · rw [htwo, length_append, length_append, hw, hfirst, hlast]
      ring
    · rw [htwo, absorb_block (by rw [length_append, hw, hfirst]; ring) hlast,
        absorb_block hw hfirst, ← state_hashed]
      simp [hbuffer]
  · rw [length_append, hbuffer, length_singleton] at hlong
    have hzero : zeroBytes message.length = 55 - message.length % 64 :=
      zeroBytes_eq (by omega) (by omega)
    have hlast : ((hashed message).buffer ++ 0x80 :: replicate (zeroBytes message.length) 0 ++
        bigEndian 8 (8 * message.length)).length = 64 := by
      simp [hbuffer, hlength, hzero]
      omega
    refine hdigest (n := message.length / 64 + 1) ?_ ?_
    · rw [hpadded, length_append, hw, hlast]
      ring
    · rw [hpadded, absorb_block hw hlast, ← state_hashed]
      simp [hbuffer, hzero]

theorem digest_eq : digest message = Fips180.sha256 message := by
  rw [digest, show new = hashed [] from rfl, update_hashed, finalize_hashed, nil_append]

end AgenticOS.Sha256

namespace AgenticOS.HmacSha256

theorem keyBlock_eq (key : List UInt8) : keyBlock key = Fips180.macKey key := by
  rw [keyBlock, Sha256.digest_eq]
  rfl

/-- **SHA-256 and HMAC.** The digest is the one of the standard for every way to cut the
message into chunks, and the tag is the one that the digest defines, for keys of every
length. -/
theorem hash_and_mac_standard (chunks : List (List UInt8)) (key message : List UInt8) :
    (chunks.foldl Sha256.update Sha256.new).finalize = Fips180.sha256 chunks.flatten ∧
      mac key message = Fips180.hmac key message := by
  constructor
  · rw [show Sha256.new = Sha256.hashed [] from rfl, Sha256.foldl_update_hashed,
      Sha256.finalize_hashed, List.nil_append]
  · have hpad (p : UInt8) : (keyBlock key).map (p ^^^ ·) = (Fips180.macKey key).map (· ^^^ p) := by
      rw [keyBlock_eq]
      exact List.map_congr_left fun b _ => UInt8.xor_comm p b
    unfold mac Fips180.hmac
    rw [hpad, hpad, show Sha256.new = Sha256.hashed [] from rfl]
    simp only [Sha256.update_hashed, Sha256.finalize_hashed, List.nil_append]

end AgenticOS.HmacSha256
