import Mathlib

/-!
# SHA-256 and HMAC

The streaming hash of `kernel_common/src/crypto.rs` and the keyed tag over it.
The buffer of a hasher is the bytes that wait for their block; what the array of
the source holds behind `buffer_len` is never read before it is overwritten.
-/

namespace AgenticOS

structure HashWords where
  a : UInt32
  b : UInt32
  c : UInt32
  d : UInt32
  e : UInt32
  f : UInt32
  g : UInt32
  h : UInt32
  deriving DecidableEq

/-- `Sha256`: the bytes that wait are fewer than a block. -/
structure Sha256 where
  state : HashWords
  buffer : List UInt8
  totalLen : UInt64
  buffered : buffer.length < 64

namespace Sha256

def h0 : HashWords where
  a := 0x6a09e667
  b := 0xbb67ae85
  c := 0x3c6ef372
  d := 0xa54ff53a
  e := 0x510e527f
  f := 0x9b05688c
  g := 0x1f83d9ab
  h := 0x5be0cd19

def k : List UInt32 := [
  0x428a2f98, 0x71374491, 0xb5c0fbcf, 0xe9b5dba5, 0x3956c25b, 0x59f111f1, 0x923f82a4, 0xab1c5ed5,
  0xd807aa98, 0x12835b01, 0x243185be, 0x550c7dc3, 0x72be5d74, 0x80deb1fe, 0x9bdc06a7, 0xc19bf174,
  0xe49b69c1, 0xefbe4786, 0x0fc19dc6, 0x240ca1cc, 0x2de92c6f, 0x4a7484aa, 0x5cb0a9dc, 0x76f988da,
  0x983e5152, 0xa831c66d, 0xb00327c8, 0xbf597fc7, 0xc6e00bf3, 0xd5a79147, 0x06ca6351, 0x14292967,
  0x27b70a85, 0x2e1b2138, 0x4d2c6dfc, 0x53380d13, 0x650a7354, 0x766a0abb, 0x81c2c92e, 0x92722c85,
  0xa2bfe8a1, 0xa81a664b, 0xc24b8b70, 0xc76c51a3, 0xd192e819, 0xd6990624, 0xf40e3585, 0x106aa070,
  0x19a4c116, 0x1e376c08, 0x2748774c, 0x34b0bcb5, 0x391c0cb3, 0x4ed8aa4a, 0x5b9cca4f, 0x682e6ff3,
  0x748f82ee, 0x78a5636f, 0x84c87814, 0x8cc70208, 0x90befffa, 0xa4506ceb, 0xbef9a3f7, 0xc67178f2]

def rotateRight (x n : UInt32) : UInt32 := (x >>> n) ||| (x <<< (32 - n))

def ch (x y z : UInt32) : UInt32 := (x &&& y) ^^^ (~~~x &&& z)

def maj (x y z : UInt32) : UInt32 := (x &&& y) ^^^ (x &&& z) ^^^ (y &&& z)

def bigSigma0 (x : UInt32) : UInt32 := rotateRight x 2 ^^^ rotateRight x 13 ^^^ rotateRight x 22

def bigSigma1 (x : UInt32) : UInt32 := rotateRight x 6 ^^^ rotateRight x 11 ^^^ rotateRight x 25

def smallSigma0 (x : UInt32) : UInt32 := rotateRight x 7 ^^^ rotateRight x 18 ^^^ (x >>> 3)

def smallSigma1 (x : UInt32) : UInt32 := rotateRight x 17 ^^^ rotateRight x 19 ^^^ (x >>> 10)

def beWord (block : List UInt8) (i : Nat) : UInt32 :=
  ((block.getD i 0).toUInt32 <<< 24) ||| ((block.getD (i + 1) 0).toUInt32 <<< 16) |||
    ((block.getD (i + 2) 0).toUInt32 <<< 8) ||| (block.getD (i + 3) 0).toUInt32

def beBytes (w : UInt32) : List UInt8 :=
  [(w >>> 24).toUInt8, (w >>> 16).toUInt8, (w >>> 8).toUInt8, w.toUInt8]

/-! ## Blocks -/

def extend (w : List UInt32) : List UInt32 :=
  let i := w.length
  w ++ [w.getD (i - 16) 0 + smallSigma0 (w.getD (i - 15) 0) + w.getD (i - 7) 0 +
    smallSigma1 (w.getD (i - 2) 0)]

def schedule (block : List UInt8) : List UInt32 :=
  extend^[48] ((List.range 16).map fun i => beWord block (i * 4))

def round (s : HashWords) (kw : UInt32 × UInt32) : HashWords :=
  let t1 := s.h + bigSigma1 s.e + ch s.e s.f s.g + kw.1 + kw.2
  let t2 := bigSigma0 s.a + maj s.a s.b s.c
  { a := t1 + t2, b := s.a, c := s.b, d := s.c, e := s.d + t1, f := s.e, g := s.f, h := s.g }

def processBlock (state : HashWords) (block : List UInt8) : HashWords :=
  let s := (k.zip (schedule block)).foldl round state
  { a := state.a + s.a, b := state.b + s.b, c := state.c + s.c, d := state.d + s.d,
    e := state.e + s.e, f := state.f + s.f, g := state.g + s.g, h := state.h + s.h }

/-- The loop of `update`: `n` whole blocks are processed, the rest is left. -/
def absorb : Nat → HashWords → List UInt8 → HashWords
  | 0, state, _ => state
  | n + 1, state, data => absorb n (processBlock state (data.take 64)) (data.drop 64)

/-! ## The hasher -/

def new : Sha256 := ⟨h0, [], 0, by decide⟩

/-- `data` comes with nothing waiting. -/
def absorbAll (state : HashWords) (totalLen : UInt64) (data : List UInt8) : Sha256 where
  state := absorb (data.length / 64) state data
  buffer := data.drop (data.length / 64 * 64)
  totalLen := totalLen
  buffered := by
    rw [List.length_drop]
    have := Nat.mod_lt data.length (show 64 > 0 by decide)
    omega

def update (s : Sha256) (data : List UInt8) : Sha256 :=
  let totalLen := s.totalLen + UInt64.ofNat data.length
  if s.buffer.length > 0 then
    let needed := 64 - s.buffer.length
    if h : data.length < needed then
      ⟨s.state, s.buffer ++ data, totalLen, by
        rw [List.length_append]
        omega⟩
    else
      absorbAll (processBlock s.state (s.buffer ++ data.take needed)) totalLen (data.drop needed)
  else absorbAll s.state totalLen data

def lengthBytes (bits : UInt64) : List UInt8 :=
  beBytes (bits >>> 32).toUInt32 ++ beBytes bits.toUInt32

def digestBytes (s : HashWords) : List UInt8 :=
  [s.a, s.b, s.c, s.d, s.e, s.f, s.g, s.h].flatMap beBytes

def finalize (s : Sha256) : List UInt8 :=
  let bitLen := s.totalLen * 8
  let buffer := s.buffer ++ [0x80]
  let (state, buffer) :=
    if buffer.length > 56 then
      (processBlock s.state (buffer ++ List.replicate (64 - buffer.length) 0), [])
    else (s.state, buffer)
  let block := buffer ++ List.replicate (56 - buffer.length) 0 ++ lengthBytes bitLen
  digestBytes (processBlock state block)

def digest (data : List UInt8) : List UInt8 := (new.update data).finalize

example : (digest [0x61, 0x62, 0x63]).take 4 = [0xba, 0x78, 0x16, 0xbf] := by decide +kernel

@[simp] theorem length_digest (data : List UInt8) : (digest data).length = 32 := rfl

end Sha256

/-! ## Comparing -/

def constantTimeEq (a b : List UInt8) : Bool :=
  if a.length ≠ b.length then false
  else (a.zip b).foldl (fun diff xy => diff ||| (xy.1 ^^^ xy.2)) (0 : UInt8) == 0

theorem foldl_or_xor_eq_zero {l : List (UInt8 × UInt8)} {diff : UInt8} :
    l.foldl (fun diff xy => diff ||| (xy.1 ^^^ xy.2)) diff = 0 ↔
      diff = 0 ∧ ∀ xy ∈ l, xy.1 = xy.2 := by
  induction l generalizing diff with
  | nil => simp
  | cons xy l ih =>
    have hor : diff ||| (xy.1 ^^^ xy.2) = 0 ↔ diff = 0 ∧ xy.1 = xy.2 := by
      rw [UInt8.or_eq_zero_iff, UInt8.xor_eq_zero_iff]
    rw [List.foldl_cons, ih, hor, List.forall_mem_cons, and_assoc]

theorem constantTimeEq_iff {a b : List UInt8} : constantTimeEq a b = true ↔ a = b := by
  unfold constantTimeEq
  split_ifs with hlen
  · refine iff_of_false nofun fun h => hlen (congrArg List.length h)
  · rw [beq_iff_eq, foldl_or_xor_eq_zero, ← List.forall₂_eq_eq_eq, List.forall₂_iff_zip]
    constructor
    · exact fun h => ⟨not_not.mp hlen, fun hxy => h.2 _ hxy⟩
    · exact fun h => ⟨rfl, fun _ hxy => h.2 hxy⟩

/-! ## HMAC -/

namespace HmacSha256

def blockSize : Nat := 64

def keyBlock (key : List UInt8) : List UInt8 :=
  let key := if key.length > blockSize then Sha256.digest key else key
  key ++ List.replicate (blockSize - key.length) 0

def mac (key message : List UInt8) : List UInt8 :=
  let oKeyPad := (keyBlock key).map (0x5c ^^^ ·)
  let iKeyPad := (keyBlock key).map (0x36 ^^^ ·)
  let innerHash := ((Sha256.new.update iKeyPad).update message).finalize
  ((Sha256.new.update oKeyPad).update innerHash).finalize

end HmacSha256

end AgenticOS
