/-
# The fingerprint of an encoded module

SHA-256: the message is padded to blocks of 64 bytes, each block is expanded to
64 words, and 64 rounds mix them into eight words of state.

Key definitions: `Sha256.padded`, `Sha256.schedule`, `Sha256.compress`, `sha256`.
-/
import ResourceMachine.Code.Bytes

namespace ResourceMachine
namespace Sha256

/-- The round constants. -/
def roundConstants : List UInt32 :=
  [0x428a2f98, 0x71374491, 0xb5c0fbcf, 0xe9b5dba5, 0x3956c25b, 0x59f111f1, 0x923f82a4, 0xab1c5ed5,
   0xd807aa98, 0x12835b01, 0x243185be, 0x550c7dc3, 0x72be5d74, 0x80deb1fe, 0x9bdc06a7, 0xc19bf174,
   0xe49b69c1, 0xefbe4786, 0x0fc19dc6, 0x240ca1cc, 0x2de92c6f, 0x4a7484aa, 0x5cb0a9dc, 0x76f988da,
   0x983e5152, 0xa831c66d, 0xb00327c8, 0xbf597fc7, 0xc6e00bf3, 0xd5a79147, 0x06ca6351, 0x14292967,
   0x27b70a85, 0x2e1b2138, 0x4d2c6dfc, 0x53380d13, 0x650a7354, 0x766a0abb, 0x81c2c92e, 0x92722c85,
   0xa2bfe8a1, 0xa81a664b, 0xc24b8b70, 0xc76c51a3, 0xd192e819, 0xd6990624, 0xf40e3585, 0x106aa070,
   0x19a4c116, 0x1e376c08, 0x2748774c, 0x34b0bcb5, 0x391c0cb3, 0x4ed8aa4a, 0x5b9cca4f, 0x682e6ff3,
   0x748f82ee, 0x78a5636f, 0x84c87814, 0x8cc70208, 0x90befffa, 0xa4506ceb, 0xbef9a3f7, 0xc67178f2]

/-- The eight words of state between blocks. -/
structure State where
  a : UInt32
  b : UInt32
  c : UInt32
  d : UInt32
  e : UInt32
  f : UInt32
  g : UInt32
  h : UInt32

/-- The state before the first block. -/
def initial : State :=
  ⟨0x6a09e667, 0xbb67ae85, 0x3c6ef372, 0xa54ff53a, 0x510e527f, 0x9b05688c, 0x1f83d9ab, 0x5be0cd19⟩

/-- A word rotated to the right. -/
def rotateRight (x n : UInt32) : UInt32 :=
  (x >>> n) ||| (x <<< (32 - n))

/-- The number in base-256 digits, the highest first. -/
def ofBigEndian (bytes : List UInt8) : UInt32 :=
  bytes.foldl (fun n b => (n <<< 8) ||| b.toUInt32) 0

/-- The `k` low base-256 digits of a number, the highest first. -/
def bigEndian (k n : Nat) : List UInt8 :=
  (littleEndian k n).reverse

/-- The message with a set bit, zeros, and its length in bits behind it: a whole
number of blocks. -/
def padded (message : Bytes) : Bytes :=
  let zeros := (119 - message.size % 64) % 64
  message ++ #[0x80] ++ Array.replicate zeros 0 ++ (bigEndian 8 (8 * message.size)).toArray

/-- The words of the block that starts at an offset. -/
def blockWords (bytes : Bytes) (start : Nat) : List UInt32 :=
  (List.range 16).map fun i =>
    ofBigEndian (bytes.extract (start + 4 * i) (start + 4 * i + 4)).toList

/-- The next word of an expanded block. -/
def nextWord (ws : Array UInt32) : UInt32 :=
  let i := ws.size
  let x := ws.getD (i - 15) 0
  let y := ws.getD (i - 2) 0
  let s0 := rotateRight x 7 ^^^ rotateRight x 18 ^^^ (x >>> 3)
  let s1 := rotateRight y 17 ^^^ rotateRight y 19 ^^^ (y >>> 10)
  ws.getD (i - 16) 0 + s0 + ws.getD (i - 7) 0 + s1

/-- A block's words followed by `k` more that they determine. -/
def extended (ws : Array UInt32) : Nat → Array UInt32
  | 0 => ws
  | k + 1 => extended (ws.push (nextWord ws)) k

/-- The 64 words of an expanded block. -/
def schedule (bytes : Bytes) (start : Nat) : List UInt32 :=
  (extended (blockWords bytes start).toArray 48).toList

/-- One round, with its constant and its word. -/
def round (s : State) (kw : UInt32 × UInt32) : State :=
  let s1 := rotateRight s.e 6 ^^^ rotateRight s.e 11 ^^^ rotateRight s.e 25
  let choice := (s.e &&& s.f) ^^^ (~~~ s.e &&& s.g)
  let t1 := s.h + s1 + choice + kw.1 + kw.2
  let s0 := rotateRight s.a 2 ^^^ rotateRight s.a 13 ^^^ rotateRight s.a 22
  let majority := (s.a &&& s.b) ^^^ (s.a &&& s.c) ^^^ (s.b &&& s.c)
  ⟨t1 + s0 + majority, s.a, s.b, s.c, s.d + t1, s.e, s.f, s.g⟩

/-- Mix the block that starts at an offset into the state. -/
def compress (bytes : Bytes) (s : State) (start : Nat) : State :=
  let t := (roundConstants.zip (schedule bytes start)).foldl round s
  ⟨s.a + t.a, s.b + t.b, s.c + t.c, s.d + t.d, s.e + t.e, s.f + t.f, s.g + t.g, s.h + t.h⟩

/-- The bytes of a state. -/
def State.bytes (s : State) : Bytes :=
  ([s.a, s.b, s.c, s.d, s.e, s.f, s.g, s.h].flatMap fun w => bigEndian 4 w.toNat).toArray

end Sha256

/-- The fingerprint of a message: 32 bytes. -/
def sha256 (message : Bytes) : Bytes :=
  let bytes := Sha256.padded message
  let starts := (List.range (bytes.size / 64)).map (64 * ·)
  (starts.foldl (Sha256.compress bytes) Sha256.initial).bytes

end ResourceMachine
