/-
# Bytes

Words are stored with the low byte first, a text as its length in a word and
then its UTF-8 bytes. Reading at an offset either yields what is stored there
or says why nothing can be read; a `Reader` is a buffer with the offset of the
next byte to read. Writing only ever appends, except that a word that is
already written can be replaced.

Key definitions: `Bytes`, `littleEndian`, `ofLittleEndian`, `DecodeError`,
`Bytes.sliceAt`, `Reader`, `Bytes.replaceWord`.
-/
namespace ResourceMachine

/-- A sequence of bytes. -/
abbrev Bytes := Array UInt8

/-! ### Words -/

/-- The `k` low base-256 digits of `n`, the lowest first. -/
def littleEndian : Nat → Nat → List UInt8
  | 0, _ => []
  | k + 1, n => UInt8.ofNat n :: littleEndian k (n / 256)

/-- The number that base-256 digits stand for, the lowest first. -/
def ofLittleEndian : List UInt8 → Nat
  | [] => 0
  | b :: bs => b.toNat + 256 * ofLittleEndian bs

theorem length_littleEndian : ∀ k n : Nat, (littleEndian k n).length = k
  | 0, _ => rfl
  | k + 1, n => by simp [littleEndian, length_littleEndian k]

/-- Of a number that needs more digits than there is room for, only the low ones
are kept. -/
theorem ofLittleEndian_littleEndian :
    ∀ k n : Nat, ofLittleEndian (littleEndian k n) = n % Nat.pow 256 k
  | 0, n => (Nat.mod_one n).symm
  | k + 1, n => by
    rw [littleEndian, ofLittleEndian, ofLittleEndian_littleEndian k, UInt8.toNat_ofNat']
    change n % 256 + 256 * (n / 256 % Nat.pow 256 k) = n % (Nat.pow 256 k * 256)
    rw [Nat.mul_comm (Nat.pow 256 k) 256, Nat.mod_mul]

/-- Bytes are the digits of the number that they stand for. -/
theorem littleEndian_ofLittleEndian : ∀ bs : List UInt8,
    littleEndian bs.length (ofLittleEndian bs) = bs
  | [] => rfl
  | b :: bs => by
    have hb := b.toNat_lt
    have hdiv : (b.toNat + 256 * ofLittleEndian bs) / 256 = ofLittleEndian bs := by omega
    have hlow : UInt8.ofNat (b.toNat + 256 * ofLittleEndian bs) = b := by
      rw [UInt8.ofNat_add, UInt8.ofNat_mul, UInt8.ofNat_toNat]
      simp
    rw [ofLittleEndian, List.length_cons, littleEndian, hdiv, hlow,
      littleEndian_ofLittleEndian bs]

theorem ofLittleEndian_lt : ∀ bs : List UInt8, ofLittleEndian bs < Nat.pow 256 bs.length
  | [] => Nat.one_pos
  | b :: bs => by
    have hb := b.toNat_lt
    have := ofLittleEndian_lt bs
    rw [ofLittleEndian, List.length_cons]
    show _ < Nat.pow 256 bs.length * 256
    omega

/-- The four bytes of a word. -/
def word (n : UInt32) : Bytes :=
  (littleEndian 4 n.toNat).toArray

/-- The four bytes of a signed word. -/
def signedWord (n : Int32) : Bytes :=
  word n.toUInt32

/-- The two bytes of a half word. -/
def halfWord (n : UInt16) : Bytes :=
  (littleEndian 2 n.toNat).toArray

/-- The bytes of a count. Of a count that does not fit a word only the low 32
bits are kept. -/
def countWord (n : Nat) : Bytes :=
  word (UInt32.ofNat n)

/-- The bytes of a text. -/
def utf8 (s : String) : Bytes :=
  s.toUTF8.data

/-- A text with its length in front. -/
def counted (s : String) : Bytes :=
  countWord s.utf8ByteSize ++ utf8 s

/-! ### Reading at an offset -/

/-- Why bytes cannot be read as what they should be. -/
inductive DecodeError where
  | unexpectedEnd (offset : Nat)
  | invalidUtf8 (offset : Nat)
  | invalidOpcode (byte : UInt8) (offset : Nat)
  | invalidFunctionKind (tag : UInt8)
  deriving DecidableEq, Repr

/-- The two lower-case hexadecimal digits of a byte. -/
def hexByte (b : UInt8) : String :=
  String.ofList [Nat.digitChar (b.toNat / 16), Nat.digitChar (b.toNat % 16)]

/-- The shortest lower-case hexadecimal text of a number. -/
def hexNumber (n : Nat) : String :=
  "0x" ++ String.ofList (Nat.toDigits 16 n)

namespace DecodeError

/-- The text shown for the error. -/
def message : DecodeError → String
  | unexpectedEnd offset => s!"Unexpected end of bytecode at offset {offset}"
  | invalidUtf8 offset => s!"Invalid UTF-8 string at offset {offset}"
  | invalidOpcode byte offset => s!"Invalid opcode 0x{hexByte byte} at offset {offset}"
  | invalidFunctionKind tag => s!"Invalid function kind {tag.toNat}"

end DecodeError

namespace Bytes

/-- The `n` bytes from `pos` on. -/
def sliceAt (bytes : Bytes) (n pos : Nat) : Except DecodeError Bytes :=
  if bytes.size < pos + n then .error (.unexpectedEnd pos)
  else .ok (bytes.extract pos (pos + n))

/-- The number in the `n` bytes from `pos` on. -/
def numberAt (bytes : Bytes) (n pos : Nat) : Except DecodeError Nat :=
  (fun slice => ofLittleEndian slice.toList) <$> bytes.sliceAt n pos

def byteAt (bytes : Bytes) (pos : Nat) : Except DecodeError UInt8 :=
  UInt8.ofNat <$> bytes.numberAt 1 pos

def halfWordAt (bytes : Bytes) (pos : Nat) : Except DecodeError UInt16 :=
  UInt16.ofNat <$> bytes.numberAt 2 pos

def wordAt (bytes : Bytes) (pos : Nat) : Except DecodeError UInt32 :=
  UInt32.ofNat <$> bytes.numberAt 4 pos

def signedWordAt (bytes : Bytes) (pos : Nat) : Except DecodeError Int32 :=
  UInt32.toInt32 <$> bytes.wordAt pos

/-- The bytes with those from `pos` on replaced by others, as far as they reach. -/
def replaceAt (bytes : Bytes) : Nat → List UInt8 → Bytes
  | _, [] => bytes
  | pos, b :: bs => replaceAt (bytes.setIfInBounds pos b) (pos + 1) bs

/-- The bytes with the four from `pos` on replaced by those of `n`. -/
def replaceWord (bytes : Bytes) (pos : Nat) (n : UInt32) : Bytes :=
  bytes.replaceAt pos (littleEndian 4 n.toNat)

theorem size_replaceAt : ∀ (bytes : Bytes) (pos : Nat) (bs : List UInt8),
    (bytes.replaceAt pos bs).size = bytes.size
  | _, _, [] => rfl
  | bytes, pos, b :: bs => by simp [replaceAt, size_replaceAt]

end Bytes

/-! ### Reading in sequence -/

/-- A buffer and the offset of the next byte to read. -/
structure Reader where
  bytes : Bytes
  pos : Nat

/-- A computation that reads from a buffer. A failed read leaves the offset
where it stopped. -/
abbrev Read := EStateM DecodeError Reader

namespace Reader

/-- Start at the first byte. -/
def ofBytes (bytes : Bytes) : Reader := ⟨bytes, 0⟩

/-- Whether a byte is left. -/
def hasMore (r : Reader) : Bool := r.pos < r.bytes.size

/-- The next `n` bytes. -/
def take (n : Nat) : Read Bytes := fun r =>
  match r.bytes.sliceAt n r.pos with
  | .ok slice => .ok slice { r with pos := r.pos + n }
  | .error e => .error e r

/-- The number in the next `n` bytes. -/
def number (n : Nat) : Read Nat :=
  (fun slice => ofLittleEndian slice.toList) <$> take n

def byte : Read UInt8 := UInt8.ofNat <$> number 1

def halfWord : Read UInt16 := UInt16.ofNat <$> number 2

def word : Read UInt32 := UInt32.ofNat <$> number 4

def signedWord : Read Int32 := UInt32.toInt32 <$> word

/-- A count, as `countWord` writes it. -/
def count : Read Nat := number 4

/-- A text with its length in front. The bytes count as read even if they are
no UTF-8. -/
def counted : Read String := do
  let n ← count
  let start := (← get).pos
  let slice ← take n
  match String.fromUTF8? ⟨slice⟩ with
  | some s => pure s
  | none => throw (.invalidUtf8 start)

/-- `n` readings in a row. -/
def times (m : Read α) : Nat → Read (List α)
  | 0 => pure []
  | n + 1 => do
    let x ← m
    let xs ← times m n
    pure (x :: xs)

end Reader
end ResourceMachine
