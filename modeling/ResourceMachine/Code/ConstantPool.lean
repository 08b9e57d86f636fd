/-
# Constant pools

The texts that a module's code refers to by position. Adding a text that the
pool holds already gives its position; an index names, for each text, the
position where it stands first. A pool that is read from bytes may hold a text
twice and keeps both positions.

Key definitions: `ConstantPool`, `ConstantPool.add`, `ConstantPool.get?`,
`ConstantPool.encode`, `ConstantPool.read`.
-/
import ResourceMachine.Code.Bytes

namespace ResourceMachine

/-- Texts by position, and for each text where it is found. -/
structure ConstantPool where
  strings : Array String
  index : List (String × Nat)
  deriving DecidableEq, Repr

namespace ConstantPool

/-- The pool that holds nothing. -/
def empty : ConstantPool := ⟨#[], []⟩

/-- Where a text is found. -/
def find? (pool : ConstantPool) (s : String) : Option Nat :=
  pool.index.lookup s

/-- Put a text behind the others. The index keeps an earlier position. -/
def append (pool : ConstantPool) (s : String) : ConstantPool :=
  { strings := pool.strings.push s
    index := if (pool.find? s).isSome then pool.index else (s, pool.strings.size) :: pool.index }

/-- The position of a text, which is put behind the others if it is new. -/
def add (pool : ConstantPool) (s : String) : Nat × ConstantPool :=
  match pool.find? s with
  | some i => (i, pool)
  | none => (pool.strings.size, pool.append s)

/-- The pool after adding several texts. -/
def addAll (pool : ConstantPool) (ss : List String) : ConstantPool :=
  ss.foldl (fun p s => (p.add s).2) pool

/-- The pool that holds each of the texts once, by first appearance. -/
def ofList (ss : List String) : ConstantPool := empty.addAll ss

/-- The text at a position. -/
def get? (pool : ConstantPool) (i : Nat) : Option String := pool.strings[i]?

def size (pool : ConstantPool) : Nat := pool.strings.size

def isEmpty (pool : ConstantPool) : Bool := pool.strings.isEmpty

/-- The bytes of a pool: the number of texts, then each text. -/
def encode (pool : ConstantPool) : Bytes :=
  countWord pool.size ++ pool.strings.flatMap counted

/-- Read a pool that `encode` wrote. -/
def read : Read ConstantPool := do
  let n ← Reader.count
  let ss ← Reader.times Reader.counted n
  pure (ss.foldl append empty)

end ConstantPool
end ResourceMachine
