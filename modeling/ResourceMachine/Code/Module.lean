/-
# Modules

A module is a named list of functions with the constant pool that their code
refers to. In bytes it is a header (four magic bytes, the version and the
checksum of what follows) and a payload (name, pool, functions). Reading stops
at the first fault and ignores bytes that are left over after the last function.

Key definitions: `FunctionKind`, `Function`, `Module`, `Module.check`,
`Module.encode`, `Module.decode`, `Module.fingerprint`.
-/
import ResourceMachine.Code.ConstantPool
import ResourceMachine.Digest.Crc32
import ResourceMachine.Digest.Sha256

namespace ResourceMachine

/-! ### Functions -/

/-- What a function may do besides computing: wait for promises, hand out
values one by one, both or neither. -/
inductive FunctionKind where
  | normal
  | async
  | generator
  | asyncGenerator
  deriving DecidableEq, Repr

namespace FunctionKind

/-- Every kind, by ascending byte. -/
def all : List FunctionKind := [normal, async, generator, asyncGenerator]

/-- The byte that encodes the kind. -/
def byte : FunctionKind → UInt8
  | normal => 0
  | async => 1
  | generator => 2
  | asyncGenerator => 3

/-- The kind a byte encodes. -/
def ofByte? (b : UInt8) : Option FunctionKind :=
  all.find? (·.byte == b)

/-- The name used in listings. -/
def name : FunctionKind → String
  | normal => "Normal"
  | async => "Async"
  | generator => "Generator"
  | asyncGenerator => "AsyncGenerator"

/-- Whether the function may wait for promises. -/
def isAsync : FunctionKind → Bool
  | async | asyncGenerator => true
  | _ => false

/-- Whether the function hands out values one by one. -/
def isGenerator : FunctionKind → Bool
  | generator | asyncGenerator => true
  | _ => false

theorem ofByte?_byte (k : FunctionKind) : ofByte? k.byte = some k := by
  cases k <;> rfl

theorem byte_of_ofByte? {b : UInt8} {k : FunctionKind} (h : ofByte? b = some k) : k.byte = b := by
  simpa using List.find?_some h

end FunctionKind

/-- A compiled function. Parameters are the first of its locals; `maxStack`
bounds the depth of its operand stack. -/
structure Function where
  name : String
  kind : FunctionKind
  paramCount : Nat
  localCount : Nat
  maxStack : Nat
  code : Bytes
  deriving DecidableEq, Repr

namespace Function

/-- The bytes of a function. -/
def encode (f : Function) : Bytes :=
  counted f.name ++ #[f.kind.byte] ++ countWord f.paramCount ++ countWord f.localCount
    ++ countWord f.maxStack ++ countWord f.code.size ++ f.code

/-- Read the kind of a function. -/
def readKind : Read FunctionKind := do
  let tag ← Reader.byte
  match FunctionKind.ofByte? tag with
  | some kind => pure kind
  | none => throw (.invalidFunctionKind tag)

/-- Read a function that `encode` wrote. -/
def read : Read Function := do
  let name ← Reader.counted
  let kind ← readKind
  let paramCount ← Reader.count
  let localCount ← Reader.count
  let maxStack ← Reader.count
  let size ← Reader.count
  let code ← Reader.take size
  pure ⟨name, kind, paramCount, localCount, maxStack, code⟩

end Function

/-! ### Modules -/

/-- A named list of functions over one constant pool. -/
structure Module where
  magic : Bytes
  version : UInt32
  name : String
  constants : ConstantPool
  functions : List Function
  deriving DecidableEq, Repr

/-- Why bytes are no module. -/
inductive ModuleError where
  | decode (error : DecodeError)
  | invalidMagic (found : Bytes)
  | unsupportedVersion (found : UInt32)
  | checksumMismatch (stored computed : UInt32)
  deriving DecidableEq, Repr

/-- What keeps a module from being used. -/
inductive ModuleFlaw where
  | invalidMagic
  | unsupportedVersion (found : UInt32)
  | duplicateFunction (name : String)
  | tooFewLocals (name : String) (paramCount localCount : Nat)
  deriving DecidableEq, Repr

namespace Module

/-- The bytes every encoded module starts with. -/
def currentMagic : Bytes := #[0x55, 0x56, 0x4d, 0x42]

/-- The version of the encoding. -/
def currentVersion : UInt32 := 1

/-- The number of bytes before the payload. -/
def headerSize : Nat := 12

/-- A module without functions. -/
def named (name : String) : Module :=
  ⟨currentMagic, currentVersion, name, .empty, []⟩

/-- The first function with a given name. -/
def function? (m : Module) (name : String) : Option Function :=
  m.functions.find? (·.name == name)

end Module

namespace ModuleError

/-- The text shown for the error. -/
def message : ModuleError → String
  | decode e => s!"Decode error: {e.message}"
  | invalidMagic found =>
    let shown := ", ".intercalate (found.toList.map fun b => toString b.toNat)
    s!"Invalid magic number: expected UVMB, got [{shown}]"
  | unsupportedVersion found =>
    s!"Unsupported version: {found.toNat} (current: {Module.currentVersion.toNat})"
  | checksumMismatch stored computed =>
    s!"Checksum mismatch: expected {hexNumber stored.toNat}, got {hexNumber computed.toNat}"

end ModuleError

namespace ModuleFlaw

/-- The text shown for the flaw. -/
def message : ModuleFlaw → String
  | invalidMagic => "Invalid magic number"
  | unsupportedVersion found => s!"Unsupported version: {found.toNat}"
  | duplicateFunction name => s!"Duplicate function '{name}'"
  | tooFewLocals name paramCount localCount =>
    s!"Function '{name}' declares {paramCount} params but only {localCount} locals"

end ModuleFlaw

namespace Module

/-! ### Soundness of the parts -/

/-- Check functions one by one against the names before them. -/
def checkFunctions (seen : List String) : List Function → Except ModuleFlaw Unit
  | [] => .ok ()
  | f :: fs =>
    if f.name ∈ seen then .error (.duplicateFunction f.name)
    else if f.localCount < f.paramCount then
      .error (.tooFewLocals f.name f.paramCount f.localCount)
    else checkFunctions (f.name :: seen) fs

/-- Check the header, and that names are distinct and parameters are locals. -/
def check (m : Module) : Except ModuleFlaw Unit :=
  if m.magic ≠ currentMagic then .error .invalidMagic
  else if m.version ≠ currentVersion then .error (.unsupportedVersion m.version)
  else checkFunctions [] m.functions

/-! ### Bytes -/

/-- The bytes after the header. -/
def payload (m : Module) : Bytes :=
  counted m.name ++ m.constants.encode ++ countWord m.functions.length
    ++ m.functions.toArray.flatMap Function.encode

/-- The bytes of a module. -/
def encode (m : Module) : Bytes :=
  m.magic ++ word m.version ++ word (crc32 m.payload) ++ m.payload

/-- Read what `payload` wrote. -/
def readPayload (magic : Bytes) (version : UInt32) : Read Module := do
  let name ← Reader.counted
  let constants ← ConstantPool.read
  let n ← Reader.count
  let functions ← Reader.times Function.read n
  pure ⟨magic, version, name, constants, functions⟩

/-- The module that bytes encode. -/
def decode (bytes : Bytes) : Except ModuleError Module := do
  let magic ← (bytes.sliceAt 4 0).mapError .decode
  if magic ≠ currentMagic then .error (.invalidMagic magic)
  else
    let version ← (bytes.wordAt 4).mapError .decode
    if version ≠ currentVersion then .error (.unsupportedVersion version)
    else
      let stored ← (bytes.wordAt 8).mapError .decode
      let computed := crc32 (bytes.extract headerSize bytes.size)
      if stored ≠ computed then .error (.checksumMismatch stored computed)
      else
        match (readPayload magic version).run ⟨bytes, headerSize⟩ with
        | .ok m _ => .ok m
        | .error e _ => .error (.decode e)

/-- The fingerprint of the encoded module. -/
def fingerprint (m : Module) : Bytes := sha256 m.encode

end Module
end ResourceMachine
