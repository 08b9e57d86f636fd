/-
# Listings

The readable form of a function's code: one line per instruction with its
offset in a column of six, its name, and either where it leads or its operands.
The same instructions can be written as a JSON array, indented by two.

Key definitions: `Function.listing`, `Function.listingJson`.
-/
import ResourceMachine.Code.Instruction
import ResourceMachine.Code.Module

namespace ResourceMachine

/-! ### Lines -/

namespace Located

/-- The text of an offset that may be absent. -/
def targetText : Option Nat → String
  | some t => s!"Some({t})"
  | none => "None"

/-- What follows the name on an instruction's line. -/
def detail (i : Located) : String :=
  match i.jumpTarget?, i.instr with
  | some t, _ => s!" -> {t}"
  | none, .tryStart c f =>
    " catch=" ++ targetText (i.handlerTarget? c) ++ " finally=" ++ targetText (i.handlerTarget? f)
  | none, instr => String.join (instr.operands.map fun n => s!" {n}")

/-- The line of an instruction. -/
def line (i : Located) : String :=
  let number := toString i.offset
  let pad := String.ofList (List.replicate (6 - number.length) ' ')
  s!"{pad}{number}  {i.instr.opcode.name}{i.detail}\n"

/-! ### JSON -/

/-- The items of an array one per line, or the empty array on one line. -/
def jsonArray (indent : String) (items : List String) : String :=
  if items.isEmpty then "[]"
  else
    let inner := (",\n").intercalate (items.map fun t => s!"{indent}  {t}")
    s!"[\n{inner}\n{indent}]"

/-- An instruction as an object. -/
def json (i : Located) : String :=
  let operands := jsonArray "    " (i.instr.operands.map toString)
  s!"\x7b\n    \"offset\": {i.offset},\n    \"name\": \"{i.instr.opcode.name}\",\n    \"operands\": {operands}\n  \x7d"

end Located

/-! ### Functions -/

namespace Function

/-- The line above a function's instructions. -/
def heading (f : Function) : String :=
  s!"function {f.name} ({f.kind.name}, locals={f.localCount}, max_stack={f.maxStack})\n"

/-- The listing of a function. -/
def listing (f : Function) : Except DecodeError String := do
  let lines ← Located.ofCode f.code
  .ok (f.heading ++ String.join (lines.map Located.line))

/-- The instructions of a function as JSON. -/
def listingJson (f : Function) : Except DecodeError String := do
  let lines ← Located.ofCode f.code
  .ok (Located.jsonArray "" (lines.map Located.json))

end Function
end ResourceMachine
