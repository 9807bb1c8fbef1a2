import Tiered.Code.Unit

/-! Listings: the text of a unit, one line for each instruction. -/
namespace Tiered

namespace CodeUnit

/-- The operand of the operation `op` at `offset`, as a listing shows it. An immediate that the code
cuts off reads as zero. -/
def operandText (u : CodeUnit) (offset : Nat) (op : Opcode) : String :=
  match op.operandSize with
  | 1 =>
    let byte := (u.byte? (offset + 1)).getD 0
    match op with
    | .pushSmall => s!" {byte.toInt8.toInt}"
    | _ => s!" {byte}"
  | 2 =>
    let value := (u.word? (offset + 1)).getD 0
    match op with
    | .jump | .forIter =>
      let target := (offset : Int) + 3 + value.toInt16.toInt
      " -> " ++ Text.hex 4 (addressOf target)
    | .pushConstant =>
      let text := ((u.constantAt? value).map Value.repr).getD "???"
      s!" #{value} ({text})"
    | .loadUniversal =>
      let text := (u.nameAt? value).getD "???"
      s!" #{value} ({text})"
    | .loadLocal | .storeLocal =>
      let text := u.nameOfLocal value
      s!" {value} ({text})"
    | .loadGlobal | .storeGlobal =>
      let text := u.nameOfGlobal value
      s!" {value} ({text})"
    | .makeFunction =>
      match u.functionAt? value with
      | some id => s!" #{value} (fn #{id})"
      | none => s!" #{value} (???)"
    | _ => s!" {value}"
  | _ => ""

/-- One line of a listing, and where the following one starts. A byte that is no operation code is
a line of its own. -/
def lineAt (u : CodeUnit) (offset : Nat) : String × Nat :=
  match u.opcode? offset with
  | none => ("??? (0x" ++ Text.hex 2 ((u.byte? offset).getD 0).toNat ++ ")", offset + 1)
  | some op => (op.mnemonic ++ u.operandText offset op, offset + op.size)

/-- The lines from `offset` on. Every line takes at least one byte, so `fuel` bytes suffice. -/
def linesFrom (u : CodeUnit) : (fuel offset : Nat) → List String → List String
  | 0, _, acc => acc.reverse
  | fuel + 1, offset, acc =>
    if offset < u.size then
      let (text, next) := u.lineAt offset
      u.linesFrom fuel next ((Text.hex 4 offset ++ " " ++ text) :: acc)
    else acc.reverse

/-- All lines of the listing, two lines of heading first. -/
def listing (u : CodeUnit) : List String :=
  s!"=== {u.name} (#{u.function}) ===" ::
    (s!"locals: {u.localCount}, constants: {u.constants.size}, names: {u.names.size}, " ++
      s!"functions: {u.functions.size}") ::
    u.linesFrom u.size 0 []

def text (u : CodeUnit) : String :=
  String.join (u.listing.map (· ++ "\n"))

end CodeUnit

end Tiered
