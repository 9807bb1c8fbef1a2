import Tiered.Error
import Tiered.Value

/-! Binary operators and iteration on values. -/
namespace Tiered

/-- The value of an exact result, which has to fit sixty-four bits with sign. -/
def Value.ofExact (n : Int) : Except Failure Value :=
  if Int64.minValue.toInt ≤ n ∧ n ≤ Int64.maxValue.toInt then .ok (.int (Int64.ofInt n))
  else .error .integerOverflow

def BinaryOp.mismatch (op : BinaryOp) (a b : Value) : Failure :=
  .unsupportedOperands op.symbol a.typeName b.typeName

/-- Addition of integers, and concatenation of two strings or two lists. -/
def Value.add : Value → Value → Except Failure Value
  | .int x, .int y => Value.ofExact (x.toInt + y.toInt)
  | .str x, .str y => .ok (.str (x ++ y))
  | .list x, .list y => .ok (.list (x ++ y))
  | a, b => .error (BinaryOp.add.mismatch a b)

/-- Equality holds or fails of any two values; strings compare by code point. -/
def BinaryOp.apply (op : BinaryOp) (a b : Value) : Except Failure Value :=
  match op, a, b with
  | add, a, b => a.add b
  | sub, .int x, .int y => Value.ofExact (x.toInt - y.toInt)
  | mul, .int x, .int y => Value.ofExact (x.toInt * y.toInt)
  | eq, a, b => .ok (.bool (a == b))
  | lt, .int x, .int y => .ok (.bool (decide (x.toInt < y.toInt)))
  | lt, .str x, .str y => .ok (.bool (decide (x < y)))
  | op, a, b => .error (op.mismatch a b)

/-- The elements a loop visits: only lists have them. -/
def Value.items : Value → Except Failure (List Value)
  | .list items => .ok items
  | v => .error (.notIterable v.typeName)

end Tiered
