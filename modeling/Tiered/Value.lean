import Tiered.Text.Quoted

/-! Values of the language, their equality and their text. -/
namespace Tiered

/-- A builtin function: one of the five every program sees, or one its host supplies by name. -/
inductive Builtin where
  | len | range | str | typeOf | print
  | host (name : String)
deriving DecidableEq

namespace Builtin

def name : Builtin → String
  | len => "len"
  | range => "range"
  | str => "str"
  | typeOf => "type"
  | print => "print"
  | host n => n

/-- The builtins every program sees, in the order of their names. -/
def universals : List Builtin := [len, print, range, str, typeOf]

def universal? (name : String) : Option Builtin :=
  universals.find? (·.name == name)

end Builtin

/-- A function value: where it was allocated, and the name it shows. -/
structure FunctionRef where
  index : Nat
  name : String
deriving DecidableEq

inductive Value where
  | none
  | bool (b : Bool)
  | int (n : Int64)
  | str (s : String)
  | list (items : List Value)
  | function (f : FunctionRef)
  | builtin (b : Builtin)

namespace Value

instance : Inhabited Value := ⟨none⟩

mutual

/-- Data is equal by content, functions and builtins by identity. -/
def equal : Value → Value → Bool
  | none, none => true
  | bool a, bool b => a == b
  | int a, int b => a == b
  | str a, str b => a == b
  | list a, list b => equalItems a b
  | function f, function g => f == g
  | builtin f, builtin g => f == g
  | _, _ => false

def equalItems : List Value → List Value → Bool
  | [], [] => true
  | a :: as, b :: bs => equal a b && equalItems as bs
  | _, _ => false

end

instance : BEq Value := ⟨equal⟩

mutual

theorem eq_of_equal : ∀ {a b : Value}, equal a b = true → a = b
  | a, b, h => by
    cases a <;> cases b <;> simp_all [equal]
    exact eq_of_equalItems h

theorem eq_of_equalItems : ∀ {as bs : List Value}, equalItems as bs = true → as = bs
  | [], [], _ => rfl
  | [], _ :: _, h => by simp [equalItems] at h
  | _ :: _, [], h => by simp [equalItems] at h
  | a :: as, b :: bs, h => by
    simp only [equalItems, Bool.and_eq_true] at h
    rw [eq_of_equal h.1, eq_of_equalItems h.2]

end

mutual

theorem equal_self : ∀ a : Value, equal a a = true
  | .list items => by simpa [equal] using equalItems_self items
  | .none | .bool _ | .int _ | .str _ | .function _ | .builtin _ => by simp [equal]

theorem equalItems_self : ∀ as : List Value, equalItems as as = true
  | [] => by simp [equalItems]
  | a :: as => by simp [equalItems, equal_self a, equalItems_self as]

end

instance : LawfulBEq Value where
  eq_of_beq := eq_of_equal
  rfl := equal_self _

instance : DecidableEq Value := fun a b => decidable_of_iff (a == b) beq_iff_eq

def typeName : Value → String
  | none => "NoneType"
  | bool _ => "bool"
  | int _ => "int"
  | str _ => "string"
  | list _ => "list"
  | function _ => "function"
  | builtin _ => "builtin_function_or_method"

def toInt? : Value → Option Int64
  | int n => some n
  | _ => Option.none

def toRef? : Value → Option FunctionRef
  | function f => some f
  | _ => Option.none

/-- The truth of a value as a condition: None, false, zero and what is empty count as false. -/
def isTruthy : Value → Bool
  | none => false
  | bool b => b
  | int n => n != 0
  | str s => s != ""
  | list items => !items.isEmpty
  | function _ | builtin _ => true

mutual

/-- The text of a value inside another, with strings quoted. -/
def repr : Value → String
  | none => "None"
  | bool true => "True"
  | bool false => "False"
  | int n => toString n.toInt
  | str s => Text.quote s
  | list items => "[" ++ ", ".intercalate (reprs items) ++ "]"
  | function f => "<function " ++ f.name ++ ">"
  | builtin b => "<built-in function " ++ b.name ++ ">"

def reprs : List Value → List String
  | [] => []
  | a :: as => repr a :: reprs as

end

/-- The text of a value on its own: a string shows its characters, all else its `repr`. -/
def display : Value → String
  | str s => s
  | v => repr v

end Value

end Tiered
