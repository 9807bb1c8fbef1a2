import Tiered.Exec.Builtins
import Tiered.Proofs.Occurrences

/-! Which failures the operations of a running program end with. Only slots out of range make loads,
stores and the binding of arguments fail from an internal error. -/
namespace Tiered

/-- The result is a value of which `post` holds, or a failure that `fails` allows. -/
def Yields {α : Type} (post : α → Prop) (fails : Failure → Prop) : Except Failure α → Prop
  | .ok a => post a
  | .error e => fails e

namespace Yields

variable {α β : Type} {fails : Failure → Prop} {p : α → Prop} {q : β → Prop}

theorem bind {r : Except Failure α} {f : α → Except Failure β} (hr : Yields p fails r)
    (hf : ∀ a, p a → Yields q fails (f a)) : Yields q fails (r >>= f) := by
  cases r with
  | error e => exact hr
  | ok a => exact hf a hr

theorem of_ne_internal (hfails : ∀ e, (∀ c, e ≠ .internal c) → fails e) {r : Except Failure α}
    (h : ∀ c, r ≠ .error (.internal c)) : Yields (fun _ => True) fails r := by
  cases r with
  | ok a => trivial
  | error e =>
    apply hfails
    rintro c rfl
    exact h c rfl

end Yields

theorem Value.items_ne_internal (v : Value) (e : InternalError) :
    v.items ≠ .error (.internal e) := by
  cases v <;> simp [Value.items]

theorem Value.ofExact_ne_internal (n : Int) (e : InternalError) :
    Value.ofExact n ≠ .error (.internal e) := by
  unfold Value.ofExact
  split <;> simp

theorem Value.add_ne_internal (u v : Value) (e : InternalError) :
    u.add v ≠ .error (.internal e) := by
  unfold Value.add
  split
  · exact Value.ofExact_ne_internal _ e
  · simp
  · simp
  · simp [BinaryOp.mismatch]

theorem BinaryOp.apply_ne_internal (op : BinaryOp) (u v : Value) (e : InternalError) :
    op.apply u v ≠ .error (.internal e) := by
  unfold BinaryOp.apply
  split
  · exact u.add_ne_internal v e
  · exact Value.ofExact_ne_internal _ e
  · exact Value.ofExact_ne_internal _ e
  · simp
  · simp
  · simp
  · simp [BinaryOp.mismatch]

theorem loadUniversal_ne_internal (name : String) (e : InternalError) :
    loadUniversal name ≠ .error (.internal e) := by
  unfold loadUniversal
  cases Builtin.universal? name <;> simp

namespace Frame

theorem loadLocal_ne_internal {frame : Frame} {slot : UInt16} (h : slot.toNat < frame.locals.size)
    (name : String) (e : InternalError) : frame.loadLocal slot name ≠ .error (.internal e) := by
  unfold loadLocal readLocal
  rw [Array.getElem?_eq_getElem h]
  cases frame.locals[slot.toNat] with
  | none => intro hc; cases hc
  | some v => intro hc; cases hc

theorem loadGlobal_ne_internal (frame : Frame) (w : World) (slot : UInt16) (name : String)
    (e : InternalError) : frame.loadGlobal w slot name ≠ .error (.internal e) := by
  unfold loadGlobal
  cases w.readGlobal frame.function slot <;> simp

theorem load_ne_internal {frame : Frame} {x : Ident}
    (h : ∀ name slot, x = .localVar name slot → slot.toNat < frame.locals.size) (w : World)
    (e : InternalError) : frame.load w x ≠ .error (.internal e) := by
  cases x with
  | universal name => exact loadUniversal_ne_internal name e
  | globalVar name slot => exact frame.loadGlobal_ne_internal w slot name e
  | localVar name slot => exact loadLocal_ne_internal (h name slot rfl) name e

section Binding

variable {fails : Failure → Prop} {frame : Frame}

theorem writeLocal_yields {slot : UInt16} (v : Value)
    (h : (∀ e, fails e) ∨ slot.toNat < frame.locals.size) :
    Yields (fun g => g.locals.size = frame.locals.size) fails (frame.writeLocal slot v) := by
  unfold writeLocal
  split
  · exact Array.size_setIfInBounds
  · rename_i hslot
    rcases h with hall | hlt
    · exact hall _
    · exact absurd hlt hslot

theorem readLocal_yields {slot : UInt16} (h : (∀ e, fails e) ∨ slot.toNat < frame.locals.size) :
    Yields (fun _ => True) fails (frame.readLocal slot) := by
  unfold readLocal
  cases hget : frame.locals[slot.toNat]? with
  | some v => trivial
  | none =>
    rcases h with hall | hlt
    · exact hall _
    · have := Array.getElem?_eq_none_iff.mp hget
      omega

/-- Slot numbers may wrap round, which only makes them smaller. -/
theorem ofNat_lt {slot n : Nat} (h : slot < n) : (UInt16.ofNat slot).toNat < n :=
  Nat.lt_of_le_of_lt (Nat.mod_le slot _) h

theorem bindPositional_yields (slot : Nat) (vs : List Value)
    (h : (∀ e, fails e) ∨ slot + vs.length ≤ frame.locals.size) :
    Yields (fun g => g.locals.size = frame.locals.size) fails (frame.bindPositional slot vs) := by
  induction vs generalizing frame slot with
  | nil => rfl
  | cons v rest ih =>
    have hslot : (∀ e, fails e) ∨ (UInt16.ofNat slot).toNat < frame.locals.size :=
      h.imp_right fun hle => ofNat_lt (by rw [List.length_cons] at hle; omega)
    apply (writeLocal_yields v hslot).bind
    intro g hg
    rw [← hg] at h ⊢
    exact ih (slot + 1) (h.imp_right fun hle => by rw [List.length_cons] at hle; omega)

variable (hfails : ∀ e, (∀ c, e ≠ .internal c) → fails e) {fn : FunctionDef}
include hfails

theorem bindKeyword_yields (name : String) (v : Value)
    (h : (∀ e, fails e) ∨ fn.params.length ≤ frame.locals.size) :
    Yields (fun g => g.locals.size = frame.locals.size) fails (frame.bindKeyword fn name v) := by
  unfold bindKeyword
  cases hfind : fn.params.findIdx? (· == name) with
  | none => exact hfails _ (by simp)
  | some i =>
    have hlt : i < fn.params.length := (List.findIdx?_eq_some_iff_getElem.mp hfind).1
    have hslot : (∀ e, fails e) ∨ (UInt16.ofNat i).toNat < frame.locals.size :=
      h.imp_right fun hle => ofNat_lt (by omega)
    apply (readLocal_yields hslot).bind
    intro found _
    split
    · exact hfails _ (by simp)
    · exact writeLocal_yields v hslot

theorem bindKeywords_yields (keywords : List (String × Value))
    (h : (∀ e, fails e) ∨ fn.params.length ≤ frame.locals.size) :
    Yields (fun g => g.locals.size = frame.locals.size) fails (frame.bindKeywords fn keywords) := by
  induction keywords generalizing frame with
  | nil => rfl
  | cons keyword rest ih =>
    obtain ⟨name, v⟩ := keyword
    apply (bindKeyword_yields hfails name v h).bind
    intro g hg
    rw [← hg] at h ⊢
    exact ih h

theorem checkBound_yields (slot : Nat) (params : List String)
    (h : (∀ e, fails e) ∨ slot + params.length ≤ frame.locals.size) :
    Yields (fun _ => True) fails (frame.checkBound fn slot params) := by
  induction params generalizing slot with
  | nil => trivial
  | cons param rest ih =>
    have hslot : (∀ e, fails e) ∨ (UInt16.ofNat slot).toNat < frame.locals.size :=
      h.imp_right fun hle => ofNat_lt (by rw [List.length_cons] at hle; omega)
    apply (readLocal_yields hslot).bind
    intro found _
    split
    · exact hfails _ (by simp)
    · exact ih (slot + 1) (h.imp_right fun hle => by rw [List.length_cons] at hle; omega)

end Binding

end Frame

/-- The frame of a call has the slots its function asks for. Where there is one for each parameter,
binding never fails from an internal error. -/
theorem FunctionDef.bind_yields {fails : Failure → Prop}
    (hfails : ∀ e, (∀ c, e ≠ .internal c) → fails e) (fn : FunctionDef) (f : FunctionRef)
    (args : Arguments) (h : (∀ e, fails e) ∨ fn.params.length ≤ fn.localCount.toNat) :
    Yields (fun frame => frame.locals.size = fn.localCount.toNat) fails (fn.bind f args) := by
  have hblank : (Frame.blank f fn).locals.size = fn.localCount.toNat := Array.size_replicate
  unfold FunctionDef.bind
  split
  · exact hfails _ (by simp)
  · rename_i hle
    apply (Frame.bindPositional_yields 0 args.positional
      (h.imp_right fun hp => by rw [hblank]; omega)).bind
    intro frame₁ h₁
    rw [hblank] at h₁
    apply (Frame.bindKeywords_yields hfails args.keywords (h₁.symm ▸ h)).bind
    intro frame₂ h₂
    rw [h₁] at h₂
    apply (Frame.checkBound_yields hfails 0 fn.params
      (h.imp_right fun hp => by rw [h₂]; omega)).bind
    intro _ _
    exact h₂

namespace Builtin

variable {fails : Failure → Prop} (hfails : ∀ e, (∀ c, e ≠ .internal c) → fails e)
include hfails

theorem oneArg_yields (name : String) (args : List Value) :
    Yields (fun _ => True) fails (oneArg name args) := by
  unfold oneArg
  split
  · trivial
  · exact hfails _ (by simp)

theorem length_yields (args : List Value) : Yields (fun _ => True) fails (length args) := by
  apply (oneArg_yields hfails "len" args).bind
  intro v _
  cases v with
  | str _ | list _ => trivial
  | none | bool _ | int _ | function _ | builtin _ => exact hfails _ (by simp)

theorem rangeBound_yields (v : Value) : Yields (fun _ => True) fails (rangeBound v) := by
  unfold rangeBound
  cases v.toInt? with
  | some n => trivial
  | none => exact hfails _ (by simp)

theorem rangeList_yields (args : List Value) : Yields (fun _ => True) fails (rangeList args) := by
  unfold rangeList
  split
  · exact (rangeBound_yields hfails _).bind fun _ _ => trivial
  · exact (rangeBound_yields hfails _).bind fun _ _ =>
      (rangeBound_yields hfails _).bind fun _ _ => trivial
  · exact hfails _ (by simp)

end Builtin

end Tiered
