import Tiered.Exec.Interpreter

/-! Loop targets. Binding a target comes to its parts one after the other, each before its own
parts and from left to right: it stores at the identifiers among them, and ends at the first part
that its value does not suit. -/
namespace Tiered

/-- A part of a target, and the value that comes to it. -/
structure Part where
  target : Expr
  value : Value

mutual

/-- The parts of a target, each before its own parts, from left to right. -/
def Expr.parts : Expr → Value → List Part
  | .list targets, .list items => ⟨.list targets, .list items⟩ :: partsOfAll targets items
  | target, v => [⟨target, v⟩]

def partsOfAll : List Expr → List Value → List Part
  | target :: targets, v :: vs => target.parts v ++ partsOfAll targets vs
  | _, _ => []

end

/-- Identifiers that a frame with that many local slots can store to. -/
def Ident.Writable (slots : Nat) : Ident → Prop
  | .universal _ => False
  | .globalVar _ _ => True
  | .localVar _ slot => slot.toNat < slots

mutual

/-- The value has the shape of the target: where the target is a list it is a list of the same
length, and what is no list is an identifier that can be stored to. -/
def Expr.Matches (slots : Nat) : Expr → Value → Prop
  | .ident x, _ => x.Writable slots
  | .list targets, .list items => AllMatch slots targets items
  | _, _ => False

def AllMatch (slots : Nat) : List Expr → List Value → Prop
  | [], [] => True
  | target :: targets, v :: vs => target.Matches slots v ∧ AllMatch slots targets vs
  | _, _ => False

end

namespace Part

/-- What is wrong with a part by itself, in a frame with that many local slots. -/
def mismatch? (slots : Nat) (p : Part) : Option Failure :=
  match p.target, p.value with
  | .ident (.universal name), _ => some (.internal (.universalStore name))
  | .ident (.globalVar _ _), _ => none
  | .ident (.localVar _ slot), _ =>
    if slot.toNat < slots then none else some (.internal (.slotRange slot slots))
  | .list targets, .list items =>
    if items.length = targets.length then none
    else some (.unpackMismatch targets.length items.length)
  | .list _, v => some (.notIterable v.typeName)
  | target, _ => some (.internal (.badTarget target.kind))

def store? (p : Part) : Option (Ident × Value) :=
  match p.target with
  | .ident x => some (x, p.value)
  | _ => none

def stores (parts : List Part) : List (Ident × Value) :=
  parts.filterMap store?

end Part

namespace Activation

def put (act : Activation) (x : Ident) (v : Value) : Activation :=
  match x with
  | .universal _ => act
  | .globalVar _ slot => { act with world := act.world.writeGlobal act.frame.function slot v }
  | .localVar _ slot =>
    { act with
      frame := { act.frame with locals := act.frame.locals.setIfInBounds slot.toNat (some v) } }

def putAll (act : Activation) (stores : List (Ident × Value)) : Activation :=
  stores.foldl (fun act s => act.put s.1 s.2) act

@[simp] theorem putAll_append (act : Activation) (xs ys : List (Ident × Value)) :
    act.putAll (xs ++ ys) = (act.putAll xs).putAll ys :=
  List.foldl_append

@[simp] theorem size_put (act : Activation) (x : Ident) (v : Value) :
    (act.put x v).frame.locals.size = act.frame.locals.size := by
  cases x <;> simp [put]

@[simp] theorem size_putAll (act : Activation) (stores : List (Ident × Value)) :
    (act.putAll stores).frame.locals.size = act.frame.locals.size := by
  induction stores generalizing act with
  | nil => rfl
  | cons s rest ih =>
    change ((act.put s.1 s.2).putAll rest).frame.locals.size = _
    rw [ih, size_put]

def take (p : Part) : Run Activation Unit := fun act =>
  match p.mismatch? act.frame.locals.size with
  | some e => .error (.raised e) act
  | none => .ok () (act.putAll p.store?.toList)

theorem take_eq_raise {p : Part} {e : Failure} (h : ∀ slots, p.mismatch? slots = some e) :
    take p = Run.raise e := by
  funext act
  rw [take, h]
  rfl

theorem take_eq_pure {p : Part} (h : ∀ slots, p.mismatch? slots = none) (hs : p.store? = none) :
    take p = pure () := by
  funext act
  rw [take, h, hs]
  rfl

theorem take_ident (x : Ident) (v : Value) : take ⟨.ident x, v⟩ = store x v := by
  funext act
  cases x with
  | universal name => rfl
  | globalVar name slot => rfl
  | localVar name slot =>
    simp only [take, store, storeLocal, Frame.writeLocal, Part.mismatch?]
    by_cases hslot : slot.toNat < act.frame.locals.size
    · simp only [if_pos hslot]
      rfl
    · simp only [if_neg hslot]
      rfl

end Activation

section Walk

open Activation

theorem forM_take_singleton (p : Part) : forM [p] take = take p := by
  rw [List.forM_cons, List.forM_nil]
  exact bind_pure (take p)

theorem forM_take_of_raise {p : Part} {e : Failure} (h : take p = Run.raise e)
    (rest : List Part) : forM (p :: rest) take = Run.raise e := by
  rw [List.forM_cons, h]
  rfl

/-- A target that is neither an identifier nor a list. -/
theorem forM_take_bad {target : Expr} (v : Value) {kind : ExprKind}
    (hparts : target.parts v = [⟨target, v⟩])
    (h : ∀ slots, Part.mismatch? slots ⟨target, v⟩ = some (.internal (.badTarget kind))) :
    forM (target.parts v) take = Run.raise (.internal (.badTarget kind)) := by
  rw [hparts]
  exact forM_take_of_raise (take_eq_raise h) []

mutual

/-- Binding a target is coming to its parts in order. -/
theorem Expr.assign_eq : ∀ (target : Expr) (v : Value),
    target.assign v = forM (target.parts v) take
  | .ident x, v => by
    have hparts : (Expr.ident x).parts v = [⟨.ident x, v⟩] := by
      rw [Expr.parts]
      nofun
    rw [Expr.assign, hparts, forM_take_singleton, take_ident]
  | .list targets, v => by
    rw [Expr.assign]
    cases v with
    | list items =>
      rw [Expr.parts]
      by_cases hlength : items.length = targets.length
      · have htake : take ⟨.list targets, .list items⟩ = pure () :=
          take_eq_pure (fun _ => if_pos hlength) rfl
        rw [List.forM_cons, htake, pure_bind, ← assignAll_eq targets items]
        simp only [Value.items, Run.ofExcept, pure_bind, if_pos hlength]
      · have htake : take ⟨.list targets, .list items⟩ =
            Run.raise (.unpackMismatch targets.length items.length) :=
          take_eq_raise fun _ => if_neg hlength
        rw [forM_take_of_raise htake]
        simp only [Value.items, Run.ofExcept, pure_bind, if_neg hlength]
    | none | bool _ | int _ | str _ | function _ | builtin _ =>
      rw [Expr.parts, forM_take_singleton, take_eq_raise fun _ => rfl]
      · rfl
      · nofun
  | .int n, v => (forM_take_bad v rfl fun _ => rfl).symm
  | .str s, v => (forM_take_bad v rfl fun _ => rfl).symm
  | .binary op lhs rhs, v => (forM_take_bad v rfl fun _ => rfl).symm
  | .call callee args, v => (forM_take_bad v rfl fun _ => rfl).symm

theorem assignAll_eq : ∀ (targets : List Expr) (vs : List Value),
    assignAll targets vs = forM (partsOfAll targets vs) take
  | target :: targets, v :: vs => by
    rw [assignAll, partsOfAll, List.forM_append, target.assign_eq v, assignAll_eq targets vs]
  | [], vs => by
    rw [assignAll, partsOfAll]
    · rfl
    all_goals nofun
  | target :: targets, [] => by
    rw [assignAll, partsOfAll]
    · rfl
    all_goals nofun

end

variable {act : Activation} {parts before : List Part}

/-- Where every part suits its value, all is stored. -/
theorem forM_take_ok (h : ∀ p ∈ parts, p.mismatch? act.frame.locals.size = none) :
    forM parts take act = .ok () (act.putAll (Part.stores parts)) := by
  induction parts generalizing act with
  | nil => rfl
  | cons p rest ih =>
    obtain ⟨hp, hrest⟩ := List.forall_mem_cons.mp h
    have htake : take p act = .ok () (act.putAll p.store?.toList) := by rw [take, hp]
    have hnext : ∀ q ∈ rest, q.mismatch? (act.putAll p.store?.toList).frame.locals.size = none := by
      rwa [size_putAll]
    have hstores : Part.stores (p :: rest) = p.store?.toList ++ Part.stores rest := by
      unfold Part.stores
      cases hs : p.store? <;> simp [hs]
    rw [List.forM_cons]
    change EStateM.bind (take p) _ act = _
    unfold EStateM.bind
    rw [htake, hstores, putAll_append]
    exact ih hnext

/-- The first part that does not suit its value is where it ends. -/
theorem forM_take_error (h : ∀ p ∈ before, p.mismatch? act.frame.locals.size = none) {bad : Part}
    {e : Failure} (he : bad.mismatch? act.frame.locals.size = some e) (rest : List Part) :
    forM (before ++ bad :: rest) take act =
      .error (.raised e) (act.putAll (Part.stores before)) := by
  have hbefore := forM_take_ok h
  have hbad : take bad (act.putAll (Part.stores before)) =
      .error (.raised e) (act.putAll (Part.stores before)) := by
    rw [take, size_putAll, he]
  rw [List.forM_append, List.forM_cons]
  change EStateM.bind (forM before take) _ act = _
  unfold EStateM.bind
  rw [hbefore]
  change EStateM.bind (take bad) _ _ = _
  unfold EStateM.bind
  rw [hbad]

theorem exists_first_mismatch {slots : Nat} (h : ¬∀ p ∈ parts, p.mismatch? slots = none) :
    ∃ before bad after e, parts = before ++ bad :: after ∧
      (∀ p ∈ before, p.mismatch? slots = none) ∧ bad.mismatch? slots = some e := by
  induction parts with
  | nil => exact absurd (List.forall_mem_nil _) h
  | cons p rest ih =>
    cases hp : p.mismatch? slots with
    | some e => exact ⟨[], p, rest, e, rfl, List.forall_mem_nil _, hp⟩
    | none =>
      have hrest : ¬∀ q ∈ rest, q.mismatch? slots = none :=
        fun hall => h (List.forall_mem_cons.mpr ⟨hp, hall⟩)
      obtain ⟨before, bad, after, e, rfl, hbefore, he⟩ := ih hrest
      exact ⟨p :: before, bad, after, e, rfl, List.forall_mem_cons.mpr ⟨hp, hbefore⟩, he⟩

end Walk

section Shape

variable (slots : Nat)

mutual

/-- A value has the shape of a target exactly if no part of the target is wrong by itself. -/
theorem Expr.matches_iff : ∀ (target : Expr) (v : Value),
    target.Matches slots v ↔ ∀ p ∈ target.parts v, p.mismatch? slots = none
  | .ident x, v => by
    cases x with
    | universal name => simp [Expr.Matches, Ident.Writable, Expr.parts, Part.mismatch?]
    | globalVar name slot => simp [Expr.Matches, Ident.Writable, Expr.parts, Part.mismatch?]
    | localVar name slot => simp [Expr.Matches, Ident.Writable, Expr.parts, Part.mismatch?]
  | .list targets, v => by
    cases v with
    | list items =>
      rw [Expr.Matches, Expr.parts, List.forall_mem_cons, allMatch_iff targets items]
      simp [Part.mismatch?]
    | none | bool _ | int _ | str _ | function _ | builtin _ =>
      simp [Expr.Matches, Expr.parts, Part.mismatch?]
  | .int _, v | .str _, v | .binary _ _ _, v | .call _ _, v => by
    simp [Expr.Matches, Expr.parts, Part.mismatch?]

theorem allMatch_iff : ∀ (targets : List Expr) (vs : List Value),
    AllMatch slots targets vs ↔
      vs.length = targets.length ∧ ∀ p ∈ partsOfAll targets vs, p.mismatch? slots = none
  | [], [] => by simp [AllMatch, partsOfAll]
  | [], v :: vs => by simp [AllMatch]
  | target :: targets, [] => by simp [AllMatch]
  | target :: targets, v :: vs => by
    rw [AllMatch, partsOfAll, List.forall_mem_append, target.matches_iff v,
      allMatch_iff targets vs, List.length_cons, List.length_cons, Nat.add_right_cancel_iff]
    constructor
    · rintro ⟨hfirst, hlength, hrest⟩
      exact ⟨hlength, hfirst, hrest⟩
    · rintro ⟨hlength, hfirst, hrest⟩
      exact ⟨hfirst, hlength, hrest⟩

end

end Shape

section Slots

/-- A slot that identifiers name. -/
inductive Cell where
  | localSlot (slot : UInt16)
  | globalSlot (slot : UInt16)
deriving DecidableEq

def Ident.cell? : Ident → Option Cell
  | .universal _ => none
  | .globalVar _ slot => some (.globalSlot slot)
  | .localVar _ slot => some (.localSlot slot)

/-- The value that was stored last in a slot, under whatever name. -/
def lastStored (c : Cell) (stores : List (Ident × Value)) : Option Value :=
  (stores.filter (·.1.cell? == some c)).getLast?.map Prod.snd

/-- A first store counts where no later one goes to the same slot. -/
theorem lastStored_cons (c : Cell) (s : Ident × Value) (rest : List (Ident × Value)) :
    lastStored c (s :: rest) =
      (lastStored c rest).or (if s.1.cell? = some c then some s.2 else none) := by
  unfold lastStored
  by_cases hs : s.1.cell? = some c
  · rw [List.filter_cons_of_pos (by simpa using hs), List.getLast?_cons, if_pos hs]
    cases (rest.filter (·.1.cell? == some c)).getLast? <;> rfl
  · rw [List.filter_cons_of_neg (by simpa using hs), if_neg hs, Option.or_none]

namespace Activation

/-- The slot exists. Global slots grow as far as they are written. -/
def Has (act : Activation) : Cell → Prop
  | .localSlot slot => slot.toNat < act.frame.locals.size
  | .globalSlot _ => (act.world.callable? act.frame.function).isSome

def read (act : Activation) : Cell → Option Value
  | .localSlot slot => act.frame.locals[slot.toNat]?.join
  | .globalSlot slot => act.world.readGlobal act.frame.function slot

end Activation

theorem Callable.readGlobal_writeGlobal (c : Callable) (slot slot' : UInt16) (v : Value) :
    (c.writeGlobal slot v).readGlobal slot' =
      if slot' = slot then some v else c.readGlobal slot' := by
  have hsize : slot.toNat <
      (c.globals ++ Array.replicate (slot.toNat + 1 - c.globals.size) none).size := by
    rw [Array.size_append, Array.size_replicate]
    omega
  unfold readGlobal writeGlobal
  by_cases hslot : slot' = slot
  · subst hslot
    simp only [Array.getElem?_setIfInBounds_self_of_lt hsize]
    rfl
  · have hne : slot.toNat ≠ slot'.toNat := fun h => hslot (UInt16.toNat_inj.mp h.symm)
    simp only [if_neg hslot, Array.getElem?_setIfInBounds_ne hne, getElem?_pad]

namespace Activation

variable {act : Activation} {c : Cell} {x : Ident} {v : Value}

theorem has_put (act : Activation) (x : Ident) (v : Value) (c : Cell) :
    (act.put x v).Has c ↔ act.Has c := by
  cases x with
  | universal name => rfl
  | localVar name slot => cases c <;> simp [put, Has]
  | globalVar name slot =>
    cases c <;> simp [put, Has, World.callable?, World.writeGlobal, Array.getElem?_modify]

theorem read_put (h : act.Has c) (x : Ident) (v : Value) :
    (act.put x v).read c = if x.cell? = some c then some v else act.read c := by
  cases x with
  | universal name => rfl
  | localVar name slot =>
    cases c with
    | globalSlot slot' => rfl
    | localSlot slot' =>
      simp only [put, read, Ident.cell?, Option.some.injEq, Cell.localSlot.injEq]
      by_cases hslot : slot = slot'
      · subst hslot
        rw [if_pos rfl, Array.getElem?_setIfInBounds_self_of_lt h]
        rfl
      · have hne : slot.toNat ≠ slot'.toNat := fun heq => hslot (UInt16.toNat_inj.mp heq)
        rw [if_neg hslot, Array.getElem?_setIfInBounds_ne hne]
  | globalVar name slot =>
    cases c with
    | localSlot slot' => rfl
    | globalSlot slot' =>
      obtain ⟨callable, hcallable⟩ := Option.isSome_iff_exists.mp h
      have hwritten : (act.world.writeGlobal act.frame.function slot v).callable?
          act.frame.function = some (callable.writeGlobal slot v) := by
        unfold World.callable? World.writeGlobal at *
        rw [Array.getElem?_modify, if_pos rfl, hcallable]
        rfl
      simp only [put, read, World.readGlobal, hwritten, hcallable, Option.bind_some,
        Callable.readGlobal_writeGlobal, Ident.cell?, Option.some.injEq, Cell.globalSlot.injEq,
        eq_comm]

theorem read_putAll (h : act.Has c) (stores : List (Ident × Value)) :
    (act.putAll stores).read c = (lastStored c stores).or (act.read c) := by
  induction stores generalizing act with
  | nil => rfl
  | cons s rest ih =>
    have hrest := ih ((has_put act s.1 s.2 c).mpr h)
    change ((act.put s.1 s.2).putAll rest).read c = _
    rw [hrest, read_put h, lastStored_cons, Option.or_assoc]
    split <;> rfl

end Activation

end Slots

/-- Binding a loop target succeeds exactly if the value has the shape of the target, and then it
amounts to storing the elements at the identifiers of the target from left to right. Otherwise it
ends at the first part that does not suit its value, with the failure of that part; what stands
before it has been stored, and nothing else. Of several stores to one slot the last one stays. -/
theorem unpacking_exact (target : Expr) (v : Value) (act : Activation) :
    ((∃ after, target.assign v act = .ok () after) ↔
      target.Matches act.frame.locals.size v) ∧
    (target.Matches act.frame.locals.size v →
      target.assign v act = .ok () (act.putAll (Part.stores (target.parts v)))) ∧
    (¬target.Matches act.frame.locals.size v →
      ∃ before bad after e, target.parts v = before ++ bad :: after ∧
        (∀ p ∈ before, p.mismatch? act.frame.locals.size = none) ∧
        bad.mismatch? act.frame.locals.size = some e ∧
        target.assign v act = .error (.raised e) (act.putAll (Part.stores before))) ∧
    ∀ stores c, act.Has c →
      (act.putAll stores).read c = (lastStored c stores).or (act.read c) := by
  have hshape := target.matches_iff act.frame.locals.size v
  have hok (h : target.Matches act.frame.locals.size v) :
      target.assign v act = .ok () (act.putAll (Part.stores (target.parts v))) := by
    rw [target.assign_eq v]
    exact forM_take_ok (hshape.mp h)
  have herror (h : ¬target.Matches act.frame.locals.size v) :
      ∃ before bad after e, target.parts v = before ++ bad :: after ∧
        (∀ p ∈ before, p.mismatch? act.frame.locals.size = none) ∧
        bad.mismatch? act.frame.locals.size = some e ∧
        target.assign v act = .error (.raised e) (act.putAll (Part.stores before)) := by
    rw [hshape] at h
    obtain ⟨before, bad, after, e, hparts, hbefore, he⟩ := exists_first_mismatch h
    refine ⟨before, bad, after, e, hparts, hbefore, he, ?_⟩
    rw [target.assign_eq v, hparts]
    exact forM_take_error hbefore he after
  refine ⟨⟨?_, fun h => ⟨_, hok h⟩⟩, hok, herror, fun stores c hc => act.read_putAll hc stores⟩
  rintro ⟨after, hafter⟩
  by_cases h : target.Matches act.frame.locals.size v
  · exact h
  · obtain ⟨_, _, _, _, -, -, -, hfail⟩ := herror h
    rw [hafter] at hfail
    cases hfail

end Tiered
