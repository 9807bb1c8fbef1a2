import Mathlib
import Tiered.Proofs.Quotation
import Tiered.Value

/-! The text of values without functions in them. Where such a text stands alone or in a list, it
tells where it ends and what it is the text of, so no two values share one. -/
namespace Tiered

namespace Value

/-- Values of None, booleans, integers, strings, and lists of such values. -/
inductive IsData : Value → Prop
  | none : IsData none
  | bool (b : Bool) : IsData (bool b)
  | int (n : Int64) : IsData (int n)
  | str (s : String) : IsData (str s)
  | list {items : List Value} : (∀ v ∈ items, IsData v) → IsData (list items)

theorem isData_list_iff {items : List Value} :
    IsData (list items) ↔ ∀ v ∈ items, IsData v :=
  ⟨fun | .list h => h, .list⟩

section Equations

@[simp] theorem repr_none : repr none = "None" := rfl

@[simp] theorem repr_true : repr (bool true) = "True" := rfl

@[simp] theorem repr_false : repr (bool false) = "False" := rfl

theorem repr_int (n : Int64) : repr (int n) = toString n.toInt := rfl

theorem repr_str (s : String) : repr (str s) = Text.quote s := rfl

theorem repr_list (items : List Value) :
    repr (list items) = "[" ++ ", ".intercalate (reprs items) ++ "]" := rfl

@[simp] theorem reprs_nil : reprs [] = [] := rfl

@[simp] theorem reprs_cons (a : Value) (as : List Value) :
    reprs (a :: as) = repr a :: reprs as := rfl

end Equations

section Numerals

variable {n : Int} {c : Char}

def isNumeral (c : Char) : Bool :=
  c.isDigit || c == '-'

theorem isNumeral_of_mem_decimal (h : c ∈ (toString n).toList) : isNumeral c = true := by
  have hdigits {k : Nat} (hk : c ∈ k.repr.toList) : isNumeral c = true := by
    rw [Nat.toList_repr] at hk
    simp [isNumeral, Nat.isDigit_of_mem_toDigits (by decide) (by decide) hk]
  rw [Int.toString_eq_repr, Int.repr_eq_if] at h
  split at h
  · exact hdigits h
  · rw [String.toList_append] at h
    rcases List.mem_append.mp h with h | h
    · simp_all [isNumeral]
    · exact hdigits h

theorem decimal_ne_nil (n : Int) : (toString n).toList ≠ [] := by
  rw [Int.toString_eq_repr, Int.repr_eq_if]
  split
  · rw [Nat.toList_repr]
    exact Nat.toDigits_ne_nil
  · simp

end Numerals

/-- The type of the data whose text starts with `c`; there is none for other characters. -/
def leadType (c : Char) : String :=
  if isNumeral c then "int"
  else if c = 'N' then "NoneType"
  else if c = 'T' ∨ c = 'F' then "bool"
  else if c = '"' then "string"
  else if c = '[' then "list"
  else ""

/-- The first character of the text of data tells its type. -/
theorem repr_starts {a : Value} (ha : a.IsData) :
    ∃ c r, (repr a).toList = c :: r ∧ leadType c = a.typeName := by
  cases ha with
  | none => exact ⟨'N', ['o', 'n', 'e'], by simp, rfl⟩
  | bool b =>
    cases b with
    | true => exact ⟨'T', ['r', 'u', 'e'], by simp, rfl⟩
    | false => exact ⟨'F', ['a', 'l', 's', 'e'], by simp, rfl⟩
  | int n =>
    obtain ⟨c, r, hcr⟩ := List.exists_cons_of_ne_nil (decimal_ne_nil n.toInt)
    have hc : isNumeral c = true := isNumeral_of_mem_decimal (hcr ▸ List.mem_cons_self)
    exact ⟨c, r, hcr, if_pos hc⟩
  | str s => exact ⟨'"', _, Text.toList_quote s, rfl⟩
  | list h => exact ⟨'[', _, by simp [repr_list]; rfl, rfl⟩

/-- Nothing follows, or what can follow an element of a list. -/
def Delimited (us : List Char) : Prop :=
  ∀ c ∈ us.head?, c = ',' ∨ c = ']'

def tailText : List Value → List Char
  | [] => []
  | a :: as => ',' :: ' ' :: ((repr a).toList ++ tailText as)

def itemsText : List Value → List Char
  | [] => []
  | a :: as => (repr a).toList ++ tailText as

theorem toList_reprs (items : List Value) :
    (", ".intercalate (reprs items)).toList = itemsText items := by
  cases items with
  | nil => simp [itemsText]
  | cons a as =>
    induction as generalizing a with
    | nil => simp [itemsText, tailText]
    | cons b bs ih =>
      rw [reprs_cons, reprs_cons, String.intercalate_cons_cons, ← reprs_cons, String.toList_append,
        ih b]
      simp [itemsText, tailText]

theorem toList_repr_list (items : List Value) :
    (repr (list items)).toList = '[' :: (itemsText items ++ [']']) := by
  rw [repr_list, String.toList_append, String.toList_append, toList_reprs]
  simp

theorem delimited_tail (as : List Value) (us : List Char) :
    Delimited (tailText as ++ ']' :: us) := by
  cases as with
  | nil => exact fun c hc => .inr (by simpa [tailText, eq_comm] using hc)
  | cons a as => exact fun c hc => .inl (by simpa [tailText, eq_comm] using hc)

/-- The text of `a` is not the beginning of the text of other data, where what follows each is
what may follow an element of a list. -/
def ReadsAlone (a : Value) : Prop :=
  ∀ b us vs, IsData b → Delimited us → Delimited vs →
    (repr a).toList ++ us = (repr b).toList ++ vs → a = b ∧ us = vs

/-- Lists whose elements can be told from other data can be told from other lists. -/
theorem tailText_append_inj {as bs : List Value} {us vs : List Char}
    (ha : ∀ a ∈ as, ReadsAlone a) (hb : ∀ b ∈ bs, IsData b)
    (h : tailText as ++ ']' :: us = tailText bs ++ ']' :: vs) : as = bs ∧ us = vs := by
  induction as generalizing bs with
  | nil =>
    cases bs with
    | nil => exact ⟨rfl, (List.cons.inj h).2⟩
    | cons b bs => exact absurd (List.cons.inj h).1 (by decide)
  | cons a as ih =>
    cases bs with
    | nil => exact absurd (List.cons.inj h).1 (by decide)
    | cons b bs =>
      rw [List.forall_mem_cons] at ha hb
      simp only [tailText, List.cons_append, List.append_assoc, List.cons.injEq, true_and] at h
      obtain ⟨rfl, hrest⟩ := ha.1 b _ _ hb.1 (delimited_tail as us) (delimited_tail bs vs) h
      obtain ⟨rfl, hus⟩ := ih ha.2 hb.2 hrest
      exact ⟨rfl, hus⟩

theorem isNumeral_of_delimited {us : List Char} (h : Delimited us) :
    ∀ c ∈ us.head?, ¬isNumeral c = true := by
  intro c hc
  rcases h c hc with rfl | rfl <;> decide

/-- Data that is not of the same type differs in the first character. -/
theorem readsAlone_of_sameType {a : Value} (ha : IsData a)
    (h : ∀ b us vs, IsData b → a.typeName = b.typeName → Delimited us → Delimited vs →
      (repr a).toList ++ us = (repr b).toList ++ vs → a = b ∧ us = vs) : ReadsAlone a := by
  intro b us vs hb hu hv heq
  obtain ⟨c, r, hc, hca⟩ := repr_starts ha
  obtain ⟨d, s, hd, hdb⟩ := repr_starts hb
  have hfirst : c = d := by
    have hcons := heq
    rw [hc, hd] at hcons
    exact (List.cons.inj hcons).1
  exact h b us vs hb (by rw [← hca, ← hdb, hfirst]) hu hv heq

theorem readsAlone_none : ReadsAlone none := by
  refine readsAlone_of_sameType .none fun b us vs hb htype _ _ heq => ?_
  cases hb with
  | none => exact ⟨rfl, List.append_cancel_left heq⟩
  | _ => simp [typeName] at htype

theorem readsAlone_bool (b : Bool) : ReadsAlone (bool b) := by
  refine readsAlone_of_sameType (.bool b) fun d us vs hd htype _ _ heq => ?_
  cases hd with
  | bool c => cases b <;> cases c <;> simp_all
  | _ => simp [typeName] at htype

/-- An integer ends where no numeral follows. -/
theorem readsAlone_int (n : Int64) : ReadsAlone (int n) := by
  refine readsAlone_of_sameType (.int n) fun b us vs hb htype hu hv heq => ?_
  cases hb with
  | int m =>
    rw [repr_int, repr_int] at heq
    obtain ⟨htext, hrest⟩ := (append_run_inj (fun _ => isNumeral_of_mem_decimal)
      (fun _ => isNumeral_of_mem_decimal) (isNumeral_of_delimited hu)
      (isNumeral_of_delimited hv)).mp heq
    rw [String.toList_inj, Int.toString_eq_repr, Int.toString_eq_repr, Int.repr_inj,
      Int64.toInt_inj] at htext
    exact ⟨congrArg int htext, hrest⟩
  | _ => simp [typeName] at htype

theorem readsAlone_str (s : String) : ReadsAlone (str s) := by
  refine readsAlone_of_sameType (.str s) fun b us vs hb htype _ _ heq => ?_
  cases hb with
  | str t =>
    rw [repr_str, repr_str] at heq
    obtain ⟨rfl, hrest⟩ := Text.quote_append_inj heq
    exact ⟨rfl, hrest⟩
  | _ => simp [typeName] at htype

theorem bracket_ne_repr {b : Value} (hb : IsData b) (us vs : List Char) :
    ']' :: us ≠ (repr b).toList ++ vs := by
  obtain ⟨c, r, hc, htype⟩ := repr_starts hb
  intro h
  rw [hc] at h
  obtain ⟨rfl, -⟩ := List.cons.inj h
  cases hb with
  | _ => simp [typeName, leadType, isNumeral] at htype

theorem itemsText_append_inj {as bs : List Value} {us vs : List Char}
    (ha : ∀ a ∈ as, IsData a ∧ ReadsAlone a) (hb : ∀ b ∈ bs, IsData b)
    (h : itemsText as ++ ']' :: us = itemsText bs ++ ']' :: vs) : as = bs ∧ us = vs := by
  cases as with
  | nil =>
    cases bs with
    | nil => exact ⟨rfl, (List.cons.inj h).2⟩
    | cons b bs =>
      rw [itemsText, itemsText, List.append_assoc] at h
      exact absurd h (bracket_ne_repr (hb b List.mem_cons_self) _ _)
  | cons a as =>
    cases bs with
    | nil =>
      rw [itemsText, itemsText, List.append_assoc] at h
      exact absurd h.symm (bracket_ne_repr (ha a List.mem_cons_self).1 _ _)
    | cons b bs =>
      rw [List.forall_mem_cons] at ha hb
      rw [itemsText, itemsText, List.append_assoc, List.append_assoc] at h
      obtain ⟨rfl, hrest⟩ := ha.1.2 b _ _ hb.1 (delimited_tail as us) (delimited_tail bs vs) h
      obtain ⟨rfl, hus⟩ := tailText_append_inj (fun v hv => (ha.2 v hv).2) hb.2 hrest
      exact ⟨rfl, hus⟩

theorem readsAlone_list {items : List Value} (hitems : ∀ a ∈ items, IsData a ∧ ReadsAlone a) :
    ReadsAlone (list items) := by
  have hdata : IsData (list items) := .list fun a ha => (hitems a ha).1
  refine readsAlone_of_sameType hdata fun b us vs hb htype _ _ heq => ?_
  cases hb with
  | list hothers =>
    simp only [toList_repr_list, List.cons_append, List.append_assoc, List.nil_append,
      List.cons.injEq, true_and] at heq
    obtain ⟨rfl, hrest⟩ := itemsText_append_inj hitems hothers heq
    exact ⟨rfl, hrest⟩
  | _ => simp [typeName] at htype

theorem IsData.readsAlone {a : Value} (ha : a.IsData) : ReadsAlone a := by
  -- Equal texts alone would not carry the induction: an element has the rest of its list behind it.
  induction ha with
  | none => exact readsAlone_none
  | bool b => exact readsAlone_bool b
  | int n => exact readsAlone_int n
  | str s => exact readsAlone_str s
  | list hdata ih => exact readsAlone_list fun a ha => ⟨hdata a ha, ih a ha⟩

theorem eq_of_repr_eq {a b : Value} (ha : a.IsData) (hb : b.IsData) (h : repr a = repr b) :
    a = b := by
  have hnil : Delimited [] := fun c hc => by simp at hc
  exact (ha.readsAlone b [] [] hb hnil hnil (by rw [h])).1

end Value

/-- The text of data tells what it is: two texts are the same exactly if the values are equal. A
string in such a text is its one quotation, in which each character is spelled by a rule of its
own. -/
theorem repr_determines_data :
    (∀ a b : Value, a.IsData → b.IsData → (a.repr = b.repr ↔ (a == b) = true)) ∧
    ∀ (s : String) (t : List Char),
      (Value.str s).repr.toList = t ↔ Text.Quotation s.toList t := by
  refine ⟨fun a b ha hb => ⟨fun h => ?_, fun h => ?_⟩, fun s t => ?_⟩
  · exact beq_iff_eq.mpr (Value.eq_of_repr_eq ha hb h)
  · rw [eq_of_beq h]
  · rw [Text.quotation_iff, Value.repr_str, eq_comm]

/-- Values whose texts differ in a quote, a separator, an escape or a sign only. -/
def Demo.lookalikes : List Value :=
  [.list [.str "a", .str "b"], .list [.str "a\", \"b"], .list [.list [.str "a"], .str "b"],
    .list [.str "\u0301", .none], .list [.str "\\u\x7b301\x7d", .none],
    .list [.int 12], .list [.int 1, .int 2], .list [.int (-12), .bool true], .list [],
    .list [.list []]]

theorem lookalikes_told_apart :
    (∀ v ∈ Demo.lookalikes, v.IsData) ∧ (Demo.lookalikes.map Value.repr).Nodup := by
  have hdata : ∀ v ∈ Demo.lookalikes, v.IsData := by
    simp [Demo.lookalikes, Value.isData_list_iff, Value.IsData.none, Value.IsData.bool,
      Value.IsData.int, Value.IsData.str]
  have hnodup : Demo.lookalikes.Nodup := by decide
  refine ⟨hdata, hnodup.map_on fun a ha b hb h => ?_⟩
  exact eq_of_beq ((repr_determines_data.1 a b (hdata a ha) (hdata b hb)).mp h)

end Tiered
