import Tiered.Proofs.Failures

/-! Binding the arguments of a call, as a relation between parameters and arguments: when they fit,
what each slot then holds, and which of several mistakes is reported. -/
namespace Tiered

namespace FunctionDef

variable (fn : FunctionDef) (args : Arguments)

def slotOf? (name : String) : Option Nat :=
  fn.params.findIdx? (· == name)

def Names (j i : Nat) : Prop :=
  ∃ k, args.keywords[j]? = some k ∧ fn.slotOf? k.1 = some i

/-- Keyword number `j` names a parameter that no positional argument and no earlier keyword has
taken. -/
def Accepts (j : Nat) : Prop :=
  ∃ i, fn.Names args j i ∧ args.positional.length ≤ i ∧ ∀ l < j, ¬ fn.Names args l i

/-- A positional argument or a keyword is meant for slot `i`. -/
def Supplies (i : Nat) : Prop :=
  i < args.positional.length ∨ ∃ j, fn.Names args j i

/-- There is exactly one argument for every parameter. -/
structure Fits : Prop where
  positional : args.positional.length ≤ fn.params.length
  keywords : ∀ j < args.keywords.length, fn.Accepts args j
  complete : ∀ i < fn.params.length, fn.Supplies args i

/-- The frame of a call of `f` in which every argument stands in its slot, and nothing else does. -/
structure Bound (f : FunctionRef) (frame : Frame) : Prop where
  function : frame.function = f
  size : frame.locals.size = fn.localCount.toNat
  positional {i : Nat} {v : Value} (h : args.positional[i]? = some v) :
    frame.locals[i]? = some (some v)
  keyword {j i : Nat} {k : String × Value} (hj : args.keywords[j]? = some k)
    (hi : fn.slotOf? k.1 = some i) : frame.locals[i]? = some (some k.2)
  other {i : Nat} (hi : i < fn.localCount.toNat) (h : ¬ fn.Supplies args i) :
    frame.locals[i]? = some none

/-- What is wrong with keyword number `j`: it names no parameter, or one whose slot is taken. -/
inductive Offends (j : Nat) : Failure → Prop
  | unexpected {name : String} {v : Value} (hj : args.keywords[j]? = some (name, v))
      (hslot : fn.slotOf? name = none) : Offends j (.unexpectedKeyword fn.name name)
  | duplicate {name : String} {v : Value} {i : Nat} (hj : args.keywords[j]? = some (name, v))
      (hslot : fn.slotOf? name = some i)
      (htaken : i < args.positional.length ∨ ∃ l < j, fn.Names args l i) :
      Offends j (.duplicateArgument fn.name name)

/-- The mistake that is reported: too many positional arguments before all else, then the first
keyword that cannot be bound, and then the first parameter that is left over. -/
inductive Rejects : Failure → Prop
  | arity (h : fn.params.length < args.positional.length) :
      Rejects (.arityMismatch fn.name fn.params.length args.positional.length)
  | keyword {j : Nat} {e : Failure} (hp : args.positional.length ≤ fn.params.length)
      (hfirst : ∀ l < j, fn.Accepts args l) (h : fn.Offends args j e) : Rejects e
  | missing {i : Nat} {param : String} (hp : args.positional.length ≤ fn.params.length)
      (hall : ∀ j < args.keywords.length, fn.Accepts args j) (hi : fn.params[i]? = some param)
      (hfirst : ∀ l < i, fn.Supplies args l) (hnot : ¬ fn.Supplies args i) :
      Rejects (.missingArgument fn.name param)

end FunctionDef

def Frame.put (frame : Frame) (i : Nat) (v : Value) : Frame :=
  { frame with locals := frame.locals.setIfInBounds i (some v) }

namespace FunctionDef

variable {fn : FunctionDef} {args : Arguments} {f : FunctionRef} {frame : Frame}

theorem slotOf?_lt {name : String} {i : Nat} (h : fn.slotOf? name = some i) :
    i < fn.params.length :=
  (List.findIdx?_eq_some_iff_getElem.mp h).1

/-- Slots below the number of local ones keep their number in sixteen bits. -/
theorem toNat_slot {i : Nat} (hi : i < fn.localCount.toNat) : (UInt16.ofNat i).toNat = i := by
  have hcount : fn.localCount.toNat < UInt16.size := fn.localCount.toNat_lt
  exact UInt16.toNat_ofNat_of_lt (by omega)

/-- A keyword names one slot at most. -/
theorem Names.unique {j i i' : Nat} (h : fn.Names args j i) (h' : fn.Names args j i') : i = i' := by
  obtain ⟨k, hk, hi⟩ := h
  obtain ⟨k', hk', hi'⟩ := h'
  obtain rfl : k = k' := Option.some.inj (hk.symm.trans hk')
  exact Option.some.inj (hi.symm.trans hi')

theorem Offends.lt {j : Nat} {e : Failure} (h : fn.Offends args j e) :
    j < args.keywords.length := by
  cases h with
  | unexpected hj _ => exact (List.getElem?_eq_some_iff.mp hj).1
  | duplicate hj _ _ => exact (List.getElem?_eq_some_iff.mp hj).1

theorem Offends.not_accepts {j : Nat} {e : Failure} (h : fn.Offends args j e) :
    ¬ fn.Accepts args j := by
  rintro ⟨i, hnames, hle, hfree⟩
  cases h with
  | unexpected hj hslot =>
    obtain ⟨k, hk, hi⟩ := hnames
    obtain rfl := Option.some.inj (hk.symm.trans hj)
    cases hslot.symm.trans hi
  | @duplicate name v i' hj hslot htaken =>
    obtain rfl : i = i' := hnames.unique ⟨_, hj, hslot⟩
    rcases htaken with hlt | ⟨l, hl, hnames'⟩
    · omega
    · exact hfree l hl hnames'

theorem Offends.unique {j : Nat} {e e' : Failure} (h : fn.Offends args j e)
    (h' : fn.Offends args j e') : e = e' := by
  cases h with
  | unexpected hj hslot =>
    cases h' with
    | unexpected hj' _ =>
      obtain ⟨rfl, -⟩ := Prod.mk.inj (Option.some.inj (hj.symm.trans hj'))
      rfl
    | duplicate hj' hslot' _ =>
      obtain ⟨rfl, -⟩ := Prod.mk.inj (Option.some.inj (hj.symm.trans hj'))
      cases hslot.symm.trans hslot'
  | duplicate hj hslot _ =>
    cases h' with
    | unexpected hj' hslot' =>
      obtain ⟨rfl, -⟩ := Prod.mk.inj (Option.some.inj (hj.symm.trans hj'))
      cases hslot.symm.trans hslot'
    | duplicate hj' _ _ =>
      obtain ⟨rfl, -⟩ := Prod.mk.inj (Option.some.inj (hj.symm.trans hj'))
      rfl

/-- Arguments that fit are not rejected. -/
theorem Fits.not_rejects (h : fn.Fits args) (e : Failure) : ¬ fn.Rejects args e := by
  intro hr
  cases hr with
  | arity hlt => exact Nat.not_le.mpr hlt h.positional
  | keyword _ _ ho => exact ho.not_accepts (h.keywords _ ho.lt)
  | missing _ _ hi _ hnot => exact hnot (h.complete _ (List.getElem?_eq_some_iff.mp hi).1)

/-- No more than one mistake is reported. -/
theorem Rejects.unique {e e' : Failure} (h : fn.Rejects args e) (h' : fn.Rejects args e') :
    e = e' := by
  cases h with
  | arity hlt =>
    cases h' with
    | arity _ => rfl
    | keyword hp _ _ | missing hp _ _ _ _ => omega
  | @keyword j _ hp hfirst ho =>
    cases h' with
    | arity hlt => omega
    | @keyword j' _ _ hfirst' ho' =>
      rcases Nat.lt_trichotomy j j' with hlt | rfl | hlt
      · exact absurd (hfirst' j hlt) ho.not_accepts
      · exact ho.unique ho'
      · exact absurd (hfirst j' hlt) ho'.not_accepts
    | missing _ hall _ _ _ => exact absurd (hall j ho.lt) ho.not_accepts
  | @missing i param hp hall hi hfirst hnot =>
    cases h' with
    | arity hlt => omega
    | keyword _ _ ho => exact absurd (hall _ ho.lt) ho.not_accepts
    | @missing i' param' _ _ hi' hfirst' hnot' =>
      rcases Nat.lt_trichotomy i i' with hlt | rfl | hlt
      · exact absurd (hfirst' i hlt) hnot
      · obtain rfl : param = param' := Option.some.inj (hi.symm.trans hi')
        rfl
      · exact absurd (hfirst i' hlt) hnot'

namespace Bound

theorem blank : fn.Bound {} f (.blank f fn) where
  function := rfl
  size := Array.size_replicate
  positional h := nomatch h
  keyword h := nomatch h
  other hi _ := by simp [Frame.blank, hi]

/-- A slot is filled exactly if an argument is meant for it. -/
theorem readLocal (h : fn.Bound args f frame) {i : Nat} (hi : i < fn.localCount.toNat) :
    ∃ found, frame.readLocal (UInt16.ofNat i) = .ok found ∧
      (found.isSome ↔ fn.Supplies args i) := by
  unfold Frame.readLocal
  rw [toNat_slot hi]
  by_cases hs : fn.Supplies args i
  · obtain ⟨v, hv⟩ : ∃ v, frame.locals[i]? = some (some v) := by
      rcases hs with hlt | ⟨j, k, hk, hslot⟩
      · exact ⟨_, h.positional (List.getElem?_eq_getElem hlt)⟩
      · exact ⟨_, h.keyword hk hslot⟩
    exact ⟨some v, by rw [hv], by simp [hs]⟩
  · exact ⟨none, by rw [h.other hi hs], by simp [hs]⟩

theorem writeLocal (h : fn.Bound args f frame) {i : Nat} (hi : i < fn.localCount.toNat)
    (v : Value) : frame.writeLocal (UInt16.ofNat i) v = .ok (frame.put i v) := by
  have hlt : i < frame.locals.size := h.size ▸ hi
  unfold Frame.writeLocal Frame.put
  rw [toNat_slot hi, if_pos hlt]

/-- One more argument, in a slot that none of those before was meant for. -/
theorem put (h : fn.Bound args f frame) {i : Nat} {v : Value} (hi : i < fn.localCount.toNat)
    (hfree : ¬ fn.Supplies args i) {args' : Arguments}
    (hpositional : ∀ {l : Nat} {u : Value}, args'.positional[l]? = some u →
      args.positional[l]? = some u ∨ l = i ∧ u = v)
    (hkeyword : ∀ {j l : Nat} {k : String × Value}, args'.keywords[j]? = some k →
      fn.slotOf? k.1 = some l → args.keywords[j]? = some k ∨ l = i ∧ k.2 = v)
    (hsupplies : ∀ {l : Nat}, fn.Supplies args l ∨ l = i → fn.Supplies args' l) :
    fn.Bound args' f (frame.put i v) := by
  have hlt : i < frame.locals.size := h.size ▸ hi
  have hnew : (frame.put i v).locals[i]? = some (some v) :=
    Array.getElem?_setIfInBounds_self_of_lt hlt
  have hold {l : Nat} (hl : l ≠ i) : (frame.put i v).locals[l]? = frame.locals[l]? :=
    Array.getElem?_setIfInBounds_ne (Ne.symm hl)
  refine ⟨h.function, ?_, fun {l u} hu => ?_, fun {j l k} hk hl => ?_, fun {l} hl hs => ?_⟩
  · rw [← h.size]
    exact Array.size_setIfInBounds
  · rcases hpositional hu with hu | ⟨rfl, rfl⟩
    · have hne : l ≠ i := by
        rintro rfl
        exact hfree (.inl (List.getElem?_eq_some_iff.mp hu).1)
      rw [hold hne]
      exact h.positional hu
    · exact hnew
  · rcases hkeyword hk hl with hk | ⟨rfl, rfl⟩
    · have hne : l ≠ i := by
        rintro rfl
        exact hfree (.inr ⟨j, k, hk, hl⟩)
      rw [hold hne]
      exact h.keyword hk hl
    · exact hnew
  · have hne : l ≠ i := fun heq => hs (hsupplies (.inr heq))
    rw [hold hne]
    exact h.other hl fun hsup => hs (hsupplies (.inl hsup))

end Bound

section Loops

variable {p : List Value} {done rest : List (String × Value)}

theorem names_append {j i : Nat} :
    fn.Names ⟨p, done⟩ j i ↔ j < done.length ∧ fn.Names ⟨p, done ++ rest⟩ j i := by
  constructor
  · rintro ⟨k, hk, hi⟩
    have hj : j < done.length := (List.getElem?_eq_some_iff.mp hk).1
    exact ⟨hj, k, by rw [← hk]; exact List.getElem?_append_left hj, hi⟩
  · rintro ⟨hj, k, hk, hi⟩
    exact ⟨k, by rw [← hk]; exact (List.getElem?_append_left hj).symm, hi⟩

theorem Bound.positional_snoc {vs : List Value} (h : fn.Bound ⟨vs, []⟩ f frame)
    (hlt : vs.length < fn.localCount.toNat) (v : Value) :
    fn.Bound ⟨vs ++ [v], []⟩ f (frame.put vs.length v) := by
  have hnone {j i : Nat} {qs : List Value} : ¬ fn.Names ⟨qs, []⟩ j i := by
    rintro ⟨k, ⟨⟩, -⟩
  refine h.put hlt ?_ (fun {l u} hu => ?_) (fun hk => nomatch hk) (fun {l} hl => ?_)
  · rintro (hlt | ⟨j, hj⟩)
    · exact Nat.lt_irrefl _ hlt
    · exact hnone hj
  · rcases Nat.lt_or_ge l vs.length with hl | hl
    · left
      rw [← hu]
      exact (List.getElem?_append_left hl).symm
    · right
      have hlast : [v][l - vs.length]? = some u := by
        rw [← hu]
        exact (List.getElem?_append_right hl).symm
      obtain ⟨hzero, hv⟩ := List.getElem?_eq_some_iff.mp hlast
      have hle : l - vs.length < 1 := hzero
      have hl' : l - vs.length = 0 := by omega
      simp only [hl', List.getElem_cons_zero] at hv
      exact ⟨by omega, hv.symm⟩
  · left
    have hlen : (vs ++ [v]).length = vs.length + 1 := by simp
    rcases hl with (hl | ⟨j, hj⟩) | rfl
    · change l < (vs ++ [v]).length
      have hl' : l < vs.length := hl
      omega
    · exact absurd hj hnone
    · change vs.length < (vs ++ [v]).length
      omega

theorem bindPositional_bound {vs ws : List Value} (h : fn.Bound ⟨vs, []⟩ f frame)
    (hlen : vs.length + ws.length ≤ fn.localCount.toNat) :
    ∃ g, frame.bindPositional vs.length ws = .ok g ∧ fn.Bound ⟨vs ++ ws, []⟩ f g := by
  induction ws generalizing vs frame with
  | nil => exact ⟨frame, rfl, by simpa using h⟩
  | cons w ws ih =>
    rw [List.length_cons] at hlen
    have hlt : vs.length < fn.localCount.toNat := by omega
    have hsnoc := h.positional_snoc hlt w
    obtain ⟨g, hg, hb⟩ := ih hsnoc (by rw [List.length_append, List.length_singleton]; omega)
    refine ⟨g, ?_, by simpa using hb⟩
    rw [Frame.bindPositional, h.writeLocal hlt]
    rw [List.length_append, List.length_singleton] at hg
    exact hg

theorem Bound.keyword_snoc (h : fn.Bound ⟨p, done⟩ f frame) {name : String} {i : Nat}
    (hslot : fn.slotOf? name = some i) (hi : i < fn.localCount.toNat)
    (hfree : ¬ fn.Supplies ⟨p, done⟩ i) (v : Value) :
    fn.Bound ⟨p, done ++ [(name, v)]⟩ f (frame.put i v) := by
  refine h.put hi hfree (fun hu => .inl hu) (fun {j l k} hk hl => ?_) (fun {l} hl => ?_)
  · rcases Nat.lt_or_ge j done.length with hj | hj
    · left
      rw [← hk]
      exact (List.getElem?_append_left hj).symm
    · right
      have hlast : [(name, v)][j - done.length]? = some k := by
        rw [← hk]
        exact (List.getElem?_append_right hj).symm
      have hmem : k ∈ [(name, v)] := List.mem_of_getElem? hlast
      obtain rfl := List.mem_singleton.mp hmem
      exact ⟨Option.some.inj (hl.symm.trans hslot), rfl⟩
  · rcases hl with (hl | ⟨j, hj⟩) | rfl
    · exact .inl hl
    · exact .inr ⟨j, (names_append.mp hj).2⟩
    · exact .inr ⟨done.length, (name, v), by simp, hslot⟩

theorem bindKeyword_unknown {name : String} (hslot : fn.slotOf? name = none) (v : Value) :
    frame.bindKeyword fn name v = .error (.unexpectedKeyword fn.name name) := by
  unfold slotOf? at hslot
  unfold Frame.bindKeyword
  rw [hslot]

/-- A keyword finds its slot taken, or it is bound. -/
theorem Bound.bindKeyword (h : fn.Bound args f frame) {name : String} {i : Nat}
    (hslot : fn.slotOf? name = some i) (hi : i < fn.localCount.toNat) (v : Value) :
    fn.Supplies args i ∧ frame.bindKeyword fn name v = .error (.duplicateArgument fn.name name) ∨
      ¬ fn.Supplies args i ∧ frame.bindKeyword fn name v = .ok (frame.put i v) := by
  obtain ⟨found, hread, hfound⟩ := h.readLocal hi
  have hwrite := h.writeLocal hi v
  unfold slotOf? at hslot
  unfold Frame.bindKeyword
  simp only [hslot, hread, hwrite, Bind.bind, Except.bind]
  by_cases hs : fn.Supplies args i
  · rw [if_pos (hfound.mpr hs)]
    exact .inl ⟨hs, rfl⟩
  · rw [if_neg fun hc => hs (hfound.mp hc)]
    exact .inr ⟨hs, rfl⟩

/-- Keywords are bound one by one; the first that is not accepted ends the matter. -/
theorem bindKeywords_exact (hcount : fn.params.length ≤ fn.localCount.toNat)
    (hp : p.length ≤ fn.params.length) (h : fn.Bound ⟨p, done⟩ f frame)
    (hdone : ∀ j < done.length, fn.Accepts ⟨p, done ++ rest⟩ j) :
    Yields (fun g => (∀ j < (done ++ rest).length, fn.Accepts ⟨p, done ++ rest⟩ j) ∧
        fn.Bound ⟨p, done ++ rest⟩ f g)
      (fn.Rejects ⟨p, done ++ rest⟩) (frame.bindKeywords fn rest) := by
  induction rest generalizing done frame with
  | nil => exact ⟨by simpa using hdone, by simpa using h⟩
  | cons k rest ih =>
    obtain ⟨name, v⟩ := k
    have hhere : (done ++ (name, v) :: rest)[done.length]? = some (name, v) := by simp
    rw [Frame.bindKeywords]
    cases hslot : fn.slotOf? name with
    | none =>
      rw [bindKeyword_unknown hslot]
      exact .keyword hp hdone (.unexpected hhere hslot)
    | some i =>
      have hi : i < fn.localCount.toNat := Nat.lt_of_lt_of_le (slotOf?_lt hslot) hcount
      rcases h.bindKeyword hslot hi v with ⟨hs, hbind⟩ | ⟨hs, hbind⟩
      · rw [hbind]
        refine .keyword hp hdone (.duplicate hhere hslot (hs.imp_right ?_))
        rintro ⟨l, hl⟩
        exact ⟨l, names_append.mp hl⟩
      · have hassoc : done ++ (name, v) :: rest = done ++ [(name, v)] ++ rest := by simp
        have hsnoc := h.keyword_snoc hslot hi hs v
        have haccepts : ∀ j < (done ++ [(name, v)]).length,
            fn.Accepts ⟨p, done ++ (name, v) :: rest⟩ j := by
          intro j hj
          rw [List.length_append, List.length_singleton] at hj
          by_cases hlast : j = done.length
          · subst hlast
            refine ⟨i, ⟨_, hhere, hslot⟩, ?_, fun l hl hnames => ?_⟩
            · exact Nat.le_of_not_lt fun hlt => hs (.inl hlt)
            · exact hs (.inr ⟨l, names_append.mpr ⟨hl, hnames⟩⟩)
          · exact hdone j (by omega)
        rw [hbind]
        rw [hassoc] at haccepts ⊢
        exact ih hsnoc haccepts

/-- The parameters from number `slot` on are looked at one by one. -/
theorem checkBound_exact (hcount : fn.params.length ≤ fn.localCount.toNat)
    (hp : args.positional.length ≤ fn.params.length)
    (hall : ∀ j < args.keywords.length, fn.Accepts args j) (h : fn.Bound args f frame)
    {slot : Nat} {params : List String} (hparams : fn.params.drop slot = params)
    (hfirst : ∀ l < slot, fn.Supplies args l) :
    Yields (fun _ => ∀ i < fn.params.length, fn.Supplies args i) (fn.Rejects args)
      (frame.checkBound fn slot params) := by
  induction params generalizing slot with
  | nil =>
    have hlen : fn.params.length ≤ slot := List.drop_eq_nil_iff.mp hparams
    exact fun i hi => hfirst i (by omega)
  | cons param params ih =>
    have hhere : fn.params[slot]? = some param := by
      rw [← List.head?_drop, hparams]
      rfl
    have hlt : slot < fn.params.length := (List.getElem?_eq_some_iff.mp hhere).1
    obtain ⟨found, hread, hfound⟩ := h.readLocal (Nat.lt_of_lt_of_le hlt hcount)
    rw [Frame.checkBound, hread]
    simp only [Bind.bind, Except.bind]
    by_cases hs : fn.Supplies args slot
    · have hsome : found.isNone = false := by
        have := hfound.mpr hs
        cases found <;> simp_all
      simp only [hsome]
      apply ih
      · rw [← List.tail_drop, hparams]
        rfl
      · intro l hl
        by_cases heq : l = slot
        · exact heq ▸ hs
        · exact hfirst l (by omega)
    · have hnone : found.isNone = true := by
        have hne := fun hc => hs (hfound.mp hc)
        cases found <;> simp_all
      simp only [hnone]
      exact .missing hp hall hhere hfirst hs

end Loops

/-- The arguments fit and the frame holds them, or the mistake is one that is to be reported. -/
theorem bind_outcome (hcount : fn.params.length ≤ fn.localCount.toNat) (f : FunctionRef)
    (args : Arguments) :
    Yields (fun frame => fn.Fits args ∧ fn.Bound args f frame) (fn.Rejects args)
      (fn.bind f args) := by
  obtain ⟨p, ks⟩ := args
  unfold FunctionDef.bind
  by_cases hlt : fn.params.length < p.length
  · rw [if_pos hlt]
    exact .arity hlt
  · rw [if_neg hlt]
    have hp : p.length ≤ fn.params.length := Nat.le_of_not_lt hlt
    obtain ⟨frame, hframe, hbound⟩ : ∃ g, (Frame.blank f fn).bindPositional 0 p = .ok g ∧
        fn.Bound ⟨p, []⟩ f g := bindPositional_bound Bound.blank (by simp; omega)
    have hnone : ∀ j < ([] : List (String × Value)).length, fn.Accepts ⟨p, [] ++ ks⟩ j :=
      fun j hj => absurd hj (Nat.not_lt_zero j)
    have hkeywords := bindKeywords_exact hcount hp hbound hnone
    simp only [hframe]
    apply hkeywords.bind
    rintro g ⟨haccepts, hg⟩
    have hstart : ∀ l < 0, fn.Supplies ⟨p, ks⟩ l := fun l hl => absurd hl (Nat.not_lt_zero l)
    apply (checkBound_exact hcount hp haccepts hg List.drop_zero hstart).bind
    intro _ hcomplete
    exact ⟨⟨hp, haccepts, hcomplete⟩, hg⟩

/-- What the slots of a frame hold determines it. -/
theorem Bound.unique {g : Frame} (h : fn.Bound args f frame) (h' : fn.Bound args f g) :
    frame = g := by
  obtain ⟨f₁, locals₁⟩ := frame
  obtain ⟨f₂, locals₂⟩ := g
  obtain rfl : f₁ = f₂ := h.function.trans h'.function.symm
  have hsize : locals₁.size = locals₂.size := h.size.trans h'.size.symm
  have hslots : locals₁ = locals₂ := by
    apply Array.ext_getElem?
    intro i
    by_cases hi : i < fn.localCount.toNat
    · by_cases hs : fn.Supplies args i
      · rcases hs with hlt | ⟨j, k, hk, hslot⟩
        · have hv := List.getElem?_eq_getElem hlt
          exact (h.positional hv).trans (h'.positional hv).symm
        · exact (h.keyword hk hslot).trans (h'.keyword hk hslot).symm
      · exact (h.other hi hs).trans (h'.other hi hs).symm
    · have hge : locals₁.size ≤ i := h.size ▸ Nat.le_of_not_lt hi
      rw [Array.getElem?_eq_none hge, Array.getElem?_eq_none (hsize ▸ hge)]
  rw [hslots]

end FunctionDef

/-- Arguments are bound exactly if there is one for every parameter: positional ones fill the first
slots, each keyword the slot of the first parameter of its name, and no other slot is bound.
Otherwise exactly one mistake is reported: too many positional arguments, else the first keyword
that names no parameter or one that is taken, else the first parameter that is left over. -/
theorem binding_exact {fn : FunctionDef} (hcount : fn.params.length ≤ fn.localCount.toNat)
    (f : FunctionRef) (args : Arguments) :
    (∀ frame, fn.bind f args = .ok frame ↔ fn.Fits args ∧ fn.Bound args f frame) ∧
      ((∃ frame, fn.bind f args = .ok frame) ↔ fn.Fits args) ∧
      ∀ e, fn.bind f args = .error e ↔ fn.Rejects args e := by
  have houtcome := FunctionDef.bind_outcome hcount f args
  cases hbind : fn.bind f args with
  | ok g =>
    rw [hbind] at houtcome
    obtain ⟨hfits, hg⟩ := houtcome
    refine ⟨fun frame => ⟨?_, ?_⟩, ⟨fun _ => hfits, fun _ => ⟨g, rfl⟩⟩,
      fun e => ⟨nofun, fun hr => ?_⟩⟩
    · rintro ⟨⟩
      exact ⟨hfits, hg⟩
    · rintro ⟨-, hframe⟩
      rw [hg.unique hframe]
    · exact absurd hr (hfits.not_rejects e)
  | error e =>
    rw [hbind] at houtcome
    have hnot : ¬ fn.Fits args := fun hfits => hfits.not_rejects e houtcome
    refine ⟨fun frame => ⟨nofun, fun h => absurd h.1 hnot⟩,
      ⟨nofun, fun h => absurd h hnot⟩, fun e' => ⟨?_, fun hr => ?_⟩⟩
    · rintro ⟨⟩
      exact houtcome
    · rw [houtcome.unique hr]

def Demo.scale : FunctionDef :=
  .make 7 "scale" ["x", "by"] (some 3) [.ret (some (.ident (.localVar "x" 0)))]

theorem scale_binding :
    Demo.scale.params.length ≤ Demo.scale.localCount.toNat ∧
      Demo.scale.Bound ⟨[.int 4], [("by", .int 2)]⟩ ⟨0, "scale"⟩
        ⟨⟨0, "scale"⟩, #[some (.int 4), some (.int 2), none]⟩ ∧
      Demo.scale.Rejects ⟨[.int 4], [("by", .int 2), ("x", .int 3), ("z", .int 1)]⟩
        (.duplicateArgument "scale" "x") := by
  have hcount : Demo.scale.params.length ≤ Demo.scale.localCount.toNat := by decide
  refine ⟨hcount, ?_, ?_⟩
  · exact (((binding_exact hcount _ _).1 _).mp rfl).2
  · exact ((binding_exact hcount ⟨0, "scale"⟩ _).2.2 _).mp rfl

end Tiered
