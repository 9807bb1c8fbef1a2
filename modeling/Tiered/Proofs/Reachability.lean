import Tiered.Proofs.Acceptance
import Tiered.Proofs.CallConfinement
import Tiered.Proofs.Termination

/-! Global slots are private. A call changes only slots of function values that it can reach, and
through them comes to such function values only, and to those it makes itself. -/
namespace Tiered

section Literals

mutual

theorem Expr.literals_refs : ∀ e : Expr, ∀ v ∈ e.demand.literals, v.refs = []
  | .ident x => by cases x <;> simp [Expr.demand, Ident.loadDemand]
  | .int n => by
    rw [Expr.demand]
    split
    · simp
    · simp [Value.pooledDemand, Value.refs]
  | .str s => by simp [Expr.demand, Value.pooledDemand, Value.refs]
  | .binary op l r => by
    cases op with
    | add => simpa [Expr.demand, or_imp, forall_and] using ⟨l.literals_refs, r.literals_refs⟩
    | sub | mul | eq | lt => simp [Expr.demand]
  | .call f args => by
    simpa [Expr.demand, or_imp, forall_and] using ⟨f.literals_refs, argsLiterals_refs args⟩
  | .list items => by simp [Expr.demand]

theorem argsLiterals_refs : ∀ args : List Arg, ∀ v ∈ (argsDemand args).literals, v.refs = []
  | [] => by simp [argsDemand]
  | .positional e :: rest => by
    simpa [argsDemand, or_imp, forall_and] using ⟨e.literals_refs, argsLiterals_refs rest⟩
  | .keyword name e :: rest => by simpa [argsDemand] using argsLiterals_refs rest

end

theorem Ident.storeLiterals (x : Ident) : x.storeDemand.literals = [] := by
  cases x <;> rfl

mutual

theorem Stmt.literals_refs : ∀ s : Stmt, ∀ v ∈ s.demand.literals, v.refs = []
  | .ret none => by simp [Stmt.demand]
  | .ret (some e) => by simpa [Stmt.demand] using e.literals_refs
  | .eval e => by simpa [Stmt.demand] using e.literals_refs
  | .define target fn => by simp [Stmt.demand, target.storeLiterals]
  | .forEach target collection body => by
    cases target with
    | ident x =>
      simpa [Stmt.demand, x.storeLiterals, or_imp, forall_and] using
        ⟨collection.literals_refs, blockLiterals_refs body⟩
    | int _ | str _ | binary _ _ _ | call _ _ | list _ => simp [Stmt.demand]
  | .branch _ _ _ => by simp [Stmt.demand]
  | .assign _ _ => by simp [Stmt.demand]
  | .pass => by simp [Stmt.demand]

theorem blockLiterals_refs : ∀ body : List Stmt, ∀ v ∈ (blockDemand body).literals, v.refs = []
  | [] => by simp [blockDemand]
  | s :: rest => by
    simpa [blockDemand, or_imp, forall_and] using ⟨s.literals_refs, blockLiterals_refs rest⟩

end

/-- The constants of a lowered function are its literals: none of them is a function value. -/
theorem FunctionDef.constants_refs {fn : FunctionDef} {p : Lowered} (h : fn.lower = .ok p) :
    ∀ v ∈ p.unit.constants, v.refs = [] := by
  intro v hv
  have hserved := fn.lowering_meets.served (lower_eq_ok_iff.mp h)
  have hmem : v ∈ collect [] fn.demand.literals := by
    have hconstants := hserved.constants
    rw [Demand.literals_append, List.append_nil] at hconstants
    rw [← Array.mem_toList_iff, hconstants] at hv
    exact hv
  rcases mem_collect.mp hmem with hnil | hlit
  · cases hnil
  · exact blockLiterals_refs fn.body v hlit

end Literals

/-- Constants of units refer to owned function values only; any definition may be run. -/
def CodePolicy.constantsWithin (owns : Nat → Prop) : CodePolicy where
  admits _ := True
  runs _ code := ∀ unit, code = .specialized unit → ∀ v ∈ unit.code.unit.constants, v.Within owns
  serves _ hs := by
    rintro unit rfl v hv
    exact Value.within_of_refs_eq_nil (FunctionDef.constants_refs hs v hv)
  shared _ _ _ h := h

/-- Units that functions were lowered to may run on any terms, for they hold no function values. -/
theorem CodePolicy.Sound.constantsWithin {w : World} (h : lowered.Sound w) (owns : Nat → Prop) :
    (CodePolicy.constantsWithin owns).Sound w := by
  have hruns {code : Code} (hserves : ∃ fn, code.Serves fn) (fn : FunctionDef) :
      (CodePolicy.constantsWithin owns).runs fn code := by
    obtain ⟨g, hg⟩ := hserves
    have hlowered : (CodePolicy.constantsWithin owns).runs g code :=
      (CodePolicy.constantsWithin owns).serves trivial hg
    exact hlowered
  refine ⟨fun c hc => ⟨trivial, hruns (h.heap c hc).2 c.fn⟩, ?_⟩
  intro s hs entry he fn _ hid
  exact hruns (h.specializer s hs entry he fn trivial hid) fn

section Heaps

/-- From `roots` the function value at a place can be reached: one of them refers to it, or a value
in a global slot of a function value that can be reached. -/
inductive Reachable (heap : Array Callable) (roots : List Value) : Nat → Prop
  | root {v : Value} {f : FunctionRef} (hv : v ∈ roots) (hf : f ∈ v.refs) :
      Reachable heap roots f.index
  | slot {i : Nat} {c : Callable} {v : Value} {f : FunctionRef} (hi : Reachable heap roots i)
      (hc : heap[i]? = some c) (hv : some v ∈ c.globals) (hf : f ∈ v.refs) :
      Reachable heap roots f.index

/-- Global slots of owned function values refer to owned ones only. -/
def Closed (owns : Nat → Prop) (heap : Array Callable) : Prop :=
  ∀ i c, owns i → heap[i]? = some c → ∀ v, some v ∈ c.globals → v.Within owns

theorem Closed.of_reachable {owns : Nat → Prop} {heap : Array Callable} {roots : List Value}
    (h : Closed owns heap) (hroots : ∀ v ∈ roots, v.Within owns) {i : Nat}
    (hi : Reachable heap roots i) : owns i := by
  induction hi with
  | root hv hf => exact hroots _ hv _ hf
  | slot _ hc hv hf ih => exact h _ _ ih hc _ hv _ hf

/-- A change to the heap: a function value is made, or a global slot is written. -/
inductive Change where
  | make (c : Callable)
  | write (i : Nat) (slot : UInt16) (v : Value)

namespace Change

def apply (heap : Array Callable) : Change → Array Callable
  | make c => heap.push c
  | write i slot v => heap.modify i (·.writeGlobal slot v)

def applyAll (heap : Array Callable) (changes : List Change) : Array Callable :=
  changes.foldl apply heap

/-- Function values are made with empty slots, and owned ones are written to slots of owned ones. -/
def Within (owns : Nat → Prop) : Change → Prop
  | make c => c.globals = #[]
  | write i _ v => owns i ∧ v.Within owns

variable {heap : Array Callable} {owns : Nat → Prop}

theorem applyAll_snoc (changes : List Change) (ch : Change) :
    applyAll heap (changes ++ [ch]) = ch.apply (applyAll heap changes) := by
  simp [applyAll]

theorem mem_writeGlobal {c : Callable} {slot : UInt16} {v u : Value}
    (h : some u ∈ (c.writeGlobal slot v).globals) : some u ∈ c.globals ∨ u = v := by
  unfold Callable.writeGlobal at h
  rcases Array.mem_or_eq_of_mem_setIfInBounds h with h | h
  · rcases Array.mem_append.mp h with h | h
    · exact .inl h
    · simp at h
  · exact .inr (Option.some.inj h)

theorem apply_closed {ch : Change} (h : Closed owns heap) (hch : ch.Within owns) :
    Closed owns (ch.apply heap) := by
  intro i c hi hc v hv
  cases ch with
  | make d =>
    rw [apply, Array.getElem?_push] at hc
    split at hc
    · obtain rfl := Option.some.inj hc
      have hempty : d.globals = #[] := hch
      rw [hempty] at hv
      exact absurd hv (Array.not_mem_empty _)
    · exact h i c hi hc v hv
  | write j slot x =>
    rw [apply, Array.getElem?_modify] at hc
    split at hc
    · obtain ⟨d, hd, rfl⟩ := Option.map_eq_some_iff.mp hc
      rcases mem_writeGlobal hv with hv | rfl
      · exact h i d hi hd v hv
      · exact hch.2
    · exact h i c hi hc v hv

/-- What each change keeps, all of them keep. -/
theorem applyAll_keeps {P : Array Callable → Prop} {changes : List Change}
    (hstep : ∀ heap, P heap → ∀ ch ∈ changes, P (ch.apply heap)) (h : P heap) :
    P (applyAll heap changes) := by
  induction changes using List.reverseRecOn with
  | nil => exact h
  | append_singleton changes ch ih =>
    rw [applyAll_snoc]
    have hbefore := ih fun heap h c hc => hstep heap h c (List.mem_append_left _ hc)
    exact hstep _ hbefore ch (by simp)

theorem applyAll_closed {changes : List Change} (hch : ∀ ch ∈ changes, ch.Within owns)
    (h : Closed owns heap) : Closed owns (applyAll heap changes) :=
  applyAll_keeps (fun _ hheap ch hmem => apply_closed hheap (hch ch hmem)) h

theorem apply_untouched {ch : Change} (hch : ch.Within owns) {i : Nat} (hi : ¬owns i)
    {c : Callable} (hc : heap[i]? = some c) : (ch.apply heap)[i]? = some c := by
  cases ch with
  | make d =>
    obtain ⟨hlt, -⟩ := Array.getElem?_eq_some_iff.mp hc
    rw [apply, Array.getElem?_push, if_neg (by omega)]
    exact hc
  | write j slot x =>
    have hne : j ≠ i := by
      rintro rfl
      exact hi hch.1
    rw [apply, Array.getElem?_modify, if_neg hne]
    exact hc

theorem size_le_apply (ch : Change) : heap.size ≤ (ch.apply heap).size := by
  cases ch with
  | make c => simp [apply]
  | write i slot v => simp [apply]

/-- Among the changes the function value at place `i` is made, with empty global slots. -/
def Makes (heap : Array Callable) (changes : List Change) (i : Nat) : Prop :=
  ∃ past c, past ++ [make c] <+: changes ∧ (applyAll heap past).size = i ∧ c.globals = #[]

theorem makes_of_lt {changes : List Change} (hch : ∀ ch ∈ changes, ch.Within owns) {i : Nat}
    (hle : heap.size ≤ i) (hlt : i < (applyAll heap changes).size) : Makes heap changes i := by
  induction changes using List.reverseRecOn with
  | nil => exact absurd hlt (Nat.not_lt.mpr hle)
  | append_singleton changes ch ih =>
    by_cases hi : i < (applyAll heap changes).size
    · obtain ⟨past, c, hpast, hsize, hempty⟩ :=
        ih (fun d hd => hch d (List.mem_append_left _ hd)) hi
      exact ⟨past, c, hpast.trans (List.prefix_append _ _), hsize, hempty⟩
    · rw [applyAll_snoc] at hlt
      cases ch with
      | write j slot v =>
        rw [apply, Array.size_modify] at hlt
        exact absurd hlt hi
      | make c =>
        rw [apply, Array.size_push] at hlt
        exact ⟨changes, c, List.prefix_rfl, by omega, hch (make c) (by simp)⟩

end Change

/-- Two function values share no global slots: what is written to the one is not seen in the
other. -/
def Apart (a b : FunctionRef) : Prop :=
  ∀ (w : World) (slot slot' : UInt16) (v : Value),
    (w.writeGlobal a slot v).readGlobal b slot' = w.readGlobal b slot' ∧
      (w.writeGlobal b slot v).readGlobal a slot' = w.readGlobal a slot'

theorem apart_of_index_ne {a b : FunctionRef} (h : a.index ≠ b.index) : Apart a b := by
  have hread {a b : FunctionRef} (h : a.index ≠ b.index) (w : World) (slot slot' : UInt16)
      (v : Value) : (w.writeGlobal a slot v).readGlobal b slot' = w.readGlobal b slot' := by
    unfold World.readGlobal World.callable? World.writeGlobal
    rw [Array.getElem?_modify, if_neg h]
  exact fun w slot slot' v => ⟨hread h w slot slot' v, hread h.symm w slot slot' v⟩

end Heaps

section Territory

/-- What code may get hold of that was given `roots` while the heap was `base`: what it can reach
from them, and all that is made from then on. -/
def Territory (base : Array Callable) (roots : List Value) (i : Nat) : Prop :=
  Reachable base roots i ∨ base.size ≤ i

variable {base : Array Callable} {roots : List Value}

theorem territory_closed : Closed (Territory base roots) base := by
  intro i c hi hc v hv f hf
  rcases hi with hi | hi
  · exact .inl (.slot hi hc hv hf)
  · rw [Array.getElem?_eq_none hi] at hc
    cases hc

theorem territory_roots : ∀ v ∈ roots, v.Within (Territory base roots) :=
  fun _ hv _ hf => .inl (.root hv hf)

/-- A world that changes within the territory have led to. -/
structure World.StaysIn (base : Array Callable) (roots : List Value) (w : World) : Prop where
  sound : (CodePolicy.constantsWithin (Territory base roots)).Sound w
  changes : ∃ changes, w.heap = Change.applyAll base changes ∧
    ∀ ch ∈ changes, ch.Within (Territory base roots)

namespace World.StaysIn

variable {w : World} (h : w.StaysIn base roots)
include h

theorem closed : Closed (Territory base roots) w.heap := by
  obtain ⟨changes, hheap, hwithin⟩ := h.changes
  rw [hheap]
  exact Change.applyAll_closed hwithin territory_closed

/-- One more change within the territory. -/
theorem change (ch : Change) (hch : ch.Within (Territory base roots)) {v : World}
    (hv : (CodePolicy.constantsWithin (Territory base roots)).Sound v)
    (hheap : v.heap = ch.apply w.heap) : v.StaysIn base roots := by
  obtain ⟨changes, hchanges, hwithin⟩ := h.changes
  refine ⟨hv, changes ++ [ch], ?_, ?_⟩
  · rw [hheap, hchanges, Change.applyAll_snoc]
  · simpa [or_imp, forall_and] using ⟨hwithin, hch⟩

end World.StaysIn

theorem Callable.mem_of_readGlobal {c : Callable} {slot : UInt16} {v : Value}
    (h : c.readGlobal slot = some v) : some v ∈ c.globals := by
  exact Array.mem_of_getElem? (Option.join_eq_some_iff.mp h)

def territory (base : Array Callable) (roots : List Value) : Discipline where
  inv := World.StaysIn base roots
  owns := Territory base roots
  admits _ := True
  same h hheap hs := ⟨⟨hheap ▸ h.sound.heap, hs ▸ h.sound.specializer⟩, hheap ▸ h.changes⟩
  readGlobal {w} h f hf slot v hv := by
    obtain ⟨c, hc, hread⟩ := Option.bind_eq_some_iff.mp hv
    exact h.closed _ c hf hc v (Callable.mem_of_readGlobal hread)
  writeGlobal {w} h f hf slot v hv :=
    h.change (.write f.index slot v) ⟨hf, hv⟩ (h.sound.writeGlobal f slot v) rfl
  allocClosure {fn} hfn f hf := by
    intro w hw
    obtain ⟨g, v, hg, hsound, -⟩ := hw.sound.allocClosure hfn f
    obtain ⟨log, heq⟩ := World.allocClosure_eq fn f w
    rw [hg] at heq ⊢
    obtain ⟨rfl, rfl⟩ := EStateM.Result.ok.inj heq
    have hsize : base.size ≤ w.heap.size := by
      obtain ⟨changes, hheap, -⟩ := hw.changes
      rw [hheap]
      exact Change.applyAll_keeps (P := fun heap => base.size ≤ heap.size)
        (fun heap h ch _ => h.trans (Change.size_le_apply ch)) (Nat.le_refl _)
    refine ⟨.inr hsize, hw.change (.make _) ?_ hsound rfl⟩
    rfl
  callable {w} h f c hc := by
    obtain ⟨-, hconstants⟩ := h.sound.of_callable hc
    cases hcode : c.code with
    | interpreted => exact fun _ _ => trivial
    | specialized unit => exact ⟨fun _ _ => trivial, hconstants unit hcode⟩

def Arguments.values (args : Arguments) : List Value :=
  args.positional ++ args.keywords.map Prod.snd

def returned : EStateM.Result Stop World Value → List Value
  | .ok v _ => [v]
  | .error _ _ => []

/-- The function value at place `i` could be reached from `roots`, or has been made since. -/
def Known (base : Array Callable) (roots : List Value) (changes : List Change) (i : Nat) : Prop :=
  Reachable base roots i ∨ Change.Makes base changes i

/-- Within a territory only known function values can be reached. -/
theorem known_of_reachable {changes : List Change}
    (hwithin : ∀ ch ∈ changes, ch.Within (Territory base roots)) {values : List Value}
    (hv : ∀ v ∈ values, v.Within (Territory base roots)) {i : Nat} {c : Callable}
    (hi : Reachable (Change.applyAll base changes) values i)
    (hc : (Change.applyAll base changes)[i]? = some c) : Known base roots changes i := by
  have hclosed : Closed (Territory base roots) (Change.applyAll base changes) :=
    Change.applyAll_closed hwithin territory_closed
  rcases hclosed.of_reachable hv hi with hreach | hle
  · exact .inl hreach
  · exact .inr (Change.makes_of_lt hwithin hle (Array.getElem?_eq_some_iff.mp hc).1)

/-- What changes to the heap `base` may do, and which values a call may return, if it was given
`roots`. Function values out of reach stay as they are. Whatever can be reached from what the call
returns was in reach before or made in its course. The same holds, at any time after a global slot
was written, of what can be reached from the written value or from the function value with the
slot. -/
structure Private (base : Array Callable) (roots : List Value) (changes : List Change)
    (results : List Value) : Prop where
  untouched : ∀ i c, base[i]? = some c → ¬Reachable base roots i →
    (Change.applyAll base changes)[i]? = some c
  returned : ∀ i c, Reachable (Change.applyAll base changes) results i →
    (Change.applyAll base changes)[i]? = some c → Known base roots changes i
  written : ∀ past, past <+: changes → ∀ j slot v, .write j slot v ∈ past → ∀ name i c,
    Reachable (Change.applyAll base past) [v, .function ⟨j, name⟩] i →
      (Change.applyAll base past)[i]? = some c → Known base roots past i

theorem private_of_within {changes : List Change}
    (hwithin : ∀ ch ∈ changes, ch.Within (Territory base roots)) {results : List Value}
    (hresults : ∀ v ∈ results, v.Within (Territory base roots)) :
    Private base roots changes results where
  untouched := by
    intro i c hc hi
    have hout : ¬Territory base roots i := by
      have hlt := (Array.getElem?_eq_some_iff.mp hc).1
      exact not_or.mpr ⟨hi, by omega⟩
    exact Change.applyAll_keeps (P := fun heap => heap[i]? = some c)
      (fun heap h ch hch => Change.apply_untouched (hwithin ch hch) hout h) hc
  returned := by
    intro i c hi hc
    exact known_of_reachable hwithin hresults hi hc
  written := by
    intro past hpast j slot v hmem name i c hi hc
    have hbefore : ∀ ch ∈ past, ch.Within (Territory base roots) :=
      fun ch hch => hwithin ch (hpast.subset hch)
    obtain ⟨hj, hv⟩ := hbefore _ hmem
    refine known_of_reachable hbefore ?_ hi hc
    simpa [Value.within_function] using ⟨hv, hj⟩

end Territory

/-- Global slots are private to what a call can reach, whatever value is called with whatever
arguments in either engine, and whatever the outcome, with builtins that keep to what they are
given. Two closures made of one definition share no global slots, however much later the second is
made: they start with empty ones, and what is written to the one is not seen in the other. -/
theorem globals_private (settings : ExecSettings) (fuel : Nat) (callee : Value) (args : Arguments)
    {host : Host} {w : World}
    (hw : (CodePolicy.constantsWithin (Territory w.heap (callee :: args.values))).Sound w)
    (hhost : host.Keeps (territory w.heap (callee :: args.values))) :
    (∃ changes,
      (w.settle (applyValue settings host fuel callee args)).heap =
        Change.applyAll w.heap changes ∧
      Private w.heap (callee :: args.values) changes
        (returned (applyValue settings host fuel callee args w))) ∧
    ∀ (fn : FunctionDef) (f g a b : FunctionRef) (u v u' v' : World),
      World.allocClosure fn f u = .ok a u' → World.allocClosure fn g v = .ok b v' →
      u'.heap.size ≤ v.heap.size →
      (u'.callable? a).map Callable.globals = some #[] ∧
        (v'.callable? b).map Callable.globals = some #[] ∧ Apart a b := by
  constructor
  · have hroots : ∀ v ∈ callee :: args.values,
        v.Within (Territory w.heap (callee :: args.values)) := territory_roots
    have hargs : args.Within (Territory w.heap (callee :: args.values)) := by
      refine ⟨fun v hv => hroots v ?_, fun a ha => hroots a.2 ?_⟩
      · exact List.mem_cons_of_mem _ (List.mem_append_left _ hv)
      · exact List.mem_cons_of_mem _ (List.mem_append_right _ (List.mem_map_of_mem ha))
    have hstart : w.StaysIn w.heap (callee :: args.values) := ⟨hw, [], rfl, by simp⟩
    have hend := (territory w.heap (callee :: args.values)).applyValue hhost settings fuel callee
      args (hroots callee List.mem_cons_self) hargs w hstart
    unfold World.settle
    generalize applyValue settings host fuel callee args w = r at hend ⊢
    cases r with
    | ok v after =>
      obtain ⟨hv, -, changes, hheap, hwithin⟩ := hend
      exact ⟨changes, hheap, private_of_within hwithin (List.forall_mem_singleton.mpr hv)⟩
    | error e after =>
      obtain ⟨-, changes, hheap, hwithin⟩ := hend
      exact ⟨changes, hheap, private_of_within hwithin (List.forall_mem_nil _)⟩
  · intro fn f g a b u v u' v' ha hb hle
    obtain ⟨log, hu⟩ := World.allocClosure_eq fn f u
    obtain ⟨log', hv⟩ := World.allocClosure_eq fn g v
    obtain ⟨rfl, rfl⟩ := EStateM.Result.ok.inj (ha.symm.trans hu)
    obtain ⟨rfl, rfl⟩ := EStateM.Result.ok.inj (hb.symm.trans hv)
    simp only [Array.size_push] at hle
    refine ⟨by simp [World.callable?], by simp [World.callable?], apart_of_index_ne ?_⟩
    simp only
    omega

/-- Keeps a function that it defines in a global slot, and returns it. -/
def Demo.keepOne : FunctionDef :=
  .make 7 "keep_one" [] none
    [.define (.globalVar "one" 0) one, .ret (some (.ident (.globalVar "one" 0)))]

/-- Two function values of one definition, one of them with the code that `s` compiles it to. The
other one has a list with a function value in its global slot. -/
def Demo.keepers (s : Specializer) : World where
  heap := #[
    { fn := keepOne
      qualifiedName := "keep_one"
      code := .ofResult (s.compile keepOne).result },
    { fn := keepOne
      qualifiedName := "keep_one"
      code := .interpreted
      globals := #[some (.list [.function ⟨2, "one"⟩])] },
    { fn := one, qualifiedName := "one", code := .interpreted }]
  specializer := some s

theorem keepers_private :
    (Demo.keepers (.ofSettings {})).heap.toList.map (·.code.isSpecialized) = [true, false, false] ∧
    ¬Reachable (Demo.keepers (.ofSettings {})).heap
      [.builtin (.host "apply"), .function ⟨1, "keep_one"⟩] 0 ∧
    ((Demo.keepers (.ofSettings {})).settle (applyValue {} Demo.callingHost 5
      (.builtin (.host "apply")) { positional := [.function ⟨1, "keep_one"⟩] })).heap.toList.map
        (fun c => (c.fn.name, c.globals.size)) =
      [("keep_one", 0), ("keep_one", 1), ("one", 0), ("one", 0)] ∧
    ((Demo.keepers (.ofSettings {})).settle (applyValue {} Demo.callingHost 5
      (.builtin (.host "apply")) { positional := [.function ⟨1, "keep_one"⟩] })).heap[0]? =
        (Demo.keepers (.ofSettings {})).heap[0]? := by
  have hsound : CodePolicy.lowered.Sound (Demo.keepers (.ofSettings {})) := by
    constructor
    · simp only [Demo.keepers, List.mem_toArray, List.forall_mem_cons]
      exact ⟨⟨trivial, _, Specializer.compile_serves _ _⟩, ⟨trivial, Demo.one, trivial⟩,
        ⟨trivial, Demo.one, trivial⟩, List.forall_mem_nil _⟩
    · rintro s ⟨⟩ entry ⟨⟩
  have hfar : ¬Reachable (Demo.keepers (.ofSettings {})).heap
      [.builtin (.host "apply"), .function ⟨1, "keep_one"⟩] 0 := by
    have hclosed : Closed (0 < ·) (Demo.keepers (.ofSettings {})).heap := by
      intro i c hi hc v hv
      rcases i with _ | _ | _ | i
      · exact absurd hi (Nat.lt_irrefl 0)
      · obtain rfl := Option.some.inj hc
        have hlist : v = .list [.function ⟨2, "one"⟩] := by simpa [Demo.keepers] using hv
        rw [hlist]
        simp [Value.Within, Value.refs, Value.itemRefs]
      · obtain rfl := Option.some.inj hc
        exact absurd hv (Array.not_mem_empty _)
      · cases hc
    intro h
    exact Nat.lt_irrefl 0 (hclosed.of_reachable (by simp [Value.Within, Value.refs]) h)
  obtain ⟨⟨changes, hheap, hprivate⟩, -⟩ := globals_private {} 5 (.builtin (.host "apply"))
    { positional := [.function ⟨1, "keep_one"⟩] } (hsound.constantsWithin _)
    (Demo.callingHost_keeps _)
  refine ⟨by decide +kernel, hfar, by decide +kernel, ?_⟩
  rw [hheap]
  exact hprivate.untouched 0 _ rfl hfar

end Tiered
