import Tiered.Demo
import Tiered.Proofs.Emission
import Tiered.Proofs.Verifier

/-! Lowered units pass verification, except where a local slot is out of range. Depths are assigned
to all of the code by reading it once from front to back, code that is never reached included. -/
namespace Tiered

/-- Depths right behind an instruction. Behind the jump back of a loop the loop is over. -/
def Instr.depthBehind (i : Instr) (d : Depth) : Depth :=
  match i with
  | .jump _ => ⟨d.values, d.loops - 1⟩
  | i => i.depthAfter d

def depthBehind (d : Depth) (is : List Instr) : Depth :=
  is.foldl (fun d i => i.depthBehind d) d

@[simp] theorem depthBehind_nil (d : Depth) : depthBehind d [] = d := rfl

@[simp] theorem depthBehind_cons (d : Depth) (i : Instr) (is : List Instr) :
    depthBehind d (i :: is) = depthBehind (i.depthBehind d) is := rfl

@[simp] theorem depthBehind_append (d : Depth) (is js : List Instr) :
    depthBehind d (is ++ js) = depthBehind (depthBehind d is) js :=
  List.foldl_append

/-- Instruction number `k` of `is`, which is entered at depth `d`: the depths there suffice for it,
and its jump leads to one of the first `n` instructions or right behind them, with the depths that
belong there. -/
structure FitsAt (d : Depth) (is : List Instr) (n k : Nat) (i : Instr) : Prop where
  supplied : (depthBehind d (is.take k)).Suffices i
  lands {distance : Int16} (h : i.distance? = some distance) : ∃ j ≤ n,
    (codeSize (is.take (k + 1)) : Int) + distance.toInt = codeSize (is.take j) ∧
      depthBehind d (is.take j) = i.depthJumped (depthBehind d (is.take k))

namespace FitsAt

variable {d : Depth} {is js : List Instr} {n k : Nat} {i : Instr}

theorem append_right (h : FitsAt d is n k i) (hn : n ≤ is.length) (hk : k < is.length)
    (js : List Instr) : FitsAt d (is ++ js) n k i where
  supplied := by
    rw [List.take_append_of_le_length (Nat.le_of_lt hk)]
    exact h.supplied
  lands hd := by
    obtain ⟨j, hj, hlands, hdepth⟩ := h.lands hd
    refine ⟨j, hj, ?_⟩
    rw [List.take_append_of_le_length hk, List.take_append_of_le_length (Nat.le_trans hj hn),
      List.take_append_of_le_length (Nat.le_of_lt hk)]
    exact ⟨hlands, hdepth⟩

theorem append_left (pre : List Instr) (h : FitsAt (depthBehind d pre) is n k i) :
    FitsAt d (pre ++ is) (pre.length + n) (pre.length + k) i where
  supplied := by
    rw [List.take_length_add_append, depthBehind_append]
    exact h.supplied
  lands hd := by
    obtain ⟨j, hj, hlands, hdepth⟩ := h.lands hd
    refine ⟨pre.length + j, by omega, ?_⟩
    rw [Nat.add_assoc, List.take_length_add_append, List.take_length_add_append,
      List.take_length_add_append, codeSize_append, codeSize_append, depthBehind_append,
      depthBehind_append]
    exact ⟨by push_cast; omega, hdepth⟩

theorem mono (h : FitsAt d is n k i) {m : Nat} (hm : n ≤ m) : FitsAt d is m k i where
  supplied := h.supplied
  lands hd := by
    obtain ⟨j, hj, hrest⟩ := h.lands hd
    exact ⟨j, Nat.le_trans hj hm, hrest⟩

end FitsAt

/-- Code that, entered at depth `d`, never runs short of values and does not jump out of itself. -/
def SelfContained (d : Depth) (is : List Instr) : Prop :=
  ∀ k i, is[k]? = some i → FitsAt d is is.length k i

theorem SelfContained.nil (d : Depth) : SelfContained d [] := by
  rintro k i ⟨⟩

theorem SelfContained.append {d : Depth} {is js : List Instr} (h : SelfContained d is)
    (h' : SelfContained (depthBehind d is) js) : SelfContained d (is ++ js) := by
  intro k i hi
  rw [List.length_append]
  by_cases hk : k < is.length
  · rw [List.getElem?_append_left hk] at hi
    exact ((h k i hi).append_right (Nat.le_refl _) hk js).mono (by omega)
  · rw [List.getElem?_append_right (by omega)] at hi
    have := (h' _ i hi).append_left is
    rwa [Nat.add_sub_cancel' (by omega)] at this

theorem SelfContained.single {d : Depth} {i : Instr} (hd : i.distance? = none)
    (hs : d.Suffices i) : SelfContained d [i] := by
  intro k j hj
  obtain ⟨rfl, rfl⟩ : k = 0 ∧ i = j := by
    cases k with
    | zero => exact ⟨rfl, Option.some.inj hj⟩
    | succ k => cases hj
  exact ⟨hs, fun h => by rw [hd] at h; cases h⟩

/-- Code between two instructions that may jump anywhere in the whole. -/
theorem SelfContained.enclosed {d : Depth} {first last : Instr} {is : List Instr}
    (h : SelfContained (first.depthBehind d) is)
    (hfirst : FitsAt d (first :: (is ++ [last])) (is.length + 2) 0 first)
    (hlast : FitsAt d (first :: (is ++ [last])) (is.length + 2) (is.length + 1) last) :
    SelfContained d (first :: (is ++ [last])) := by
  intro k i hi
  have hlen : (first :: (is ++ [last])).length = is.length + 2 := by simp
  rw [hlen]
  cases k with
  | zero =>
    obtain rfl := Option.some.inj hi
    exact hfirst
  | succ k =>
    rw [List.getElem?_cons_succ] at hi
    by_cases hk : k < is.length
    · rw [List.getElem?_append_left hk] at hi
      have hinner := (h k i hi).append_right (Nat.le_refl _) hk [last]
      have hfits : FitsAt d ([first] ++ (is ++ [last])) (1 + is.length) (1 + k) i :=
        hinner.append_left [first]
      rw [Nat.add_comm 1 k] at hfits
      exact hfits.mono (by omega)
    · rw [List.getElem?_append_right (Nat.le_of_not_lt hk), List.getElem?_singleton] at hi
      split at hi
      · obtain rfl := Option.some.inj hi
        obtain rfl : k = is.length := by omega
        exact hlast
      · cases hi

/-- Code that takes no values from the stack and leaves `n` more on it, whatever it finds there. -/
def Pushing (n : Nat) (is : List Instr) : Prop :=
  ∀ d, SelfContained d is ∧ depthBehind d is = ⟨d.values + n, d.loops⟩

namespace Pushing

variable {m n : Nat} {is js : List Instr}

theorem nil : Pushing 0 [] :=
  fun d => ⟨.nil d, rfl⟩

theorem append (h : Pushing m is) (h' : Pushing n js) : Pushing (m + n) (is ++ js) := by
  intro d
  obtain ⟨hself, hd⟩ := h d
  obtain ⟨hself', hd'⟩ := h' (depthBehind d is)
  refine ⟨hself.append hself', ?_⟩
  rw [depthBehind_append, hd', hd, Nat.add_assoc]

/-- One more instruction, which finds its values among those just pushed. -/
theorem snoc (h : Pushing n is) {i : Instr} (hj : i.distance? = none) (hi : i ≠ .getIter)
    (hpops : i.effect.pops ≤ n) : Pushing (n - i.effect.pops + i.effect.pushes) (is ++ [i]) := by
  intro d
  obtain ⟨hself, hd⟩ := h d
  have hsupplied : (depthBehind d is).Suffices i := by
    rw [hd]
    refine ⟨by dsimp only; omega, fun hop => ?_⟩
    cases i <;> cases hop
    cases hj
  refine ⟨hself.append (.single hj hsupplied), ?_⟩
  have hbehind : i.depthBehind ⟨d.values + n, d.loops⟩ = i.depthAfter ⟨d.values + n, d.loops⟩ := by
    cases i <;> first | rfl | cases hj
  rw [depthBehind_append, depthBehind_cons, depthBehind_nil, hd, hbehind, Instr.depthAfter,
    if_neg hi]
  congr 1
  dsimp only
  omega

end Pushing

section Loop

variable {target : Ident} {store : Instr} {is js : List Instr} {exit back : Int16}

/-- A store pops one value, and does nothing else to the stacks or to control. -/
theorem Ident.effect_of_storeInstr? (h : target.storeInstr? = some store) :
    store.effect = ⟨1, 0⟩ ∧ store.distance? = none ∧ store ≠ .getIter ∧
      ∀ values loops, store.depthBehind ⟨values + 1, loops⟩ = ⟨values, loops⟩ := by
  cases target with
  | localVar name slot =>
    obtain rfl := Option.some.inj h
    exact ⟨rfl, rfl, nofun, fun _ _ => rfl⟩
  | globalVar name slot =>
    obtain rfl := Option.some.inj h
    exact ⟨rfl, rfl, nofun, fun _ _ => rfl⟩
  | universal name => cases h

/-- A loop from its head on. The way out leads right behind it, the jump back to its head. -/
theorem SelfContained.loop (hb : Pushing 0 js) (hs : target.storeInstr? = some store)
    (hexit : exit.toInt = store.size + codeSize js + 3)
    (hback : back.toInt = -(3 + store.size + codeSize js + 3 : Int)) (values loops : Nat) :
    SelfContained ⟨values, loops + 1⟩ (.forIter exit :: store :: (js ++ [.jump back])) ∧
      depthBehind ⟨values, loops + 1⟩ (.forIter exit :: store :: (js ++ [.jump back])) =
        ⟨values, loops⟩ := by
  have hhead : (Instr.forIter exit).depthBehind ⟨values, loops + 1⟩ = ⟨values + 1, loops + 1⟩ := rfl
  obtain ⟨he, hj, -, hbehindStore⟩ := Ident.effect_of_storeInstr? hs
  have hstore := hbehindStore values (loops + 1)
  obtain ⟨hself, hbody⟩ := hb ⟨values, loops + 1⟩
  have hbehind : depthBehind ⟨values, loops + 1⟩
      (.forIter exit :: store :: (js ++ [.jump back])) = ⟨values, loops⟩ := by
    simp only [depthBehind_cons, depthBehind_append, depthBehind_nil, hhead, hstore, hbody]
    rfl
  have hsize : codeSize (.forIter exit :: store :: (js ++ [.jump back])) =
      3 + store.size + codeSize js + 3 := by
    simp only [codeSize_cons, codeSize_append, codeSize_nil]
    change 3 + (store.size + (codeSize js + (3 + 0))) = _
    omega
  have hstoreSelf : SelfContained ⟨values + 1, loops + 1⟩ [store] := by
    refine .single hj ⟨?_, fun hop => ?_⟩
    · rw [he]
      exact Nat.succ_pos _
    · cases store <;> cases hop
      cases hj
  have hinner : SelfContained ⟨values + 1, loops + 1⟩ (store :: js) := by
    refine hstoreSelf.append ?_
    rw [depthBehind_cons, depthBehind_nil, hstore]
    exact hself
  have hinnerBehind : depthBehind ⟨values + 1, loops + 1⟩ (store :: js) = ⟨values, loops + 1⟩ := by
    rw [depthBehind_cons, hstore, hbody]
    rfl
  have hwhole : (Instr.forIter exit :: (store :: js ++ [.jump back])).take
      ((store :: js).length + 2) = .forIter exit :: store :: (js ++ [.jump back]) :=
    List.take_of_length_le (by simp)
  rw [← hhead] at hinner
  refine ⟨hinner.enclosed ⟨⟨Nat.zero_le _, fun _ => Nat.succ_pos _⟩, ?_⟩
    ⟨⟨Nat.zero_le _, fun hop => by cases hop⟩, ?_⟩, hbehind⟩
  · -- The way out of the loop.
    intro distance hd
    obtain rfl := Option.some.inj hd
    refine ⟨_, Nat.le_refl _, ?_, ?_⟩
    · rw [hwhole, hsize, hexit]
      change ((3 + 0 : Nat) : Int) + _ = _
      push_cast
      omega
    · rw [hwhole, hbehind]
      rfl
  · -- The jump back to its head.
    intro distance hd
    obtain rfl := Option.some.inj hd
    refine ⟨0, Nat.zero_le _, ?_, ?_⟩
    · rw [hwhole, hsize, hback]
      simp only [List.take_zero, codeSize_nil]
      push_cast
      omega
    · rw [List.take_succ_cons, List.take_left, depthBehind_cons, hhead, hinnerBehind]
      rfl

theorem Pushing.loop (hc : Pushing 1 is) (hb : Pushing 0 js) (hs : target.storeInstr? = some store)
    (hexit : exit.toInt = store.size + codeSize js + 3)
    (hback : back.toInt = -(3 + store.size + codeSize js + 3 : Int)) :
    Pushing 0 (is ++ (.getIter :: .forIter exit :: store :: (js ++ [.jump back]))) := by
  intro d
  obtain ⟨hself, hd⟩ := hc d
  obtain ⟨hloop, hout⟩ := SelfContained.loop hb hs hexit hback d.values d.loops
  have hget : Instr.getIter.depthBehind ⟨d.values + 1, d.loops⟩ = ⟨d.values, d.loops + 1⟩ := rfl
  have hiter : SelfContained ⟨d.values + 1, d.loops⟩ [.getIter] :=
    .single rfl ⟨Nat.succ_pos _, nofun⟩
  constructor
  · refine hself.append ?_
    rw [hd]
    exact hiter.append hloop
  · rw [depthBehind_append, hd, depthBehind_cons, hget, hout]
    rfl

end Loop

section Shape

variable {p : Lowered}

mutual

theorem ExprCode.pushing : ∀ {e : Expr} {is : List Instr}, ExprCode p e is → Pushing 1 is
  | _, _, .loadLocal | _, _, .loadGlobal | _, _, .loadUniversal _ | _, _, .small _ | _, _, .int _
  | _, _, .str _ => Pushing.nil.snoc rfl nofun (Nat.zero_le _)
  | _, _, .add hl hr => by
    rw [← List.append_assoc]
    exact (hl.pushing.append hr.pushing).snoc rfl nofun (Nat.le_refl _)
  | _, _, @ExprCode.call _ f args is js n hf ha hn => by
    have hargs := hf.pushing.append ha.pushing
    rw [← List.append_assoc]
    have hcall := hargs.snoc (i := .call n) rfl nofun (show n.toNat + 1 ≤ _ by omega)
    rwa [show 1 + args.length - (Instr.call n).effect.pops + (Instr.call n).effect.pushes = 1 by
      change 1 + args.length - (n.toNat + 1) + 1 = 1
      omega] at hcall

theorem ArgsCode.pushing : ∀ {args : List Arg} {is : List Instr}, ArgsCode p args is →
    Pushing args.length is
  | _, _, .nil => .nil
  | _, _, .cons he hr => by
    rw [List.length_cons, Nat.add_comm]
    exact he.pushing.append hr.pushing

end

mutual

theorem StmtCode.pushing : ∀ {s : Stmt} {is : List Instr}, StmtCode p s is → Pushing 0 is
  | _, _, .ret he => he.pushing.snoc rfl nofun (Nat.le_refl _)
  | _, _, .retNone =>
    (Pushing.nil.snoc (i := .pushNone) rfl nofun (Nat.zero_le _)).snoc rfl nofun (Nat.le_refl _)
  | _, _, .eval he => he.pushing.snoc rfl nofun (Nat.le_refl _)
  | _, _, @StmtCode.define _ _ _ index store _ _ hs => by
    obtain ⟨heffect, hj, hi, -⟩ := Ident.effect_of_storeInstr? hs
    have hmake := Pushing.nil.snoc (i := .makeFunction index) rfl nofun (Nat.zero_le _)
    have hstore := hmake.snoc hj hi (by rw [heffect]; exact Nat.le_refl _)
    rw [heffect] at hstore
    exact hstore
  | _, _, .forEach hc hs hb hexit hback => hc.pushing.loop hb.pushing hs hexit hback

theorem BlockCode.pushing : ∀ {body : List Stmt} {is : List Instr}, BlockCode p body is →
    Pushing 0 is
  | _, _, .nil => .nil
  | _, _, .cons hs hr => hs.pushing.append hr.pushing

end

end Shape

section Depths

variable {is : List Instr} {k : Nat} {i : Instr}

theorem codeSize_take_succ (h : is[k]? = some i) :
    codeSize (is.take (k + 1)) = codeSize (is.take k) + i.size := by
  rw [List.take_add_one, h, codeSize_append]
  rfl

theorem depthBehind_take_succ (h : is[k]? = some i) (d : Depth) :
    depthBehind d (is.take (k + 1)) = i.depthBehind (depthBehind d (is.take k)) := by
  rw [List.take_add_one, h, depthBehind_append]
  rfl

theorem Instr.depthBehind_of_not_endsFlow (h : i.opcode.endsFlow = false) (d : Depth) :
    i.depthBehind d = i.depthAfter d := by
  cases i <;> first | rfl | cases h

/-- The depths of all instructions, read off from front to back. -/
def lexicalDepths (is : List Instr) (k : Nat) : Option Depth :=
  if k < is.length then some (depthBehind ⟨0, 0⟩ (is.take k)) else none

theorem Pushing.fitsAt (h : Pushing 0 is) (hi : (is ++ [.pushNone, .ret])[k]? = some i) :
    FitsAt ⟨0, 0⟩ (is ++ [.pushNone, .ret]) is.length k i ∧ (i = .ret ∨ k ≤ is.length) := by
  obtain ⟨hself, hd⟩ := h ⟨0, 0⟩
  by_cases hk : k < is.length
  · rw [List.getElem?_append_left hk] at hi
    exact ⟨(hself k i hi).append_right (Nat.le_refl _) hk _, .inr (Nat.le_of_lt hk)⟩
  · obtain ⟨n, rfl⟩ : ∃ n, k = is.length + n := ⟨k - is.length, by omega⟩
    rw [List.getElem?_append_right (Nat.le_add_right _ _), Nat.add_sub_cancel_left] at hi
    have htake : (is ++ [Instr.pushNone, .ret]).take (is.length + n) =
        is ++ [Instr.pushNone, .ret].take n := List.take_length_add_append n
    match n, hi with
    | 0, hi =>
      obtain rfl := Option.some.inj hi
      exact ⟨⟨⟨Nat.zero_le _, nofun⟩, nofun⟩, .inr (Nat.le_refl _)⟩
    | 1, hi =>
      obtain rfl := Option.some.inj hi
      refine ⟨⟨⟨?_, nofun⟩, nofun⟩, .inl rfl⟩
      rw [htake, depthBehind_append, hd]
      exact Nat.le_refl _

/-- Where the jump of an instruction leads, there is an instruction with the right depths. -/
theorem FitsAt.landing {n : Nat} (h : FitsAt ⟨0, 0⟩ is n k i) (hn : n < is.length)
    (hi : is[k]? = some i) {t : Int} (ht : Located.target? ⟨0 + codeSize (is.take k), i⟩ = some t) :
    ∃ j, startAt (startsOf is) t = some j ∧
      lexicalDepths is j = some (i.depthJumped (depthBehind ⟨0, 0⟩ (is.take k))) := by
  obtain ⟨distance, hd, rfl⟩ := Option.map_eq_some_iff.mp ht
  obtain ⟨j, hj, hlands, hdepth⟩ := h.lands hd
  have hlt : j < is.length := Nat.lt_of_le_of_lt hj hn
  refine ⟨j, startAt_boundaries.mpr ⟨hlt, ?_⟩, ?_⟩
  · rw [← hlands, codeSize_take_succ hi, Located.next, Nat.zero_add]
  · rw [lexicalDepths, if_pos hlt, hdepth]

theorem Pushing.consistent (h : Pushing 0 is) :
    Consistent (locate 0 (is ++ [.pushNone, .ret])).toArray (startsOf (is ++ [.pushNone, .ret]))
      (lexicalDepths (is ++ [.pushNone, .ret])) where
  entry := by
    rw [lexicalDepths, if_pos (by simp)]
    rfl
  flow {k d} hd := by
    unfold lexicalDepths at hd
    split at hd
    · rename_i hk
      obtain rfl := Option.some.inj hd
      obtain ⟨i, hi⟩ : ∃ i, (is ++ [.pushNone, .ret])[k]? = some i :=
        ⟨_, List.getElem?_eq_getElem hk⟩
      obtain ⟨hfits, hlast⟩ := h.fitsAt hi
      refine ⟨⟨0 + codeSize ((is ++ [Instr.pushNone, .ret]).take k), i⟩, _, ?_,
        Located.depthAfter_eq_ok_iff.mpr ⟨hfits.supplied, rfl⟩, fun way hway => ?_⟩
      · rw [List.getElem?_toArray, getElem?_locate, hi, Option.map_some]
      · rcases Located.mem_successors_iff.mp hway with ⟨hflow, rfl⟩ | ⟨t, ht, rfl⟩
        · have hnext : k + 1 < (is ++ [Instr.pushNone, .ret]).length := by
            rcases hlast with rfl | hle
            · cases hflow
            · simp
              omega
          refine ⟨k + 1, startAt_boundaries.mpr ⟨hnext, ?_⟩, ?_⟩
          · rw [codeSize_take_succ hi, Located.next, Nat.zero_add]
          · rw [lexicalDepths, if_pos hnext, depthBehind_take_succ hi,
              Instr.depthBehind_of_not_endsFlow hflow]
        · exact hfits.landing (by simp) hi ht
    · cases hd

theorem Pushing.typed {p : Lowered} (h : Pushing 0 is)
    (hh : p.unit.Holds 0 (is ++ [.pushNone, .ret]))
    (hs : codeSize (is ++ [.pushNone, .ret]) = p.unit.size) :
    p.Typed (is ++ [.pushNone, .ret]) (lexicalDepths (is ++ [.pushNone, .ret])) where
  holds := hh
  size := hs
  targets l hl t ht := by
    obtain ⟨k, hk⟩ := List.getElem?_of_mem hl
    rw [getElem?_locate] at hk
    obtain ⟨i, hi, rfl⟩ := Option.map_eq_some_iff.mp hk
    obtain ⟨j, hj, -⟩ := (h.fitsAt hi).1.landing (by simp) hi ht
    rw [hj]
    rfl
  consistent := h.consistent

end Depths

def Instr.localSlot? : Instr → Option UInt16
  | .loadLocal slot | .storeLocal slot => some slot
  | _ => none

def Ident.localSlot? : Ident → Option UInt16
  | .localVar _ slot => some slot
  | _ => none

/-- The local slots in the code are those of the identifiers `xs`, and all its other operands
resolve. -/
structure OperandsOf (p : Lowered) (xs : List Ident) (is : List Instr) : Prop where
  resolves : ∀ i ∈ is, i.localSlot? = none → p.Resolves i
  slots : is.filterMap Instr.localSlot? = xs.filterMap Ident.localSlot?

namespace OperandsOf

variable {p : Lowered}

theorem nil : OperandsOf p [] [] :=
  ⟨nofun, rfl⟩

theorem append {xs ys : List Ident} {is js : List Instr} (h : OperandsOf p xs is)
    (h' : OperandsOf p ys js) : OperandsOf p (xs ++ ys) (is ++ js) where
  resolves i hi := (List.mem_append.mp hi).elim (h.resolves i) (h'.resolves i)
  slots := by rw [List.filterMap_append, List.filterMap_append, h.slots, h'.slots]

theorem single {i : Instr} (hi : i.localSlot? = none) (hr : p.Resolves i) :
    OperandsOf p [] [i] where
  resolves j hj _ := List.mem_singleton.mp hj ▸ hr
  slots := by rw [List.filterMap_cons_none hi]; rfl

theorem slot {i : Instr} {slot : UInt16} (hi : i.localSlot? = some slot) (name : String) :
    OperandsOf p [.localVar name slot] [i] where
  resolves j hj hn := by
    rw [List.mem_singleton.mp hj, hi] at hn
    cases hn
  slots := by rw [List.filterMap_cons_some hi]; rfl

theorem other {x : Ident} {i : Instr} (hx : x.localSlot? = none) (hi : i.localSlot? = none)
    (hr : p.Resolves i) : OperandsOf p [x] [i] where
  resolves j hj _ := List.mem_singleton.mp hj ▸ hr
  slots := by rw [List.filterMap_cons_none hi, List.filterMap_cons_none hx]; rfl

/-- One more instruction, which has nothing to do with local slots. -/
theorem snoc {xs : List Ident} {is : List Instr} (h : OperandsOf p xs is) {i : Instr}
    (hi : i.localSlot? = none) (hr : p.Resolves i) : OperandsOf p xs (is ++ [i]) := by
  have := h.append (.single hi hr)
  rwa [List.append_nil] at this

theorem store {target : Ident} {i : Instr} (h : target.storeInstr? = some i) :
    OperandsOf p [target] [i] := by
  cases target with
  | localVar name slot =>
    obtain rfl := Option.some.inj h
    exact .slot rfl name
  | globalVar name slot =>
    obtain rfl := Option.some.inj h
    exact .other rfl rfl trivial
  | universal name => cases h

end OperandsOf

section Operands

variable {p : Lowered}

mutual

theorem ExprCode.operands : ∀ {e : Expr} {is : List Instr}, ExprCode p e is →
    OperandsOf p e.idents is
  | _, _, .loadLocal => by
    rw [Expr.idents]
    exact .slot rfl _
  | _, _, .loadGlobal => by
    rw [Expr.idents]
    exact .other rfl rfl trivial
  | _, _, .loadUniversal hi => by
    rw [Expr.idents]
    exact .other rfl rfl (Array.getElem?_eq_some_iff.mp hi).1
  | _, _, .small _ => by
    rw [Expr.idents]
    exact .single rfl trivial
  | _, _, .int hi => by
    rw [Expr.idents]
    exact .single rfl (Array.getElem?_eq_some_iff.mp hi).1
  | _, _, .str hi => by
    rw [Expr.idents]
    exact .single rfl (Array.getElem?_eq_some_iff.mp hi).1
  | _, _, .add hl hr => by
    rw [Expr.idents, ← List.append_assoc]
    exact (hl.operands.append hr.operands).snoc rfl trivial
  | _, _, .call hf ha _ => by
    rw [Expr.idents, ← List.append_assoc]
    exact (hf.operands.append ha.operands).snoc rfl trivial

theorem ArgsCode.operands : ∀ {args : List Arg} {is : List Instr}, ArgsCode p args is →
    OperandsOf p (argIdents args) is
  | _, _, .nil => by
    rw [argIdents]
    exact .nil
  | _, _, .cons he hr => by
    rw [argIdents]
    exact he.operands.append hr.operands

end

mutual

theorem StmtCode.operands : ∀ {s : Stmt} {is : List Instr}, StmtCode p s is →
    OperandsOf p s.idents is
  | _, _, .ret he => by
    rw [Stmt.idents]
    exact he.operands.snoc rfl trivial
  | _, _, .retNone => by
    rw [Stmt.idents]
    exact (OperandsOf.single (i := .pushNone) rfl trivial).snoc rfl trivial
  | _, _, .eval he => by
    rw [Stmt.idents]
    exact he.operands.snoc rfl trivial
  | _, _, @StmtCode.define _ target fn index store hi hf hs => by
    rw [Stmt.idents]
    have hmake : p.Resolves (.makeFunction index) := by
      rw [Lowered.Resolves, hi, Option.bind_some]
      exact hf
    exact (OperandsOf.single rfl hmake).append (.store hs)
  | _, _, @StmtCode.forEach _ target collection body is js store exit back hc hs hb _ _ => by
    rw [Stmt.idents, Expr.idents]
    have hhead : OperandsOf p [] [.getIter, .forIter exit] :=
      (OperandsOf.single (i := .getIter) rfl trivial).snoc rfl trivial
    have hloop := hhead.append ((OperandsOf.store hs).append (hb.operands.snoc
      (i := .jump back) rfl trivial))
    exact hc.operands.append hloop

theorem BlockCode.operands : ∀ {body : List Stmt} {is : List Instr}, BlockCode p body is →
    OperandsOf p (blockIdents body) is
  | _, _, .nil => by
    rw [blockIdents]
    exact .nil
  | _, _, .cons hs hr => by
    rw [blockIdents]
    exact hs.operands.append hr.operands

end

theorem Lowered.resolves_iff_of_localSlot? {i : Instr} {slot : UInt16}
    (h : i.localSlot? = some slot) : p.Resolves i ↔ slot < p.unit.localCount := by
  cases i <;> cases h <;> exact UInt16.lt_iff_toNat_lt.symm

theorem Lowered.flaw_of_localSlot? {i : Instr} {slot : UInt16} (h : i.localSlot? = some slot)
    {flaw : Flaw} (he : p.operandOk i = .error flaw) :
    flaw = .operandRange i.opcode slot.toNat p.unit.localCount.toNat .locals := by
  cases i <;> cases h <;> simp only [operandOk] at he <;> split at he <;> cases he <;> rfl

theorem OperandsOf.exists_ident {xs : List Ident} {is : List Instr} (h : OperandsOf p xs is)
    {i : Instr} (hi : i ∈ is) {slot : UInt16} (hs : i.localSlot? = some slot) :
    ∃ name, .localVar name slot ∈ xs := by
  have hslot : slot ∈ xs.filterMap Ident.localSlot? := by
    rw [← h.slots]
    exact List.mem_filterMap.mpr ⟨i, hi, hs⟩
  obtain ⟨x, hx, hxs⟩ := List.mem_filterMap.mp hslot
  cases x with
  | localVar name slot' =>
    obtain rfl := Option.some.inj hxs
    exact ⟨name, hx⟩
  | globalVar _ _ => cases hxs
  | universal _ => cases hxs

theorem OperandsOf.resolves_iff {xs : List Ident} {is : List Instr} (h : OperandsOf p xs is) :
    (∀ i ∈ is, p.Resolves i) ↔
      ∀ name slot, .localVar name slot ∈ xs → slot < p.unit.localCount := by
  constructor
  · intro hall name slot hx
    have hslot : slot ∈ is.filterMap Instr.localSlot? := by
      rw [h.slots]
      exact List.mem_filterMap.mpr ⟨_, hx, rfl⟩
    obtain ⟨i, hi, hs⟩ := List.mem_filterMap.mp hslot
    exact (Lowered.resolves_iff_of_localSlot? hs).mp (hall i hi)
  · intro hall i hi
    cases hs : i.localSlot? with
    | none => exact h.resolves i hi hs
    | some slot =>
      obtain ⟨name, hx⟩ := h.exists_ident hi hs
      exact (Lowered.resolves_iff_of_localSlot? hs).mpr (hall name slot hx)

end Operands

/-- A unit whose function has its local slots in range is typed and resolves, whatever its name. -/
theorem Renders.typed_resolves {p : Lowered} {fn : FunctionDef} {is : List Instr}
    (h : Renders p fn is) (hslots : ∀ name slot, .localVar name slot ∈ fn.idents →
      slot < fn.localCount) :
    p.Typed (is ++ [.pushNone, .ret]) (lexicalDepths (is ++ [.pushNone, .ret])) ∧
      ∀ i ∈ is ++ [.pushNone, .ret], p.Resolves i := by
  constructor
  · apply h.block.pushing.typed h.holds
    rw [← length_encodeAll, ← h.bytes, Array.length_toList]
    rfl
  · have hreturn : OperandsOf p [] [.pushNone, .ret] :=
      (OperandsOf.single (i := .pushNone) rfl trivial).snoc rfl trivial
    apply (h.block.operands.append hreturn).resolves_iff.mpr
    rw [List.append_nil, h.localCount]
    exact hslots

/-- The unit of a lowered function passes verification, under any name, exactly if the local slots
of its identifiers are in range. Nothing but a local slot out of range is ever found in it. -/
theorem lowered_verifies_iff {fn : FunctionDef} {p : Lowered} (hp : fn.lower = .ok p)
    (unitName : String) :
    ((∃ summary, p.verify unitName = .ok summary) ↔
      ∀ name slot, .localVar name slot ∈ fn.idents → slot < fn.localCount) ∧
    ∀ e, p.verify unitName = .error e → ∃ op name slot, .localVar name slot ∈ fn.idents ∧
      fn.localCount ≤ slot ∧
      e.flaw = .operandRange op slot.toNat fn.localCount.toNat .locals := by
  obtain ⟨is, hr⟩ := FunctionDef.lower_renders hp
  have hsize : codeSize (is ++ [.pushNone, .ret]) = p.unit.size := by
    rw [← length_encodeAll, ← hr.bytes, Array.length_toList]
    rfl
  have htyped := hr.block.pushing.typed hr.holds hsize
  have hoperands : OperandsOf p fn.idents (is ++ [.pushNone, .ret]) := by
    have hreturn : OperandsOf p [] [.pushNone, .ret] :=
      (OperandsOf.single (i := .pushNone) rfl trivial).snoc rfl trivial
    have := hr.block.operands.append hreturn
    rwa [List.append_nil] at this
  rcases htyped.check_cases with ⟨⟨summary, hc⟩, hall⟩ | ⟨l, hl, flaw, hop, hc⟩
  · have hv : p.verify unitName = .ok summary := Lowered.verify_eq_ok_iff.mpr hc
    have hrange := hr.localCount ▸ hoperands.resolves_iff.mp hall
    exact ⟨⟨fun _ => hrange, fun _ => ⟨summary, hv⟩⟩, fun e he => by rw [hv] at he; cases he⟩
  · have hv : p.verify unitName = .error ⟨unitName, l.offset, flaw⟩ := by
      rw [Lowered.verify, hc]
    have hmem : l.instr ∈ is ++ [.pushNone, .ret] :=
      map_instr_locate 0 (is ++ [.pushNone, .ret]) ▸ List.mem_map_of_mem hl
    have hfails : ¬ p.Resolves l.instr := fun h => by
      rw [Lowered.operandOk_eq_ok_iff.mpr h] at hop
      cases hop
    obtain ⟨slot, hslot⟩ : ∃ slot, l.instr.localSlot? = some slot :=
      Option.ne_none_iff_exists'.mp fun h => hfails (hoperands.resolves _ hmem h)
    obtain ⟨name, hname⟩ := hoperands.exists_ident hmem hslot
    have hout : ¬ slot < fn.localCount := fun h =>
      hfails ((Lowered.resolves_iff_of_localSlot? hslot).mpr (hr.localCount ▸ h))
    refine ⟨⟨fun ⟨summary, h⟩ => ?_, fun h => absurd (h name slot hname) hout⟩, fun e he => ?_⟩
    · rw [hv] at h
      cases h
    · obtain rfl := Except.error.inj (hv.symm.trans he)
      exact ⟨l.instr.opcode, name, slot, hname, UInt16.not_lt.mp hout,
        hr.localCount ▸ Lowered.flaw_of_localSlot? hslot hop⟩

theorem showAll_verifies : ∃ p summary, Demo.showAll.lower = .ok p ∧
    p.verify "show_all" = .ok summary := by
  have hok : Demo.showAll.lower.isOk := by decide +kernel
  have hslots : Demo.showAll.idents.all
      fun x => x.localSlot?.all (· < Demo.showAll.localCount) := by decide +kernel
  cases hp : Demo.showAll.lower with
  | error e => simp [hp, Except.isOk, Except.toBool] at hok
  | ok p =>
    obtain ⟨summary, hv⟩ := (lowered_verifies_iff hp "show_all").1.mpr
      fun name slot hx => of_decide_eq_true (List.all_eq_true.mp hslots _ hx)
    exact ⟨p, summary, rfl, hv⟩

end Tiered
