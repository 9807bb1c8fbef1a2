import Mathlib.Order.Bounds.Basic
import Tiered.Proofs.Paths

/-! Paths of control through pieces of code: where they stay, with which depths they come out at the
end, and how deep the stacks become on the way. -/
namespace Tiered

/-- Some path that sets out from position `t₀` with depths `d₀`, and follows the instructions `ls`,
comes to position `t` with depths `d`. -/
inductive Visits (ls : List Located) (t₀ : Int) (d₀ : Depth) : Int → Depth → Prop
  | start : Visits ls t₀ d₀ t₀ d₀
  | step {l : Located} {d : Depth} {way : Int × Depth} (h : Visits ls t₀ d₀ l.offset d)
      (hl : l ∈ ls) (hs : d.Suffices l.instr)
      (hw : way ∈ l.successors d (l.instr.depthAfter d)) : Visits ls t₀ d₀ way.1 way.2

namespace Visits

variable {ls ms : List Located} {t₀ t₁ t : Int} {d₀ d₁ d : Depth}

theorem trans (h : Visits ls t₀ d₀ t₁ d₁) (h' : Visits ls t₁ d₁ t d) : Visits ls t₀ d₀ t d := by
  induction h' with
  | start => exact h
  | step _ hl hs hw ih => exact .step ih hl hs hw

theorem mono (h : Visits ls t₀ d₀ t d) (hsub : ls ⊆ ms) : Visits ms t₀ d₀ t d := by
  induction h with
  | start => exact .start
  | step _ hl hs hw ih => exact .step ih (hsub hl) hs hw

theorem onward {l : Located} (h : Visits ls t₀ d₀ l.offset d) (hl : l ∈ ls)
    (hs : d.Suffices l.instr) (hflow : l.instr.opcode.endsFlow = false) :
    Visits ls t₀ d₀ l.next (l.instr.depthAfter d) :=
  .step h hl hs (Located.mem_successors_iff.mpr (.inl ⟨hflow, rfl⟩))

theorem jumped {l : Located} (h : Visits ls t₀ d₀ l.offset d) (hl : l ∈ ls)
    (hs : d.Suffices l.instr) (ht : l.target? = some t) :
    Visits ls t₀ d₀ t (l.instr.depthJumped d) :=
  .step h hl hs (Located.mem_successors_iff.mpr (.inr ⟨t, ht, rfl⟩))

end Visits

/-- The paths from the first instruction on are those that set out from there with empty stacks. -/
theorem reaches_iff_visits {is : List Instr} {t : Int} {d : Depth} :
    Reaches is t d ↔ Visits (locate 0 is) 0 ⟨0, 0⟩ t d := by
  constructor
  · intro h
    induction h with
    | start => exact .start
    | @onward l d _ hl hs hret hjump ih =>
      have hflow : l.instr.opcode.endsFlow = false := by
        cases hop : l.instr.opcode <;> first | rfl | contradiction
      exact ih.onward hl hs hflow
    | jump _ hl ih => exact ih.jumped hl ⟨Nat.zero_le _, nofun⟩ rfl
    | leave _ hl ih => exact ih.jumped hl ⟨Nat.zero_le _, fun _ => Nat.succ_pos _⟩ rfl
  · intro h
    induction h with
    | start => exact .start
    | step _ hl hs hw ih => exact ih.follow hl hs hw

/-- The greatest `height` among the depths that `V` comes to is `n`. -/
def Peak (V : Int → Depth → Prop) (height : Depth → Nat) (n : Nat) : Prop :=
  IsGreatest {m | ∃ t e, V t e ∧ height e = m} n

namespace Peak

variable {U V W : Int → Depth → Prop} {height : Depth → Nat} {m n : Nat}

theorem at_point {o : Int} {d : Depth} (h : ∀ t e, V t e ↔ t = o ∧ e = d) :
    Peak V height (height d) := by
  constructor
  · exact ⟨o, d, (h o d).mpr ⟨rfl, rfl⟩, rfl⟩
  · rintro m ⟨t, e, hv, rfl⟩
    rw [((h t e).mp hv).2]

theorem or (h : ∀ t e, U t e ↔ V t e ∨ W t e) (hv : Peak V height m) (hw : Peak W height n) :
    Peak U height (max m n) := by
  have hunion : {k | ∃ t e, U t e ∧ height e = k} =
      {k | ∃ t e, V t e ∧ height e = k} ∪ {k | ∃ t e, W t e ∧ height e = k} := by
    apply Set.ext
    intro k
    constructor
    · rintro ⟨t, e, hu, rfl⟩
      rcases (h t e).mp hu with hu | hu
      · exact .inl ⟨t, e, hu, rfl⟩
      · exact .inr ⟨t, e, hu, rfl⟩
    · rintro (⟨t, e, hu, rfl⟩ | ⟨t, e, hu, rfl⟩)
      · exact ⟨t, e, (h t e).mpr (.inl hu), rfl⟩
      · exact ⟨t, e, (h t e).mpr (.inr hu), rfl⟩
  rw [Peak, hunion]
  exact IsGreatest.union hv hw

theorem congr (h : ∀ t e, U t e ↔ V t e) (hv : Peak V height n) : Peak U height n := by
  have hsame : U = V := funext fun t => funext fun e => propext (h t e)
  rw [hsame]
  exact hv

end Peak

/-- The code `is`, which stands at `o`, is entered with depths `d`. Paths through it stay in it, and
come out at its end with the depths `out`, or not at all. The greatest depths they attain on the way
are `top` for values and `deep` for loops. -/
structure Span (o : Nat) (d : Depth) (is : List Instr) (out : Option Depth) (top deep : Nat) :
    Prop where
  stays {t : Int} {e : Depth} (h : Visits (locate o is) o d t e) :
    (o : Int) ≤ t ∧ t ≤ o + codeSize is
  ends {e : Depth} : Visits (locate o is) o d (o + codeSize is) e ↔ out = some e
  values : Peak (Visits (locate o is) o d) Depth.values top
  loops : Peak (Visits (locate o is) o d) Depth.loops deep

section Append

variable {o : Nat} {d d' : Depth} {is js : List Instr} {out out' : Option Depth}
  {top top' deep deep' : Nat}

theorem locate_append (o : Nat) (is js : List Instr) :
    locate o (is ++ js) = locate o is ++ locate (o + codeSize is) js := by
  induction is generalizing o with
  | nil => rfl
  | cons i is ih => simp [locate, ih, Nat.add_assoc]

theorem Visits.append_right {t : Int} {e : Depth} (h : Visits (locate o is) o d t e)
    (js : List Instr) : Visits (locate o (is ++ js)) o d t e := by
  rw [locate_append]
  exact h.mono (List.subset_append_left _ _)

/-- A path through the second of two pieces, where some path comes out of the first. -/
theorem Visits.append_left {t : Int} {e : Depth}
    (h : Visits (locate o is) o d (o + codeSize is) d')
    (h' : Visits (locate (o + codeSize is) js) (o + codeSize is : Nat) d' t e) :
    Visits (locate o (is ++ js)) o d t e := by
  have hcome : Visits (locate o (is ++ js)) o d (o + codeSize is : Nat) d' := h.append_right js
  rw [locate_append] at hcome ⊢
  exact hcome.trans (h'.mono (List.subset_append_right _ _))

/-- A path through two pieces of code goes through the first, or has come out of it and goes through
the second. -/
theorem Span.cases_append {t : Int} {e : Depth} (h : Span o d is out top deep)
    (hback : ∀ {d' t e}, out = some d' →
      Visits (locate (o + codeSize is) js) (o + codeSize is : Nat) d' t e →
        ((o + codeSize is : Nat) : Int) ≤ t)
    (hv : Visits (locate o (is ++ js)) o d t e) :
    Visits (locate o is) o d t e ∨
      ∃ d', out = some d' ∧
        Visits (locate (o + codeSize is) js) (o + codeSize is : Nat) d' t e := by
  rw [locate_append] at hv
  induction hv with
  | start => exact .inl .start
  | @step l e way _ hl hs hw ih =>
    rcases List.mem_append.mp hl with hl | hl
    · have hlt := (locate_bounds hl).2
      rcases ih with ih | ⟨d', hd', ih⟩
      · exact .inl (ih.step hl hs hw)
      · have hge := hback hd' ih
        omega
    · have hge := (locate_bounds hl).1
      rcases ih with ih | ⟨d', hd', ih⟩
      · -- The path is at the end of the first piece, which is where the second one starts.
        have hle := (h.stays ih).2
        have heq : (l.offset : Int) = o + codeSize is := by omega
        rw [heq] at ih
        have hstart :
            Visits (locate (o + codeSize is) js) (o + codeSize is : Nat) e l.offset e := by
          rw [heq]
          exact .start
        exact .inr ⟨e, h.ends.mp ih, hstart.step hl hs hw⟩
      · exact .inr ⟨d', hd', ih.step hl hs hw⟩

theorem Span.append (h : Span o d is (some d') top deep)
    (h' : Span (o + codeSize is) d' js out' top' deep') :
    Span o d (is ++ js) out' (max top top') (max deep deep') := by
  have hiff (t : Int) (e : Depth) : Visits (locate o (is ++ js)) o d t e ↔
      Visits (locate o is) o d t e ∨
        Visits (locate (o + codeSize is) js) (o + codeSize is : Nat) d' t e := by
    constructor
    · intro hv
      have hcases := h.cases_append (fun {d'' t e} hd'' hv => ?_) hv
      · simpa using hcases
      · obtain rfl := Option.some.inj hd''
        exact (h'.stays hv).1
    · rintro (hv | hv)
      · exact hv.append_right js
      · exact (h.ends.mpr rfl).append_left hv
  have hsize : (o : Int) + codeSize (is ++ js) = (o + codeSize is : Nat) + codeSize js := by
    rw [codeSize_append]
    push_cast
    omega
  refine ⟨fun {t e} hv => ?_, fun {e} => ?_, ?_, ?_⟩
  · rcases (hiff t e).mp hv with hv | hv
    · have := h.stays hv
      omega
    · have := h'.stays hv
      omega
  · rw [hiff, hsize, ← h'.ends, or_iff_right_iff_imp]
    intro hv
    -- A path still in the first piece is at its end, so the second piece is empty.
    have hle := (h.stays hv).2
    have heq : (o + codeSize is : Nat) + (codeSize js : Int) = o + codeSize is := by omega
    rw [heq] at hv
    obtain rfl : d' = e := Option.some.inj (h.ends.mp hv)
    rw [heq]
    exact .start
  · exact .or hiff h.values h'.values
  · exact .or hiff h.loops h'.loops

/-- What stands behind code that no path comes out of makes no difference. -/
theorem Span.append_unreached (h : Span o d is none top deep) (js : List Instr) :
    Span o d (is ++ js) none top deep := by
  have hiff (t : Int) (e : Depth) : Visits (locate o (is ++ js)) o d t e ↔
      Visits (locate o is) o d t e := by
    constructor
    · intro hv
      rcases h.cases_append nofun hv with hv | ⟨d', hd', -⟩
      · exact hv
      · cases hd'
    · intro hv
      exact hv.append_right js
  have hsize : codeSize (is ++ js) = codeSize is + codeSize js := codeSize_append is js
  refine ⟨fun {t e} hv => ?_, fun {e} => ⟨fun hv => ?_, nofun⟩, ?_, ?_⟩
  · have := h.stays ((hiff t e).mp hv)
    omega
  · have hold := (hiff _ e).mp hv
    have hle := (h.stays hold).2
    have heq : (o : Int) + codeSize (is ++ js) = o + codeSize is := by omega
    rw [heq] at hold
    exact h.ends.mp hold
  · exact h.values.congr hiff
  · exact h.loops.congr hiff

end Append

section Pieces

theorem Span.nil (o : Nat) (d : Depth) : Span o d [] (some d) d.values d.loops := by
  have hiff (t : Int) (e : Depth) : Visits (locate o []) o d t e ↔ t = o ∧ e = d := by
    constructor
    · intro hv
      cases hv with
      | start => exact ⟨rfl, rfl⟩
      | step _ hl => cases hl
    · rintro ⟨rfl, rfl⟩
      exact .start
  refine ⟨fun {t e} hv => ?_, fun {e} => ?_, .at_point hiff, .at_point hiff⟩
  · have := (hiff t e).mp hv
    simp [this.1]
  · rw [hiff]
    simp [eq_comm]

/-- An instruction that takes what it needs and passes control on. -/
theorem Span.single {o : Nat} {d : Depth} {i : Instr} (hs : d.Suffices i)
    (hjump : i.distance? = none) (hflow : i.opcode.endsFlow = false) :
    Span o d [i] (some (i.depthAfter d)) (max d.values (i.depthAfter d).values)
      (max d.loops (i.depthAfter d).loops) := by
  have hpos := i.size_pos
  have hiff (t : Int) (e : Depth) : Visits (locate o [i]) o d t e ↔
      (t = o ∧ e = d) ∨ (t = (o + i.size : Nat) ∧ e = i.depthAfter d) := by
    constructor
    · intro hv
      induction hv with
      | start => exact .inl ⟨rfl, rfl⟩
      | @step l e way _ hl hs hw ih =>
        obtain rfl : l = ⟨o, i⟩ := List.mem_singleton.mp hl
        rcases ih with ⟨-, rfl⟩ | ⟨hoffset, -⟩
        · rcases Located.mem_successors_iff.mp hw with ⟨-, rfl⟩ | ⟨t, ht, rfl⟩
          · exact .inr ⟨rfl, rfl⟩
          · rw [Located.target?, hjump] at ht
            cases ht
        · dsimp only at hoffset
          omega
    · rintro (⟨rfl, rfl⟩ | ⟨rfl, rfl⟩)
      · exact .start
      · exact Visits.start.onward (l := ⟨o, i⟩) (List.mem_singleton.mpr rfl) hs hflow
  refine ⟨fun {t e} hv => ?_, fun {e} => ?_, ?_, ?_⟩
  · have := (hiff t e).mp hv
    simp only [codeSize_cons, codeSize_nil]
    omega
  · rw [hiff, codeSize_cons, codeSize_nil]
    constructor
    · rintro (⟨hoffset, -⟩ | ⟨-, rfl⟩)
      · omega
      · rfl
    · intro he
      obtain rfl := Option.some.inj he
      exact .inr ⟨by omega, rfl⟩
  · exact .or hiff (.at_point fun _ _ => .rfl) (.at_point fun _ _ => .rfl)
  · exact .or hiff (.at_point fun _ _ => .rfl) (.at_point fun _ _ => .rfl)

/-- No path passes a return. -/
theorem Span.ret (o : Nat) (d : Depth) : Span o d [.ret] none d.values d.loops := by
  have hiff (t : Int) (e : Depth) : Visits (locate o [.ret]) o d t e ↔ t = o ∧ e = d := by
    constructor
    · intro hv
      cases hv with
      | start => exact ⟨rfl, rfl⟩
      | @step l e way _ hl hs hw =>
        obtain rfl : l = ⟨o, .ret⟩ := List.mem_singleton.mp hl
        cases hw
    · rintro ⟨rfl, rfl⟩
      exact .start
  refine ⟨fun {t e} hv => ?_, fun {e} => ?_, .at_point hiff, .at_point hiff⟩
  · have := ((hiff t e).mp hv).1
    omega
  · rw [hiff]
    constructor
    · rintro ⟨hoffset, -⟩
      change (o : Int) + 1 = o at hoffset
      omega
    · nofun

end Pieces

section Loop

variable {o values loops : Nat} {is : List Instr} {exit back : Int16} {out : Option Depth}
  {top deep : Nat}

/-- The instructions of a loop from its head on. -/
theorem mem_locate_loop {l : Located} :
    l ∈ locate o (.forIter exit :: (is ++ [.jump back])) ↔
      l = ⟨o, .forIter exit⟩ ∨ l ∈ locate (o + 3) is ∨ l = ⟨o + 3 + codeSize is, .jump back⟩ := by
  have hhead : locate o (.forIter exit :: (is ++ [.jump back])) =
      ⟨o, .forIter exit⟩ :: locate (o + 3) (is ++ [.jump back]) := rfl
  rw [hhead, locate_append]
  simp [locate]

/-- Paths through a loop are at its head, in its body, or right behind it. If they come back to the
head, it is with the depths they first came with. -/
theorem visits_loop_iff (h : Span (o + 3) ⟨values + 1, loops + 1⟩ is out top deep)
    (hout : ∀ e, out = some e → e = ⟨values, loops + 1⟩) (hexit : exit.toInt = codeSize is + 3)
    (hback : back.toInt = -(3 + codeSize is + 3 : Int)) (t : Int) (e : Depth) :
    Visits (locate o (.forIter exit :: (is ++ [.jump back]))) o ⟨values, loops + 1⟩ t e ↔
      (t = o ∧ e = ⟨values, loops + 1⟩) ∨
        Visits (locate (o + 3) is) (o + 3 : Nat) ⟨values + 1, loops + 1⟩ t e ∨
          (t = (o + 3 + codeSize is + 3 : Nat) ∧ e = ⟨values, loops⟩) := by
  constructor
  · intro hv
    induction hv with
    | start => exact .inl ⟨rfl, rfl⟩
    | @step l e way _ hl hs hw ih =>
      rcases mem_locate_loop.mp hl with rfl | hl | rfl
      · -- At the head, with the depths it is first entered with.
        have he : e = ⟨values, loops + 1⟩ := by
          rcases ih with ⟨-, he⟩ | ih | ⟨hoffset, -⟩
          · exact he
          · have := (h.stays ih).1
            dsimp only at this
            omega
          · dsimp only at hoffset
            omega
        subst he
        rcases Located.mem_successors_iff.mp hw with ⟨-, rfl⟩ | ⟨t, ht, rfl⟩
        · exact .inr (.inl .start)
        · obtain rfl := Option.some.inj ht
          refine .inr (.inr ⟨?_, rfl⟩)
          change ((o + 3 : Nat) : Int) + exit.toInt = _
          omega
      · have hbounds := locate_bounds hl
        rcases ih with ⟨hoffset, -⟩ | ih | ⟨hoffset, -⟩
        · omega
        · exact .inr (.inl (ih.step hl hs hw))
        · omega
      · have he : e = ⟨values, loops + 1⟩ := by
          rcases ih with ⟨hoffset, -⟩ | ih | ⟨hoffset, -⟩
          · dsimp only at hoffset
            omega
          · exact hout e (h.ends.mp (by simpa using ih))
          · dsimp only at hoffset
            omega
        subst he
        rcases Located.mem_successors_iff.mp hw with ⟨hflow, -⟩ | ⟨t, ht, rfl⟩
        · cases hflow
        · obtain rfl := Option.some.inj ht
          refine .inl ⟨?_, rfl⟩
          change ((o + 3 + codeSize is + 3 : Nat) : Int) + back.toInt = _
          omega
  · have hsub : locate (o + 3) is ⊆ locate o (.forIter exit :: (is ++ [.jump back])) :=
      fun l hl => mem_locate_loop.mpr (.inr (.inl hl))
    have hhead : ⟨o, .forIter exit⟩ ∈ locate o (.forIter exit :: (is ++ [.jump back])) :=
      mem_locate_loop.mpr (.inl rfl)
    have hs : (⟨values, loops + 1⟩ : Depth).Suffices (.forIter exit) :=
      ⟨Nat.zero_le _, fun _ => Nat.succ_pos _⟩
    rintro (⟨rfl, rfl⟩ | hv | ⟨rfl, rfl⟩)
    · exact .start
    · exact (Visits.start.onward hhead hs rfl).trans (hv.mono hsub)
    · have htarget : Located.target? ⟨o, .forIter exit⟩ = some (o + 3 + codeSize is + 3 : Nat) := by
        change some (((o + 3 : Nat) : Int) + exit.toInt) = _
        rw [hexit]
        congr 1
      exact Visits.start.jumped hhead hs htarget

theorem Span.loop (h : Span (o + 3) ⟨values + 1, loops + 1⟩ is out top deep)
    (hout : ∀ e, out = some e → e = ⟨values, loops + 1⟩) (hexit : exit.toInt = codeSize is + 3)
    (hback : back.toInt = -(3 + codeSize is + 3 : Int)) :
    Span o ⟨values, loops + 1⟩ (.forIter exit :: (is ++ [.jump back])) (some ⟨values, loops⟩)
      (max values (max top values)) (max (loops + 1) (max deep loops)) := by
  have hiff := visits_loop_iff h hout hexit hback
  have hsize : codeSize (.forIter exit :: (is ++ [.jump back])) = 3 + (codeSize is + 3) := by
    simp only [codeSize_cons, codeSize_append, codeSize_nil]
    rfl
  refine ⟨fun {t e} hv => ?_, fun {e} => ?_, ?_, ?_⟩
  · rcases (hiff t e).mp hv with ⟨rfl, -⟩ | hv | ⟨rfl, -⟩
    · omega
    · have := h.stays hv
      omega
    · omega
  · rw [hiff, hsize]
    constructor
    · rintro (⟨hoffset, -⟩ | hv | ⟨-, rfl⟩)
      · omega
      · have := h.stays hv
        omega
      · rfl
    · intro he
      obtain rfl := Option.some.inj he
      exact .inr (.inr ⟨by omega, rfl⟩)
  · exact .or hiff (.at_point fun _ _ => .rfl)
      (.or (fun _ _ => .rfl) h.values (.at_point fun _ _ => .rfl))
  · exact .or hiff (.at_point fun _ _ => .rfl)
      (.or (fun _ _ => .rfl) h.loops (.at_point fun _ _ => .rfl))

end Loop

end Tiered
