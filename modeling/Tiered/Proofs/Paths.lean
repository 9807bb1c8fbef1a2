import Mathlib.Order.Bounds.Defs
import Tiered.Proofs.Verifier

/-! Verification against the paths of control. A unit passes exactly when no path through its code
can go wrong, and the summary gives the greatest depths that paths attain. The order in which
instructions are visited has no influence on either. -/
namespace Tiered

/-- Some path from the first instruction comes to position `t` with depths `d`. A loop goes on with
its next element or is left without its iterator; a path ends at a return, and where the depths do
not suffice for an instruction. -/
inductive Reaches (is : List Instr) : Int → Depth → Prop
  | start : Reaches is 0 ⟨0, 0⟩
  | onward {l : Located} {d : Depth} (h : Reaches is l.offset d) (hl : l ∈ locate 0 is)
      (hs : d.Suffices l.instr) (hret : l.instr.opcode ≠ .ret) (hjump : l.instr.opcode ≠ .jump) :
      Reaches is l.next (l.instr.depthAfter d)
  | jump {offset : Nat} {distance : Int16} {d : Depth} (h : Reaches is offset d)
      (hl : ⟨offset, .jump distance⟩ ∈ locate 0 is) :
      Reaches is (offset + 3 + distance.toInt) d
  | leave {offset : Nat} {distance : Int16} {values loops : Nat}
      (h : Reaches is offset ⟨values, loops + 1⟩)
      (hl : ⟨offset, .forIter distance⟩ ∈ locate 0 is) :
      Reaches is (offset + 3 + distance.toInt) ⟨values, loops⟩

/-- The code of the unit is `is`, every operand in it resolves, and every jump leads to an
instruction, whether or not a path comes there. -/
structure Lowered.Formed (p : Lowered) (is : List Instr) : Prop where
  nonempty : is ≠ []
  bytes : p.unit.code.toList = encodeAll is
  resolves : ∀ i ∈ is, p.Resolves i
  targets : ∀ l ∈ locate 0 is, ∀ t, l.target? = some t → ∃ l' ∈ locate 0 is, (l'.offset : Int) = t

/-- No path goes wrong: it stays on instructions, finds what each of them takes, and comes to each
at the same depths as all other paths. -/
structure PathsAgree (is : List Instr) : Prop where
  lands {t : Int} {d : Depth} (h : Reaches is t d) :
    ∃ l ∈ locate 0 is, (l.offset : Int) = t ∧ d.Suffices l.instr
  agree {t : Int} {d d' : Depth} (h : Reaches is t d) (h' : Reaches is t d') : d = d'

theorem startAt_startsOf_iff {is : List Instr} {t : Int} {j : Nat} :
    startAt (startsOf is) t = some j ↔ ∃ l, (locate 0 is)[j]? = some l ∧ (l.offset : Int) = t := by
  rw [startsOf, startAt_boundaries]
  constructor
  · rintro ⟨hj, rfl⟩
    refine ⟨⟨0 + codeSize (is.take j), is[j]⟩, ?_, by simp⟩
    rw [getElem?_locate, List.getElem?_eq_getElem hj, Option.map_some]
  · rintro ⟨l, hl, rfl⟩
    rw [getElem?_locate] at hl
    obtain ⟨i, hi, rfl⟩ := Option.map_eq_some_iff.mp hl
    exact ⟨(List.getElem?_eq_some_iff.mp hi).1, by simp⟩

theorem isSome_startAt_iff {is : List Instr} {t : Int} :
    (startAt (startsOf is) t).isSome ↔ ∃ l ∈ locate 0 is, (l.offset : Int) = t := by
  rw [Option.isSome_iff_exists]
  constructor
  · rintro ⟨j, hj⟩
    obtain ⟨l, hl, ht⟩ := startAt_startsOf_iff.mp hj
    exact ⟨l, List.mem_of_getElem? hl, ht⟩
  · rintro ⟨l, hl, ht⟩
    obtain ⟨j, hj⟩ := List.getElem?_of_mem hl
    exact ⟨j, startAt_startsOf_iff.mpr ⟨l, hj, ht⟩⟩

/-- No two instructions start at the same offset. -/
theorem eq_of_offset_eq {is : List Instr} {l l' : Located} (hl : l ∈ locate 0 is)
    (hl' : l' ∈ locate 0 is) (h : l.offset = l'.offset) : l = l' := by
  obtain ⟨j, hj⟩ := List.getElem?_of_mem hl
  obtain ⟨k, hk⟩ := List.getElem?_of_mem hl'
  have hstart : startAt (startsOf is) (l.offset : Int) = some j := startAt_startsOf_iff.mpr ⟨l, hj, rfl⟩
  have hstart' : startAt (startsOf is) (l.offset : Int) = some k :=
    startAt_startsOf_iff.mpr ⟨l', hk, by rw [h]⟩
  obtain rfl : j = k := Option.some.inj (hstart.symm.trans hstart')
  exact Option.some.inj (hj.symm.trans hk)

/-- A path goes on along each of the ways from an instruction. -/
theorem Reaches.follow {is : List Instr} {l : Located} {d : Depth} (h : Reaches is l.offset d)
    (hl : l ∈ locate 0 is) (hs : d.Suffices l.instr) {way : Int × Depth}
    (hw : way ∈ l.successors d (l.instr.depthAfter d)) : Reaches is way.1 way.2 := by
  obtain ⟨offset, i⟩ := l
  rcases Located.mem_successors_iff.mp hw with ⟨hflow, rfl⟩ | ⟨t, ht, rfl⟩
  · apply Reaches.onward h hl hs
    · intro hop
      rw [hop] at hflow
      cases hflow
    · intro hop
      rw [hop] at hflow
      cases hflow
  · obtain ⟨distance, hd, rfl⟩ := Option.map_eq_some_iff.mp ht
    cases i with
    | jump distance' =>
      obtain rfl := Option.some.inj hd
      exact .jump h hl
    | forIter distance' =>
      obtain rfl := Option.some.inj hd
      obtain ⟨values, loops⟩ := d
      have hloops : 0 < loops := hs.2 rfl
      obtain ⟨n, rfl⟩ : ∃ n, loops = n + 1 := ⟨loops - 1, by omega⟩
      exact .leave h hl
    | _ => cases hd

section Consistency

variable {is : List Instr} {depthAt : Nat → Option Depth}

/-- Where depths agree along control flow, paths come to instructions at those depths. -/
theorem Consistent.depthAt_of_reaches
    (hc : Consistent (locate 0 is).toArray (startsOf is) depthAt) {t : Int} {d : Depth}
    (h : Reaches is t d) : ∃ j, startAt (startsOf is) t = some j ∧ depthAt j = some d := by
  -- One step: the instruction at hand is the one that starts there, and its ways are known.
  have hstep {l : Located} {d : Depth} (hl : l ∈ locate 0 is)
      (ih : ∃ j, startAt (startsOf is) (l.offset : Int) = some j ∧ depthAt j = some d)
      {way : Int × Depth} (hway : way ∈ l.successors d (l.instr.depthAfter d)) :
      ∃ j, startAt (startsOf is) way.1 = some j ∧ depthAt j = some way.2 := by
    obtain ⟨j, hj, hd⟩ := ih
    obtain ⟨l', after, hl', hafter, hways⟩ := hc.flow hd
    obtain ⟨l'', hl'', hoffset⟩ := startAt_startsOf_iff.mp hj
    rw [List.getElem?_toArray] at hl'
    obtain rfl : l'' = l' := Option.some.inj (hl''.symm.trans hl')
    have hsame : l'' = l := eq_of_offset_eq (List.mem_of_getElem? hl'') hl (by omega)
    subst hsame
    rw [(Located.depthAfter_eq_ok_iff.mp hafter).2] at hways
    exact hways way hway
  induction h with
  | start =>
    obtain ⟨l, -, hl, -⟩ := hc.flow hc.entry
    have hpos : 0 < is.length := by simpa using (Array.getElem?_eq_some_iff.mp hl).1
    exact ⟨0, startAt_boundaries.mpr ⟨hpos, rfl⟩, hc.entry⟩
  | @onward l d _ hl _ hret hjump ih =>
    have hflow : l.instr.opcode.endsFlow = false := by
      cases hop : l.instr.opcode <;> first | rfl | contradiction
    exact hstep hl ih (Located.mem_successors_iff.mpr (.inl ⟨hflow, rfl⟩))
  | jump _ hl ih => exact hstep hl ih (Located.mem_successors_iff.mpr (.inr ⟨_, rfl, rfl⟩))
  | leave _ hl ih => exact hstep hl ih (Located.mem_successors_iff.mpr (.inr ⟨_, rfl, rfl⟩))

theorem Consistent.pathsAgree (hc : Consistent (locate 0 is).toArray (startsOf is) depthAt) :
    PathsAgree is where
  lands h := by
    obtain ⟨j, hj, hd⟩ := hc.depthAt_of_reaches h
    obtain ⟨l, hl, hoffset⟩ := startAt_startsOf_iff.mp hj
    obtain ⟨l', after, hl', hafter, -⟩ := hc.flow hd
    rw [List.getElem?_toArray] at hl'
    obtain rfl : l = l' := Option.some.inj (hl.symm.trans hl')
    exact ⟨l, List.mem_of_getElem? hl, hoffset, (Located.depthAfter_eq_ok_iff.mp hafter).1⟩
  agree h h' := by
    obtain ⟨j, hj, hd⟩ := hc.depthAt_of_reaches h
    obtain ⟨k, hk, hd'⟩ := hc.depthAt_of_reaches h'
    obtain rfl : j = k := Option.some.inj (hj.symm.trans hk)
    exact Option.some.inj (hd.symm.trans hd')

open Classical in
noncomputable def pathDepth (is : List Instr) (j : Nat) : Option Depth :=
  (locate 0 is)[j]?.bind fun l =>
    if h : ∃ d, Reaches is l.offset d then some h.choose else none

theorem PathsAgree.pathDepth_eq_some_iff (hp : PathsAgree is) {j : Nat} {d : Depth} :
    pathDepth is j = some d ↔ ∃ l, (locate 0 is)[j]? = some l ∧ Reaches is l.offset d := by
  unfold pathDepth
  rw [Option.bind_eq_some_iff]
  constructor
  · rintro ⟨l, hl, hd⟩
    split at hd
    · rename_i h
      obtain rfl := Option.some.inj hd
      exact ⟨l, hl, h.choose_spec⟩
    · cases hd
  · rintro ⟨l, hl, hd⟩
    have hex : ∃ d, Reaches is l.offset d := ⟨d, hd⟩
    refine ⟨l, hl, ?_⟩
    rw [dif_pos hex, hp.agree hex.choose_spec hd]

theorem PathsAgree.consistent (hp : PathsAgree is) :
    Consistent (locate 0 is).toArray (startsOf is) (pathDepth is) where
  entry := by
    obtain ⟨l, hl, hoffset, -⟩ := hp.lands .start
    cases is with
    | nil => cases hl
    | cons i is => exact hp.pathDepth_eq_some_iff.mpr ⟨⟨0, i⟩, rfl, .start⟩
  flow {j d} hd := by
    obtain ⟨l, hl, hreach⟩ := hp.pathDepth_eq_some_iff.mp hd
    have hmem : l ∈ locate 0 is := List.mem_of_getElem? hl
    obtain ⟨l', hl', hoffset, hsuff⟩ := hp.lands hreach
    obtain rfl : l' = l := eq_of_offset_eq hl' hmem (by omega)
    refine ⟨l', l'.instr.depthAfter d, by rw [List.getElem?_toArray, hl],
      Located.depthAfter_eq_ok_iff.mpr ⟨hsuff, rfl⟩, fun way hw => ?_⟩
    have hnext := hreach.follow hmem hsuff hw
    obtain ⟨k, hk, hkoffset, -⟩ := hp.lands hnext
    obtain ⟨n, hn⟩ := List.getElem?_of_mem hk
    refine ⟨n, startAt_startsOf_iff.mpr ⟨k, hn, hkoffset⟩, hp.pathDepth_eq_some_iff.mpr ⟨k, hn, ?_⟩⟩
    rw [hkoffset]
    exact hnext

end Consistency

section Exactness

variable {is : List Instr}

/-- The depths right after an instruction are no greater than some that a path attains: those where
control goes on, or where it does not go on, those before the instruction. -/
theorem Reaches.exists_ge_depthAfter {l : Located} {d : Depth} (h : Reaches is l.offset d)
    (hl : l ∈ locate 0 is) (hs : d.Suffices l.instr) : ∃ t e, Reaches is t e ∧
      (l.instr.depthAfter d).values ≤ e.values ∧ (l.instr.depthAfter d).loops ≤ e.loops := by
  by_cases hret : l.instr.opcode = .ret
  · refine ⟨_, d, h, ?_⟩
    cases hi : l.instr <;> rw [hi] at hret <;> cases hret
    exact ⟨Nat.sub_le _ _, Nat.le_refl _⟩
  · by_cases hjump : l.instr.opcode = .jump
    · refine ⟨_, d, h, ?_⟩
      cases hi : l.instr <;> rw [hi] at hjump <;> cases hjump
      exact ⟨Nat.le_refl _, Nat.le_refl _⟩
    · exact ⟨_, _, .onward h hl hs hret hjump, Nat.le_refl _, Nat.le_refl _⟩

namespace Flow

/-- Every depth of the flow is that of a path, and the greatest ones are attained. -/
structure Traced (is : List Instr) (f : Flow) : Prop where
  reached {j : Nat} {d : Depth} (h : f.depthAt j = some d) :
    ∃ l, (locate 0 is)[j]? = some l ∧ Reaches is l.offset d
  maxStack : ∃ t d, Reaches is t d ∧ f.maxStack ≤ d.values
  maxLoops : ∃ t d, Reaches is t d ∧ f.maxLoops ≤ d.loops

theorem initial_traced (hne : is ≠ []) : (initial is.length).Traced is where
  reached {j d} hd := by
    rw [depthAt_initial (List.length_pos_iff.mpr hne)] at hd
    split at hd
    · rename_i hj
      obtain rfl := Option.some.inj hd
      cases is with
      | nil => exact absurd rfl hne
      | cons i is => exact ⟨⟨0, i⟩, by rw [hj]; rfl, .start⟩
    · cases hd
  maxStack := ⟨0, ⟨0, 0⟩, .start, Nat.le_refl _⟩
  maxLoops := ⟨0, ⟨0, 0⟩, .start, Nat.le_refl _⟩

theorem advance_traced {f g : Flow} (hf : f.Traced is)
    (hsize : f.entry.size = (locate 0 is).toArray.size) {i : Nat}
    (h : f.advance (locate 0 is).toArray (startsOf is) i = .ok g) : g.Traced is := by
  unfold advance at h
  split at h
  · rename_i l d hl hd
    rw [List.getElem?_toArray] at hl
    obtain ⟨l', hl', hreach⟩ := hf.reached hd
    obtain rfl : l' = l := Option.some.inj (hl'.symm.trans hl)
    have hmem : l' ∈ locate 0 is := List.mem_of_getElem? hl
    cases hafter : l'.depthAfter d with
    | error e =>
      rw [hafter] at h
      cases h
    | ok after =>
      rw [hafter] at h
      obtain ⟨hsuff, rfl⟩ := Located.depthAfter_eq_ok_iff.mp hafter
      obtain ⟨hg, -⟩ := followAll_grows (startsOf_bound is) h hsize
      obtain ⟨t, e, he, hvalues, hloops⟩ := hreach.exists_ge_depthAfter hmem hsuff
      refine ⟨fun {j d'} hd' => ?_, ?_, ?_⟩
      · rcases hg.news hd' with hold | ⟨-, way, hway, hstart, rfl⟩
        · exact hf.reached hold
        · obtain ⟨k, hk, hoffset⟩ := startAt_startsOf_iff.mp hstart
          refine ⟨k, hk, ?_⟩
          rw [hoffset]
          exact hreach.follow hmem hsuff hway
      · rw [hg.maxStack]
        obtain ⟨t', e', he', hold⟩ := hf.maxStack
        rcases Nat.le_total f.maxStack (l'.instr.depthAfter d).values with hle | hle
        · exact ⟨t, e, he, Nat.max_le.mpr ⟨Nat.le_trans hle hvalues, hvalues⟩⟩
        · exact ⟨t', e', he', Nat.max_le.mpr ⟨hold, Nat.le_trans hle hold⟩⟩
      · rw [hg.maxLoops]
        obtain ⟨t', e', he', hold⟩ := hf.maxLoops
        rcases Nat.le_total f.maxLoops (l'.instr.depthAfter d).loops with hle | hle
        · exact ⟨t, e, he, Nat.max_le.mpr ⟨Nat.le_trans hle hloops, hloops⟩⟩
        · exact ⟨t', e', he', Nat.max_le.mpr ⟨hold, Nat.le_trans hle hold⟩⟩
  · obtain rfl := Except.ok.inj h
    exact hf

theorem Explores.traced {f : Flow} {r : Checked Flow}
    (h : Explores (locate 0 is).toArray (startsOf is) f r)
    (he : f.Explored (locate 0 is).toArray (startsOf is)) (hf : f.Traced is) {g : Flow}
    (hr : r = .ok g) : g.Traced is := by
  induction h with
  | done =>
    obtain rfl := Except.ok.inj hr
    exact hf
  | flawed => cases hr
  | @round f g' i rest r hq ha _ ih =>
    obtain ⟨he', -, -⟩ := advance_explored (startsOf_bound is) he hq ha
    have hrest : Traced is { f with queue := rest } := ⟨hf.reached, hf.maxStack, hf.maxLoops⟩
    exact ih he' (advance_traced hrest he.size ha) hr

end Flow

/-- The summary counts the instructions, and gives the greatest depths that paths attain. -/
structure Summary.Describes (s : Summary) (is : List Instr) : Prop where
  instructions : s.instructions = is.length
  maxStack : IsGreatest {n | ∃ t d, Reaches is t d ∧ d.values = n} s.maxStack
  maxLoops : IsGreatest {n | ∃ t d, Reaches is t d ∧ d.loops = n} s.maxLoops

theorem Summary.Describes.unique {s s' : Summary} (h : s.Describes is) (h' : s'.Describes is) :
    s = s' := by
  obtain ⟨instructions, maxStack, maxLoops⟩ := s
  obtain ⟨instructions', maxStack', maxLoops'⟩ := s'
  have hi : instructions = instructions' := h.instructions.trans h'.instructions.symm
  have hs : maxStack = maxStack' :=
    Nat.le_antisymm (h'.maxStack.2 h.maxStack.1) (h.maxStack.2 h'.maxStack.1)
  have hl : maxLoops = maxLoops' :=
    Nat.le_antisymm (h'.maxLoops.2 h.maxLoops.1) (h.maxLoops.2 h'.maxLoops.1)
  rw [hi, hs, hl]

/-- In whatever order the instructions are visited, the exploration comes to its end exactly if no
path goes wrong, and then it has met the greatest depths of all paths. -/
theorem Flow.Explores.exact (hne : is ≠ []) {r : Checked Flow}
    (h : Explores (locate 0 is).toArray (startsOf is) (.initial is.length) r) :
    ((∃ g, r = .ok g) ↔ PathsAgree is) ∧
      ∀ g, r = .ok g → (g.summary is.length).Describes is := by
  have hlen : (locate 0 is).toArray.size = is.length := by simp
  have hpos : 0 < (locate 0 is).toArray.size := by
    rw [hlen]
    exact List.length_pos_iff.mpr hne
  rw [← hlen] at h
  refine ⟨⟨?_, ?_⟩, ?_⟩
  · rintro ⟨g, rfl⟩
    exact (h.consistent (startsOf_bound is) hpos).1.pathsAgree
  · intro hp
    exact h.eq_ok_of_consistent hp.consistent (Flow.initial_agrees hp.consistent)
  · rintro g rfl
    obtain ⟨hc, hallows⟩ := h.consistent (startsOf_bound is) hpos
    have htraced := h.traced (initial_explored hpos) (hlen ▸ initial_traced hne) rfl
    have hbound {t : Int} {d : Depth} (hd : Reaches is t d) : g.Allows d := by
      obtain ⟨j, -, hj⟩ := hc.depthAt_of_reaches hd
      exact hallows hj
    obtain ⟨t, d, hd, hvalues⟩ := htraced.maxStack
    obtain ⟨t', d', hd', hloops⟩ := htraced.maxLoops
    refine ⟨rfl, ⟨⟨t, d, hd, Nat.le_antisymm (hbound hd).1 hvalues⟩, ?_⟩,
      ⟨⟨t', d', hd', Nat.le_antisymm (hbound hd').2 hloops⟩, ?_⟩⟩
    · rintro n ⟨t, d, hd, rfl⟩
      exact (hbound hd).1
    · rintro n ⟨t, d, hd, rfl⟩
      exact (hbound hd).2

/-- All orders come to the same verdict and the same summary. -/
theorem Flow.Explores.toOption_eq (hne : is ≠ []) {r r' : Checked Flow}
    (h : Explores (locate 0 is).toArray (startsOf is) (.initial is.length) r)
    (h' : Explores (locate 0 is).toArray (startsOf is) (.initial is.length) r') :
    (r.map (summary is.length)).toOption = (r'.map (summary is.length)).toOption := by
  obtain ⟨hok, hdescribes⟩ := h.exact hne
  obtain ⟨hok', hdescribes'⟩ := h'.exact hne
  cases r with
  | ok g =>
    obtain ⟨g', rfl⟩ := hok'.mpr (hok.mp ⟨g, rfl⟩)
    exact congrArg some ((hdescribes g rfl).unique (hdescribes' g' rfl))
  | error e =>
    cases r' with
    | ok g' =>
      obtain ⟨g, hg⟩ := hok.mpr (hok'.mp ⟨g', rfl⟩)
      cases hg
    | error e' => rfl

end Exactness

namespace Lowered

variable {p : Lowered} {is : List Instr}

/-- `r` is what the checks can come to if control flow is explored in some order. They come as far
as that if the code decodes and each of its instructions is good. -/
def MayCheckTo (p : Lowered) (r : Checked Summary) : Prop :=
  p.unit.size ≠ 0 ∧ ∃ code, p.unit.decode = .ok code ∧
    code.forM (p.checkInstr (boundaries p.unit.size code)) = .ok () ∧
    ∃ f, Flow.Explores code (boundaries p.unit.size code) (.initial code.size) f ∧
      r = f.map (Flow.summary code.size)

theorem formed_iff (hb : p.unit.code.toList = encodeAll is) :
    p.Formed is ↔ p.unit.size ≠ 0 ∧ forM (locate 0 is) (p.checkInstr (startsOf is)) = .ok () := by
  obtain ⟨-, hsize⟩ := CodeUnit.toList_eq_encodeAll_iff.mp hb
  constructor
  · intro h
    refine ⟨fun hzero => h.nonempty ?_, forM_eq_ok_iff.mpr fun l hl => ?_⟩
    · have := length_le_codeSize is
      exact List.length_eq_zero_iff.mp (by omega)
    · have hmem : l.instr ∈ is := map_instr_locate 0 is ▸ List.mem_map_of_mem hl
      exact checkInstr_eq_ok_iff.mpr ⟨h.resolves _ hmem,
        fun t ht => isSome_startAt_iff.mpr (h.targets l hl t ht)⟩
  · rintro ⟨hne, hall⟩
    refine ⟨?_, hb, resolves_of_forM hall, fun l hl t ht => ?_⟩
    · rintro rfl
      exact hne hsize.symm
    · have hcheck := checkInstr_eq_ok_iff.mp (forM_eq_ok_iff.mp hall l hl)
      exact isSome_startAt_iff.mp (hcheck.2 t ht)

/-- Verification of a unit whose instructions are good is an exploration of their control flow. -/
theorem Formed.check_eq (h : p.Formed is) :
    ∃ r, Flow.Explores (locate 0 is).toArray (startsOf is) (.initial is.length) r ∧
      p.check = r.map (Flow.summary is.length) := by
  obtain ⟨hholds, hsize⟩ := CodeUnit.toList_eq_encodeAll_iff.mp h.bytes
  obtain ⟨hne, hall⟩ := (formed_iff h.bytes).mp h
  have hlen : (locate 0 is).toArray.size = is.length := by simp
  have hpos : 0 < (locate 0 is).toArray.size := by
    rw [hlen]
    exact List.length_pos_iff.mpr h.nonempty
  obtain ⟨r, hr, heq⟩ := exploreDepths_eq_map (startsOf_bound is) hpos
  rw [hlen] at hr heq
  refine ⟨r, hr, ?_⟩
  rw [Lowered.check_eq hholds hsize, if_neg hne, hall]
  exact heq

theorem Formed.of_check {summary : Summary} (h : p.check = .ok summary) : ∃ is, p.Formed is := by
  obtain ⟨is, depthAt, ht, hr, -⟩ := Typed.of_check h
  have hbytes := CodeUnit.toList_eq_encodeAll_iff.mpr ⟨ht.holds, ht.size⟩
  refine ⟨is, ?_, hbytes, hr, fun l hl t htarget => isSome_startAt_iff.mp (ht.targets l hl t htarget)⟩
  rintro rfl
  obtain ⟨l, -, hl, -⟩ := ht.consistent.flow ht.consistent.entry
  cases hl

theorem toOption_verify (p : Lowered) (name : String) :
    (p.verify name).toOption = p.check.toOption := by
  unfold verify
  cases p.check with
  | ok summary => rfl
  | error e => rfl

end Lowered

/-- Code is the encoding of one sequence of instructions at most. -/
theorem encodeAll_injective {is js : List Instr} (h : encodeAll is = encodeAll js) : is = js := by
  let u : CodeUnit := { name := "", function := 0, code := (encodeAll is).toArray }
  have hi := CodeUnit.toList_eq_encodeAll_iff.mp (show u.code.toList = encodeAll is from rfl)
  have hj := CodeUnit.toList_eq_encodeAll_iff.mp (show u.code.toList = encodeAll js from h)
  have hdecode := CodeUnit.decode_eq_ok_iff.mpr ⟨is, hi.1, hi.2, rfl⟩
  have hdecode' := CodeUnit.decode_eq_ok_iff.mpr ⟨js, hj.1, hj.2, rfl⟩
  have hlocate : locate 0 is = locate 0 js :=
    congrArg Array.toList (Except.ok.inj (hdecode.symm.trans hdecode'))
  rw [← map_instr_locate 0 is, ← map_instr_locate 0 js, hlocate]

/-- A unit passes verification exactly if its code is a sequence of instructions, with operands that
resolve and jumps that lead to instructions, on which no path of control goes wrong. The summary
then counts the instructions and gives the greatest depths of all paths. Exploring control flow in
another order gives the same verdict and the same summary. -/
theorem verify_exact (p : Lowered) (name : String) :
    ((∃ summary, p.verify name = .ok summary) ↔ ∃ is, p.Formed is ∧ PathsAgree is) ∧
    (∀ summary is, p.verify name = .ok summary → p.unit.code.toList = encodeAll is →
      summary.Describes is) ∧
    ∀ r, p.MayCheckTo r → r.toOption = (p.verify name).toOption := by
  refine ⟨⟨?_, ?_⟩, ?_, ?_⟩
  · rintro ⟨summary, hv⟩
    have hcheck := Lowered.verify_eq_ok_iff.mp hv
    obtain ⟨is, hformed⟩ := Lowered.Formed.of_check hcheck
    obtain ⟨r, hr, heq⟩ := hformed.check_eq
    refine ⟨is, hformed, (hr.exact hformed.nonempty).1.mp ?_⟩
    cases r with
    | error e => cases heq.symm.trans hcheck
    | ok g => exact ⟨g, rfl⟩
  · rintro ⟨is, hformed, hpaths⟩
    obtain ⟨r, hr, heq⟩ := hformed.check_eq
    obtain ⟨g, rfl⟩ := (hr.exact hformed.nonempty).1.mpr hpaths
    exact ⟨_, Lowered.verify_eq_ok_iff.mpr heq⟩
  · intro summary js hv hbytes
    have hcheck := Lowered.verify_eq_ok_iff.mp hv
    obtain ⟨is, hformed⟩ := Lowered.Formed.of_check hcheck
    obtain rfl : is = js := encodeAll_injective (hformed.bytes.symm.trans hbytes)
    obtain ⟨r, hr, heq⟩ := hformed.check_eq
    cases r with
    | error e => cases heq.symm.trans hcheck
    | ok g =>
      obtain rfl := Except.ok.inj (heq.symm.trans hcheck)
      exact (hr.exact hformed.nonempty).2 g rfl
  · rintro _ ⟨hne, code, hdecode, hall, r, hr, rfl⟩
    obtain ⟨is, hholds, hsize, rfl⟩ := CodeUnit.decode_eq_ok_iff.mp hdecode
    have hbytes := CodeUnit.toList_eq_encodeAll_iff.mpr ⟨hholds, hsize⟩
    have hlen : (locate 0 is).toArray.size = is.length := by simp
    have hgood : forM (locate 0 is) (p.checkInstr (startsOf is)) = .ok () := by
      rw [← hall, startsOf, hsize]
      simp
    have hformed : p.Formed is := (Lowered.formed_iff hbytes).mpr ⟨hne, hgood⟩
    rw [← hsize, hlen] at hr
    obtain ⟨r', hr', heq⟩ := hformed.check_eq
    rw [Lowered.toOption_verify, heq, hlen]
    exact hr.toOption_eq hformed.nonempty hr'

end Tiered
