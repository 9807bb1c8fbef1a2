import Tiered.Proofs.Encoding

/-! Exploring control flow: which offsets start an instruction, and what it means that the depths on
all paths agree. -/
namespace Tiered

section Boundaries

/-- Marking the offsets of instructions from number `k` on. -/
theorem join_foldl_marks {ls : List Located} {k : Nat} {starts : Array (Option Nat)}
    (hp : ls.Pairwise (·.offset < ·.offset)) (hs : ∀ l ∈ ls, l.offset < starts.size) {t j : Nat} :
    ((ls.zipIdx k).foldl (fun starts p => starts.setIfInBounds p.1.offset (some p.2))
        starts)[t]?.join = some j ↔
      (∃ i l, ls[i]? = some l ∧ l.offset = t ∧ j = k + i) ∨
        (∀ l ∈ ls, l.offset ≠ t) ∧ starts[t]?.join = some j := by
  induction ls generalizing k starts with
  | nil => simp
  | cons l ls ih =>
    obtain ⟨hl, hp⟩ := List.pairwise_cons.mp hp
    rw [List.zipIdx_cons, List.foldl_cons,
      ih hp (fun l' h => by simpa using hs l' (List.mem_cons_of_mem _ h))]
    by_cases ht : l.offset = t
    · have hrest : ∀ l' ∈ ls, l'.offset ≠ t := fun l' h => by have := hl l' h; omega
      have hset : (starts.setIfInBounds l.offset (some k))[t]?.join = some k := by
        rw [ht, Array.getElem?_setIfInBounds_self_of_lt (ht ▸ hs l List.mem_cons_self)]
        rfl
      rw [hset]
      constructor
      · rintro (⟨i, l', hi, hl', -⟩ | ⟨-, hk⟩)
        · exact absurd hl' (hrest l' (List.mem_of_getElem? hi))
        · exact .inl ⟨0, l, rfl, ht, (Option.some.inj hk).symm⟩
      · rintro (⟨i, l', hi, hl', rfl⟩ | ⟨hne, -⟩)
        · cases i with
          | zero => exact .inr ⟨hrest, rfl⟩
          | succ i => exact absurd hl' (hrest l' (List.mem_of_getElem? hi))
        · exact absurd ht (hne l List.mem_cons_self)
    · rw [Array.getElem?_setIfInBounds_ne ht]
      constructor
      · rintro (⟨i, l', hi, hl', rfl⟩ | ⟨hne, hk⟩)
        · exact .inl ⟨i + 1, l', hi, hl', by omega⟩
        · exact .inr ⟨by simpa [ht] using hne, hk⟩
      · rintro (⟨i, l', hi, hl', rfl⟩ | ⟨hne, hk⟩)
        · cases i with
          | zero => exact absurd (Option.some.inj hi ▸ hl') ht
          | succ i => exact .inl ⟨i, l', hi, hl', by omega⟩
        · exact .inr ⟨fun l' h => hne l' (List.mem_cons_of_mem _ h), hk⟩

theorem locate_bounds {offset : Nat} {is : List Instr} {l : Located} (h : l ∈ locate offset is) :
    offset ≤ l.offset ∧ l.offset < offset + codeSize is := by
  induction is generalizing offset with
  | nil => cases h
  | cons i is ih =>
    have hi := i.size_pos
    rw [codeSize_cons]
    rcases List.mem_cons.mp h with rfl | h
    · dsimp only
      omega
    · have := ih h
      omega

theorem pairwise_locate (offset : Nat) (is : List Instr) :
    (locate offset is).Pairwise (·.offset < ·.offset) := by
  induction is generalizing offset with
  | nil => exact .nil
  | cons i is ih =>
    refine .cons (fun l hl => ?_) (ih _)
    have := (locate_bounds hl).1
    have := i.size_pos
    dsimp only
    omega

/-- The positions that start an instruction are those that whole instructions lead up to. -/
theorem startAt_boundaries {is : List Instr} {t : Int} {j : Nat} :
    startAt (boundaries (codeSize is) (locate 0 is).toArray) t = some j ↔
      j < is.length ∧ t = codeSize (is.take j) := by
  have hmarks (n : Nat) : (boundaries (codeSize is) (locate 0 is).toArray)[n]?.join = some j ↔
      ∃ i l, (locate 0 is)[i]? = some l ∧ l.offset = n ∧ j = 0 + i := by
    have hblank : (Array.replicate (codeSize is) (none : Option Nat))[n]?.join = none := by
      rw [Array.getElem?_replicate]
      split <;> rfl
    unfold boundaries
    rw [← Array.foldl_toList, Array.toList_zipIdx, join_foldl_marks (pairwise_locate 0 is)
      (fun l h => by simpa using (locate_bounds h).2), hblank]
    simp
  unfold startAt
  split
  · rename_i hneg
    constructor
    · intro h
      cases h
    · rintro ⟨-, rfl⟩
      omega
  · rename_i hpos
    rw [hmarks]
    constructor
    · rintro ⟨i, l, hi, hl, rfl⟩
      rw [getElem?_locate] at hi
      obtain ⟨instr, hget, rfl⟩ := Option.map_eq_some_iff.mp hi
      refine ⟨by simpa using (List.getElem?_eq_some_iff.mp hget).1, ?_⟩
      simp only [Nat.zero_add] at hl ⊢
      omega
    · rintro ⟨hj, rfl⟩
      have hget : (locate 0 is)[j]? = some ⟨0 + codeSize (is.take j), is[j]⟩ := by
        rw [getElem?_locate, List.getElem?_eq_getElem hj, Option.map_some]
      exact ⟨j, _, hget, by simp, by omega⟩

end Boundaries

namespace Flow

/-- The depths at which instruction `j` is entered, if control reaches it. -/
def depthAt (f : Flow) (j : Nat) : Option Depth :=
  f.entry[j]?.join

def unseen (f : Flow) : Nat :=
  f.entry.count none

theorem lt_size_of_depthAt {f : Flow} {j : Nat} {d : Depth} (h : f.depthAt j = some d) :
    j < f.entry.size := by
  unfold depthAt at h
  refine Nat.lt_of_not_le fun hj => ?_
  rw [Array.getElem?_eq_none hj] at h
  cases h

/-- One flow comes from another by following `ways`: what was known stays known, what is new is
queued and entered where one of the ways leads, at its depth. -/
structure Grows (starts : Array (Option Nat)) (ways : List (Int × Depth)) (f g : Flow) : Prop where
  size : g.entry.size = f.entry.size
  keeps {j : Nat} {d : Depth} (h : f.depthAt j = some d) : g.depthAt j = some d
  news {j : Nat} {d : Depth} (h : g.depthAt j = some d) :
    f.depthAt j = some d ∨
      j ∈ g.queue ∧ ∃ way ∈ ways, startAt starts way.1 = some j ∧ way.2 = d
  queue {j : Nat} (h : j ∈ f.queue) : j ∈ g.queue
  queued {j : Nat} (h : j ∈ g.queue) : j ∈ f.queue ∨ ∃ d, g.depthAt j = some d
  pending : g.queue.length + g.unseen = f.queue.length + f.unseen
  maxStack : g.maxStack = f.maxStack
  maxLoops : g.maxLoops = f.maxLoops

variable {code : Array Located} {starts : Array (Option Nat)}

theorem Grows.refl (ways : List (Int × Depth)) (f : Flow) : Grows starts ways f f :=
  ⟨rfl, id, .inl, id, .inl, rfl, rfl, rfl⟩

theorem Grows.trans {ways ways' : List (Int × Depth)} {f g h : Flow} (hg : Grows starts ways f g)
    (hh : Grows starts ways' g h) : Grows starts (ways ++ ways') f h where
  size := hh.size.trans hg.size
  keeps hd := hh.keeps (hg.keeps hd)
  news hd := by
    rcases hh.news hd with hd' | ⟨hq, way, hw, hway⟩
    · rcases hg.news hd' with hd'' | ⟨hq, way, hw, hway⟩
      · exact .inl hd''
      · exact .inr ⟨hh.queue hq, way, List.mem_append_left _ hw, hway⟩
    · exact .inr ⟨hq, way, List.mem_append_right _ hw, hway⟩
  queue hq := hh.queue (hg.queue hq)
  queued hq := by
    rcases hh.queued hq with hq | hd
    · rcases hg.queued hq with hq | ⟨d, hd⟩
      · exact .inl hq
      · exact .inr ⟨d, hh.keeps hd⟩
    · exact .inr hd
  pending := hh.pending.trans hg.pending
  maxStack := hh.maxStack.trans hg.maxStack
  maxLoops := hh.maxLoops.trans hg.maxLoops

def enter (f : Flow) (j : Nat) (d : Depth) : Flow :=
  { f with entry := f.entry.setIfInBounds j (some d), queue := f.queue ++ [j] }

theorem depthAt_enter {f : Flow} {j : Nat} (hj : j < f.entry.size) (d : Depth) (i : Nat) :
    (f.enter j d).depthAt i = if i = j then some d else f.depthAt i := by
  unfold depthAt enter
  split
  · rename_i hi
    subst hi
    rw [Array.getElem?_setIfInBounds_self_of_lt hj]
    rfl
  · rename_i hi
    rw [Array.getElem?_setIfInBounds_ne (Ne.symm hi)]

theorem unseen_enter {f : Flow} {j : Nat} (hj : j < f.entry.size) (h : f.depthAt j = none)
    (d : Depth) : (f.enter j d).unseen + 1 = f.unseen := by
  have hget : f.entry[j] = none := by
    unfold depthAt at h
    rw [Array.getElem?_eq_getElem hj] at h
    exact h
  have hcount : 0 < f.entry.count none := Array.count_pos_iff.mpr (hget ▸ f.entry.getElem_mem hj)
  unfold unseen enter
  simp only [Array.setIfInBounds_def, dif_pos hj, Array.count_set, hget]
  simp
  omega

theorem enter_grows {f : Flow} {j : Nat} (hj : j < f.entry.size) (h : f.depthAt j = none)
    {t : Int} (ht : startAt starts t = some j) (d : Depth) :
    Grows starts [(t, d)] f (f.enter j d) where
  size := by simp [enter]
  keeps {i e} he := by
    rw [depthAt_enter hj, if_neg]
    · exact he
    · rintro rfl
      rw [h] at he
      cases he
  news {i e} he := by
    rw [depthAt_enter hj] at he
    split at he
    · rename_i hi
      exact .inr ⟨by simp [enter, hi], (t, d), by simp, hi ▸ ht, Option.some.inj he⟩
    · exact .inl he
  queue hq := List.mem_append_left _ hq
  queued {i} hq := by
    rcases List.mem_append.mp hq with hq | hq
    · exact .inl hq
    · exact .inr ⟨d, by rw [depthAt_enter hj, if_pos (List.mem_singleton.mp hq)]⟩
  pending := by
    have := unseen_enter hj h d
    have hlen : (f.enter j d).queue.length = f.queue.length + 1 := by simp [enter]
    omega
  maxStack := rfl
  maxLoops := rfl

theorem reach_grows {f g : Flow} {j : Nat} {d : Depth} (h : f.reach code j d = .ok g)
    (hj : j < f.entry.size) {t : Int} (ht : startAt starts t = some j) :
    Grows starts [(t, d)] f g ∧ g.depthAt j = some d := by
  unfold reach at h
  split at h
  · rename_i hnone
    obtain rfl := Except.ok.inj h
    exact ⟨enter_grows hj hnone ht d, by rw [← enter, depthAt_enter hj, if_pos rfl]⟩
  · rename_i known hknown
    split at h
    · rename_i heq
      obtain rfl := Except.ok.inj h
      exact ⟨.refl _ f, heq ▸ hknown⟩
    · cases h

theorem followAll_grows (hstarts : ∀ t j, startAt starts t = some j → j < code.size) {offset : Nat}
    {ways : List (Int × Depth)} {f g : Flow} (h : followAll code starts offset ways f = .ok g)
    (hf : f.entry.size = code.size) :
    Grows starts ways f g ∧
      ∀ way ∈ ways, ∃ k, startAt starts way.1 = some k ∧ g.depthAt k = some way.2 := by
  induction ways generalizing f with
  | nil =>
    obtain rfl := Except.ok.inj h
    exact ⟨.refl _ f, by simp⟩
  | cons way ways ih =>
    obtain ⟨t, d⟩ := way
    rw [followAll] at h
    split at h
    · cases h
    · rename_i j hj
      cases hr : f.reach code j d with
      | error e => simp [hr, bind, Except.bind] at h
      | ok f₁ =>
        simp only [hr, bind, Except.bind] at h
        obtain ⟨hg, hd⟩ := reach_grows hr (hf ▸ hstarts t j hj) hj
        obtain ⟨hg', hrest⟩ := ih h (hg.size.trans hf)
        refine ⟨hg.trans hg', fun way hw => ?_⟩
        rcases List.mem_cons.mp hw with rfl | hw
        · exact ⟨j, hj, hg'.keeps hd⟩
        · exact hrest way hw

def Allows (f : Flow) (d : Depth) : Prop :=
  d.values ≤ f.maxStack ∧ d.loops ≤ f.maxLoops

/-- Instruction `j`, entered at `d`, passes control to instructions that the flow knows. -/
def Settled (code : Array Located) (starts : Array (Option Nat)) (f : Flow) (j : Nat) (d : Depth) :
    Prop :=
  ∃ l after, code[j]? = some l ∧ l.depthAfter d = .ok after ∧ f.Allows after ∧
    ∀ way ∈ l.successors d after, ∃ k, startAt starts way.1 = some k ∧ f.depthAt k = some way.2

/-- What holds between two rounds: each instruction reached is settled or still queued. -/
structure Explored (code : Array Located) (starts : Array (Option Nat)) (f : Flow) : Prop where
  size : f.entry.size = code.size
  queued {j : Nat} (h : j ∈ f.queue) : ∃ d, f.depthAt j = some d
  allowed {j : Nat} {d : Depth} (h : f.depthAt j = some d) : f.Allows d
  settled {j : Nat} {d : Depth} (h : f.depthAt j = some d) :
    j ∈ f.queue ∨ f.Settled code starts j d

theorem Settled.mono {f g : Flow} (hk : ∀ {j d}, f.depthAt j = some d → g.depthAt j = some d)
    (ha : ∀ {d}, f.Allows d → g.Allows d) {j : Nat} {d : Depth} (h : f.Settled code starts j d) :
    g.Settled code starts j d := by
  obtain ⟨l, after, hl, hafter, hallow, hways⟩ := h
  refine ⟨l, after, hl, hafter, ha hallow, fun way hw => ?_⟩
  obtain ⟨k, hstart, hd⟩ := hways way hw
  exact ⟨k, hstart, hk hd⟩

end Flow

section Instructions

/-- The depths suffice for the instruction: it finds its values, and an iterator if it needs one. -/
def Depth.Suffices (d : Depth) (i : Instr) : Prop :=
  i.effect.pops ≤ d.values ∧ (i.opcode = .forIter → 0 < d.loops)

def Instr.depthAfter (i : Instr) (d : Depth) : Depth :=
  ⟨d.values - i.effect.pops + i.effect.pushes, if i = .getIter then d.loops + 1 else d.loops⟩

/-- Depths where the jump of the instruction leads: a loop that ends has lost its iterator. -/
def Instr.depthJumped (i : Instr) (d : Depth) : Depth :=
  match i with
  | .forIter _ => ⟨d.values, d.loops - 1⟩
  | i => i.depthAfter d

namespace Located

theorem depthAfter_eq_ok_iff {l : Located} {d after : Depth} :
    l.depthAfter d = .ok after ↔ d.Suffices l.instr ∧ after = l.instr.depthAfter d := by
  obtain ⟨offset, i⟩ := l
  unfold Located.depthAfter Depth.Suffices Instr.depthAfter
  dsimp only
  by_cases hpops : d.values < i.effect.pops
  · simp [hpops, Nat.not_le.mpr hpops]
  · simp only [if_neg hpops, Nat.not_lt.mp hpops, true_and]
    cases i with
    | forIter distance =>
      by_cases hl : d.loops = 0
      · simp [hl, Instr.opcode]
      · simp [hl, Instr.opcode, eq_comm, Nat.pos_of_ne_zero hl]
    | _ => simp [Instr.opcode, eq_comm]

theorem mem_successors_iff {l : Located} {d : Depth} {way : Int × Depth} :
    way ∈ l.successors d (l.instr.depthAfter d) ↔
      l.instr.opcode.endsFlow = false ∧ way = ((l.next : Int), l.instr.depthAfter d) ∨
        ∃ t, l.target? = some t ∧ way = (t, l.instr.depthJumped d) := by
  obtain ⟨offset, i⟩ := l
  cases i <;>
    simp [successors, target?, Instr.distance?, Instr.opcode, Opcode.endsFlow, Instr.depthJumped]

/-- Control passes on at the depths after the instruction, or leaves a loop at those before it with
one iterator less. -/
theorem depth_of_mem_successors {l : Located} {d : Depth} {way : Int × Depth}
    (h : way ∈ l.successors d (l.instr.depthAfter d)) :
    way.2 = l.instr.depthAfter d ∨ way.2 = ⟨d.values, d.loops - 1⟩ := by
  rcases mem_successors_iff.mp h with ⟨-, rfl⟩ | ⟨t, -, rfl⟩
  · exact .inl rfl
  · unfold Instr.depthJumped
    split
    · exact .inr rfl
    · exact .inl rfl

end Located

end Instructions

namespace Flow

variable {code : Array Located} {starts : Array (Option Nat)}

theorem advance_explored (hstarts : ∀ t j, startAt starts t = some j → j < code.size) {f g : Flow}
    (hf : f.Explored code starts) {i : Nat} {rest : List Nat} (hq : f.queue.Perm (i :: rest))
    (h : advance code starts { f with queue := rest } i = .ok g) :
    g.Explored code starts ∧ g.queue.length + g.unseen + 1 = f.queue.length + f.unseen ∧
      ∀ {j d}, f.depthAt j = some d → g.depthAt j = some d := by
  obtain ⟨d, hd⟩ := hf.queued (hq.mem_iff.mpr List.mem_cons_self)
  have hi : i < code.size := hf.size ▸ lt_size_of_depthAt hd
  have hl : code[i]? = some code[i] := Array.getElem?_eq_getElem hi
  unfold advance at h
  simp only [hl, (show f.entry[i]?.join = some d from hd)] at h
  cases hafter : code[i].depthAfter d with
  | error e => simp [hafter, bind, Except.bind] at h
  | ok after =>
    simp only [hafter, bind, Except.bind] at h
    obtain ⟨hg, hways⟩ := followAll_grows hstarts h hf.size
    have heq := (Located.depthAfter_eq_ok_iff.mp hafter).2
    -- Everything the old flow allows, the new one allows, and the depths after `i` on top.
    have hallow {e : Depth} (he : f.Allows e) : g.Allows e :=
      ⟨Nat.le_trans he.1 (hg.maxStack ▸ Nat.le_max_left _ _),
        Nat.le_trans he.2 (hg.maxLoops ▸ Nat.le_max_left _ _)⟩
    have hallowAfter : g.Allows after :=
      ⟨hg.maxStack ▸ Nat.le_max_right _ _, hg.maxLoops ▸ Nat.le_max_right _ _⟩
    have hkeeps {j : Nat} {e : Depth} (he : f.depthAt j = some e) : g.depthAt j = some e :=
      hg.keeps he
    refine ⟨⟨hg.size.trans hf.size, fun {j} hj => ?_, fun {j e} he => ?_, fun {j e} he => ?_⟩, ?_,
      hkeeps⟩
    · rcases hg.queued hj with hj | hd
      · obtain ⟨e, he⟩ := hf.queued (hq.mem_iff.mpr (List.mem_cons_of_mem _ hj))
        exact ⟨e, hkeeps he⟩
      · exact hd
    · rcases hg.news he with he | ⟨-, way, hw, -, rfl⟩
      · exact hallow (hf.allowed he)
      · rcases Located.depth_of_mem_successors (heq ▸ hw) with hw | hw
        · exact hw ▸ heq ▸ hallowAfter
        · have hbefore := hallow (hf.allowed hd)
          rw [hw]
          exact ⟨hbefore.1, Nat.le_trans (Nat.sub_le _ _) hbefore.2⟩
    · rcases hg.news he with he' | ⟨hj, -⟩
      · rcases hf.settled he' with hj | hs
        · rcases List.mem_cons.mp (hq.mem_iff.mp hj) with rfl | hj
          · obtain rfl : d = e := Option.some.inj (hd.symm.trans he')
            exact .inr ⟨_, after, hl, hafter, hallowAfter, hways⟩
          · exact .inl (hg.queue hj)
        · exact .inr (hs.mono hkeeps hallow)
      · exact .inl hj
    · have hpending : g.queue.length + g.unseen = rest.length + f.unseen := hg.pending
      have hlength : f.queue.length = rest.length + 1 := hq.length_eq
      omega

/-- What following the queue comes to, whichever of its instructions is taken next: the flaw that
ends it, or the flow once the queue is empty. -/
inductive Explores (code : Array Located) (starts : Array (Option Nat)) :
    Flow → Checked Flow → Prop
  | done {f : Flow} (hq : f.queue = []) : Explores code starts f (.ok f)
  | flawed {f : Flow} {i : Nat} {rest : List Nat} {e : Nat × Flaw} (hq : f.queue.Perm (i :: rest))
      (h : advance code starts { f with queue := rest } i = .error e) :
      Explores code starts f (.error e)
  | round {f g : Flow} {i : Nat} {rest : List Nat} {r : Checked Flow}
      (hq : f.queue.Perm (i :: rest)) (h : advance code starts { f with queue := rest } i = .ok g)
      (hr : Explores code starts g r) : Explores code starts f r

/-- Taking the oldest instruction first is one of the orders, and the fuel suffices for it. -/
theorem explore_explores (hstarts : ∀ t j, startAt starts t = some j → j < code.size) {fuel : Nat}
    {f : Flow} (hf : f.Explored code starts) (hfuel : f.queue.length + f.unseen ≤ fuel) :
    Explores code starts f (explore code starts fuel f) := by
  induction fuel generalizing f with
  | zero => exact .done (List.length_eq_zero_iff.mp (by omega))
  | succ fuel ih =>
    rw [explore]
    split
    · rename_i hq
      exact .done hq
    · rename_i i rest hq
      have hperm : f.queue.Perm (i :: rest) := hq ▸ .refl _
      cases ha : advance code starts { f with queue := rest } i with
      | error e => exact .flawed hperm ha
      | ok g =>
        obtain ⟨hg, hpending, -⟩ := advance_explored hstarts hf hperm ha
        exact .round hperm ha (ih hg (by omega))

theorem Explores.explored (hstarts : ∀ t j, startAt starts t = some j → j < code.size) {f : Flow}
    {r : Checked Flow} (h : Explores code starts f r) (hf : f.Explored code starts) {g : Flow}
    (hr : r = .ok g) :
    g.Explored code starts ∧ g.queue = [] ∧
      ∀ {j d}, f.depthAt j = some d → g.depthAt j = some d := by
  induction h with
  | done hq =>
    obtain rfl := Except.ok.inj hr
    exact ⟨hf, hq, id⟩
  | flawed => cases hr
  | round hq ha _ ih =>
    obtain ⟨hf₁, -, hkeeps⟩ := advance_explored hstarts hf hq ha
    obtain ⟨hg, hempty, hkeeps'⟩ := ih hf₁ hr
    exact ⟨hg, hempty, fun hd => hkeeps' (hkeeps hd)⟩

end Flow

/-- Depths for some of the instructions, the first among them, that agree along control flow: from
an instruction with depths, control never fails to pass on to one with the depths it arrives at. -/
structure Consistent (code : Array Located) (starts : Array (Option Nat))
    (depthAt : Nat → Option Depth) : Prop where
  entry : depthAt 0 = some ⟨0, 0⟩
  flow {j : Nat} {d : Depth} (h : depthAt j = some d) :
    ∃ l after, code[j]? = some l ∧ l.depthAfter d = .ok after ∧
      ∀ way ∈ l.successors d after, ∃ k, startAt starts way.1 = some k ∧ depthAt k = some way.2

section Exploration

variable {code : Array Located} {starts : Array (Option Nat)}

namespace Flow

/-- Control at the first of `n` instructions, with both stacks empty. -/
def initial (n : Nat) : Flow :=
  enter { entry := Array.replicate n none, queue := [] } 0 ⟨0, 0⟩

theorem depthAt_initial {n : Nat} (hn : 0 < n) (j : Nat) :
    (initial n).depthAt j = if j = 0 then some ⟨0, 0⟩ else none := by
  rw [initial, depthAt_enter (by simpa using hn)]
  congr 1
  rw [depthAt, Array.getElem?_replicate]
  split <;> rfl

theorem initial_pending {n : Nat} (hn : 0 < n) :
    (initial n).queue.length + (initial n).unseen = n := by
  let blank : Flow := { entry := Array.replicate n none, queue := [] }
  have hzero : blank.depthAt 0 = none := by
    rw [depthAt, Array.getElem?_replicate]
    split <;> rfl
  have hone : (initial n).queue.length = 1 := rfl
  have hall : blank.unseen = n := Array.count_replicate_self
  have hstep : (initial n).unseen + 1 = blank.unseen :=
    unseen_enter (by simpa [blank] using hn) hzero ⟨0, 0⟩
  omega

theorem initial_explored (hcode : 0 < code.size) : (initial code.size).Explored code starts where
  size := by simp [initial, enter]
  queued {j} hj := ⟨⟨0, 0⟩, by
    rw [depthAt_initial hcode, if_pos (List.mem_singleton.mp hj)]⟩
  allowed {j d} hd := by
    rw [depthAt_initial hcode] at hd
    split at hd
    · obtain rfl := Option.some.inj hd
      exact ⟨Nat.zero_le _, Nat.zero_le _⟩
    · cases hd
  settled {j d} hd := by
    rw [depthAt_initial hcode] at hd
    split at hd
    · exact .inl (List.mem_singleton.mpr ‹j = 0›)
    · cases hd

end Flow

/-- Following the queue to its end, in any order, leaves depths that agree along control flow. -/
theorem Flow.Explores.consistent (hstarts : ∀ t j, startAt starts t = some j → j < code.size)
    (hcode : 0 < code.size) {g : Flow} (h : Explores code starts (.initial code.size) (.ok g)) :
    Consistent code starts g.depthAt ∧ ∀ {j d}, g.depthAt j = some d → g.Allows d := by
  obtain ⟨hg, hempty, hkeeps⟩ := h.explored hstarts (Flow.initial_explored hcode) rfl
  have hentry : g.depthAt 0 = some ⟨0, 0⟩ :=
    hkeeps (by rw [Flow.depthAt_initial hcode, if_pos rfl])
  refine ⟨⟨hentry, fun hd => ?_⟩, fun hd => hg.allowed hd⟩
  rcases hg.settled hd with hj | ⟨l, after, hl, hafter, -, hways⟩
  · rw [hempty] at hj
    cases hj
  · exact ⟨l, after, hl, hafter, hways⟩

def Flow.summary (n : Nat) (f : Flow) : Summary :=
  ⟨n, f.maxStack, f.maxLoops⟩

theorem exploreDepths_eq_explore (code : Array Located) (starts : Array (Option Nat)) :
    exploreDepths code starts =
      (Flow.explore code starts code.size (.initial code.size)).map (Flow.summary code.size) := by
  change (Flow.explore code starts code.size (.initial code.size) >>= _) = _
  cases Flow.explore code starts code.size (.initial code.size) with
  | error e => rfl
  | ok g => rfl

theorem exploreDepths_eq_map (hstarts : ∀ t j, startAt starts t = some j → j < code.size)
    (hcode : 0 < code.size) : ∃ r, Flow.Explores code starts (.initial code.size) r ∧
      exploreDepths code starts = r.map (Flow.summary code.size) :=
  ⟨_, Flow.explore_explores hstarts (Flow.initial_explored hcode)
    (Nat.le_of_eq (Flow.initial_pending hcode)), exploreDepths_eq_explore code starts⟩

def Flow.Agrees (depthAt : Nat → Option Depth) (f : Flow) : Prop :=
  ∀ {j d}, f.depthAt j = some d → depthAt j = some d

variable {depthAt : Nat → Option Depth}

theorem reach_of_agrees (code : Array Located) {f : Flow} (hf : f.Agrees depthAt) {k : Nat}
    {d : Depth} (hd : depthAt k = some d) :
    ∃ g, f.reach code k d = .ok g ∧ g.Agrees depthAt := by
  unfold Flow.reach
  split
  · refine ⟨f.enter k d, rfl, fun {j e} he => ?_⟩
    by_cases hj : k < f.entry.size
    · rw [Flow.depthAt_enter hj] at he
      split at he
      · exact ‹j = k› ▸ Option.some.inj he ▸ hd
      · exact hf he
    · have hsame : f.enter k d = { f with queue := f.queue ++ [k] } := by
        rw [Flow.enter, Array.setIfInBounds_eq_of_size_le (Nat.le_of_not_lt hj)]
      rw [hsame] at he
      exact hf he
  · rename_i known hknown
    have heq : known = d := Option.some.inj ((hf hknown).symm.trans hd)
    exact ⟨f, if_pos heq, hf⟩

theorem followAll_of_agrees {f : Flow} (hf : f.Agrees depthAt) {ways : List (Int × Depth)}
    (hways : ∀ way ∈ ways, ∃ k, startAt starts way.1 = some k ∧ depthAt k = some way.2)
    (offset : Nat) :
    ∃ g, Flow.followAll code starts offset ways f = .ok g ∧ g.Agrees depthAt := by
  induction ways generalizing f with
  | nil => exact ⟨f, rfl, hf⟩
  | cons way ways ih =>
    obtain ⟨t, d⟩ := way
    obtain ⟨k, hk, hd⟩ := hways (t, d) List.mem_cons_self
    obtain ⟨g, hg, hgf⟩ := reach_of_agrees code hf hd
    obtain ⟨g', hg', hgf'⟩ := ih hgf fun way hw => hways way (List.mem_cons_of_mem _ hw)
    refine ⟨g', ?_, hgf'⟩
    rw [Flow.followAll, hk]
    simp only [hg, bind, Except.bind, hg']

theorem advance_of_consistent (h : Consistent code starts depthAt) {f : Flow}
    (hf : f.Agrees depthAt) (i : Nat) :
    ∃ g, f.advance code starts i = .ok g ∧ g.Agrees depthAt := by
  unfold Flow.advance
  split
  · rename_i l d hl hd
    obtain ⟨l', after, hl', hafter, hways⟩ := h.flow (hf hd)
    obtain rfl : l = l' := Option.some.inj (hl.symm.trans hl')
    simp only [hafter, bind, Except.bind]
    refine followAll_of_agrees ?_ hways l.offset
    exact fun he => hf he
  · exact ⟨_, rfl, hf⟩

/-- Where depths can agree, no order of exploring meets a flaw. -/
theorem Flow.Explores.eq_ok_of_consistent (h : Consistent code starts depthAt) {f : Flow}
    {r : Checked Flow} (hr : Explores code starts f r) (hf : f.Agrees depthAt) :
    ∃ g, r = .ok g := by
  induction hr with
  | done => exact ⟨_, rfl⟩
  | @flawed f i rest e hq ha =>
    have hrest : Flow.Agrees depthAt { f with queue := rest } := fun he => hf he
    obtain ⟨g, hg, -⟩ := advance_of_consistent h hrest i
    rw [ha] at hg
    cases hg
  | @round f g i rest r hq ha hr ih =>
    have hrest : Flow.Agrees depthAt { f with queue := rest } := fun he => hf he
    obtain ⟨g', hg', hagrees⟩ := advance_of_consistent h hrest i
    obtain rfl : g = g' := Except.ok.inj (ha.symm.trans hg')
    exact ih hagrees

theorem Flow.initial_agrees (h : Consistent code starts depthAt) :
    (Flow.initial code.size).Agrees depthAt := by
  obtain ⟨l, -, hl, -⟩ := h.flow h.entry
  have hcode : 0 < code.size := (Array.getElem?_eq_some_iff.mp hl).1
  intro j d hd
  rw [Flow.depthAt_initial hcode] at hd
  split at hd
  · exact ‹j = 0› ▸ hd ▸ h.entry
  · cases hd

end Exploration

end Tiered
