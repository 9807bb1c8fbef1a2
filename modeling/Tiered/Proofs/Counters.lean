import Tiered.Proofs.CacheCoherence

/-! The counters of a specializer balance after any history of requests: every lookup is a hit or a
miss, every miss left an entry that is still there or was driven out, and every function compiled
was loaded or failed. While programs run, the requests are those of the deeds themselves and one
lookup for each closure that is made. -/
namespace Tiered

def Request.isCompile : Request → Bool
  | compile _ => true
  | lookup _ => false

/-- How many requests of a history go past the cache. -/
def compileCalls (past : List Request) : Nat :=
  past.countP Request.isCompile

namespace Specializer

def missCount (s : Specializer) : List Request → Nat
  | [] => 0
  | .compile fn :: rest => (s.compile fn).after.missCount rest
  | .lookup fn :: rest =>
    (if fn.id ∈ s.cache.ids then 0 else 1) + (s.lookup fn).after.missCount rest

/-- The counters after a history of requests balance, and agree with what was asked. -/
structure Balanced (s : Specializer) (settings : SpecializerSettings) (past : List Request) :
    Prop where
  bounded : s.stats.cachedFunctions ≤ settings.cacheSize
  answered : (lookups past).length = s.stats.cacheHits + (ofSettings settings).missCount past
  kept : (ofSettings settings).missCount past = s.stats.cachedFunctions + s.stats.evictions
  outcomes : s.stats.compiles = s.stats.failures + s.stats.unitsLoaded
  rejected : s.stats.rejected ≤ s.stats.failures
  numbered : s.loader.sequence = s.stats.unitsLoaded + s.stats.rejected
  enabled : settings.enabled = true →
    s.stats.compiles = (ofSettings settings).missCount past + compileCalls past
  disabled : settings.enabled = false →
    s.stats.compiles = 0 ∧ s.stats.failures = 0 ∧ s.stats.unitsLoaded = 0 ∧ s.stats.rejected = 0

section Compiling

/-- All that compiling can do: a disabled specializer stays as it is; otherwise the function cannot
be lowered, or the loader rejects its unit, or loads it. -/
theorem compile_cases (s : Specializer) (fn : FunctionDef) :
    (s.settings.enabled = false ∧ (s.compile fn).after = s) ∨
    s.settings.enabled = true ∧
      ((s.compile fn).after =
          { s with compiles := s.compiles + 1, failures := s.failures + 1 } ∨
        (s.compile fn).after =
          { s with
            compiles := s.compiles + 1
            failures := s.failures + 1
            loader :=
              { s.loader with
                sequence := s.loader.sequence + 1, rejected := s.loader.rejected + 1 } } ∨
        (s.compile fn).after =
          { s with
            compiles := s.compiles + 1
            loader :=
              { s.loader with
                sequence := s.loader.sequence + 1, loaded := s.loader.loaded + 1 } }) := by
  unfold compile
  cases henabled : s.settings.enabled with
  | false => exact .inl ⟨rfl, rfl⟩
  | true =>
    refine .inr ⟨rfl, ?_⟩
    cases fn.lower with
    | error e => exact .inl rfl
    | ok code =>
      simp only [Loader.load]
      cases code.verify (s.loader.nameFor code.unit) with
      | error e => exact .inr (.inl rfl)
      | ok summary => exact .inr (.inr rfl)

/-- The counters of lowering and loading after `n` functions were given to it. -/
structure Compiled (s : Specializer) (n : Nat) : Prop where
  outcomes : s.compiles = s.failures + s.loader.loaded
  rejected : s.loader.rejected ≤ s.failures
  numbered : s.loader.sequence = s.loader.loaded + s.loader.rejected
  counted : s.compiles = if s.settings.enabled then n else 0

theorem Compiled.compile {s : Specializer} {n : Nat} (h : s.Compiled n) (fn : FunctionDef) :
    (s.compile fn).after.Compiled (n + 1) := by
  obtain ⟨houtcomes, hrejected, hnumbered, hcounted⟩ := h
  obtain ⟨hoff, hafter⟩ | ⟨hon, hafter | hafter | hafter⟩ := s.compile_cases fn
  · rw [hafter]
    exact ⟨houtcomes, hrejected, hnumbered, by simpa [hoff] using hcounted⟩
  all_goals
    rw [if_pos hon] at hcounted
    rw [hafter]
    refine ⟨?_, ?_, ?_, ?_⟩
    all_goals simp only [hon, if_true]
    all_goals omega

end Compiling

section Caching

/-- The cache after `looked` lookups, `missed` of which it did not answer. -/
structure Cached (s : Specializer) (looked missed : Nat) : Prop where
  capacity : s.cache.capacity = s.settings.cacheSize
  nodup : s.cache.ids.Nodup
  bounded : s.cache.ids.length ≤ s.cache.capacity
  answered : looked = s.hits + missed
  kept : missed = s.cache.ids.length + s.evictions

variable {s : Specializer} {looked missed : Nat} {fn : FunctionDef}

theorem Cached.compile (h : s.Cached looked missed) (fn : FunctionDef) :
    (s.compile fn).after.Cached looked missed := by
  obtain ⟨loader, compiles, failures, hafter⟩ := s.compile_after fn
  rw [hafter]
  exact ⟨h.capacity, h.nodup, h.bounded, h.answered, h.kept⟩

theorem Cached.hit (h : s.Cached looked missed) (hmem : fn.id ∈ s.cache.ids) :
    (s.lookup fn).after.Cached (looked + 1) missed := by
  obtain ⟨result, -, hlookup⟩ := lookup_hit hmem
  have hids := s.cache.ids_touch fn.id result
  have hfilter : s.cache.ids.filter (· != fn.id) = s.cache.ids.erase fn.id :=
    (h.nodup.erase_eq_filter fn.id).symm
  have hlength : (s.cache.touch fn.id result).ids.length = s.cache.ids.length := by
    have hpos : 0 < s.cache.ids.length := List.length_pos_of_mem hmem
    rw [hids, hfilter, List.length_cons, List.length_erase_of_mem hmem]
    omega
  have hnodup : (s.cache.touch fn.id result).ids.Nodup := by
    rw [hids]
    exact List.nodup_cons.mpr ⟨by simp, h.nodup.filter _⟩
  have hanswered := h.answered
  rw [hlookup]
  refine ⟨h.capacity, hnodup, ?_, ?_, ?_⟩
  · exact hlength.trans_le h.bounded
  · simp only
    omega
  · exact h.kept.trans (by rw [← hlength])

/-- A new entry takes a free place, or the place of one that is driven out. -/
theorem Cached.length_insert (h : s.Cached looked missed) (id : FunctionId)
    (result : Except Refusal VerifiedUnit) :
    (s.cache.insert id result).ids.length + s.cache.victim?.toList.length =
        s.cache.ids.length + 1 ∧
      (s.cache.insert id result).ids.length ≤ s.cache.capacity := by
  have hpos : 0 < s.cache.capacity := h.capacity ▸ s.settings.cacheSize_pos
  have hbounded := h.bounded
  have hentries : s.cache.entries.length = s.cache.ids.length := (List.length_map _).symm
  rw [Cache.ids_insert, Cache.victim?, hentries]
  by_cases hroom : s.cache.ids.length < s.cache.capacity
  · simp only [if_pos hroom, List.length_cons, Option.toList_none, List.length_nil]
    exact ⟨trivial, hroom⟩
  · have hne : s.cache.ids ≠ [] := List.ne_nil_of_length_pos (by omega)
    simp only [if_neg hroom, List.getLast?_eq_some_getLast hne, List.length_cons,
      List.length_dropLast, Option.toList_some, List.length_nil]
    omega

theorem Cached.miss (h : s.Cached looked missed) (hmem : fn.id ∉ s.cache.ids) :
    (s.lookup fn).after.Cached (looked + 1) (missed + 1) := by
  obtain ⟨hlength, hbounded⟩ := h.length_insert fn.id (s.compile fn).result
  obtain ⟨loader, compiles, failures, hafter⟩ := s.compile_after fn
  have hnodup : (s.cache.insert fn.id (s.compile fn).result).ids.Nodup := by
    rw [Cache.ids_insert]
    split
    · exact List.nodup_cons.mpr ⟨hmem, h.nodup⟩
    · have hsublist := List.dropLast_sublist s.cache.ids
      exact List.nodup_cons.mpr ⟨fun hid => hmem (hsublist.mem hid), hsublist.nodup h.nodup⟩
  have hanswered := h.answered
  have hkept := h.kept
  rw [(lookup_miss hmem).2, hafter]
  refine ⟨h.capacity, hnodup, hbounded, ?_, ?_⟩
  all_goals
    simp only
    omega

end Caching

/-- All counters after `looked` lookups, `missed` of which were not answered from the cache, and
after `called` functions were compiled past it. -/
structure Counts (s : Specializer) (looked missed called : Nat) : Prop where
  cached : s.Cached looked missed
  compiled : s.Compiled (missed + called)

namespace Counts

variable {s : Specializer} {looked missed called : Nat}

theorem compile (h : s.Counts looked missed called) (fn : FunctionDef) :
    (s.compile fn).after.Counts looked missed (called + 1) :=
  ⟨h.cached.compile fn, h.compiled.compile fn⟩

theorem lookup (h : s.Counts looked missed called) (fn : FunctionDef) :
    (s.lookup fn).after.Counts (looked + 1)
      (missed + if fn.id ∈ s.cache.ids then 0 else 1) called := by
  by_cases hmem : fn.id ∈ s.cache.ids
  · obtain ⟨result, -, hlookup⟩ := lookup_hit hmem
    have hcompiled := h.compiled
    rw [if_pos hmem]
    refine ⟨h.cached.hit hmem, ?_⟩
    rw [hlookup]
    exact ⟨hcompiled.outcomes, hcompiled.rejected, hcompiled.numbered, hcompiled.counted⟩
  · have hcompiled := h.compiled.compile fn
    have hcount : missed + 1 + called = missed + called + 1 := by omega
    rw [if_neg hmem]
    refine ⟨h.cached.miss hmem, ?_⟩
    rw [(lookup_miss hmem).2, hcount]
    exact ⟨hcompiled.outcomes, hcompiled.rejected, hcompiled.numbered, hcompiled.counted⟩

/-- Request by request, each is counted once. -/
theorem afterAll (h : s.Counts looked missed called) (past : List Request) :
    (s.afterAll past).Counts (looked + (lookups past).length) (missed + s.missCount past)
      (called + compileCalls past) := by
  induction past generalizing s looked missed called with
  | nil => exact h
  | cons r rest ih =>
    cases r with
    | compile fn =>
      have hrest := ih (h.compile fn)
      have hcalls : compileCalls (.compile fn :: rest) = compileCalls rest + 1 :=
        List.countP_cons_of_pos rfl
      rw [Nat.add_right_comm, Nat.add_assoc, ← hcalls] at hrest
      exact hrest
    | lookup fn =>
      have hrest := ih (h.lookup fn)
      have hlooked : (lookups (.lookup fn :: rest)).length = (lookups rest).length + 1 := rfl
      have hcalls : compileCalls (.lookup fn :: rest) = compileCalls rest :=
        List.countP_cons_of_neg nofun
      rw [Nat.add_right_comm, Nat.add_assoc, Nat.add_assoc, ← hlooked, ← hcalls] at hrest
      exact hrest

theorem ofSettings (settings : SpecializerSettings) :
    (Specializer.ofSettings settings).Counts 0 0 0 where
  cached := ⟨rfl, List.nodup_nil, Nat.zero_le _, rfl, rfl⟩
  compiled := ⟨rfl, Nat.le_refl 0, rfl, (ite_self 0).symm⟩

end Counts

theorem afterAll_settings (s : Specializer) (past : List Request) :
    (s.afterAll past).settings = s.settings := by
  induction past using List.reverseRecOn with
  | nil => rfl
  | append_singleton past r ih => rw [afterAll_snoc, answer_settings, ih]

theorem afterAll_append (s : Specializer) (past since : List Request) :
    s.afterAll (past ++ since) = (s.afterAll past).afterAll since :=
  List.foldl_append

theorem afterAll_balanced (settings : SpecializerSettings) (past : List Request) :
    ((ofSettings settings).afterAll past).Balanced settings past := by
  obtain ⟨hcached, hcompiled⟩ := (Counts.ofSettings settings).afterAll past
  have hsettings : ((ofSettings settings).afterAll past).settings = settings :=
    afterAll_settings (ofSettings settings) past
  obtain ⟨hcapacity, -, hbounded, hanswered, hkept⟩ := hcached
  obtain ⟨houtcomes, hrejected, hnumbered, hcounted⟩ := hcompiled
  simp only [Cache.ids, List.length_map, Nat.zero_add] at hbounded hanswered hkept hcounted
  rw [hcapacity, hsettings] at hbounded
  rw [hsettings] at hcounted
  refine ⟨hbounded, hanswered, hkept, houtcomes, hrejected, hnumbered, ?_, ?_⟩
  · intro hon
    rw [if_pos hon] at hcounted
    exact hcounted
  · intro hoff
    rw [if_neg (by simp [hoff])] at hcounted
    simp only [stats]
    omega

end Specializer

section Deeds

/-- Lookups of the definitions whose function values stand in the heap from place `n` on. -/
def World.lookupsFrom (n : Nat) (w : World) : List Request :=
  (w.bodies.toList.drop n).map fun b => .lookup b.1

/-- The specializer, where there is one, was asked for nothing but the function values that came to
stand in the heap from place `n` on. -/
structure World.LooksUp (s : Option Specializer) (n : Nat) (w : World) : Prop where
  size_le : n ≤ w.bodies.size
  specializer : w.specializer = s.map (·.afterAll (w.lookupsFrom n))

namespace World.LooksUp

variable {s : Option Specializer} {n : Nat} {v w : World}

/-- Only bodies and specializer count. -/
theorem same (h : v.LooksUp s n) (hbodies : w.bodies = v.bodies)
    (hs : w.specializer = v.specializer) : w.LooksUp s n where
  size_le := hbodies ▸ h.size_le
  specializer := by rw [hs, h.specializer, lookupsFrom, lookupsFrom, hbodies]

theorem start (w : World) : w.LooksUp w.specializer w.heap.size where
  size_le := by simp
  specializer := by simp [lookupsFrom, List.drop_of_length_le]

theorem allocClosure (h : w.LooksUp s n) (fn : FunctionDef) (f : FunctionRef) :
    ∃ g v, World.allocClosure fn f w = .ok g v ∧ v.LooksUp s n := by
  obtain ⟨log, heq⟩ := World.allocClosure_eq fn f w
  have hle : n ≤ w.bodies.toList.length := by simpa using h.size_le
  refine ⟨_, _, heq, ?_, ?_⟩
  · rw [World.bodies_push, Array.size_push]
    exact Nat.le_succ_of_le h.size_le
  · have hlast (s : Specializer) :
        ((s.afterAll (w.lookupsFrom n)).lookup fn).after =
          s.afterAll (w.lookupsFrom n ++ [.lookup fn]) := by
      rw [Specializer.afterAll_snoc]
      rfl
    rw [lookupsFrom, World.bodies_push, Array.toList_push, List.drop_append_of_le_length hle,
      List.map_append]
    change w.specializer.map _ = _
    rw [h.specializer, Option.map_map]
    exact congrArg (Option.map · s) (funext hlast)

end World.LooksUp

/-- Runs that ask the specializer for the closures they make and for nothing else. -/
def lookingUp (s : Option Specializer) (n : Nat) : Discipline where
  inv := World.LooksUp s n
  owns _ := True
  admits _ := True
  same h hheap hs := h.same (congrArg (Array.map _) hheap) hs
  readGlobal _ _ _ _ _ _ _ _ := trivial
  writeGlobal h f _ slot v _ := h.same (World.bodies_writeGlobal f slot v) rfl
  allocClosure {fn} _ f _ := by
    intro w hw
    obtain ⟨g, v, heq, hv⟩ := hw.allocClosure fn f
    rw [heq]
    exact ⟨trivial, hv⟩
  callable {w} _ f c _ := by
    cases c.code with
    | interpreted => exact fun _ _ => trivial
    | specialized unit => exact ⟨fun _ _ => trivial, fun _ _ _ _ => trivial⟩

/-- Builtins of the host leave it to the calls they make to ask the specializer. -/
def Deed.AsksByCalls : Deed → Prop
  | .call _ host _ _ _ => ∀ s n, host.Keeps (lookingUp s n)
  | .ask _ | .codeFor _ | .specialize _ | .interpret _ | .define _ _ _ => True

namespace World

/-- What a deed asks of the specializer. A thread that carries it looks up every definition that it
makes a closure of. -/
def requests (w : World) : Deed → List Request
  | .ask r => [r]
  | .codeFor fn | .specialize fn => [.lookup fn]
  | .interpret _ => []
  | .define t fn _ => if t.specializing then [.lookup fn] else []
  | .call t host fuel callee args =>
    if t.specializing then
      (w.perform (.call t host fuel callee args)).lookupsFrom w.heap.size
    else []

def allRequests (w : World) : List Deed → List Request
  | [] => []
  | d :: rest => w.requests d ++ (w.perform d).allRequests rest

/-- A run on a thread asks for the closures it makes, if the thread carries the specializer. -/
theorem run_lookups {α : Type} {post : α → Prop} {x : Run World α} (w : World) (t : Thread)
    (hx : Confines (lookingUp w.specializer w.heap.size).inv post x) :
    (t.run w x).world.specializer =
      w.specializer.map (·.afterAll
        (if t.specializing then (t.run w x).world.lookupsFrom w.heap.size else [])) := by
  rw [Thread.run_world]
  cases ht : t.specializing with
  | false => simp
  | true =>
    have hstart := LooksUp.start { w with depth := t.depth }
    exact (hx.settle hstart).specializer

theorem perform_requests (w : World) {d : Deed} (hd : d.AsksByCalls) :
    (w.perform d).specializer = w.specializer.map (·.afterAll (w.requests d)) := by
  cases d with
  | ask r =>
    cases hs : w.specializer with
    | none => simp [perform, hs]
    | some s =>
      obtain ⟨log, hlog⟩ := emitAll_eq (s.answer r).events
        { w with specializer := some (s.answer r).after }
      simp only [perform, hs, hlog]
      rfl
  | codeFor fn =>
    obtain ⟨log, heq⟩ := chooseCode_eq fn w
    rw [perform, settle_of_ok heq]
    rfl
  | specialize fn =>
    obtain ⟨log, heq⟩ := perform_specialize w fn
    rw [heq]
    rfl
  | interpret fn =>
    change w.specializer = w.specializer.map (·.afterAll [])
    simp
  | define t fn f =>
    obtain ⟨log, heq⟩ := allocClosure_eq fn f
      { w with depth := t.depth, specializer := if t.specializing then w.specializer else none }
    rw [perform, requests, Thread.run_world, settle_of_ok heq]
    cases t.specializing with
    | false => simp
    | true => rfl
  | call t host fuel callee args =>
    have hcalls := Discipline.applyValue (hd w.specializer w.heap.size) t.settings fuel
    exact run_lookups w t
      (hcalls callee args (fun _ _ => trivial) ⟨fun _ _ _ _ => trivial, fun _ _ _ _ => trivial⟩)

theorem performAll_requests (w : World) {history : List Deed}
    (hh : ∀ d ∈ history, d.AsksByCalls) :
    (w.performAll history).specializer = w.specializer.map (·.afterAll (w.allRequests history)) := by
  induction history generalizing w with
  | nil =>
    change w.specializer = w.specializer.map (·.afterAll [])
    simp
  | cons d rest ih =>
    obtain ⟨hd, hrest⟩ := List.forall_mem_cons.mp hh
    rw [performAll_cons, ih _ hrest, perform_requests w hd, Option.map_map, allRequests]
    congr 1
    funext s
    exact (s.afterAll_append _ _).symm

end World

end Deeds

open Specializer

/-- The counters of a specializer balance at every point of any history of requests. While programs
run they balance too, and what was asked is known: the requests that the deeds make themselves, and
a lookup for each closure that is made on a thread with the specializer. -/
theorem counters_conserved (settings : SpecializerSettings) :
    (∀ past : List Request, ((ofSettings settings).afterAll past).Balanced settings past) ∧
    ∀ history : List Deed, (∀ d ∈ history, d.AsksByCalls) →
      ∃ s, ((World.fresh settings).performAll history).specializer = some s ∧
        s = (ofSettings settings).afterAll ((World.fresh settings).allRequests history) ∧
        s.Balanced settings ((World.fresh settings).allRequests history) := by
  refine ⟨afterAll_balanced settings, ?_⟩
  intro history hh
  refine ⟨_, ?_, rfl, afterAll_balanced settings _⟩
  rw [World.performAll_requests _ hh]
  rfl

theorem callsAndLookups_counters :
    ∃ s, ((World.fresh { cacheSize := 1 }).performAll Demo.callsAndLookups).specializer = some s ∧
      s.stats = ⟨5, 2, 1, 1, 3, 3, 0⟩ ∧
      s.Balanced { cacheSize := 1 }
        ((World.fresh { cacheSize := 1 }).allRequests Demo.callsAndLookups) ∧
      lookups ((World.fresh { cacheSize := 1 }).allRequests Demo.callsAndLookups) = [5, 3, 5, 3, 3] ∧
      compileCalls ((World.fresh { cacheSize := 1 }).allRequests Demo.callsAndLookups) = 1 := by
  have hasks : ∀ d ∈ Demo.callsAndLookups, d.AsksByCalls := by
    have hkeeps (s : Option Specializer) (n : Nat) := Demo.callingHost_keeps (lookingUp s n)
    simp only [Demo.callsAndLookups, List.forall_mem_cons]
    exact ⟨trivial, trivial, hkeeps, trivial, hkeeps, trivial, hkeeps, trivial,
      List.forall_mem_nil _⟩
  have hstats : ((World.fresh { cacheSize := 1 }).performAll Demo.callsAndLookups).specializer.map
      Specializer.stats = some ⟨5, 2, 1, 1, 3, 3, 0⟩ := by decide +kernel
  obtain ⟨s, hs, -, hbalanced⟩ := (counters_conserved { cacheSize := 1 }).2 _ hasks
  rw [hs] at hstats
  exact ⟨s, hs, Option.some.inj hstats, hbalanced, by decide +kernel, by decide +kernel⟩

end Tiered
