import Mathlib.Data.Finset.Card
import Tiered.Specializer.Basic

/-! What a specializer is asked for over time, and what its cache holds after that: the functions
looked up last, as many as it has room for. -/
namespace Tiered

/-- What is asked of a specializer: to compile a function past its cache, or to look it up. -/
inductive Request where
  | compile (fn : FunctionDef)
  | lookup (fn : FunctionDef)

namespace Request

def fn : Request → FunctionDef
  | compile fn | lookup fn => fn

def lookedUp? : Request → Option FunctionId
  | compile _ => none
  | lookup fn => some fn.id

end Request

def lookups (past : List Request) : List FunctionId :=
  past.filterMap Request.lookedUp?

namespace Specializer

def answer (s : Specializer) : Request → Attempt Specializer
  | .compile fn => s.compile fn
  | .lookup fn => s.lookup fn

def afterAll (s : Specializer) (past : List Request) : Specializer :=
  past.foldl (fun s r => (s.answer r).after) s

@[simp] theorem afterAll_nil (s : Specializer) : s.afterAll [] = s := rfl

@[simp] theorem afterAll_snoc (s : Specializer) (past : List Request) (r : Request) :
    s.afterAll (past ++ [r]) = ((s.afterAll past).answer r).after := by
  simp [afterAll]

end Specializer

section Recency

/-- Since the last time that `b` was looked up, `a` was looked up. -/
def UsedSince (past : List FunctionId) (a b : FunctionId) : Prop :=
  ∃ before since, past = before ++ b :: since ∧ b ∉ since ∧ a ∈ since

/-- `id` was looked up, and fewer than `k` others have been since the last time. -/
def RecentWithin (past : List FunctionId) (k : Nat) (id : FunctionId) : Prop :=
  ∃ before since, past = before ++ id :: since ∧ id ∉ since ∧ since.toFinset.card < k

/-- The identities of a history without repetitions, the one looked up last in front. -/
def recency (past : List FunctionId) : List FunctionId :=
  past.foldl (fun ids id => id :: ids.filter (· != id)) []

@[simp] theorem recency_nil : recency [] = [] := rfl

@[simp] theorem recency_snoc (past : List FunctionId) (id : FunctionId) :
    recency (past ++ [id]) = id :: (recency past).filter (· != id) := by
  simp [recency]

@[simp] theorem mem_recency {past : List FunctionId} {a : FunctionId} :
    a ∈ recency past ↔ a ∈ past := by
  induction past using List.reverseRecOn with
  | nil => simp
  | append_singleton past id ih =>
    by_cases h : a = id <;> simp [ih, h]

theorem nodup_recency (past : List FunctionId) : (recency past).Nodup := by
  induction past using List.reverseRecOn with
  | nil => simp
  | append_singleton past id ih =>
    rw [recency_snoc]
    exact List.nodup_cons.mpr ⟨by simp, ih.filter _⟩

theorem length_recency (past : List FunctionId) :
    (recency past).length = past.toFinset.card := by
  rw [← List.toFinset_card_of_nodup (nodup_recency past)]
  congr 1
  ext a
  simp

/-- What came later is in front. -/
theorem recency_append (before since : List FunctionId) :
    recency (before ++ since) = recency since ++ (recency before).filter (· ∉ since) := by
  induction since using List.reverseRecOn with
  | nil => simp
  | append_singleton since id ih =>
    rw [← List.append_assoc, recency_snoc, recency_snoc, ih, List.filter_append, List.filter_filter,
      List.cons_append]
    congr 2
    apply List.filter_congr
    intro a _
    by_cases h : a = id <;> simp [h]

theorem exists_last_use {past : List FunctionId} {id : FunctionId} (h : id ∈ past) :
    ∃ before since, past = before ++ id :: since ∧ id ∉ since := by
  obtain ⟨since, before, heq, hnot⟩ := List.eq_append_cons_of_mem (List.mem_reverse.mpr h)
  refine ⟨before.reverse, since.reverse, ?_, by simpa using hnot⟩
  rw [← List.reverse_reverse past, heq]
  simp

/-- In front of `id` stand those that were looked up since its own last time. -/
theorem recency_of_last_use {before since : List FunctionId} {id : FunctionId} (h : id ∉ since) :
    recency (before ++ id :: since) =
      recency since ++ id :: (recency before).filter (· ∉ id :: since) := by
  have hlast : recency (id :: since) = recency since ++ [id] := by
    have happend := recency_append [id] since
    simpa [recency, h] using happend
  rw [recency_append, hlast, List.append_assoc]
  rfl

theorem usedSince_of_recency_eq {past xs ys : List FunctionId} {a b : FunctionId}
    (h : recency past = xs ++ b :: ys) (ha : a ∈ xs) : UsedSince past a b := by
  have hmem : b ∈ past := mem_recency.mp (by rw [h]; simp)
  obtain ⟨before, since, rfl, hnot⟩ := exists_last_use hmem
  have hsince : b ∉ recency since := by simpa using hnot
  have hrest : b ∉ (recency before).filter (· ∉ b :: since) := by simp
  rw [recency_of_last_use hnot] at h
  obtain ⟨rfl, -⟩ := (List.append_cons_inj_of_notMem hsince hrest).mp h
  exact ⟨before, since, rfl, hnot, mem_recency.mp ha⟩

/-- The first `k` of the most recent identities are those looked up recently. -/
theorem mem_take_recency {past : List FunctionId} {k : Nat} {id : FunctionId} :
    id ∈ (recency past).take k ↔ RecentWithin past k id := by
  constructor
  · intro h
    obtain ⟨before, since, rfl, hnot⟩ := exists_last_use (mem_recency.mp (List.mem_of_mem_take h))
    refine ⟨before, since, rfl, hnot, ?_⟩
    rw [recency_of_last_use hnot] at h
    rw [← length_recency]
    by_contra hle
    rw [List.take_append_of_le_length (by omega)] at h
    exact hnot (mem_recency.mp (List.mem_of_mem_take h))
  · rintro ⟨before, since, rfl, hnot, hlt⟩
    rw [← length_recency] at hlt
    rw [recency_of_last_use hnot, List.take_append]
    apply List.mem_append_right
    obtain ⟨n, hn⟩ : ∃ n, k - (recency since).length = n + 1 :=
      ⟨k - (recency since).length - 1, by omega⟩
    rw [hn, List.take_succ_cons]
    exact List.mem_cons_self

end Recency

section Promotion

variable {ids : List FunctionId} {id : FunctionId} {k : Nat}

theorem filter_ne_of_not_mem {xs : List FunctionId} (h : id ∉ xs) : xs.filter (· != id) = xs := by
  apply List.filter_eq_self.mpr
  intro a ha
  exact bne_iff_ne.mpr fun heq => h (heq ▸ ha)

/-- An identity among the first `k` moves to the front. -/
theorem take_promote_of_mem (hn : ids.Nodup) (h : id ∈ ids.take k) :
    id :: (ids.take k).filter (· != id) = (id :: ids.filter (· != id)).take k := by
  have hpos : 0 < (ids.take k).length := List.length_pos_of_mem h
  obtain ⟨n, rfl⟩ : ∃ n, k = n + 1 := ⟨k - 1, by rw [List.length_take] at hpos; omega⟩
  have hsplit := List.take_append_drop (n + 1) ids
  have hdrop : id ∉ ids.drop (n + 1) := by
    rw [← hsplit] at hn
    exact fun hd => (List.nodup_append.mp hn).2.2 id h id hd rfl
  have hlen : ((ids.take (n + 1)).filter (· != id)).length = (ids.take (n + 1)).length - 1 := by
    have htake : (ids.take (n + 1)).Nodup := (List.take_sublist _ _).nodup hn
    rw [← htake.erase_eq_filter, List.length_erase_of_mem h]
  have hids : ids.filter (· != id) = (ids.take (n + 1)).filter (· != id) ++ ids.drop (n + 1) := by
    conv_lhs => rw [← hsplit]
    rw [List.filter_append, filter_ne_of_not_mem hdrop]
  rw [List.take_succ_cons, hids, List.take_append]
  rw [List.length_take] at hlen
  have hfront : ((ids.take (n + 1)).filter (· != id)).take n =
      (ids.take (n + 1)).filter (· != id) := List.take_of_length_le (by omega)
  have hback : (ids.drop (n + 1)).take (n - ((ids.take (n + 1)).filter (· != id)).length) = [] := by
    apply List.length_eq_zero_iff.mp
    rw [List.length_take, List.length_drop]
    omega
  rw [hfront, hback, List.append_nil]

/-- A new identity takes the place of the last of `k`. -/
theorem take_promote_of_not_mem (hk : 0 < k) (h : id ∉ ids.take k) :
    id :: (if (ids.take k).length < k then ids.take k else (ids.take k).dropLast) =
      (id :: ids.filter (· != id)).take k := by
  obtain ⟨n, rfl⟩ : ∃ n, k = n + 1 := ⟨k - 1, by omega⟩
  have hids : ids.filter (· != id) =
      ids.take (n + 1) ++ (ids.drop (n + 1)).filter (· != id) := by
    conv_lhs => rw [← List.take_append_drop (n + 1) ids]
    rw [List.filter_append, filter_ne_of_not_mem h]
  rw [List.take_succ_cons, hids]
  congr 1
  split
  · rename_i hlt
    rw [List.length_take] at hlt
    have hdrop : ids.drop (n + 1) = [] := List.drop_eq_nil_of_le (by omega)
    rw [hdrop, List.filter_nil, List.append_nil]
    exact (List.take_of_length_le (by rw [List.length_take]; omega)).symm
  · rename_i hge
    rw [List.take_append_of_le_length (by omega), List.dropLast_eq_take]
    congr 1
    have := List.length_take_le (n + 1) ids
    omega

end Promotion

namespace Specializer

/-- Compiling counts, and makes use of the loader; it leaves all else alone. -/
theorem compile_after (s : Specializer) (fn : FunctionDef) :
    ∃ loader compiles failures, (s.compile fn).after =
      { s with loader := loader, compiles := compiles, failures := failures } := by
  unfold compile
  split
  · exact ⟨s.loader, s.compiles, s.failures, rfl⟩
  · cases fn.lower with
    | error e => exact ⟨_, _, _, rfl⟩
    | ok code =>
      simp only
      split <;> exact ⟨_, _, _, rfl⟩

/-- The lookup is answered from the cache: it counts as a hit, and nothing is compiled. -/
structure Hits (s : Specializer) (fn : FunctionDef) : Prop where
  remembered : s.cache.find? fn.id = some (s.lookup fn).result
  hits : (s.lookup fn).after.hits = s.hits + 1
  compiles : (s.lookup fn).after.compiles = s.compiles
  loader : (s.lookup fn).after.loader = s.loader

/-- The lookup compiles the function, and does not count as a hit. -/
structure Misses (s : Specializer) (fn : FunctionDef) : Prop where
  compiled : (s.lookup fn).result = (s.compile fn).result
  hits : (s.lookup fn).after.hits = s.hits
  compiles : (s.lookup fn).after.compiles = (s.compile fn).after.compiles
  loader : (s.lookup fn).after.loader = (s.compile fn).after.loader

section Lookup

variable {s : Specializer} {fn : FunctionDef}

/-- What is remembered comes to the front of the cache. -/
theorem lookup_hit (h : fn.id ∈ s.cache.ids) :
    ∃ result, s.cache.find? fn.id = some result ∧ s.lookup fn =
      ⟨result, { s with cache := s.cache.touch fn.id result, hits := s.hits + 1 }, []⟩ := by
  cases hfind : s.cache.find? fn.id with
  | none => exact absurd h ((s.cache.find?_eq_none_iff fn.id).mp hfind)
  | some result => exact ⟨result, rfl, by rw [lookup, hfind]⟩

/-- What is not remembered is compiled, and comes to the front in place of what it drives out. -/
theorem lookup_miss (h : fn.id ∉ s.cache.ids) :
    (s.lookup fn).result = (s.compile fn).result ∧
    (s.lookup fn).after =
      { (s.compile fn).after with
        cache := s.cache.insert fn.id (s.compile fn).result
        evictions := s.evictions + s.cache.victim?.toList.length } := by
  have hfind := (s.cache.find?_eq_none_iff fn.id).mpr h
  constructor <;> rw [lookup, hfind]

theorem lookup_of_mem (h : fn.id ∈ s.cache.ids) :
    s.Hits fn ∧ (s.lookup fn).after.cache.ids = fn.id :: s.cache.ids.filter (· != fn.id) ∧
      (s.lookup fn).after.evictions = s.evictions := by
  obtain ⟨result, hfind, hlookup⟩ := lookup_hit h
  refine ⟨⟨?_, ?_, ?_, ?_⟩, ?_, ?_⟩
  · rw [hfind, hlookup]
  all_goals rw [hlookup]
  exact s.cache.ids_touch _ _

theorem lookup_of_not_mem (h : fn.id ∉ s.cache.ids) :
    s.Misses fn ∧
      (s.lookup fn).after.cache.ids = fn.id ::
        (if s.cache.ids.length < s.cache.capacity then s.cache.ids else s.cache.ids.dropLast) ∧
      (s.lookup fn).after.evictions = s.evictions + s.cache.victim?.toList.length := by
  obtain ⟨loader, compiles, failures, hafter⟩ := s.compile_after fn
  have hhits : (s.compile fn).after.hits = s.hits := by rw [hafter]
  obtain ⟨hresult, hlookup⟩ := lookup_miss h
  refine ⟨⟨hresult, ?_, ?_, ?_⟩, ?_, ?_⟩
  all_goals rw [hlookup]
  · exact hhits
  · exact s.cache.ids_insert _ _

theorem not_hits_of_misses (h : s.Misses fn) : ¬s.Hits fn := by
  intro hhits
  have := hhits.hits
  rw [h.hits] at this
  omega

end Lookup

/-- The cache has room for `k` identities, and holds those of `past` that were looked up last. -/
structure Tracks (s : Specializer) (k : Nat) (past : List FunctionId) : Prop where
  capacity : s.cache.capacity = k
  ids : s.cache.ids = (recency past).take k

namespace Tracks

variable {s : Specializer} {k : Nat} {past : List FunctionId}

theorem mem_ids (h : s.Tracks k past) {id : FunctionId} :
    id ∈ s.cache.ids ↔ RecentWithin past k id := by
  rw [h.ids]
  exact mem_take_recency

theorem lookup (h : s.Tracks k past) (hk : 0 < k) (fn : FunctionDef) :
    (s.lookup fn).after.Tracks k (past ++ [fn.id]) := by
  have hcapacity : (s.lookup fn).after.cache.capacity = k := by
    rw [← h.capacity, Specializer.lookup]
    split <;> rfl
  refine ⟨hcapacity, ?_⟩
  rw [recency_snoc]
  by_cases hmem : fn.id ∈ s.cache.ids
  · rw [(lookup_of_mem hmem).2.1, h.ids]
    exact take_promote_of_mem (nodup_recency past) (h.ids ▸ hmem)
  · rw [(lookup_of_not_mem hmem).2.1, h.ids, h.capacity]
    exact take_promote_of_not_mem hk (h.ids ▸ hmem)

theorem compile (h : s.Tracks k past) (fn : FunctionDef) :
    (s.compile fn).after.Tracks k past := by
  obtain ⟨loader, compiles, failures, hafter⟩ := s.compile_after fn
  rw [hafter]
  exact ⟨h.capacity, h.ids⟩

end Tracks

theorem afterAll_tracks (settings : SpecializerSettings) (past : List Request) :
    ((ofSettings settings).afterAll past).Tracks settings.cacheSize (lookups past) := by
  induction past using List.reverseRecOn with
  | nil => exact ⟨rfl, by simp [lookups, ofSettings, Cache.ids]⟩
  | append_singleton past r ih =>
    rw [afterAll_snoc, lookups, List.filterMap_append]
    cases r with
    | compile fn =>
      have hsame := ih.compile fn
      rw [← List.append_nil (lookups past)] at hsame
      exact hsame
    | lookup fn => exact ih.lookup settings.cacheSize_pos fn

/-- The cache holds the `k` identities of `past` that were looked up last, or all if they are
fewer. -/
structure HoldsRecent (s : Specializer) (k : Nat) (past : List FunctionId) : Prop where
  nodup : s.cache.ids.Nodup
  looked : s.cache.ids ⊆ past
  length : s.cache.ids.length = min k past.toFinset.card
  recent : ∀ a ∈ s.cache.ids, ∀ b ∈ past, b ∉ s.cache.ids → UsedSince past a b

/-- What a lookup drives out of the cache: nothing, unless the function is not there and the cache
is full. Then it is the identity whose own last lookup is longest ago, and no other. -/
structure Evicts (s : Specializer) (k : Nat) (past : List FunctionId) (fn : FunctionDef)
    (evicted : Option FunctionId) : Prop where
  full : evicted.isSome ↔ ¬RecentWithin past k fn.id ∧ k ≤ past.toFinset.card
  counted : (s.lookup fn).after.evictions = s.evictions + evicted.toList.length
  oldest : ∀ v ∈ evicted, v ∈ s.cache.ids ∧ ∀ a ∈ s.cache.ids, a ≠ v → UsedSince past a v
  others : ∀ a, a ∈ (s.lookup fn).after.cache.ids ↔ a = fn.id ∨ a ∈ s.cache.ids ∧ a ∉ evicted

namespace Tracks

variable {s : Specializer} {k : Nat} {past : List FunctionId} (h : s.Tracks k past)
include h

theorem length_ids : s.cache.ids.length = min k past.toFinset.card := by
  rw [h.ids, List.length_take, length_recency]

theorem holdsRecent : s.HoldsRecent k past where
  nodup := by
    rw [h.ids]
    exact (List.take_sublist _ _).nodup (nodup_recency past)
  looked a ha := by
    rw [h.ids] at ha
    exact mem_recency.mp (List.mem_of_mem_take ha)
  length := h.length_ids
  recent a ha b hb hnot := by
    rw [h.ids] at ha hnot
    -- `b` stands behind the first `k`, and those are in front of it.
    have hdrop : b ∈ (recency past).drop k := by
      have hmem : b ∈ (recency past).take k ++ (recency past).drop k := by simpa using hb
      exact (List.mem_append.mp hmem).resolve_left hnot
    obtain ⟨xs, ys, hxs⟩ := List.mem_iff_append.mp hdrop
    have hall : recency past = ((recency past).take k ++ xs) ++ b :: ys := by
      rw [List.append_assoc, ← hxs, List.take_append_drop]
    exact usedSince_of_recency_eq hall (List.mem_append_left _ ha)

/-- The last of the identities in the cache is the one looked up longest ago. -/
theorem usedSince_last {v : FunctionId} (hv : s.cache.ids.getLast? = some v) {a : FunctionId}
    (ha : a ∈ s.cache.ids) (hne : a ≠ v) : UsedSince past a v := by
  obtain ⟨xs, hxs⟩ := List.getLast?_eq_some_iff.mp hv
  have hall : recency past = xs ++ v :: (recency past).drop k := by
    rw [List.append_cons, ← hxs, h.ids, List.take_append_drop]
  rw [hxs, List.mem_append, List.mem_singleton] at ha
  exact usedSince_of_recency_eq hall (ha.resolve_right hne)

theorem evicts_of_mem {fn : FunctionDef} (hmem : fn.id ∈ s.cache.ids) :
    s.Evicts k past fn none where
  full := by simp [h.mem_ids.mp hmem]
  counted := (lookup_of_mem hmem).2.2
  oldest := nofun
  others a := by
    rw [(lookup_of_mem hmem).2.1]
    by_cases ha : a = fn.id <;> simp [ha]

theorem evicts_of_room {fn : FunctionDef} (hmem : fn.id ∉ s.cache.ids)
    (hroom : s.cache.ids.length < k) : s.Evicts k past fn none := by
  obtain ⟨-, hids, hevictions⟩ := lookup_of_not_mem hmem
  rw [h.capacity, if_pos hroom] at hids
  have hvictim : s.cache.victim? = none := by
    rw [Cache.victim?, h.capacity, ← List.length_map (f := Prod.fst)]
    exact if_pos hroom
  rw [hvictim] at hevictions
  have hfew := h.length_ids
  exact
    { full := iff_of_false nofun fun hfull => by have := hfull.2; omega
      counted := hevictions
      oldest := nofun
      others := fun a => by simp [hids] }

theorem evicts_of_full {fn : FunctionDef} (hmem : fn.id ∉ s.cache.ids) (hk : 0 < k)
    (hfull : ¬s.cache.ids.length < k) : ∃ v, s.Evicts k past fn (some v) := by
  obtain ⟨-, hids, hevictions⟩ := lookup_of_not_mem hmem
  rw [h.capacity, if_neg hfull] at hids
  obtain ⟨xs, v, hxs⟩ : ∃ xs v, s.cache.ids = xs ++ [v] := by
    have hne : s.cache.ids ≠ [] := List.ne_nil_of_length_pos (by omega)
    exact ⟨_, _, (List.dropLast_append_getLast hne).symm⟩
  have hlast : s.cache.ids.getLast? = some v := by rw [hxs, List.getLast?_concat]
  have hvictim : s.cache.victim? = some v := by
    rw [Cache.victim?, h.capacity, ← List.length_map (f := Prod.fst), ← hlast]
    exact if_neg hfull
  rw [hvictim] at hevictions
  rw [hxs, List.dropLast_concat] at hids
  have hv : v ∉ xs := by
    have hnodup := h.holdsRecent.nodup
    rw [hxs] at hnodup
    exact fun hv => (List.nodup_append.mp hnodup).2.2 v hv v List.mem_cons_self rfl
  have hmany := h.length_ids
  refine ⟨v, ?_, hevictions, ?_, ?_⟩
  · have hold : ¬RecentWithin past k fn.id := fun hrecent => hmem (h.mem_ids.mpr hrecent)
    simp only [Option.isSome_some, true_iff]
    exact ⟨hold, by omega⟩
  · rintro _ ⟨⟩
    exact ⟨by simp [hxs], fun a ha hne => h.usedSince_last hlast ha hne⟩
  · intro a
    rw [hids, hxs]
    by_cases ha : a = v
    · subst ha
      simp [hv]
    · simp [ha, Ne.symm ha]

end Tracks

end Specializer

open Specializer

/-- The cache of a specializer after any history of requests. It holds the functions looked up last,
as many as there is room for. It answers a lookup exactly if the function was looked up before and
fewer others than it has room for were looked up since, and otherwise the function is compiled. What
is driven out is the function whose last lookup is longest ago. -/
theorem cache_by_recency (settings : SpecializerSettings) (past : List Request) :
    ((ofSettings settings).afterAll past).HoldsRecent settings.cacheSize (lookups past) ∧
    ∀ fn : FunctionDef,
      (((ofSettings settings).afterAll past).Hits fn ↔
        RecentWithin (lookups past) settings.cacheSize fn.id) ∧
      (¬((ofSettings settings).afterAll past).Hits fn →
        ((ofSettings settings).afterAll past).Misses fn) ∧
      ∃ evicted, ((ofSettings settings).afterAll past).Evicts settings.cacheSize (lookups past) fn
        evicted := by
  have htracks := afterAll_tracks settings past
  refine ⟨htracks.holdsRecent, fun fn => ?_⟩
  rw [← htracks.mem_ids]
  by_cases hmem : fn.id ∈ ((ofSettings settings).afterAll past).cache.ids
  · have hhits := (lookup_of_mem hmem).1
    exact ⟨iff_of_true hhits hmem, fun hn => absurd hhits hn, none, htracks.evicts_of_mem hmem⟩
  · have hmisses := (lookup_of_not_mem hmem).1
    refine ⟨iff_of_false (not_hits_of_misses hmisses) hmem, fun _ => hmisses, ?_⟩
    by_cases hroom : ((ofSettings settings).afterAll past).cache.ids.length < settings.cacheSize
    · exact ⟨none, htracks.evicts_of_room hmem hroom⟩
    · obtain ⟨v, hv⟩ := htracks.evicts_of_full hmem settings.cacheSize_pos hroom
      exact ⟨some v, hv⟩

end Tiered
