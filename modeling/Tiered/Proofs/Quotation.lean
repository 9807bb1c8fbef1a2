import Mathlib.Data.List.Forall2
import Tiered.Proofs.UnitNames
import Tiered.Text.Quoted

/-! Quoted text can be read back. No spelling of a character begins the spelling of another, and
none begins with a double quote, so a quotation has one reading and ends where it was ended. -/
namespace Tiered.Text

section Hexadecimal

variable {m n : Nat}

theorem digitChar_inj (hm : m < 16) (hn : n < 16) (h : m.digitChar = n.digitChar) : m = n := by
  have hall : ∀ i j : Fin 16, (i : Nat).digitChar = (j : Nat).digitChar → i = j := by decide
  exact congrArg Fin.val (hall ⟨m, hm⟩ ⟨n, hn⟩ h)

theorem mem_hexDigits {c : Char} (h : c ∈ Nat.toDigits 16 n) : ∃ d < 16, c = Nat.digitChar d := by
  induction n using Nat.strongRecOn with
  | ind n ih =>
    rw [Nat.toDigits_eq_if (by decide)] at h
    split at h
    · rename_i hn
      exact ⟨n, hn, List.mem_singleton.mp h⟩
    · rcases List.mem_append.mp h with h | h
      · exact ih _ (by omega) h
      · exact ⟨n % 16, Nat.mod_lt _ (by decide), List.mem_singleton.mp h⟩

theorem brace_notMem_hexDigits (n : Nat) : '\x7d' ∉ Nat.toDigits 16 n := by
  intro h
  obtain ⟨d, hd, heq⟩ := mem_hexDigits h
  have hall : ∀ i : Fin 16, '\x7d' ≠ (i : Nat).digitChar := by decide
  exact hall ⟨d, hd⟩ heq

theorem hexDigits_inj (h : Nat.toDigits 16 m = Nat.toDigits 16 n) : m = n := by
  induction m using Nat.strongRecOn generalizing n with
  | ind m ih =>
    rw [Nat.toDigits_eq_if (by decide), Nat.toDigits_eq_if (n := n) (by decide)] at h
    have hlong (k : Nat) (c d : Char) : [c] ≠ Nat.toDigits 16 k ++ [d] := by
      intro heq
      have hlen := congrArg List.length heq
      simp at hlen
    split at h <;> split at h
    · exact digitChar_inj ‹_› ‹_› (List.singleton_inj.mp h)
    · exact absurd h (hlong _ _ _)
    · exact absurd h.symm (hlong _ _ _)
    · obtain ⟨hhigh, hlow⟩ := List.append_inj' h rfl
      have hdiv := ih (m / 16) (by omega) hhigh
      have hmod := digitChar_inj (Nat.mod_lt _ (by decide)) (Nat.mod_lt _ (by decide))
        (List.singleton_inj.mp hlow)
      omega

end Hexadecimal

/-- Characters with an escape of two characters, and the second of these. -/
def marks : List (Char × Char) :=
  [('\t', 't'), ('\r', 'r'), ('\n', 'n'), ('\x00', '0'), ('"', '"'), ('\\', '\\')]

/-- Grapheme extenders and characters that cannot be printed. -/
def Hidden (c : Char) : Prop :=
  inRanges extenders c.toNat ∨ inRanges invisible c.toNat

/-- How a quotation spells a character: by an escape of two characters where it has one, else by its
code point if it is hidden, else as it is. -/
inductive Spelling : Char → List Char → Prop
  | mark {c m : Char} : (c, m) ∈ marks → Spelling c ['\\', m]
  | code {c : Char} : c ∉ marks.map Prod.fst → Hidden c →
      Spelling c (['\\', 'u', '\x7b'] ++ Nat.toDigits 16 c.toNat ++ ['\x7d'])
  | self {c : Char} : c ∉ marks.map Prod.fst → ¬Hidden c → Spelling c [c]

theorem inRanges_eq_false {ranges : List (Nat × Nat)} {low n : Nat}
    (h : ranges.all (fun r => low ≤ r.1) = true) (hn : n < low) : inRanges ranges n = false := by
  refine List.any_eq_false.mpr fun r hr hin => ?_
  have hlow := List.all_eq_true.mp h r hr
  simp only [decide_eq_true_eq, Bool.and_eq_true] at hlow hin
  omega

/-- The tables agree with the rule for ASCII: of its characters they list those below the space. -/
theorem isVisible_iff (c : Char) : isVisible c = true ↔ ¬Hidden c := by
  unfold isVisible Hidden
  split
  · rename_i hc
    have hextenders : inRanges extenders c.toNat = false := inRanges_eq_false (by decide +kernel) hc
    have hrest : inRanges (invisible.drop 1) c.toNat = false :=
      inRanges_eq_false (by decide +kernel) hc
    have hinvisible : inRanges invisible c.toNat =
        (decide (c.toNat ≤ 0x1f) || inRanges (invisible.drop 1) c.toNat) := by
      have hfirst : invisible = (0x0, 0x1f) :: invisible.drop 1 := rfl
      rw [hfirst]
      simp [inRanges]
    rw [hextenders, hinvisible, hrest]
    simp
    omega
  · simp

section Spelling

variable {c d : Char} {s t us vs : List Char}

theorem Spelling.eq_escapeChar (h : Spelling c s) : s = escapeChar c := by
  cases h with
  | mark h =>
    simp only [marks, List.mem_cons, Prod.mk.injEq, List.not_mem_nil, or_false] at h
    rcases h with ⟨rfl, rfl⟩ | ⟨rfl, rfl⟩ | ⟨rfl, rfl⟩ | ⟨rfl, rfl⟩ | ⟨rfl, rfl⟩ | ⟨rfl, rfl⟩
    all_goals rfl
  | code hc hhidden =>
    have hvisible : isVisible c = false := by
      rw [← Bool.not_eq_true, isVisible_iff]
      exact not_not.mpr hhidden
    simp_all [marks, escapeChar]
  | self hc hshown =>
    have hvisible : isVisible c = true := (isVisible_iff c).mpr hshown
    simp_all [marks, escapeChar]

theorem spelling_escapeChar (c : Char) : Spelling c (escapeChar c) := by
  obtain ⟨t, ht⟩ : ∃ t, Spelling c t := by
    by_cases hc : c ∈ marks.map Prod.fst
    · obtain ⟨⟨_, m⟩, hm, rfl⟩ := List.mem_map.mp hc
      exact ⟨_, .mark hm⟩
    · by_cases hhidden : Hidden c
      · exact ⟨_, .code hc hhidden⟩
      · exact ⟨_, .self hc hhidden⟩
  exact ht.eq_escapeChar ▸ ht

theorem spelling_iff : Spelling c s ↔ s = escapeChar c :=
  ⟨Spelling.eq_escapeChar, fun h => h ▸ spelling_escapeChar c⟩

/-- No spelling can be taken for the quote that ends a quotation. -/
theorem Spelling.starts (h : Spelling c s) : ∃ x r, s = x :: r ∧ x ≠ '"' := by
  cases h with
  | mark => exact ⟨_, _, rfl, by decide⟩
  | code => exact ⟨_, _, rfl, by decide⟩
  | self hc =>
    refine ⟨c, [], rfl, ?_⟩
    rintro rfl
    exact hc (by decide)

/-- A character that stands for itself begins no escape. -/
theorem escape_ne_self (hc : c ∉ marks.map Prod.fst) : '\\' :: us ≠ c :: vs := by
  intro h
  obtain ⟨rfl, -⟩ := List.cons.inj h
  exact hc (by decide)

/-- Spellings are a prefix code: what a text starts with spells one character only. -/
theorem Spelling.append_inj (h : Spelling c s) (k : Spelling d t) (heq : s ++ us = t ++ vs) :
    c = d ∧ us = vs := by
  have hmarks : ∀ p ∈ marks, ∀ q ∈ marks, p.2 = q.2 → p.1 = q.1 := by decide
  have hnotCode : ∀ p ∈ marks, p.2 ≠ 'u' := by decide
  cases h with
  | mark h =>
    cases k with
    | mark k =>
      simp only [List.cons_append, List.nil_append, List.cons.injEq, true_and] at heq
      exact ⟨hmarks _ h _ k heq.1, heq.2⟩
    | code =>
      simp only [List.cons_append, List.cons.injEq, true_and] at heq
      exact absurd heq.1 (hnotCode _ h)
    | self hd => exact absurd heq (escape_ne_self hd)
  | code =>
    cases k with
    | mark k =>
      simp only [List.cons_append, List.cons.injEq, true_and] at heq
      exact absurd heq.1.symm (hnotCode _ k)
    | code =>
      -- The digits are of no fixed number, but none of them is the brace that ends them.
      simp only [List.cons_append, List.nil_append, List.append_assoc, List.cons.injEq,
        true_and] at heq
      obtain ⟨hdigits, hrest⟩ :=
        (append_sign_inj (brace_notMem_hexDigits _) (brace_notMem_hexDigits _)).mp heq
      exact ⟨Char.toNat_inj.mp (hexDigits_inj hdigits), hrest⟩
    | self hd => exact absurd heq (escape_ne_self hd)
  | self hc =>
    cases k with
    | mark => exact absurd heq.symm (escape_ne_self hc)
    | code => exact absurd heq.symm (escape_ne_self hc)
    | self => exact List.cons.inj heq

end Spelling

theorem escape_cons (c : Char) (cs : List Char) : escape (c :: cs) = escapeChar c ++ escape cs :=
  List.flatMap_cons

theorem quote_cons_ne_escape (c : Char) (cs us vs : List Char) :
    '"' :: us ≠ escape (c :: cs) ++ vs := by
  obtain ⟨x, r, hx, hne⟩ := (spelling_escapeChar c).starts
  rw [escape_cons, hx]
  intro h
  exact hne (List.cons.inj h).1.symm

/-- The first quote that is not part of a spelling ends the quotation. -/
theorem escape_quote_inj {cs ds us vs : List Char}
    (h : escape cs ++ '"' :: us = escape ds ++ '"' :: vs) : cs = ds ∧ us = vs := by
  induction cs generalizing ds with
  | nil =>
    cases ds with
    | nil => exact ⟨rfl, (List.cons.inj h).2⟩
    | cons d ds => exact absurd h (quote_cons_ne_escape d ds us _)
  | cons c cs ih =>
    cases ds with
    | nil => exact absurd h.symm (quote_cons_ne_escape c cs vs _)
    | cons d ds =>
      rw [escape_cons, escape_cons, List.append_assoc, List.append_assoc] at h
      obtain ⟨rfl, hrest⟩ := (spelling_escapeChar c).append_inj (spelling_escapeChar d) h
      obtain ⟨rfl, hus⟩ := ih hrest
      exact ⟨rfl, hus⟩

theorem toList_quote (s : String) : (quote s).toList = '"' :: (escape s.toList ++ ['"']) := by
  rw [quote, String.toList_ofList]
  rfl

theorem quote_append_inj {s t : String} {us vs : List Char}
    (h : (quote s).toList ++ us = (quote t).toList ++ vs) : s = t ∧ us = vs := by
  simp only [toList_quote, List.cons_append, List.append_assoc, List.nil_append, List.cons.injEq,
    true_and] at h
  obtain ⟨hs, hrest⟩ := escape_quote_inj h
  exact ⟨String.toList_inj.mp hs, hrest⟩

/-- `t` spells the characters of `s` one after the other, between double quotes. -/
def Quotation (s t : List Char) : Prop :=
  ∃ parts, List.Forall₂ Spelling s parts ∧ t = '"' :: parts.flatten ++ ['"']

theorem forall₂_spelling_iff {cs : List Char} {parts : List (List Char)} :
    List.Forall₂ Spelling cs parts ↔ parts = cs.map escapeChar := by
  induction cs generalizing parts with
  | nil => simp
  | cons c cs ih => simp [List.forall₂_cons_left_iff, spelling_iff, ih]

/-- A text has one quotation. -/
theorem quotation_iff {s : String} {t : List Char} :
    Quotation s.toList t ↔ t = (quote s).toList := by
  simp only [Quotation, forall₂_spelling_iff, exists_eq_left, toList_quote]
  rfl

end Tiered.Text
