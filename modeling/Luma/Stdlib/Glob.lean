-- SUMMARY: The glob matcher, the texts a pattern stands for, and the texts it accepts.
import Luma.Library.BigEndian
import Mathlib.Data.List.TakeWhile
import Mathlib.Tactic.Common

/-! # Glob patterns

A pattern stands for the texts that come from it by putting any sequence in place of a
`*` and one character in place of a `?`. The matcher goes through pattern and text with
one remembered `*`. It tests whether the two characters are the same before it tests for
a `*`, so that a `*` that meets a `*` in the text takes just that one character. -/

namespace Luma.Glob

open Codec

/-- `'*'`. -/
def star : UInt8 := 42

/-- `'?'`. -/
def question : UInt8 := 63

/-! ## The matcher -/

/-- The variables of the matcher's loop. The text index is not before the text position
    of the remembered star, a pair of `star_p` and `star_t`. -/
structure Cursor where
  pi : Nat
  ti : Nat
  remembered : Option (Nat × Nat)
  after : ∀ s ∈ remembered, s.2 ≤ ti

namespace Cursor

def start : Cursor where
  pi := 0
  ti := 0
  remembered := none
  after := by simp

/-- One character of the pattern and one of the text. -/
def both (c : Cursor) : Cursor where
  pi := c.pi + 1
  ti := c.ti + 1
  remembered := c.remembered
  after := fun s hs => Nat.le_succ_of_le (c.after s hs)

/-- Remember the star of the pattern. -/
def remember (c : Cursor) : Cursor where
  pi := c.pi + 1
  ti := c.ti
  remembered := some (c.pi, c.ti)
  after := by
    intro s hs
    rw [← Option.mem_some.mp hs]

/-- Go back to the star `s`, one character of the text further on. -/
def backtrack (s : Nat × Nat) : Cursor where
  pi := s.1 + 1
  ti := s.2 + 1
  remembered := some (s.1, s.2 + 1)
  after := by
    intro s' hs
    rw [← Option.mem_some.mp hs]

end Cursor

/-- The text after the remembered star, which only gets shorter. -/
def Cursor.ahead (text : Bytes) (c : Cursor) : Nat :=
  match c.remembered with
  | none => text.length + 1
  | some s => text.length - s.2

/-- The index after the stars that start at `pi`. -/
def skipStars (pattern : Bytes) (pi : Nat) : Nat := pi + ((pattern.drop pi).takeWhile (· == star)).length

theorem ahead_remember_le {text : Bytes} {c : Cursor} : c.remember.ahead text ≤ c.ahead text := by
  have hafter := c.after
  unfold Cursor.ahead
  cases hs : c.remembered with
  | none =>
    simp only [Cursor.remember]
    omega
  | some s =>
    have hle : s.2 ≤ c.ti := hafter s (by rw [hs]; rfl)
    simp only [Cursor.remember]
    omega

theorem ahead_backtrack_lt {text : Bytes} {c : Cursor} {s : Nat × Nat} (hs : c.remembered = some s)
    (hti : c.ti < text.length) : (Cursor.backtrack s).ahead text < c.ahead text := by
  have hle : s.2 ≤ c.ti := c.after s (by rw [hs]; rfl)
  simp only [Cursor.ahead, hs, Cursor.backtrack]
  omega

/-- The matcher's loop. -/
def globLoop (pattern text : Bytes) (c : Cursor) : Bool :=
  if _hti : c.ti < text.length then
    if _hboth : c.pi < pattern.length ∧ (pattern[c.pi]? = some question ∨ pattern[c.pi]? = text[c.ti]?) then
      globLoop pattern text c.both
    else if _hstar : c.pi < pattern.length ∧ pattern[c.pi]? = some star then
      globLoop pattern text c.remember
    else
      match _hs : c.remembered with
      | some s => globLoop pattern text (Cursor.backtrack s)
      | none => false
  else skipStars pattern c.pi == pattern.length
termination_by (c.ahead text, pattern.length - c.pi)
decreasing_by
  · refine Prod.Lex.right' _ (Nat.le_refl _) ?_
    simp only [Cursor.both]
    omega
  · refine Prod.Lex.right' _ ahead_remember_le ?_
    simp only [Cursor.remember]
    omega
  · exact Prod.Lex.left _ _ (ahead_backtrack_lt _hs _hti)

def globMatch (pattern text : Bytes) : Bool := globLoop pattern text Cursor.start

/-! ## The texts of a pattern -/

/-- A text comes from a pattern by putting some sequence in place of each `*` and one
    character in place of each `?`. -/
inductive Matches : Bytes → Bytes → Prop where
  | nil : Matches [] []
  | any {pattern text : Bytes} (taken : Bytes) (h : Matches pattern text) :
      Matches (star :: pattern) (taken ++ text)
  | one {pattern text : Bytes} (c : UInt8) (h : Matches pattern text) : Matches (question :: pattern) (c :: text)
  | literal {pattern text : Bytes} {c : UInt8} (hstar : c ≠ star) (hquestion : c ≠ question)
      (h : Matches pattern text) : Matches (c :: pattern) (c :: text)

/-- A text comes from a pattern in this way, and where a `*` of the pattern stands before
    a `*` of the text, just that one character is put in its place. -/
inductive MatchesStarForStar : Bytes → Bytes → Prop where
  | nil : MatchesStarForStar [] []
  | star {pattern text : Bytes} (h : MatchesStarForStar pattern text) :
      MatchesStarForStar (star :: pattern) (star :: text)
  | any {pattern text : Bytes} (taken : Bytes) (hfirst : (taken ++ text).head? ≠ some star)
      (h : MatchesStarForStar pattern text) : MatchesStarForStar (Glob.star :: pattern) (taken ++ text)
  | one {pattern text : Bytes} (c : UInt8) (h : MatchesStarForStar pattern text) :
      MatchesStarForStar (question :: pattern) (c :: text)
  | literal {pattern text : Bytes} {c : UInt8} (hstar : c ≠ Glob.star) (hquestion : c ≠ question)
      (h : MatchesStarForStar pattern text) : MatchesStarForStar (c :: pattern) (c :: text)

theorem MatchesStarForStar.toMatches {pattern text : Bytes} (h : MatchesStarForStar pattern text) :
    Matches pattern text := by
  induction h with
  | nil => exact .nil
  | star _ ih => exact .any [Glob.star] ih
  | any taken _ _ ih => exact .any taken ih
  | one c _ ih => exact .one c ih
  | literal hstar hquestion _ ih => exact .literal hstar hquestion ih

/-- In a text without a `*` no star of the pattern meets one. -/
theorem Matches.starForStar {pattern text : Bytes} (h : Matches pattern text) (htext : star ∉ text) :
    MatchesStarForStar pattern text := by
  induction h with
  | nil => exact .nil
  | @any pattern text taken _ ih =>
    refine .any taken ?_ (ih fun hmem => htext (List.mem_append_right taken hmem))
    exact fun hfirst => htext (List.mem_of_head? hfirst)
  | one c _ ih => exact .one c (ih fun hmem => htext (List.mem_cons_of_mem c hmem))
  | literal hstar hquestion _ ih =>
    exact .literal hstar hquestion (ih fun hmem => htext (List.mem_cons_of_mem _ hmem))

section Inversion

variable {pattern text : Bytes} {c : UInt8}

theorem starForStar_one_iff :
    MatchesStarForStar (question :: pattern) (c :: text) ↔ MatchesStarForStar pattern text := by
  constructor
  · intro h
    cases h with
    | one _ h => exact h
    | literal _ hquestion _ => exact absurd rfl hquestion
  · exact .one c

/-- A character of the pattern that meets the same character takes just that one. -/
theorem starForStar_same_iff : MatchesStarForStar (c :: pattern) (c :: text) ↔ MatchesStarForStar pattern text := by
  constructor
  · generalize htext : c :: text = text'
    intro h
    cases h with
    | star h => exact (List.cons.inj htext).2 ▸ h
    | any taken hfirst _ => rw [← htext] at hfirst; exact absurd rfl hfirst
    | one _ h => exact (List.cons.inj htext).2 ▸ h
    | literal _ _ h => exact (List.cons.inj htext).2 ▸ h
  · intro h
    by_cases hstar : c = star
    · subst hstar
      exact .star h
    · by_cases hquestion : c = question
      · subst hquestion
        exact .one _ h
      · exact .literal hstar hquestion h

/-- A star that does not meet a star takes any number of characters. -/
theorem starForStar_star_iff (hfirst : text.head? ≠ some star) :
    MatchesStarForStar (star :: pattern) text ↔ ∃ k, MatchesStarForStar pattern (text.drop k) := by
  constructor
  · intro h
    cases h with
    | star _ => exact absurd rfl hfirst
    | any taken _ h => exact ⟨taken.length, by rw [List.drop_left]; exact h⟩
    | literal hstar _ _ => exact absurd rfl hstar
  · rintro ⟨k, h⟩
    have hsplit : text.take k ++ text.drop k = text := List.take_append_drop k text
    rw [← hsplit]
    exact .any (text.take k) (by rw [hsplit]; exact hfirst) h

/-- A character that is neither a star nor a question mark takes no other character. -/
theorem not_starForStar_of_ne {d : UInt8} (hstar : d ≠ star) (hquestion : d ≠ question) (hne : d ≠ c) :
    ¬ MatchesStarForStar (d :: pattern) (c :: text) := by
  generalize htext : c :: text = text'
  intro h
  cases h with
  | star _ => exact hstar rfl
  | any _ _ _ => exact hstar rfl
  | one _ _ => exact hquestion rfl
  | literal _ _ _ => exact hne (List.cons.inj htext).1.symm

theorem not_starForStar_nil : ¬ MatchesStarForStar [] (c :: text) := by
  intro h
  cases h

/-- At the end of the text only stars may be left. -/
theorem starForStar_end_iff : MatchesStarForStar pattern [] ↔ ∀ d ∈ pattern, d = star := by
  induction pattern with
  | nil => simp [MatchesStarForStar.nil]
  | cons d pattern ih =>
    constructor
    · generalize htext : ([] : Bytes) = text'
      intro h
      cases h with
      | star _ => exact nomatch htext
      | one _ _ => exact nomatch htext
      | literal _ _ _ => exact nomatch htext
      | @any _ text taken _ h =>
        rw [(List.append_eq_nil_iff.mp htext.symm).2, ih] at h
        exact List.forall_mem_cons.mpr ⟨rfl, h⟩
    · intro h
      rw [List.forall_mem_cons] at h
      rw [h.1]
      exact .any [] (by simp) (ih.mpr h.2)

end Inversion

/-! ## The loop -/

section Loop

variable {pattern text : Bytes} {c : Cursor}

/-- What holds whenever the loop's condition is tested. Every match of the rest of the
    pattern after the remembered star gives one from the cursor on: a later place for the
    star is no better than the cursor. -/
structure Tracks (pattern text : Bytes) (c : Cursor) : Prop where
  inside : c.pi ≤ pattern.length
  starInside : ∀ s ∈ c.remembered, s.1 < pattern.length
  dominated : ∀ s ∈ c.remembered, ∀ k ≥ s.2, MatchesStarForStar (pattern.drop (s.1 + 1)) (text.drop k) →
    ∃ k' ≥ c.ti, MatchesStarForStar (pattern.drop c.pi) (text.drop k')

/-- There is a match from the cursor on, or with a later place for the remembered star. -/
def Pending (pattern text : Bytes) (c : Cursor) : Prop :=
  MatchesStarForStar (pattern.drop c.pi) (text.drop c.ti) ∨
    ∃ s ∈ c.remembered, ∃ k > s.2, MatchesStarForStar (pattern.drop (s.1 + 1)) (text.drop k)

theorem Tracks.start : Tracks pattern text Cursor.start where
  inside := Nat.zero_le _
  starInside := by simp [Cursor.start]
  dominated := by simp [Cursor.start]

/-- A character that the pattern takes at one place it takes, or skips, at every later place. -/
theorem match_moves_on {p : Bytes} {d : UInt8} {i k : Nat} (hi : i < text.length)
    (hd : d = question ∨ text[i]? = some d) (hk : k ≥ i) (h : MatchesStarForStar (d :: p) (text.drop k)) :
    ∃ k' ≥ i + 1, MatchesStarForStar p (text.drop k') := by
  cases htext : text.drop k with
  | nil =>
    rw [htext, starForStar_end_iff, List.forall_mem_cons] at h
    refine ⟨text.length + i + 1, by omega, ?_⟩
    rw [List.drop_of_length_le (by omega)]
    exact starForStar_end_iff.mpr h.2
  | cons e rest =>
    have hrest : text.drop (k + 1) = rest := by
      rw [← List.drop_drop, htext]
      rfl
    rw [htext] at h
    by_cases hsame : d = e
    · rw [hsame, starForStar_same_iff, ← hrest] at h
      exact ⟨k + 1, by omega, h⟩
    by_cases hquestion : d = question
    · rw [hquestion, starForStar_one_iff, ← hrest] at h
      exact ⟨k + 1, by omega, h⟩
    · -- Here `k` is after `i`, where the text has the character `d`.
      have hlater : k ≠ i := by
        rintro rfl
        have hfirst : text[k]? = some e := by
          have hhead : (text.drop k).head? = some e := by rw [htext]; rfl
          rwa [List.head?_drop] at hhead
        rw [hfirst] at hd
        exact hsame (Option.some.inj (hd.resolve_left hquestion)).symm
      by_cases hstar : d = star
      · rw [hstar, ← htext, starForStar_star_iff] at h
        · obtain ⟨j, h⟩ := h
          rw [List.drop_drop] at h
          exact ⟨k + j, by omega, h⟩
        · rw [htext]
          exact fun hfirst => hsame (hstar.trans (Option.some.inj hfirst).symm)
      · exact absurd h (not_starForStar_of_ne hstar hquestion hsame)

theorem Tracks.both (h : Tracks pattern text c) (hti : c.ti < text.length)
    (hpi : c.pi < pattern.length)
    (hsame : pattern[c.pi]? = some question ∨ pattern[c.pi]? = text[c.ti]?) : Tracks pattern text c.both where
  inside := hpi
  starInside := h.starInside
  dominated := by
    intro s hs k hk hmatch
    obtain ⟨k', hk', hmatch⟩ := h.dominated s hs k hk hmatch
    rw [List.drop_eq_getElem_cons hpi] at hmatch
    refine match_moves_on hti ?_ hk' hmatch
    rw [List.getElem?_eq_getElem hpi] at hsame
    exact hsame.imp Option.some.inj Eq.symm

theorem pending_both (hti : c.ti < text.length) (hpi : c.pi < pattern.length)
    (hsame : pattern[c.pi]? = some question ∨ pattern[c.pi]? = text[c.ti]?) :
    Pending pattern text c.both ↔ Pending pattern text c := by
  have hmatch : MatchesStarForStar (pattern.drop c.pi) (text.drop c.ti) ↔
      MatchesStarForStar (pattern.drop (c.pi + 1)) (text.drop (c.ti + 1)) := by
    rw [List.drop_eq_getElem_cons hpi, List.drop_eq_getElem_cons hti]
    rw [List.getElem?_eq_getElem hpi, List.getElem?_eq_getElem hti, Option.some.injEq, Option.some.injEq] at hsame
    rcases hsame with hquestion | hsame
    · rw [hquestion, starForStar_one_iff]
    · rw [hsame, starForStar_same_iff]
  unfold Pending
  rw [hmatch]
  rfl

theorem Tracks.remember (hpi : c.pi < pattern.length) : Tracks pattern text c.remember where
  inside := hpi
  starInside := by
    intro s hs
    rw [← Option.mem_some.mp hs]
    exact hpi
  dominated := by
    intro s hs k hk hmatch
    rw [← Option.mem_some.mp hs] at hk hmatch
    exact ⟨k, hk, hmatch⟩

theorem pending_remember (h : Tracks pattern text c) (hpi : c.pi < pattern.length)
    (hstar : pattern[c.pi]? = some star) (hne : pattern[c.pi]? ≠ text[c.ti]?) :
    Pending pattern text c.remember ↔ Pending pattern text c := by
  have hpattern : pattern.drop c.pi = star :: pattern.drop (c.pi + 1) := by
    rw [List.getElem?_eq_getElem hpi, Option.some.injEq] at hstar
    rw [List.drop_eq_getElem_cons hpi, hstar]
  have hfirst : (text.drop c.ti).head? ≠ some star := by
    rw [List.head?_drop, ← hstar]
    exact hne.symm
  have hnow : MatchesStarForStar (pattern.drop c.pi) (text.drop c.ti) ↔
      ∃ k, MatchesStarForStar (pattern.drop (c.pi + 1)) (text.drop (c.ti + k)) := by
    rw [hpattern, starForStar_star_iff hfirst]
    simp only [List.drop_drop]
  constructor
  · rintro (hmatch | ⟨s, hs, k, hk, hmatch⟩)
    · exact Or.inl (hnow.mpr ⟨0, hmatch⟩)
    · rw [← Option.mem_some.mp hs] at hk hmatch
      have hsum : c.ti + (k - c.ti) = k := by omega
      exact Or.inl (hnow.mpr ⟨k - c.ti, by rw [hsum]; exact hmatch⟩)
  · intro hpending
    -- A match with a later place for the old star is one from the new star on.
    have hmatch : ∃ k ≥ c.ti, MatchesStarForStar (pattern.drop (c.pi + 1)) (text.drop k) := by
      rcases hpending with hmatch | ⟨s, hs, k, hk, hmatch⟩
      · obtain ⟨k, hmatch⟩ := hnow.mp hmatch
        exact ⟨c.ti + k, Nat.le_add_right _ _, hmatch⟩
      · obtain ⟨k', hk', hmatch⟩ := h.dominated s hs k (Nat.le_of_lt hk) hmatch
        rw [hpattern] at hmatch
        by_cases hmeets : (text.drop k').head? = some star
        · obtain ⟨rest, hrest⟩ : ∃ rest, text.drop k' = star :: rest := by
            cases htext : text.drop k' with
            | nil => rw [htext] at hmeets; exact nomatch hmeets
            | cons e rest => rw [htext] at hmeets; exact ⟨rest, by rw [Option.some.inj hmeets]⟩
          have hdrop : text.drop (k' + 1) = rest := by
            rw [← List.drop_drop, hrest]
            rfl
          rw [hrest, starForStar_same_iff, ← hdrop] at hmatch
          exact ⟨k' + 1, by omega, hmatch⟩
        · obtain ⟨j, hmatch⟩ := (starForStar_star_iff hmeets).mp hmatch
          rw [List.drop_drop] at hmatch
          exact ⟨k' + j, by omega, hmatch⟩
    obtain ⟨k, hk, hmatch⟩ := hmatch
    rcases Nat.eq_or_lt_of_le hk with heq | hlt
    · exact Or.inl (heq ▸ hmatch)
    · exact Or.inr ⟨(c.pi, c.ti), rfl, k, hlt, hmatch⟩

/-- The characters do not fit, so nothing matches from the cursor on. -/
theorem not_match_of_mismatch (hti : c.ti < text.length)
    (hboth : ¬(c.pi < pattern.length ∧ (pattern[c.pi]? = some question ∨ pattern[c.pi]? = text[c.ti]?)))
    (hstar : ¬(c.pi < pattern.length ∧ pattern[c.pi]? = some star)) :
    ¬ MatchesStarForStar (pattern.drop c.pi) (text.drop c.ti) := by
  rw [List.drop_eq_getElem_cons hti]
  by_cases hpi : c.pi < pattern.length
  · rw [List.drop_eq_getElem_cons hpi]
    simp only [hpi, true_and, List.getElem?_eq_getElem, hti, Option.some.injEq, not_or] at hboth hstar
    exact not_starForStar_of_ne hstar hboth.1 hboth.2
  · rw [List.drop_of_length_le (Nat.not_lt.mp hpi)]
    exact not_starForStar_nil

theorem Tracks.backtrack {s : Nat × Nat} (h : Tracks pattern text c) (hs : c.remembered = some s) :
    Tracks pattern text (Cursor.backtrack s) where
  inside := h.starInside s hs
  starInside := by
    intro s' hs'
    rw [← Option.mem_some.mp hs']
    exact h.starInside s hs
  dominated := by
    intro s' hs' k hk hmatch
    rw [← Option.mem_some.mp hs'] at hk hmatch
    exact ⟨k, hk, hmatch⟩

theorem pending_backtrack {s : Nat × Nat} (hs : c.remembered = some s)
    (hno : ¬ MatchesStarForStar (pattern.drop c.pi) (text.drop c.ti)) :
    Pending pattern text (Cursor.backtrack s) ↔ Pending pattern text c := by
  constructor
  · rintro (hmatch | ⟨s', hs', k, hk, hmatch⟩)
    · exact Or.inr ⟨s, hs, s.2 + 1, Nat.lt_succ_self _, hmatch⟩
    · rw [← Option.mem_some.mp hs'] at hk hmatch
      exact Or.inr ⟨s, hs, k, Nat.lt_of_succ_lt hk, hmatch⟩
  · rintro (hmatch | ⟨s', hs', k, hk, hmatch⟩)
    · exact absurd hmatch hno
    · obtain rfl : s = s' := Option.some.inj (hs.symm.trans hs')
      rcases Nat.eq_or_lt_of_le hk with heq | hlt
      · exact Or.inl (by subst heq; exact hmatch)
      · exact Or.inr ⟨(s.1, s.2 + 1), rfl, k, hlt, hmatch⟩

theorem skipStars_eq_iff {pi : Nat} (h : pi ≤ pattern.length) :
    skipStars pattern pi = pattern.length ↔ ∀ d ∈ pattern.drop pi, d = star := by
  have hlength : (pattern.drop pi).length = pattern.length - pi := List.length_drop
  have htake : (pattern.drop pi).takeWhile (· == star) = pattern.drop pi ↔ ∀ d ∈ pattern.drop pi, d = star := by
    rw [List.takeWhile_eq_self_iff]
    simp only [beq_iff_eq]
  rw [← htake]
  constructor
  · intro hskip
    unfold skipStars at hskip
    exact (List.takeWhile_prefix _).eq_of_length (by omega)
  · intro hall
    unfold skipStars
    rw [hall]
    omega

/-- At the end of the text the loop's answer is right. -/
theorem pending_end (h : Tracks pattern text c) (hti : ¬ c.ti < text.length) :
    (skipStars pattern c.pi == pattern.length) = true ↔ Pending pattern text c := by
  have hend : ∀ k ≥ c.ti, text.drop k = [] := fun k hk => List.drop_of_length_le (by omega)
  rw [beq_iff_eq, skipStars_eq_iff h.inside, ← starForStar_end_iff]
  constructor
  · intro hmatch
    exact Or.inl (by rw [hend c.ti (Nat.le_refl _)]; exact hmatch)
  · rintro (hmatch | ⟨s, hs, k, hk, hmatch⟩)
    · rwa [hend c.ti (Nat.le_refl _)] at hmatch
    · obtain ⟨k', hk', hmatch⟩ := h.dominated s hs k (Nat.le_of_lt hk) hmatch
      rwa [hend k' hk'] at hmatch

theorem globLoop_iff (h : Tracks pattern text c) : globLoop pattern text c = true ↔ Pending pattern text c := by
  fun_induction globLoop pattern text c with
  | case1 c hti hboth ih =>
    rw [ih (h.both hti hboth.1 hboth.2), pending_both hti hboth.1 hboth.2]
  | case2 c hti hboth hstar ih =>
    have hne : pattern[c.pi]? ≠ text[c.ti]? := fun hsame => hboth ⟨hstar.1, Or.inr hsame⟩
    rw [ih (Tracks.remember hstar.1), pending_remember h hstar.1 hstar.2 hne]
  | case3 c hti hboth hstar s hs ih =>
    rw [ih (h.backtrack hs), pending_backtrack hs (not_match_of_mismatch hti hboth hstar)]
  | case4 c hti hboth hstar hs =>
    simp only [Bool.false_eq_true, false_iff]
    rintro (hmatch | ⟨s, hs', _⟩)
    · exact not_match_of_mismatch hti hboth hstar hmatch
    · rw [hs] at hs'
      exact nomatch hs'
  | case5 c hti => exact pending_end h hti

end Loop

/-! ## What the matcher accepts -/

/-- The matcher accepts the texts that come from the pattern star for star. -/
theorem globMatch_iff {pattern text : Bytes} : globMatch pattern text = true ↔ MatchesStarForStar pattern text := by
  rw [globMatch, globLoop_iff Tracks.start, Pending]
  simp [Cursor.start]

/-- On a text without a `*` the matcher accepts just the texts of the pattern. -/
theorem globMatch_iff_of_not_mem {pattern text : Bytes} (htext : star ∉ text) :
    globMatch pattern text = true ↔ Matches pattern text := by
  rw [globMatch_iff]
  exact ⟨MatchesStarForStar.toMatches, fun h => h.starForStar htext⟩

/-- The matcher decides whether a text comes from a pattern just where the text, if it
    comes from the pattern at all, does so star for star. -/
theorem globMatch_decides_iff (pattern text : Bytes) :
    (globMatch pattern text = true ↔ Matches pattern text) ↔
      (Matches pattern text → MatchesStarForStar pattern text) := by
  rw [globMatch_iff]
  constructor
  · exact fun h => h.mpr
  · exact fun h => ⟨MatchesStarForStar.toMatches, h⟩

/-- `*a` stands for `*xa`, where the star would have to take the two characters `*x`. -/
theorem star_before_star :
    ¬ ∀ pattern text : Bytes, globMatch pattern text = true ↔ Matches pattern text := by
  intro h
  have hmatches : Matches [star, 97] [star, 120, 97] :=
    .any [star, 120] (.literal (by decide) (by decide) .nil)
  have hmatch : MatchesStarForStar [star, 97] [star, 120, 97] := globMatch_iff.mp ((h _ _).mpr hmatches)
  rw [starForStar_same_iff] at hmatch
  exact not_starForStar_of_ne (by decide) (by decide) (by decide) hmatch

end Luma.Glob
