-- SUMMARY: Dedenting removes the longest indentation common to the lines that show something.
import Luma.Stdlib.TextSplitting
import Luma.Stdlib.TextWrap

/-! # Dedenting

The lines of a text keep their terminators. What is removed is found by narrowing the
indentation of the first line that shows something by that of each further one. -/

namespace Luma.TextDedent

open Codec QueryString TextWrap

def tab : UInt8 := 9
def carriageReturn : UInt8 := 13

/-! ## Removing the common indentation -/

def isIndent (c : UInt8) : Bool := c = space || c = tab

def leadingIndent (line : Bytes) : Bytes := line.takeWhile isIndent

def isBlankLine (line : Bytes) : Bool := line.all fun c => isIndent c || c = carriageReturn || c = newline

/-- How far two texts agree: `mismatch`. -/
def mismatch : Bytes → Bytes → Nat
  | a :: x, b :: y => if a = b then mismatch x y + 1 else 0
  | _, _ => 0

/-- The lines of the text from `pos` on, with their terminators. A line is not empty, so as many
    rounds as the text has bytes are enough. -/
def linesFrom : (rounds : Nat) → Bytes → List Bytes
  | 0, _ => []
  | _ + 1, [] => []
  | rounds + 1, c :: rest =>
    match Scanning.splitFirst newline (c :: rest) with
    | none => [c :: rest]
    | some (before, after) => (before ++ [newline]) :: linesFrom rounds after

def linesOf (text : Bytes) : List Bytes := linesFrom text.length text

/-- What is common to the lines so far and one more. -/
def narrow (common : Option Bytes) (line : Bytes) : Option Bytes :=
  if isBlankLine line then common
  else
    match common with
    | none => some (leadingIndent line)
    | some common => some (common.take (mismatch common (leadingIndent line)))

/-- What is stripped off the lines. -/
def stripOf (lines : List Bytes) : Bytes := (lines.foldl narrow none).getD []

/-- A line without as much of the indentation as it shares. -/
def stripLine (strip line : Bytes) : Bytes := line.drop (mismatch strip line)

def dedent (s : Bytes) : Bytes := (linesOf s).flatMap (stripLine (stripOf (linesOf s)))

section Laws

variable {x y p q line s strip common : Bytes} {lines : List Bytes} {rounds : Nat}

/-! ## Agreement -/

theorem take_mismatch_left (x y : Bytes) : x.take (mismatch x y) <+: x := List.take_prefix _ _

theorem take_mismatch_right (x y : Bytes) : x.take (mismatch x y) <+: y := by
  induction x generalizing y with
  | nil => exact List.nil_prefix
  | cons a x ih =>
    cases y with
    | nil => exact List.nil_prefix
    | cons b y =>
      rw [mismatch]
      split
      next h =>
        rw [List.take_succ_cons, h, List.cons_prefix_cons]
        exact ⟨rfl, ih y⟩
      · exact List.nil_prefix

/-- What is at the front of both is in what they agree on. -/
theorem le_take_mismatch (hx : p <+: x) (hy : p <+: y) : p <+: x.take (mismatch x y) := by
  obtain ⟨x, rfl⟩ := hx
  obtain ⟨y, rfl⟩ := hy
  induction p with
  | nil => exact List.nil_prefix
  | cons a p ih =>
    rw [List.cons_append, List.cons_append, mismatch, if_pos rfl, List.take_succ_cons, List.cons_prefix_cons]
    exact ⟨rfl, ih⟩

theorem mismatch_append (strip rest : Bytes) : mismatch strip (strip ++ rest) = strip.length := by
  induction strip with
  | nil => cases rest <;> rfl
  | cons a strip ih => rw [List.cons_append, mismatch, if_pos rfl, ih, List.length_cons]

theorem stripLine_append (strip rest : Bytes) : stripLine strip (strip ++ rest) = rest := by
  rw [stripLine, mismatch_append, List.drop_left]

theorem stripLine_nil (line : Bytes) : stripLine [] line = line := by cases line <;> rfl

/-! ## The lines of a text -/

/-- Lines with their terminators: only the last may lack one. -/
inductive Lined : List Bytes → Prop where
  | nil : Lined []
  | last {line : Bytes} (hne : line ≠ []) (hfree : newline ∉ line) : Lined [line]
  | cons {body : Bytes} {lines : List Bytes} (hfree : newline ∉ body) (h : Lined lines) : Lined ((body ++ [newline]) :: lines)

theorem linesFrom_lined (hrounds : s.length ≤ rounds) : Lined (linesFrom rounds s) ∧ (linesFrom rounds s).flatten = s := by
  induction rounds generalizing s with
  | zero =>
    rw [List.length_eq_zero_iff.mp (Nat.le_zero.mp hrounds)]
    exact ⟨.nil, rfl⟩
  | succ rounds ih =>
    cases s with
    | nil => exact ⟨.nil, rfl⟩
    | cons c rest =>
      rw [linesFrom]
      rcases Scanning.splitFirst_cases newline (c :: rest) with ⟨before, after, hs, hfree, hfound⟩ | ⟨hfree, hfound⟩
      · rw [hfound]
        have hshort : after.length ≤ rounds := by
          rw [hs, List.length_append, List.length_cons] at hrounds
          omega
        obtain ⟨hlined, hflatten⟩ := ih hshort
        refine ⟨.cons hfree hlined, ?_⟩
        rw [List.flatten_cons, hflatten, hs]
        simp
      · rw [hfound]
        exact ⟨.last (List.cons_ne_nil _ _) hfree, by simp⟩

theorem linesOf_lined (s : Bytes) : Lined (linesOf s) := (linesFrom_lined (Nat.le_refl _)).1

theorem linesOf_flatten (s : Bytes) : (linesOf s).flatten = s := (linesFrom_lined (Nat.le_refl _)).2

/-- A text has no other lines. -/
theorem Lined.linesFrom_eq (h : Lined lines) (hrounds : lines.flatten.length ≤ rounds) : linesFrom rounds lines.flatten = lines := by
  induction h generalizing rounds with
  | nil => cases rounds <;> rfl
  | @last line hne hfree =>
    obtain ⟨c, rest, rfl⟩ := List.exists_cons_of_ne_nil hne
    cases rounds with
    | zero => simp at hrounds
    | succ rounds => rw [List.flatten_singleton, linesFrom, Scanning.splitFirst_of_notMem hfree]
  | @cons body lines hfree _ ih =>
    have hcons : ((body ++ [newline]) :: lines).flatten = body ++ newline :: lines.flatten := by simp
    rw [hcons] at hrounds ⊢
    rw [List.length_append, List.length_cons] at hrounds
    cases rounds with
    | zero => omega
    | succ rounds =>
      obtain ⟨c, rest, hs⟩ := List.exists_cons_of_ne_nil (l := body ++ newline :: lines.flatten) (by simp)
      rw [hs, linesFrom, ← hs, Scanning.splitFirst_append hfree]
      dsimp only
      rw [ih (by omega)]

theorem Lined.linesOf_eq (h : Lined lines) : linesOf lines.flatten = lines := h.linesFrom_eq (Nat.le_refl _)

/-! ## The common indentation -/

/-- Indentation that every line that shows something starts with. -/
structure CommonIndent (lines : List Bytes) (p : Bytes) : Prop where
  indent : ∀ c ∈ p, isIndent c = true
  common : ∀ line ∈ lines, isBlankLine line = false → p <+: line

theorem prefix_leadingIndent_iff : p <+: leadingIndent line ↔ (∀ c ∈ p, isIndent c = true) ∧ p <+: line := by
  constructor
  · intro h
    exact ⟨fun c hc => List.mem_takeWhile_imp (h.subset hc), h.trans (List.takeWhile_prefix _)⟩
  · rintro ⟨hindent, rest, rfl⟩
    rw [leadingIndent, List.takeWhile_append_of_pos hindent]
    exact List.prefix_append _ _

/-- What the lines so far have in common. -/
inductive Narrowed (lines : List Bytes) : Option Bytes → Prop where
  | none (hblank : ∀ line ∈ lines, isBlankLine line = true) : Narrowed lines none
  | some {common : Bytes} (hshown : ∃ line ∈ lines, isBlankLine line = false) (hcommon : CommonIndent lines common)
    (hlongest : ∀ p, CommonIndent lines p → p <+: common) : Narrowed lines (some common)

theorem CommonIndent.front {more : List Bytes} (h : CommonIndent (lines ++ more) p) : CommonIndent lines p :=
  ⟨h.indent, fun line hline => h.common line (List.mem_append_left _ hline)⟩

theorem Narrowed.step {common : Option Bytes} (h : Narrowed lines common) (line : Bytes) :
    Narrowed (lines ++ [line]) (narrow common line) := by
  unfold narrow
  split
  next hblank =>
    -- a blank line does not constrain what is common
    have hold {p : Bytes} (hp : CommonIndent lines p) : CommonIndent (lines ++ [line]) p := by
      refine ⟨hp.indent, fun other hother hshown => ?_⟩
      rcases List.mem_append.mp hother with hother | hother
      · exact hp.common other hother hshown
      · rw [List.mem_singleton.mp hother, hblank] at hshown
        cases hshown
    cases h with
    | none hall =>
      refine .none fun other hother => ?_
      rcases List.mem_append.mp hother with hother | hother
      · exact hall other hother
      · rw [List.mem_singleton.mp hother]
        exact hblank
    | some hshown hcommon hlongest =>
      obtain ⟨other, hother, hother'⟩ := hshown
      exact .some ⟨other, List.mem_append_left _ hother, hother'⟩ (hold hcommon) fun p hp => hlongest p hp.front
  next hshown =>
    rw [Bool.not_eq_true] at hshown
    have hlast : line ∈ lines ++ [line] := List.mem_append_right _ (List.mem_singleton.mpr rfl)
    have hindent {p : Bytes} (hp : CommonIndent (lines ++ [line]) p) : p <+: leadingIndent line :=
      prefix_leadingIndent_iff.mpr ⟨hp.indent, hp.common line hlast hshown⟩
    cases h with
    | none hall =>
      obtain ⟨hindents, hline⟩ := prefix_leadingIndent_iff.mp (List.prefix_refl (leadingIndent line))
      refine .some ⟨line, hlast, hshown⟩ ⟨hindents, fun other hother hother' => ?_⟩ fun p hp => hindent hp
      rcases List.mem_append.mp hother with hother | hother
      · rw [hall other hother] at hother'
        cases hother'
      · rw [List.mem_singleton.mp hother]
        exact hline
    | @some common hshown' hcommon hlongest =>
      have hleft := take_mismatch_left common (leadingIndent line)
      have hright := take_mismatch_right common (leadingIndent line)
      refine .some ⟨line, hlast, hshown⟩ ⟨fun c hc => hcommon.indent c (hleft.subset hc), fun other hother hother' => ?_⟩
        fun p hp => le_take_mismatch (hlongest p hp.front) (hindent hp)
      rcases List.mem_append.mp hother with hother | hother
      · exact hleft.trans (hcommon.common other hother hother')
      · rw [List.mem_singleton.mp hother]
        exact hright.trans (prefix_leadingIndent_iff.mp (List.prefix_refl _)).2

theorem narrowed (lines : List Bytes) : Narrowed lines (lines.foldl narrow none) := by
  induction lines using List.reverseRecOn with
  | nil => exact .none fun line hline => absurd hline List.not_mem_nil
  | append_singleton lines line ih =>
    rw [List.foldl_append]
    exact ih.step line

theorem stripOf_common (lines : List Bytes) : CommonIndent lines (stripOf lines) := by
  have h := narrowed lines
  rw [stripOf]
  cases hcommon : lines.foldl narrow none with
  | none =>
    exact ⟨fun c hc => absurd hc List.not_mem_nil, fun _ _ _ => List.nil_prefix⟩
  | some common =>
    rw [hcommon] at h
    cases h with
    | some _ hcommon _ => exact hcommon

theorem stripOf_longest (hshown : ∃ line ∈ lines, isBlankLine line = false) (hp : CommonIndent lines p) : p <+: stripOf lines := by
  have h := narrowed lines
  rw [stripOf]
  cases hcommon : lines.foldl narrow none with
  | none =>
    rw [hcommon] at h
    obtain ⟨line, hline, hline'⟩ := hshown
    cases h with
    | none hblank =>
      rw [hblank line hline] at hline'
      cases hline'
  | some common =>
    rw [hcommon] at h
    cases h with
    | some _ _ hlongest => exact hlongest p hp

theorem stripOf_blank (hblank : ∀ line ∈ lines, isBlankLine line = true) : stripOf lines = [] := by
  have h := narrowed lines
  rw [stripOf]
  cases hcommon : lines.foldl narrow none with
  | none => rfl
  | some common =>
    rw [hcommon] at h
    cases h with
    | some hshown _ _ =>
      obtain ⟨line, hline, hline'⟩ := hshown
      rw [hblank line hline] at hline'
      cases hline'

/-! ## Dedenting twice -/

theorem isBlankLine_append (hindent : ∀ c ∈ p, isIndent c = true) : isBlankLine (p ++ line) = isBlankLine line := by
  have hp : (p.all fun c => isIndent c || c = carriageReturn || c = newline) = true := by
    rw [List.all_eq_true]
    intro c hc
    rw [hindent c hc]
    rfl
  rw [isBlankLine, List.all_append, hp, Bool.true_and, ← isBlankLine]

theorem isBlankLine_stripLine (h : isBlankLine line = true) : isBlankLine (stripLine strip line) = true := by
  rw [isBlankLine, List.all_eq_true] at h ⊢
  exact fun c hc => h c (List.mem_of_mem_drop hc)

/-- The terminator is not stripped. -/
theorem stripLine_body (hstrip : newline ∉ strip) (body : Bytes) :
    stripLine strip (body ++ [newline]) = stripLine strip body ++ [newline] := by
  induction body generalizing strip with
  | nil =>
    cases strip with
    | nil => rfl
    | cons a strip =>
      have hne : a ≠ newline := fun h => hstrip (h ▸ List.mem_cons_self)
      simp [stripLine, mismatch, hne]
  | cons b body ih =>
    cases strip with
    | nil => rfl
    | cons a strip =>
      by_cases h : a = b
      · have hrest := ih fun hmem => hstrip (List.mem_cons_of_mem a hmem)
        simpa [stripLine, mismatch, h] using hrest
      · simp [stripLine, mismatch, h]

/-- The lines that are left, without one that was stripped away whole. -/
def linesLeft (strip : Bytes) (lines : List Bytes) : List Bytes := (lines.map (stripLine strip)).filter (· ≠ [])

theorem linesLeft_flatten (strip : Bytes) (lines : List Bytes) : (linesLeft strip lines).flatten = lines.flatMap (stripLine strip) := by
  rw [linesLeft, List.flatten_filter_ne_nil, List.flatMap_def]

theorem linesLeft_lined (hstrip : newline ∉ strip) (h : Lined lines) : Lined (linesLeft strip lines) := by
  induction h with
  | nil => exact .nil
  | @last line _ hfree =>
    have hfree' : newline ∉ stripLine strip line := fun hmem => hfree (List.mem_of_mem_drop hmem)
    by_cases hempty : stripLine strip line = []
    · simpa [linesLeft, hempty] using Lined.nil
    · simpa [linesLeft, hempty] using Lined.last hempty hfree'
  | @cons body lines hfree _ ih =>
    have hfree' : newline ∉ stripLine strip body := fun hmem => hfree (List.mem_of_mem_drop hmem)
    have hcons : linesLeft strip ((body ++ [newline]) :: lines) = (stripLine strip body ++ [newline]) :: linesLeft strip lines := by
      simp [linesLeft, stripLine_body hstrip]
    rw [hcons]
    exact .cons hfree' ih

/-- Nothing is left to strip. -/
theorem stripOf_linesLeft (lines : List Bytes) : stripOf (linesLeft (stripOf lines) lines) = [] := by
  have hcommon := stripOf_common lines
  by_cases hshown : ∃ line ∈ linesLeft (stripOf lines) lines, isBlankLine line = false
  · have hagain := stripOf_common (linesLeft (stripOf lines) lines)
    -- what were common to what is left would have been common behind what was stripped
    have hboth : CommonIndent lines (stripOf lines ++ stripOf (linesLeft (stripOf lines) lines)) := by
      refine ⟨fun c hc => (List.mem_append.mp hc).elim (hcommon.indent c) (hagain.indent c), fun line hline hline' => ?_⟩
      obtain ⟨rest, rfl⟩ := hcommon.common line hline hline'
      rw [isBlankLine_append hcommon.indent] at hline'
      have hleft : rest ∈ linesLeft (stripOf lines) lines := by
        rw [linesLeft, List.mem_filter]
        refine ⟨List.mem_map.mpr ⟨_, hline, stripLine_append _ _⟩, ?_⟩
        rw [decide_eq_true_eq]
        rintro rfl
        cases hline'
      obtain ⟨more, hmore⟩ := hagain.common rest hleft hline'
      exact ⟨more, by rw [List.append_assoc, hmore]⟩
    have hshown' : ∃ line ∈ lines, isBlankLine line = false := by
      obtain ⟨line', hline', hshown⟩ := hshown
      obtain ⟨line, hline, rfl⟩ := List.mem_map.mp (List.mem_of_mem_filter hline')
      refine ⟨line, hline, Bool.eq_false_iff.mpr fun hblank => ?_⟩
      rw [isBlankLine_stripLine hblank] at hshown
      cases hshown
    have hlength := (stripOf_longest hshown' hboth).length_le
    rw [List.length_append] at hlength
    exact List.length_eq_zero_iff.mp (by omega)
  · refine stripOf_blank fun line hline => ?_
    by_contra hblank
    exact hshown ⟨line, hline, Bool.eq_false_iff.mpr hblank⟩

theorem newline_notMem_stripOf (lines : List Bytes) : newline ∉ stripOf lines := by
  intro hmem
  have hindent := (stripOf_common lines).indent newline hmem
  exact absurd hindent (by decide)

theorem dedent_dedent (s : Bytes) : dedent (dedent s) = dedent s := by
  have hs : dedent s = (linesLeft (stripOf (linesOf s)) (linesOf s)).flatten := (linesLeft_flatten _ _).symm
  have hlines : linesOf (dedent s) = linesLeft (stripOf (linesOf s)) (linesOf s) := by
    rw [hs, (linesLeft_lined (newline_notMem_stripOf _) (linesOf_lined s)).linesOf_eq]
  rw [dedent, hlines, stripOf_linesLeft, hs, List.flatMap_def]
  congr 1
  exact List.map_id'' stripLine_nil _

theorem stripLine_eq (hline : line ∈ lines) (hshown : isBlankLine line = false) :
    line = stripOf lines ++ stripLine (stripOf lines) line := by
  obtain ⟨rest, rfl⟩ := (stripOf_common lines).common line hline hshown
  rw [stripLine_append]

end Laws

/-! ## The laws of splitting and layout -/

open TextSplitting in
/-- What is split is joined back, a wrapped line that is too wide has no space to break it at,
    and dedenting removes the longest common indentation once and for all. -/
theorem splitting_and_layout (maxArraySize maxStringSize : Nat) (display : Value → Bytes) {s delim : Bytes} {n width : Int64}
    (hdelim : delim ≠ []) (hn : 1 ≤ n.toInt) (hlimit : s.length ≤ maxStringSize) (hwidth : 0 ≤ width.toInt) :
    (split maxArraySize s delim =
          (if (piecesOf s delim).length ≤ maxArraySize + 1 then .ok ((piecesOf s delim).map .string)
          else .error (splitTooLarge "split")) ∧
        join maxStringSize display delim ((piecesOf s delim).map .string) = .ok s ∧
        ∀ piece ∈ piecesOf s delim, ¬ delim <:+: piece) ∧
      (splitN maxArraySize s delim n =
          (if (piecesOfN s delim n).length ≤ maxArraySize + 1 then .ok ((piecesOfN s delim n).map .string)
          else .error (splitTooLarge "split_n")) ∧
        join maxStringSize display delim ((piecesOfN s delim n).map .string) = .ok s ∧
        ((piecesOfN s delim n).length : Int) ≤ n.toInt) ∧
      (List.Forall₂ Kept s (wrap s width) ∧ ∀ line ∈ (wrap s width).splitOn newline, Fits width.toInt.toNat line) ∧
      (∃ strip lines, Lined lines ∧ lines.flatten = s ∧ CommonIndent lines strip ∧
        ((∃ line ∈ lines, isBlankLine line = false) → ∀ p, CommonIndent lines p → p <+: strip) ∧
        dedent s = lines.flatMap (stripLine strip) ∧
        ∀ line ∈ lines, isBlankLine line = false → line = strip ++ stripLine strip line) ∧
      dedent (dedent s) = dedent s := by
  refine ⟨⟨split_eq hdelim, join_cutAtMarkers hlimit, ?_⟩,
    ⟨splitN_eq hdelim hn, join_cutAtMarkers hlimit, length_piecesOfN_le hn⟩, ?_,
    ⟨stripOf (linesOf s), linesOf s, linesOf_lined s, linesOf_flatten s, stripOf_common _, ?_, rfl, ?_⟩, dedent_dedent s⟩
  · exact Scanning.cutAtMarkers_free hdelim (Nat.le_refl _)
  · exact ⟨(wrap_wraps hwidth).kept, (wrap_wraps hwidth).fits⟩
  · exact fun hshown p hp => stripOf_longest hshown hp
  · exact fun line hline hshown => stripLine_eq hline hshown

/-- Two indented lines, split at the letter `a` and dedented. -/
theorem splitting_and_layout_indented :
    (TextSplitting.split 10 [32, 97, 10, 32, 32, 97] [97] = .ok [.string [32], .string [10, 32, 32], .string []] ∧
      TextSplitting.join 100 (fun _ => []) [97] [.string [32], .string [10, 32, 32], .string []] =
        .ok [32, 97, 10, 32, 32, 97]) ∧
    dedent (dedent [32, 97, 10, 32, 32, 97]) = [97, 10, 32, 97] := by
  obtain ⟨⟨hsplit, hjoin, -⟩, -, -, -, htwice⟩ := @splitting_and_layout 10 100 (fun _ => [])
    [32, 97, 10, 32, 32, 97] [97] 2 1 (by decide) (by decide) (by decide) (by decide)
  have hpieces : TextSplitting.piecesOf [32, 97, 10, 32, 32, 97] [97] = [[32], [10, 32, 32], []] := by decide
  rw [hpieces] at hsplit hjoin
  exact ⟨⟨hsplit, hjoin⟩, htwice.trans (by decide)⟩

end Luma.TextDedent
