-- SUMMARY: When the values of a triple-quoted string do not depend on the line endings of the source.
import Luma.Analysis.LineBreaks

/-! # Line endings of the source

A source with line feeds becomes one with carriage returns before them. The pieces that are
scanned from it have the carriage returns too, and their lines the same contents. The values
of a literal are compared by how many of their bytes are no indentation. -/

namespace Luma.TripleQuoted

open Codec

/-- The source with every LF replaced by CRLF. -/
def toCrlf (source : Bytes) : Bytes := source.flatMap fun b => if b = lineFeed then [carriageReturn, lineFeed] else [b]

/-- The raw texts of a literal: the first of its sources is what is after the opening
    quotes, and each of the others is what is after an interpolation. -/
def scannedPieces (sources : List Bytes) : List Bytes := sources.map fun source => (scanPiece source).raw

/-- A blank first line is dropped, and not all of the literal with it. -/
def dropsFirstOnly : List (List Symbol) → Bool
  | line :: line' :: lines => isBlank line && !(lines.isEmpty && isBlank line')
  | _ => false

section Sources

variable {b c d : UInt8} {source : Bytes}

/-! ## Scanning -/

-- The equations of the definitions are derived here, once for all proofs.
section
attribute [local simp] dropsFirstOnly
end

@[simp] theorem toCrlf_nil : toCrlf [] = [] := rfl

theorem toCrlf_lineFeed : toCrlf (lineFeed :: source) = carriageReturn :: lineFeed :: toCrlf source := rfl

theorem toCrlf_cons (hb : b ≠ lineFeed) : toCrlf (b :: source) = b :: toCrlf source := by
  rw [toCrlf, List.flatMap_cons, if_neg hb]
  rfl

theorem toCrlf_append {source' : Bytes} : toCrlf (source ++ source') = toCrlf source ++ toCrlf source' := List.flatMap_append

/-- What is scanned where no closing quotes can be. -/
theorem scanPiece_cons (hquote : ¬(c = quote ∧ d = quote)) :
    scanPiece (c :: d :: source) =
      if c = backslash then
        { (scanPiece source).prepend [c, d] with
          unknownEscapes :=
            if escapeValue d = none then d :: (scanPiece source).unknownEscapes else (scanPiece source).unknownEscapes }
      else if c = dollar ∧ d = leftBrace then { raw := [], unknownEscapes := [], stop := .interpolation, rest := source }
      else (scanPiece (d :: source)).prepend [c] := by
  rw [scanPiece.eq_def]
  simp only [if_neg hquote]

theorem scanPiece_quotes (hd : d ≠ quote) :
    scanPiece (quote :: quote :: d :: source) = (scanPiece (d :: source)).prepend [quote, quote] := by
  rw [scanPiece.eq_def]
  simp only [and_self, if_true, if_neg hd]

/-- A byte that starts neither quotes nor an escape nor an interpolation. -/
theorem scanPiece_plain (hquote : c ≠ quote) (hbackslash : c ≠ backslash) (hdollar : c ≠ dollar) :
    scanPiece (c :: source) = (scanPiece source).prepend [c] := by
  cases source with
  | nil => rfl
  | cons d source => rw [scanPiece_cons fun h => hquote h.1, if_neg hbackslash, if_neg fun h => hdollar h.1]

/-- A piece with its line endings replaced, whatever its escapes are. -/
structure Recoded (piece piece' : Piece) : Prop where
  raw : piece'.raw = toCrlf piece.raw
  stop : piece'.stop = piece.stop
  rest : piece'.rest = toCrlf piece.rest

theorem Recoded.prepend {piece piece' : Piece} (h : Recoded piece piece') (text : Bytes) :
    Recoded (piece.prepend text) (piece'.prepend (toCrlf text)) where
  raw := by rw [Piece.prepend, Piece.prepend, toCrlf_append, h.raw]
  stop := h.stop
  rest := h.rest

/-- The byte before a line feed that becomes two. -/
theorem scanPiece_return (hquote : c ≠ quote ∨ d ≠ quote) (hbackslash : c ≠ backslash) (hdollar : ¬(c = dollar ∧ d = leftBrace)) :
    scanPiece (c :: toCrlf (d :: source)) = (scanPiece (toCrlf (d :: source))).prepend [c] := by
  by_cases hd : d = lineFeed
  · subst hd
    rw [toCrlf_lineFeed, scanPiece_cons fun h => absurd h.2 (by decide), if_neg hbackslash, if_neg fun h => absurd h.2 (by decide)]
  · rw [toCrlf_cons hd, scanPiece_cons fun h => hquote.elim (· h.1) (· h.2), if_neg hbackslash, if_neg hdollar]

/-- A source with other line endings is scanned to the pieces with these line endings. -/
theorem scanPiece_toCrlf : Recoded (scanPiece source) (scanPiece (toCrlf source)) := by
  induction source using scanPiece.induct with
  | case1 => exact ⟨rfl, rfl, rfl⟩
  | case2 c =>
    by_cases hc : c = lineFeed
    · subst hc
      exact ⟨rfl, rfl, rfl⟩
    · have hsame : toCrlf [c] = [c] := toCrlf_cons hc
      rw [hsame]
      exact ⟨hsame.symm, rfl, rfl⟩
  | case3 c d hquotes =>
    obtain ⟨rfl, rfl⟩ := hquotes
    exact ⟨rfl, rfl, rfl⟩
  | case4 c d hquotes rest =>
    obtain ⟨rfl, rfl⟩ := hquotes
    exact ⟨rfl, rfl, rfl⟩
  | case5 c d hquotes e rest he ih =>
    obtain ⟨rfl, rfl⟩ := hquotes
    have hstep : scanPiece (quote :: quote :: toCrlf (e :: rest)) =
        (scanPiece (toCrlf (e :: rest))).prepend [quote, quote] := by
      by_cases hfeed : e = lineFeed
      · subst hfeed
        exact scanPiece_quotes (by decide)
      · rw [toCrlf_cons hfeed, scanPiece_quotes he]
    have hsource : toCrlf (quote :: quote :: e :: rest) = quote :: quote :: toCrlf (e :: rest) := rfl
    rw [hsource, scanPiece_quotes he, hstep]
    exact ih.prepend [quote, quote]
  | case6 d rest hquotes ih =>
    rw [scanPiece_cons hquotes, if_pos rfl, toCrlf_cons (by decide)]
    by_cases hd : d = lineFeed
    · -- The carriage return is escaped in its place.
      subst hd
      rw [toCrlf_lineFeed, scanPiece_cons fun h => absurd h.2 (by decide), if_pos rfl,
        scanPiece_plain (c := lineFeed) (by decide) (by decide) (by decide)]
      exact ⟨(ih.prepend [backslash, lineFeed]).raw, ih.stop, ih.rest⟩
    · have htext : toCrlf [backslash, d] = [backslash, d] := by
        rw [toCrlf_cons (by decide), toCrlf_cons hd, toCrlf_nil]
      have hprepend := ih.prepend [backslash, d]
      rw [htext] at hprepend
      rw [toCrlf_cons hd, scanPiece_cons hquotes, if_pos rfl]
      exact ⟨hprepend.raw, ih.stop, ih.rest⟩
  | case7 c d rest hquotes hbackslash hdollar =>
    obtain ⟨rfl, rfl⟩ := hdollar
    have hsource : toCrlf (dollar :: leftBrace :: rest) = dollar :: leftBrace :: toCrlf rest := rfl
    rw [hsource, scanPiece_cons hquotes, scanPiece_cons hquotes, if_neg hbackslash, if_pos ⟨rfl, rfl⟩,
      if_neg hbackslash, if_pos ⟨rfl, rfl⟩]
    exact ⟨rfl, rfl, rfl⟩
  | case8 c d rest hquotes hbackslash hdollar ih =>
    rw [scanPiece_cons hquotes, if_neg hbackslash, if_neg hdollar]
    by_cases hc : c = lineFeed
    · subst hc
      rw [toCrlf_lineFeed, scanPiece_plain (c := carriageReturn) (by decide) (by decide) (by decide),
        scanPiece_plain (c := lineFeed) (by decide) (by decide) (by decide)]
      exact ih.prepend [lineFeed]
    · have htext : toCrlf [c] = [c] := toCrlf_cons hc
      have hprepend := ih.prepend [c]
      rw [htext] at hprepend
      rw [toCrlf_cons hc, scanPiece_return (not_and_or.mp hquotes) hbackslash hdollar]
      exact hprepend

theorem scannedPieces_toCrlf {sources : List Bytes} :
    scannedPieces (sources.map toCrlf) = (scannedPieces sources).map toCrlf := by
  rw [scannedPieces, scannedPieces, List.map_map, List.map_map]
  exact List.map_congr_left fun source _ => scanPiece_toCrlf.raw

end Sources

section Texts

variable {piece : Bytes} {pieces : List Bytes} {line line' front back text : List Symbol} {lines : List (List Symbol)}
  {f g : List Symbol → List Symbol} {escaped : Bool} {b : UInt8}

/-! ## Lines with carriage returns -/

def crlfText (text : List Symbol) : List Symbol := text.flatMap fun s => if s = lf then [cr, lf] else [s]

theorem crlfText_append {text' : List Symbol} : crlfText (text ++ text') = crlfText text ++ crlfText text' :=
  List.flatMap_append

theorem crlfText_map : crlfText (piece.map .byte) = (toCrlf piece).map .byte := by
  induction piece with
  | nil => rfl
  | cons b piece ih =>
    rw [List.map_cons]
    by_cases hb : b = lineFeed
    · subst hb
      rw [toCrlf_lineFeed, List.map_cons, List.map_cons, ← ih]
      rfl
    · rw [toCrlf_cons hb, List.map_cons, ← ih, crlfText, List.flatMap_cons, if_neg (c := Symbol.byte b = lf) fun h => hb (Symbol.byte.inj h)]
      rfl

theorem textOf_toCrlf : textOf (pieces.map toCrlf) = crlfText (textOf pieces) := by
  induction pieces with
  | nil => rfl
  | cons piece pieces ih =>
    cases pieces with
    | nil => exact crlfText_map.symm
    | cons piece' pieces =>
      rw [List.map_cons, List.map_cons, textOf_cons_cons, ← List.map_cons (f := toCrlf), ih, textOf_cons_cons,
        crlfText_append, crlfText_map]
      rfl

/-- Every line but the last gets a carriage return. -/
theorem linesOf_crlfText : linesOf (crlfText text) = contentsBy (· ++ [cr]) (linesOf text) := by
  induction text with
  | nil => rfl
  | cons s text ih =>
    by_cases hs : s = lf
    · subst hs
      have hsource : crlfText (lf :: text) = cr :: lf :: crlfText text := rfl
      have hfeed : linesOf (lf :: crlfText text) = [] :: linesOf (crlfText text) := by rw [linesOf, if_pos rfl]
      rw [hsource, linesOf, if_neg (by decide), hfeed, ih, linesOf, if_pos rfl]
      cases hlines : linesOf text with
      | nil => exact absurd hlines linesOf_ne_nil
      | cons line lines => rw [contentsBy_cons]; rfl
    · have hsource : crlfText (s :: text) = s :: crlfText text := by
        rw [crlfText, List.flatMap_cons, if_neg hs]
        rfl
      rw [hsource, linesOf, if_neg hs, ih, linesOf, if_neg hs]
      cases hlines : linesOf text with
      | nil => exact absurd hlines linesOf_ne_nil
      | cons line lines => cases lines <;> rfl

theorem contentsBy_contentsBy : contentsBy f (contentsBy g lines) = contentsBy (f ∘ g) lines := by
  induction lines with
  | nil => rfl
  | cons line lines ih =>
    cases lines with
    | nil => rfl
    | cons line' lines =>
      rw [contentsBy_cons, contentsBy_cons, ← ih]
      cases lines <;> rfl

theorem withoutReturn_concat : withoutReturn (line ++ [cr]) = line :=
  (withoutReturn_append rfl).trans (List.append_nil line)

/-- Of lines with carriage returns, those without are left. -/
theorem contentsBy_crlf : contentsBy withoutReturn (contentsBy (· ++ [cr]) lines) = contentsBy id lines := by
  rw [contentsBy_contentsBy]
  exact contentsBy_congr fun line _ => withoutReturn_concat

theorem keepsFirstBreak_crlf : keepsFirstBreak (contentsBy (· ++ [cr]) lines) = dropsFirstOnly lines := by
  cases lines with
  | nil => rfl
  | cons line lines =>
    cases lines with
    | nil => rfl
    | cons line' lines =>
      have hreturn : isBlank (line ++ [cr]) = false := by
        rw [isBlank, List.all_append]
        exact Bool.and_false _
      rw [contentsBy_cons]
      cases lines with
      | nil => rw [contentsBy, keepsFirstBreak, withoutReturn_concat, hreturn, dropsFirstOnly, Bool.not_false, Bool.and_true]
      | cons line'' lines =>
        rw [contentsBy_cons, keepsFirstBreak, withoutReturn_concat, hreturn, dropsFirstOnly, Bool.not_false, Bool.and_true]
        cases lines <;> rfl

/-- The pieces of a source with other line endings lose just the lines and the indentation,
    but for the line feed of a blank first line. -/
theorem dedentPieces_toCrlf :
    dedentPieces ((piece :: pieces).map toCrlf) =
      piecesOf ((if dropsFirstOnly (linesOf (textOf (piece :: pieces))) then [lf] else []) ++
        dedentBy id (linesOf (textOf (piece :: pieces)))) := by
  have hlines : linesOf (textOf ((piece :: pieces).map toCrlf)) =
      contentsBy (· ++ [cr]) (linesOf (textOf (piece :: pieces))) := by
    rw [textOf_toCrlf, linesOf_crlfText]
  rw [List.map_cons] at hlines ⊢
  rw [dedentPieces_eq, hlines, keepsFirstBreak_crlf, dedentBy, dedentBy, contentsBy_crlf]

/-! ## How much of the values is no indentation -/

def weight (b : UInt8) : Nat := if isSpaceOrTab b then 0 else 1

/-- The bytes of the values of a text that are neither spaces nor tabs, where the first byte
    may be escaped. -/
def solid : Bool → List Symbol → Nat
  | _, [] => 0
  | _, .interpolation :: text => solid false text
  | true, .byte b :: text => weight ((escapeValue b).getD 63) + solid false text
  | false, .byte b :: text => if b = backslash then solid true text else weight b + solid false text

def solidBytes (values : List Bytes) : Nat := (values.map fun value => (value.map weight).sum).sum

section
attribute [local simp] solid
end

theorem resolveEscapes_plain (hb : b ≠ backslash) {raw : Bytes} : resolveEscapes (b :: raw) = b :: resolveEscapes raw := by
  cases raw with
  | nil => exact if_neg hb
  | cons c raw => exact if_neg hb

theorem solidBytes_piecesOf :
    solidBytes ((piecesOf text).map resolveEscapes) = solid false text ∧
      solidBytes ((piecesOf (.byte backslash :: text)).map resolveEscapes) = solid true text := by
  induction text with
  | nil => exact ⟨rfl, rfl⟩
  | cons s text ih =>
    obtain ⟨hplain, hescaped⟩ := ih
    cases s with
    | interpolation =>
      refine ⟨?_, ?_⟩
      · rw [solid, ← hplain]
        exact Nat.zero_add _
      · rw [solid, ← hplain]
        exact Nat.zero_add _
    | byte b =>
      rw [piecesOf] at hescaped
      rw [piecesOf, piecesOf]
      cases hpieces : piecesOf text with
      | nil => exact absurd hpieces piecesOf_ne_nil
      | cons piece pieces =>
        rw [hpieces] at hplain hescaped
        refine ⟨?_, ?_⟩
        · by_cases hb : b = backslash
          · subst hb
            rw [solid, if_pos rfl]
            exact hescaped
          · rw [solid, if_neg hb, ← hplain, consFirst, List.map_cons, resolveEscapes_plain hb]
            exact Nat.add_assoc _ _ _
        · have hfirst : consFirst backslash (consFirst b (piece :: pieces)) = (backslash :: b :: piece) :: pieces := rfl
          have hnext : piecesOf (.byte b :: text) = consFirst b (piece :: pieces) := by rw [piecesOf, hpieces]
          rw [solid, ← hplain, hnext, hfirst, List.map_cons, resolveEscapes, if_pos rfl]
          exact Nat.add_assoc _ _ _

theorem solid_of_all (h : back.all isInterpolation = true) : solid escaped back = 0 := by
  induction back generalizing escaped with
  | nil => cases escaped <;> rfl
  | cons s back ih =>
    cases s with
    | byte b => cases h
    | interpolation => cases escaped <;> exact ih h

/-- A line feed ends what is escaped, and counts itself. -/
theorem solid_lineFeed : solid escaped (line ++ lf :: text) = solid escaped line + 1 + solid false text := by
  induction line generalizing escaped with
  | nil => cases escaped <;> exact Nat.zero_add _ ▸ rfl
  | cons s line ih =>
    cases s with
    | interpolation => cases escaped <;> exact ih
    | byte b =>
      cases escaped with
      | true =>
        rw [List.cons_append, solid, ih, solid]
        omega
      | false =>
        rw [List.cons_append, solid, solid]
        split
        · exact ih
        · rw [ih]
          omega

/-- A carriage return at the end of a line counts, escaped or not. -/
theorem solid_return (hback : back.all isInterpolation = true) :
    solid escaped (front ++ cr :: back) = solid escaped (front ++ back) + 1 := by
  induction front generalizing escaped with
  | nil =>
    have hcr : solid escaped (cr :: back) = 1 + solid false back := by cases escaped <;> rfl
    rw [List.nil_append, List.nil_append, hcr, solid_of_all hback, solid_of_all hback]
  | cons s front ih =>
    cases s with
    | interpolation => cases escaped <;> exact ih
    | byte b =>
      cases escaped with
      | true =>
        rw [List.cons_append, List.cons_append, solid, solid, ih]
        rfl
      | false =>
        rw [List.cons_append, List.cons_append, solid, solid]
        split
        · exact ih
        · rw [ih]
          rfl

theorem solid_joinLines : solid false (joinLines lines) = (lines.map (solid false)).sum + (lines.length - 1) := by
  induction lines with
  | nil => rfl
  | cons line lines ih =>
    cases lines with
    | nil =>
      rw [joinLines_singleton, List.map_singleton, List.sum_singleton]
      rfl
    | cons line' lines =>
      rw [joinLines_cons (List.cons_ne_nil _ _), solid_lineFeed, ih, List.map_cons (a := line), List.sum_cons]
      simp only [List.length_cons, Nat.add_sub_cancel]
      omega

theorem solid_skipsIndent : SkipsIndent (solid false) where
  nil := rfl
  cons s line hs := by
    cases s with
    | interpolation => cases hs
    | byte b =>
      have hindent : isSpaceOrTab b = true := hs
      have hb : b ≠ backslash := by
        rintro rfl
        cases hs
      rw [solid, if_neg hb, weight, if_pos hindent, Nat.zero_add]

/-! ## The values for both line endings -/

theorem withoutReturn_solid (line : List Symbol) :
    (bytesOf line).getLast? = some carriageReturn ∧ solid false (withoutReturn line) + 1 = solid false line ∨
      (bytesOf line).getLast? ≠ some carriageReturn ∧ withoutReturn line = line := by
  rcases withoutReturn_cases line with ⟨front, back, rfl, hback, heq⟩ | hnone
  · refine Or.inl ⟨?_, ?_⟩
    · rw [bytesOf_append, cr, bytesOf_byte, bytesOf_of_all hback, List.getLast?_concat]
    · rw [heq, solid_return hback]
  · exact Or.inr hnone

theorem solid_withoutReturn_le (line : List Symbol) : solid false (withoutReturn line) ≤ solid false (id line) := by
  rcases withoutReturn_solid line with ⟨-, heq⟩ | ⟨-, heq⟩
  · rw [id]
    omega
  · rw [heq, id]

theorem solid_dedentBy :
    solid false (dedentBy f lines) =
      ((contentsBy f lines).map (solid false)).sum + ((withoutBlankLast (withoutBlankFirst (contentsBy f lines))).length - 1) := by
  rw [dedentBy, solid_joinLines, solid_skipsIndent.kept, List.length_map]

/-- How many lines are left behind a first one does not depend on what is stripped. -/
theorem withoutBlankLast_length :
    (withoutBlankLast (contentsBy f (line :: lines))).length =
      if (line :: lines).getLast?.any isBlank then lines.length else lines.length + 1 := by
  rw [withoutBlankLast, contentsBy_getLast]
  split
  · rw [List.length_dropLast, contentsBy_length]
    rfl
  · rw [contentsBy_length]
    rfl

theorem withoutBlankLast_cons_length :
    (withoutBlankLast (line :: contentsBy f (line' :: lines))).length =
      (withoutBlankLast (contentsBy f (line' :: lines))).length + 1 := by
  have hne : contentsBy f (line' :: lines) ≠ [] := contentsBy_ne_nil (List.cons_ne_nil _ _)
  rw [withoutBlankLast, withoutBlankLast, List.getLast?_cons_of_ne_nil hne]
  split
  · rw [List.dropLast_cons_of_ne_nil hne, List.length_cons]
  · rw [List.length_cons]

theorem isBlank_withoutReturn (hblank : isBlank line = true) : withoutReturn line = line := by
  rcases withoutReturn_cases line with ⟨front, back, rfl, -, -⟩ | ⟨-, heq⟩
  · rw [isBlank, List.all_append, List.all_cons, Bool.and_eq_true, Bool.and_eq_true] at hblank
    exact absurd hblank.2.1 (by decide)
  · exact heq

/-- A line whose carriage return makes it no blank one costs at most a line feed. -/
theorem kept_length_le :
    (if keepsFirstBreak lines then 1 else 0) +
        ((withoutBlankLast (withoutBlankFirst (contentsBy withoutReturn lines))).length - 1) ≤
      (withoutBlankLast (withoutBlankFirst (contentsBy id lines))).length - 1 := by
  cases lines with
  | nil => exact Nat.le_refl _
  | cons line lines =>
    cases lines with
    | nil => exact (Nat.zero_add _).le
    | cons line' lines =>
      have hsame : (withoutBlankLast (contentsBy withoutReturn (line' :: lines))).length =
          (withoutBlankLast (contentsBy id (line' :: lines))).length := by
        rw [withoutBlankLast_length, withoutBlankLast_length]
      rw [contentsBy_cons, contentsBy_cons, withoutBlankFirst, withoutBlankFirst, keepsFirstBreak, id]
      cases hblank : isBlank line with
      | true =>
        rw [isBlank_withoutReturn hblank, hblank, if_pos rfl, if_pos rfl, hsame]
        exact (Nat.zero_add _).le
      | false =>
        cases hfirst : isBlank (withoutReturn line) with
        | false =>
          rw [if_neg Bool.false_ne_true, if_neg Bool.false_ne_true, withoutBlankLast_cons_length,
            withoutBlankLast_cons_length, hsame]
          exact (Nat.zero_add _).le
        | true =>
          rw [if_pos rfl, if_neg Bool.false_ne_true, withoutBlankLast_cons_length, hsame, withoutBlankLast_length]
          cases lines with
          | nil =>
            rw [List.getLast?_singleton, Option.any_some]
            cases isBlank line' <;> decide
          | cons line'' lines => split <;> simp only [List.length_cons] <;> split <;> omega

theorem dropsFirstOnly_of_keepsFirstBreak (h : ∀ line ∈ lines.dropLast, (bytesOf line).getLast? ≠ some carriageReturn) :
    keepsFirstBreak lines = false := by
  cases lines with
  | nil => rfl
  | cons line lines =>
    cases lines with
    | nil => rfl
    | cons line' lines =>
      have hfirst : withoutReturn line = line := by
        rcases withoutReturn_cases line with ⟨front, back, rfl, hback, -⟩ | ⟨-, heq⟩
        · refine absurd ?_ (h _ (by rw [List.dropLast_cons_of_ne_nil (List.cons_ne_nil _ _)]; exact List.mem_cons_self))
          rw [bytesOf_append, cr, bytesOf_byte, bytesOf_of_all hback, List.getLast?_concat]
        · exact heq
      rw [keepsFirstBreak, hfirst, Bool.and_not_self, Bool.false_and]

/-- The values of a literal are the same for both line endings, unless the literal has
    carriage returns before line feeds already or the line feed of its first line is left. -/
theorem values_toCrlf (piece : Bytes) (pieces : List Bytes) :
    finishTripleQuoted ((piece :: pieces).map toCrlf) = finishTripleQuoted (piece :: pieces) ↔
      dropsFirstOnly (linesOf (textOf (piece :: pieces))) = false ∧
        ∀ line ∈ (linesOf (textOf (piece :: pieces))).dropLast, (bytesOf line).getLast? ≠ some carriageReturn := by
  rw [finishTripleQuoted, finishTripleQuoted, dedentPieces_toCrlf, dedentPieces_eq]
  generalize linesOf (textOf (piece :: pieces)) = lines
  have hfeed : ∀ kept text, solid false ((if kept = true then [lf] else []) ++ text) =
      (if kept = true then 1 else 0) + solid false text := by
    intro kept text
    cases kept with
    | true => exact rfl
    | false => exact (Nat.zero_add _).symm
  constructor
  · intro heq
    have hsolid := congrArg solidBytes heq
    rw [solidBytes_piecesOf.1, solidBytes_piecesOf.1, hfeed, hfeed, solid_dedentBy, solid_dedentBy] at hsolid
    have hle : ((contentsBy withoutReturn lines).map (solid false)).sum ≤ ((contentsBy id lines).map (solid false)).sum :=
      sum_contentsBy_le solid_withoutReturn_le
    have hlength : (if keepsFirstBreak lines then 1 else 0) +
        ((withoutBlankLast (withoutBlankFirst (contentsBy withoutReturn lines))).length - 1) ≤
          (withoutBlankLast (withoutBlankFirst (contentsBy id lines))).length - 1 := kept_length_le
    have hlines := eq_of_sum_contentsBy solid_withoutReturn_le
      (by omega : ((contentsBy id lines).map (solid false)).sum ≤ ((contentsBy withoutReturn lines).map (solid false)).sum)
    refine ⟨?_, fun line hline hreturn => ?_⟩
    · cases hdrops : dropsFirstOnly lines with
      | false => rfl
      | true =>
        rw [hdrops, if_pos rfl] at hsolid
        omega
    · have hequal := hlines line hline
      rcases withoutReturn_solid line with ⟨-, hmore⟩ | ⟨hnot, -⟩
      · rw [id] at hequal
        omega
      · exact hnot hreturn
  · rintro ⟨hdrops, hlines⟩
    have hcontents : contentsBy withoutReturn lines = contentsBy id lines := by
      refine contentsBy_congr fun line hline => ?_
      rcases withoutReturn_solid line with ⟨hreturn, -⟩ | ⟨-, hsame⟩
      · exact absurd hreturn (hlines line hline)
      · exact hsame
    rw [hdrops, dropsFirstOnly_of_keepsFirstBreak hlines, dedentBy, dedentBy, hcontents]

/-! ## The literals of a source -/

/-- A literal is dedented and nothing else, and has the same values for both line endings,
    just where no carriage return makes the scan take more, or less, than a line break. -/
theorem dedents_for_both_line_endings (source : Bytes) (sources : List Bytes) :
    (dedentPieces (scannedPieces (source :: sources)) = dedented (scannedPieces (source :: sources)) ↔
      keepsFirstBreak (linesOf (textOf (scannedPieces (source :: sources)))) = false ∧
        ∀ line ∈ (linesOf (textOf (scannedPieces (source :: sources)))).dropLast, ¬ReturnBeforeInterpolations line) ∧
    (finishTripleQuoted (scannedPieces ((source :: sources).map toCrlf)) =
        finishTripleQuoted (scannedPieces (source :: sources)) ↔
      dropsFirstOnly (linesOf (textOf (scannedPieces (source :: sources)))) = false ∧
        ∀ line ∈ (linesOf (textOf (scannedPieces (source :: sources)))).dropLast,
          (bytesOf line).getLast? ≠ some carriageReturn) := by
  rw [scannedPieces_toCrlf, scannedPieces, List.map_cons]
  exact ⟨dedentPieces_eq_dedented _ _, values_toCrlf _ _⟩

/-- A text between line breaks has another value with carriage returns: the first line
    break of it is left. -/
theorem line_feed_left :
    dedentPieces (scannedPieces [toCrlf [10, 32, 97, 10, 34, 34, 34]]) ≠
        dedented (scannedPieces [toCrlf [10, 32, 97, 10, 34, 34, 34]]) ∧
      finishTripleQuoted (scannedPieces ([[10, 32, 97, 10, 34, 34, 34]].map toCrlf)) = [[10, 97]] ∧
        finishTripleQuoted (scannedPieces [[10, 32, 97, 10, 34, 34, 34]]) = [[97]] := by
  have hcrlf : scannedPieces [toCrlf [10, 32, 97, 10, 34, 34, 34]] = [[13, 10, 32, 97, 13, 10]] := by decide
  have hlf : scannedPieces [[10, 32, 97, 10, 34, 34, 34]] = [[10, 32, 97, 10]] := by decide
  rw [List.map_singleton, hcrlf, hlf, finishTripleQuoted, finishTripleQuoted, dedentPieces_eq, dedentPieces_eq]
  decide

end Texts

end Luma.TripleQuoted
