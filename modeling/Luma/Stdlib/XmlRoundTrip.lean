-- SUMMARY: Reading serialised element trees back, and what no text, attribute or comment can do to them.
import Luma.Stdlib.Xml

/-! # XML Round Trip

The text of an element tree is read back as the same tree, apart from what the
parser does to every text: runs of text become one node, without the whitespace
they start with. -/

namespace Luma.Xml

open Codec Scanning

/-! ## Escaped text -/

section Escaping

variable {c : UInt8} {name pending s r : Bytes} {maxStringSize size : Nat}

/-- Every escaped character is an entity that the parser knows. -/
theorem parseEntity_entityName (h : entityName c = some name) : parseEntity (name ++ semicolon :: r) = ([c], r) := by
  unfold entityName at h
  split_ifs at h with h1 h2 h3 h4 h5 <;> cases h <;>
    simp [parseEntity, decodeEntity, semicolon, List.takeWhile, List.dropWhile, *]

theorem entityName_of_none (h : entityName c = none) : c ≠ lt ∧ c ≠ amp ∧ c ≠ quot := by
  unfold entityName at h
  split_ifs at h with h1 h2 h3 h4 h5
  exact ⟨h1, h3, h4⟩

theorem xmlEscapeString_cons_some (h : entityName c = some name) :
    xmlEscapeString (c :: s) = amp :: name ++ semicolon :: xmlEscapeString s := by
  simp [xmlEscapeString, tryEscape, h]

theorem xmlEscapeString_cons_none (h : entityName c = none) : xmlEscapeString (c :: s) = c :: xmlEscapeString s := by
  simp [xmlEscapeString, tryEscape, h]

theorem xmlEscapeString_append {t : Bytes} : xmlEscapeString (s ++ t) = xmlEscapeString s ++ xmlEscapeString t :=
  List.flatMap_append

/-- Escaped text is read back up to the next tag. -/
theorem parseTextFrom_escape (result : Bytes) (h : result.length + s.length ≤ maxStringSize) :
    parseTextFrom maxStringSize size result (xmlEscapeString s ++ lt :: r) = .ok (result ++ s, lt :: r) := by
  induction s generalizing result with
  | nil => simp [xmlEscapeString, parseTextFrom]
  | cons c s ih =>
    have hroom : ¬ result.length ≥ maxStringSize := by
      rw [List.length_cons] at h
      omega
    have hnext : (result ++ [c]).length + s.length ≤ maxStringSize := by
      simp only [List.length_append, List.length_cons, List.length_nil] at h ⊢
      omega
    cases hname : entityName c with
    | some name =>
      rw [xmlEscapeString_cons_some hname]
      simp only [List.cons_append, List.append_assoc]
      rw [parseTextFrom, if_neg (by decide), if_neg hroom, if_pos rfl, parseEntity_entityName hname, ih _ hnext]
      simp
    | none =>
      obtain ⟨hlt, hamp, -⟩ := entityName_of_none hname
      rw [xmlEscapeString_cons_none hname, List.cons_append, parseTextFrom, if_neg hlt, if_neg hroom, if_neg hamp,
        ih _ hnext]
      simp

/-- An escaped attribute value is read back up to its closing quote. -/
theorem attributeValueFrom_escape (result : Bytes) :
    attributeValueFrom quot result (xmlEscapeString s ++ quot :: r) = (result ++ s, quot :: r) := by
  induction s generalizing result with
  | nil => simp [xmlEscapeString, attributeValueFrom]
  | cons c s ih =>
    cases hname : entityName c with
    | some name =>
      rw [xmlEscapeString_cons_some hname]
      simp only [List.cons_append, List.append_assoc]
      rw [attributeValueFrom, if_neg (by decide), if_pos rfl, parseEntity_entityName hname, ih]
      simp
    | none =>
      obtain ⟨-, hamp, hquot⟩ := entityName_of_none hname
      rw [xmlEscapeString_cons_none hname, List.cons_append, attributeValueFrom, if_neg hquot, if_neg hamp, ih]
      simp

/-- Whitespace is not escaped. -/
theorem entityName_of_isSpace (h : isSpace c = true) : entityName c = none := by
  have hne : c ≠ lt ∧ c ≠ gt ∧ c ≠ amp ∧ c ≠ quot ∧ c ≠ apos := by
    refine ⟨?_, ?_, ?_, ?_, ?_⟩ <;> rintro rfl <;> exact absurd h (by decide)
  simp [entityName, hne]

/-- Skipping whitespace skips it in escaped text as in the text. -/
theorem skipWhitespace_escape :
    skipWhitespace (xmlEscapeString s ++ lt :: r) = xmlEscapeString (s.dropWhile isSpace) ++ lt :: r := by
  induction s with
  | nil => rfl
  | cons c s ih =>
    cases hspace : isSpace c with
    | true =>
      rw [xmlEscapeString_cons_none (entityName_of_isSpace hspace), List.cons_append, skipWhitespace,
        List.dropWhile_cons_of_pos hspace, List.dropWhile_cons_of_pos hspace]
      exact ih
    | false =>
      rw [List.dropWhile_cons_of_neg (by simp [hspace])]
      cases hname : entityName c with
      | some name =>
        rw [xmlEscapeString_cons_some hname]
        rfl
      | none =>
        rw [xmlEscapeString_cons_none hname, List.cons_append, skipWhitespace,
          List.dropWhile_cons_of_neg (by simp [hspace])]

/-- Escaped text that is not empty does not start a tag. -/
theorem xmlEscapeString_head (h : s ≠ []) (r : Bytes) : ∃ d t, xmlEscapeString s ++ r = d :: t ∧ d ≠ lt := by
  cases s with
  | nil => exact absurd rfl h
  | cons c s =>
    cases hname : entityName c with
    | some name =>
      rw [xmlEscapeString_cons_some hname]
      exact ⟨amp, _, rfl, by decide⟩
    | none =>
      rw [xmlEscapeString_cons_none hname]
      exact ⟨c, _, rfl, (entityName_of_none hname).1⟩

end Escaping

/-! ## Names and attributes -/

section Attributes

variable {size : Nat} {name r : Bytes} {attributes : List (Bytes × Bytes)}

@[simp] theorem expect_self {c : UInt8} : expect size c (c :: r) = .ok r := by
  simp [expect, advance, pure, Except.pure, bind, Except.bind]

theorem parseName_append (hname : isValidXmlName name = true) (hstop : ∀ c ∈ r.head?, isXmlNameChar c = false) :
    parseName size (name ++ r) = .ok (name, r) := by
  obtain ⟨hne, hall⟩ : name ≠ [] ∧ ∀ c ∈ name, isXmlNameChar c = true := by
    simpa [isValidXmlName] using hname
  rw [parseName, takeWhile_run hall hstop, dropWhile_run hall hstop, if_neg hne]

theorem isSpace_of_isXmlNameChar {c : UInt8} (h : isXmlNameChar c = true) : isSpace c = false := by
  unfold isXmlNameChar at h
  unfold isSpace
  grind

/-- A name starts with what is neither whitespace nor the end of a tag. -/
theorem validName_head (hname : isValidXmlName name = true) :
    skipWhitespace (name ++ r) = name ++ r ∧ atTagEnd (name ++ r) = false ∧ name ++ r ≠ [] := by
  cases name with
  | nil => cases hname
  | cons c name =>
    have hc : isXmlNameChar c = true := by
      simp only [isValidXmlName, List.all_cons, Bool.and_eq_true] at hname
      exact hname.2.1
    refine ⟨?_, ?_, nofun⟩
    · rw [skipWhitespace, List.cons_append, List.dropWhile_cons_of_neg]
      simp [isSpace_of_isXmlNameChar hc]
    · have hne : c ≠ slash ∧ c ≠ gt := by
        constructor <;> rintro rfl <;> exact absurd hc (by decide)
      simp [atTagEnd, hne]

theorem skipWhitespace_cons {c : UInt8} (h : isSpace c = false) : skipWhitespace (c :: r) = c :: r := by
  rw [skipWhitespace, List.dropWhile_cons_of_neg (by simp [h])]

theorem parseAttributeValue_serialize {v : Bytes} :
    parseAttributeValue size (quot :: xmlEscapeString v ++ quot :: r) = .ok (v, r) := by
  simp [parseAttributeValue, advance, attributeValueFrom_escape, bind, Except.bind, pure, Except.pure]

/-- Serialised attributes are read back, up to the end of the tag. -/
theorem parseAttributes_serialize (hnames : ∀ a ∈ attributes, isValidXmlName a.1 = true) (acc : List (Bytes × Bytes))
    {fuel : Nat} (hfuel : attributes.length < fuel) (hend : atTagEnd r = true) :
    parseAttributes size fuel acc (serializeAttributes attributes ++ r) = .ok (acc ++ attributes, r) := by
  induction attributes generalizing acc fuel with
  | nil =>
    obtain ⟨fuel, rfl⟩ : ∃ n, fuel = n + 1 := ⟨fuel - 1, by simp at hfuel; omega⟩
    have hskip : skipWhitespace r = r ∧ r ≠ [] := by
      cases r with
      | nil => cases hend
      | cons c r =>
        have hc : c = slash ∨ c = gt := by simpa [atTagEnd] using hend
        exact ⟨skipWhitespace_cons (by rcases hc with rfl | rfl <;> rfl), nofun⟩
    rw [parseAttributes]
    simp [serializeAttributes, hskip, hend]
  | cons a attributes ih =>
    obtain ⟨fuel, rfl⟩ : ∃ n, fuel = n + 1 := ⟨fuel - 1, by simp at hfuel; omega⟩
    obtain ⟨k, v⟩ := a
    have hk : isValidXmlName k = true := hnames (k, v) List.mem_cons_self
    have hrest := ih (fun a ha => hnames a (List.mem_cons_of_mem _ ha)) (acc ++ [(k, v)])
      (show attributes.length < fuel by simpa using hfuel)
    have hinput : serializeAttributes ((k, v) :: attributes) ++ r =
        space :: (k ++ equals :: (quot :: xmlEscapeString v ++ quot :: (serializeAttributes attributes ++ r))) := by
      simp [serializeAttributes]
    have hskip : ∀ t, skipWhitespace (space :: t) = skipWhitespace t := fun t => rfl
    obtain ⟨hhead, hnotEnd, -⟩ := validName_head (r := equals :: (quot :: xmlEscapeString v ++
      quot :: (serializeAttributes attributes ++ r))) hk
    rw [hinput, parseAttributes, if_neg (by nofun), hskip, hhead, if_neg (by rw [hnotEnd]; exact Bool.false_ne_true),
      parseName_append hk (by simp [equals, isXmlNameChar])]
    simp only [bind, Except.bind]
    rw [skipWhitespace_cons rfl, expect_self]
    simp only [List.cons_append]
    rw [skipWhitespace_cons rfl, ← List.cons_append, parseAttributeValue_serialize]
    simp only [hrest, List.append_assoc, List.singleton_append]

end Attributes

/-! ## Comments -/

section Comments

variable {r : Bytes}

/-- No `>` directly follows an odd number of dashes greater than one; `run` counts the dashes
    directly before. -/
def commentSafe : (run : Nat) → Bytes → Bool
  | _, [] => true
  | run, c :: rest =>
    if c = dash then commentSafe (run + 1) rest
    else !(c = gt && run ≥ 3 && run % 2 = 1) && commentSafe 0 rest

-- The equations of the definitions are derived here, once for all proofs.
section
attribute [local simp] commentSafe
end

theorem spaceDashes_cons {c : UInt8} {rest : Bytes} (h : c = dash → rest.head? ≠ some dash) :
    spaceDashes (c :: rest) = c :: spaceDashes rest := by
  rw [spaceDashes]
  rintro rest' rfl rfl
  exact h rfl rfl

/-- Something other than a dash is passed over. -/
theorem isPrefixOf_commentClose_of_ne {c : UInt8} {rest : Bytes} (h : c ≠ dash) :
    commentClose.isPrefixOf (c :: rest) = false := by
  simp [commentClose, List.isPrefixOf, Ne.symm (show c ≠ 45 from h)]

/-- After an even number of dashes a spaced comment does not go on with what closes it. -/
theorem spaceDashes_head {content : Bytes} {run : Nat} (heven : run % 2 = 0) (hrun : 2 ≤ run)
    (hsafe : commentSafe run content = true) :
    [dash, gt].isPrefixOf (spaceDashes content ++ commentClose ++ r) = false := by
  cases content with
  | nil => rfl
  | cons c rest =>
    by_cases hc : c = dash
    · subst hc
      cases rest with
      | nil => rfl
      | cons d rest =>
        by_cases hd : d = dash
        · subst hd
          rfl
        · have hgt : d ≠ gt := by
            rintro rfl
            have hodd : (run + 1) % 2 = 1 := by omega
            have hmany : 3 ≤ run + 1 := by omega
            simp [commentSafe, gt, dash, hodd, hmany] at hsafe
          rw [spaceDashes_cons (by simpa using hd), spaceDashes_cons (fun h => absurd h hd)]
          simp [List.isPrefixOf, Ne.symm hgt]
    · rw [spaceDashes_cons (fun h => absurd h hc)]
      simp [List.isPrefixOf, Ne.symm hc]

/-- The dashes before something other than a dash do not matter to what follows it. -/
theorem commentSafe_zero {content : Bytes} {run : Nat} (hsafe : commentSafe run content = true)
    (hhead : content.head? ≠ some dash) : commentSafe 0 content = true := by
  cases content with
  | nil => rfl
  | cons c rest =>
    have hc : c ≠ dash := by simpa using hhead
    simp only [commentSafe, if_neg hc, Bool.and_eq_true] at hsafe ⊢
    exact ⟨by simp, hsafe.2⟩

/-- A safe comment ends where it was closed. -/
theorem splitAtMarker_spaceDashes {content : Bytes} {run : Nat} (heven : run % 2 = 0)
    (hsafe : commentSafe run content = true) :
    splitAtMarker commentClose (spaceDashes content ++ commentClose ++ r) = some (spaceDashes content, r) := by
  induction content using spaceDashes.induct generalizing run with
  | case1 rest ih =>
    have hrest : commentSafe (run + 2) rest = true := by simpa [commentSafe, dash] using hsafe
    have hclose := ih (show (run + 2) % 2 = 0 by omega) hrest
    have hsecond : commentClose.isPrefixOf (dash :: (spaceDashes rest ++ commentClose ++ r)) = false :=
      spaceDashes_head (by omega) (by omega) hrest
    show splitAtMarker commentClose (dash :: space :: dash :: (spaceDashes rest ++ commentClose ++ r)) = _
    exact splitAtMarker_cons rfl (splitAtMarker_cons rfl (splitAtMarker_cons hsecond hclose))
  | case2 c rest hpair ih =>
    have hsingle : c = dash → rest.head? ≠ some dash := by
      rintro rfl hhead
      obtain ⟨rest', rfl⟩ := List.head?_eq_some_iff.mp hhead
      exact hpair rest' rfl rfl
    rw [spaceDashes_cons hsingle, List.cons_append, List.cons_append]
    by_cases hc : c = dash
    · subst hc
      have hzero : commentSafe 0 rest = true := commentSafe_zero (by simpa [commentSafe] using hsafe) (hsingle rfl)
      refine splitAtMarker_cons ?_ (ih (show 0 % 2 = 0 from rfl) hzero)
      cases rest with
      | nil => rfl
      | cons d rest =>
        have hd : d ≠ dash := by simpa using hsingle rfl
        rw [spaceDashes_cons (fun h => absurd h hd)]
        simp [commentClose, List.isPrefixOf, Ne.symm (show d ≠ 45 from hd)]
    · simp only [commentSafe, if_neg hc, Bool.and_eq_true] at hsafe
      exact splitAtMarker_cons (isPrefixOf_commentClose_of_ne hc) (ih (show 0 % 2 = 0 from rfl) hsafe.2)
  | case3 => exact splitAtMarker_here

end Comments

/-! ## CDATA sections -/

section Cdata

variable {content piece r : Bytes}

/-- Put a character in front of the first section. -/
def consPiece (c : UInt8) : List Bytes → List Bytes
  | [] => [[c]]
  | piece :: pieces => (c :: piece) :: pieces

/-- The sections that a content is written as. -/
def cdataPieces : Bytes → List Bytes
  | 93 :: 93 :: 62 :: rest => [bracket, bracket] :: consPiece gt (cdataPieces rest)
  | c :: rest => consPiece c (cdataPieces rest)
  | [] => [[]]

def cdataSection (piece : Bytes) : Bytes := cdataOpen ++ piece ++ cdataClose

section
attribute [local simp] consPiece cdataPieces
end

theorem consPiece_ne_nil {c : UInt8} {pieces : List Bytes} : consPiece c pieces ≠ [] := by
  cases pieces <;> nofun

theorem cdataPieces_ne_nil : cdataPieces content ≠ [] := by
  unfold cdataPieces
  split
  · nofun
  · exact consPiece_ne_nil
  · nofun

@[simp] theorem consPiece_flatten {c : UInt8} {pieces : List Bytes} :
    (consPiece c pieces).flatten = c :: pieces.flatten := by
  cases pieces <;> rfl

/-- A character that does not start the marker stays in its section. -/
theorem cdataPieces_cons {c : UInt8} {rest : Bytes} (h : ∀ rest', c = 93 → rest = 93 :: 62 :: rest' → False) :
    cdataPieces (c :: rest) = consPiece c (cdataPieces rest) := by
  rw [cdataPieces]
  exact h

theorem splitCdata_cons {c : UInt8} {rest : Bytes} (h : ∀ rest', c = 93 → rest = 93 :: 62 :: rest' → False) :
    splitCdata (c :: rest) = c :: splitCdata rest := by
  rw [splitCdata]
  exact h

/-- No character of the content is lost. -/
theorem cdataPieces_flatten : (cdataPieces content).flatten = content := by
  induction content using cdataPieces.induct with
  | case1 rest ih => simp [cdataPieces, ih, bracket, gt]
  | case2 c rest hclose ih => rw [cdataPieces_cons hclose, consPiece_flatten, ih]
  | case3 => rfl

theorem consPiece_flatMap {c : UInt8} {pieces : List Bytes} {text : Bytes} (hne : pieces ≠ [])
    (h : pieces.flatMap cdataSection = cdataOpen ++ text) :
    (consPiece c pieces).flatMap cdataSection = cdataOpen ++ c :: text := by
  cases pieces with
  | nil => exact absurd rfl hne
  | cons piece pieces =>
    simp only [List.flatMap_cons, cdataSection, List.append_assoc, List.append_cancel_left_eq] at h
    simp [consPiece, cdataSection, ← h]

/-- The sections one after the other are the serialised content. -/
theorem cdataPieces_flatMap : (cdataPieces content).flatMap cdataSection = serializeCdata content := by
  unfold serializeCdata
  rw [List.append_assoc]
  induction content using cdataPieces.induct with
  | case1 rest ih =>
    have hrest := consPiece_flatMap (c := gt) cdataPieces_ne_nil ih
    simp [cdataPieces, splitCdata, cdataSection, hrest]
  | case2 c rest hclose ih =>
    rw [cdataPieces_cons hclose, splitCdata_cons hclose]
    exact consPiece_flatMap cdataPieces_ne_nil ih
  | case3 => rfl

theorem mem_consPiece {c : UInt8} {pieces : List Bytes} (hne : pieces ≠ []) (h : piece ∈ consPiece c pieces) :
    (∃ q ps, pieces = q :: ps ∧ piece = c :: q) ∨ piece ∈ pieces := by
  cases pieces with
  | nil => exact absurd rfl hne
  | cons q ps =>
    rcases List.mem_cons.mp h with rfl | hmem
    · exact Or.inl ⟨q, ps, rfl, rfl⟩
    · exact Or.inr (List.mem_cons_of_mem q hmem)

/-- The first section starts as the content does. -/
theorem cdataPieces_head {c : UInt8} {q : Bytes} {ps : List Bytes} (h : cdataPieces content = (c :: q) :: ps) :
    ∃ rest, content = c :: rest ∧ (c = 93 ∧ q = [93] ∨ cdataPieces rest = q :: ps) := by
  induction content using cdataPieces.induct with
  | case1 rest ih =>
    cases h
    exact ⟨93 :: 62 :: rest, rfl, Or.inl ⟨rfl, rfl⟩⟩
  | case2 d rest hclose ih =>
    rw [cdataPieces_cons hclose] at h
    cases hpieces : cdataPieces rest with
    | nil => exact absurd hpieces cdataPieces_ne_nil
    | cons q' ps' =>
      rw [hpieces] at h
      cases h
      exact ⟨rest, rfl, Or.inr hpieces⟩
  | case3 => cases h

/-- A section ends where it was closed. -/
theorem splitAtMarker_cdataPieces (h : piece ∈ cdataPieces content) :
    splitAtMarker cdataClose (piece ++ cdataClose ++ r) = some (piece, r) := by
  induction content using cdataPieces.induct generalizing piece with
  | case1 rest ih =>
    rcases List.mem_cons.mp h with rfl | hmem
    · exact splitAtMarker_cons rfl (splitAtMarker_cons rfl splitAtMarker_here)
    · rcases mem_consPiece cdataPieces_ne_nil hmem with ⟨q, ps, hpieces, rfl⟩ | hmem
      · exact splitAtMarker_cons rfl (ih (hpieces ▸ List.mem_cons_self))
      · exact ih hmem
  | case2 c rest hclose ih =>
    rw [cdataPieces_cons hclose] at h
    rcases mem_consPiece cdataPieces_ne_nil h with ⟨q, ps, hpieces, rfl⟩ | hmem
    · refine splitAtMarker_cons ?_ (ih (hpieces ▸ List.mem_cons_self))
      by_cases hc : c = 93
      · subst hc
        match q, hpieces with
        | [], _ => rfl
        | [d], _ => simp [cdataClose, List.isPrefixOf]
        | d :: e :: q, hpieces =>
          -- The section goes on as the content does, and that is not the marker.
          by_cases hde : d = 93 ∧ e = 62
          · obtain ⟨rfl, rfl⟩ := hde
            obtain ⟨rest', rfl, ⟨-, hq⟩ | hrest⟩ := cdataPieces_head hpieces
            · cases hq
            · obtain ⟨rest'', rfl, -⟩ := cdataPieces_head hrest
              exact (hclose rest'' rfl rfl).elim
          · simp [cdataClose, List.isPrefixOf]
            intro hd he
            exact hde ⟨hd.symm, he.symm⟩
      · simp [cdataClose, List.isPrefixOf, Ne.symm hc]
    · exact ih hmem
  | case3 =>
    obtain rfl := List.mem_singleton.mp h
    exact splitAtMarker_here

end Cdata

/-! ## Trees -/

/-- The node that a run of text is read back as, without the whitespace it starts with. -/
def textRun (run : Bytes) : List XmlValue :=
  if run.dropWhile isSpace = [] then [] else [.text (run.dropWhile isSpace)]

mutual

/-- What the text of a node is read back as. -/
def XmlValue.reparsed : XmlValue → List XmlValue
  | .element tag attributes children => [.element tag attributes (reparsedChildren [] children)]
  | .comment content => [.comment (spaceDashes content)]
  | .cdata content => (cdataPieces content).map .cdata
  | .text content => textRun content

/-- What the text of children is read back as, after a `run` of text. -/
def reparsedChildren (run : Bytes) : List XmlValue → List XmlValue
  | [] => textRun run
  | child :: children =>
    match child with
    | .text content => reparsedChildren (run ++ content) children
    | .element _ _ _ | .comment _ | .cdata _ => textRun run ++ child.reparsed ++ reparsedChildren [] children

end

mutual

/-- A property of a node and of everything below it. -/
def XmlValue.Everywhere (P : XmlValue → Prop) : XmlValue → Prop
  | .element tag attributes children => P (.element tag attributes children) ∧ EverywhereIn P children
  | .text content => P (.text content)
  | .comment content => P (.comment content)
  | .cdata content => P (.cdata content)

def EverywhereIn (P : XmlValue → Prop) : List XmlValue → Prop
  | [] => True
  | child :: children => child.Everywhere P ∧ EverywhereIn P children

end

mutual

/-- How many elements are inside each other. -/
def XmlValue.nesting : XmlValue → Nat
  | .element _ _ children => nestingIn children + 1
  | .text _ | .comment _ | .cdata _ => 0

def nestingIn : List XmlValue → Nat
  | [] => 0
  | child :: children => max child.nesting (nestingIn children)

end

/-- The names of an element and of its attributes are XML names. -/
def XmlValue.HasValidNames : XmlValue → Prop
  | .element tag attributes _ => isValidXmlName tag = true ∧ ∀ a ∈ attributes, isValidXmlName a.1 = true
  | _ => True

/-- A comment closes only where it ends. -/
def XmlValue.HasSafeComment : XmlValue → Prop
  | .comment content => commentSafe 0 content = true
  | _ => True

/-- What an element holds is within the parser's limits. -/
def XmlValue.WithinLimits (maxArraySize maxStringSize : Nat) : XmlValue → Prop
  | .element _ _ children =>
    (reparsedChildren [] children).length ≤ maxArraySize ∧
      ∀ content, .text content ∈ reparsedChildren [] children → content.length ≤ maxStringSize
  | _ => True

/-- What the parser needs of a node to read it back. -/
def XmlValue.Readable (maxArraySize maxStringSize : Nat) (node : XmlValue) : Prop :=
  node.HasValidNames ∧ node.HasSafeComment ∧ node.WithinLimits maxArraySize maxStringSize

mutual

/-- The compact text of a node. -/
def XmlValue.render : XmlValue → Bytes
  | .text content => xmlEscapeString content
  | .cdata content => serializeCdata content
  | .comment content => serializeComment content
  | .element tag attributes children =>
    lt :: tag ++ serializeAttributes attributes ++
      if children.isEmpty then [slash, gt] else gt :: renderAll children ++ lt :: slash :: tag ++ [gt]

def renderAll : List XmlValue → Bytes
  | [] => []
  | child :: children => child.render ++ renderAll children

end

section Serialisation

section
attribute [local simp] XmlValue.reparsed reparsedChildren XmlValue.Everywhere EverywhereIn
  XmlValue.nesting nestingIn XmlValue.HasValidNames XmlValue.HasSafeComment XmlValue.WithinLimits
  XmlValue.render renderAll
end

theorem lineStart_compact {depth : Nat} : lineStart {} depth = [] := rfl

mutual

/-- What the serializer accepts it writes without line breaks. -/
theorem serializeXml_compact : ∀ (node : XmlValue) {depth : Nat} {out : Bytes},
    serializeXml {} depth node = .ok out → out = node.render
  | .text content, depth, out, h => by
    cases h
    rfl
  | .comment content, depth, out, h => by
    cases h
    rfl
  | .cdata content, depth, out, h => by
    cases h
    rfl
  | .element tag attributes children, depth, out, h => by
    rw [serializeXml] at h
    split at h
    · cases h
    · split at h
      next hempty =>
        cases h
        simp [XmlValue.render, hempty, lineStart_compact]
      next hempty =>
        have hbody : ∃ d body, serializeChildren {} d children = .ok body ∧
            out = lt :: tag ++ serializeAttributes attributes ++ gt :: body ++ lt :: slash :: tag ++ [gt] := by
          dsimp only at h
          generalize hchildren : (if (!children.any XmlValue.isElement) = true then serializeChildren {} 0 children
            else serializeChildren {} (depth + 1) children) = written at h
          cases written with
          | error e => cases h
          | ok body =>
            cases h
            split at hchildren <;> exact ⟨_, body, hchildren, by simp [lineStart_compact]⟩
        obtain ⟨d, body, hchildren, rfl⟩ := hbody
        simp [XmlValue.render, hempty, serializeChildren_compact children hchildren]

theorem serializeChildren_compact : ∀ (children : List XmlValue) {depth : Nat} {out : Bytes},
    serializeChildren {} depth children = .ok out → out = renderAll children
  | [], depth, out, h => by
    cases h
    rfl
  | child :: children, depth, out, h => by
    rw [serializeChildren] at h
    cases hfirst : serializeXml {} depth child with
    | error e =>
      rw [hfirst] at h
      cases h
    | ok first =>
      cases hothers : serializeChildren {} depth children with
      | error e =>
        rw [hfirst, hothers] at h
        cases h
      | ok others =>
        rw [hfirst, hothers] at h
        cases h
        rw [renderAll, serializeXml_compact child hfirst, serializeChildren_compact children hothers]

end

end Serialisation

/-! ## Reading trees back -/

section Parsing

variable {maxArraySize maxStringSize size fuel depth : Nat} {acc : List XmlValue} {rest r : Bytes}

/-- One child is read, in front of something that does not end the element. -/
theorem parseChildren_step {child : List XmlValue} (hskip : skipWhitespace rest ≠ [])
    (hopen : [lt, slash].isPrefixOf (skipWhitespace rest) = false) (hroom : acc.length < maxArraySize)
    (hchild : parseChildNode maxStringSize size (parseElement maxArraySize maxStringSize size fuel depth)
      (skipWhitespace rest) = .ok (child, r)) :
    parseChildren maxArraySize maxStringSize size (fuel + 1) depth acc rest =
      parseChildren maxArraySize maxStringSize size fuel depth (acc ++ child) r := by
  have hne : rest ≠ [] := by
    rintro rfl
    exact hskip rfl
  rw [parseChildren, if_neg hne, if_neg (by rw [hopen]; exact Bool.false_ne_true), if_neg (Nat.not_le.mpr hroom), hchild]
  rfl

/-- Whitespace before a child does not matter. -/
theorem parseChildren_congr {rest' : Bytes} (hne : rest ≠ []) (hne' : rest' ≠ [])
    (h : skipWhitespace rest = skipWhitespace rest') :
    parseChildren maxArraySize maxStringSize size fuel depth acc rest =
      parseChildren maxArraySize maxStringSize size fuel depth acc rest' := by
  cases fuel with
  | zero => rfl
  | succ fuel => simp only [parseChildren, hne, hne', if_false, h]

/-- Text without leading whitespace makes a node. -/
theorem textNode_dropWhile {run : Bytes} (h : run.dropWhile isSpace ≠ []) :
    textNode (run.dropWhile isSpace) = [.text (run.dropWhile isSpace)] := by
  refine if_neg fun hall => ?_
  have hhead := List.head_dropWhile_not isSpace h
  rw [List.all_eq_true] at hall
  cases (hall _ (List.head_mem h)).symm.trans hhead

/-- A run of text is read, up to the next tag. -/
theorem parseChildren_textRun {run : Bytes} (hfuel : (xmlEscapeString run ++ lt :: r).length < fuel)
    (hroom : (acc ++ textRun run).length ≤ maxArraySize)
    (hsize : ∀ content, .text content ∈ textRun run → content.length ≤ maxStringSize) :
    ∃ fuel', (lt :: r).length < fuel' ∧
      parseChildren maxArraySize maxStringSize size fuel depth acc (xmlEscapeString run ++ lt :: r) =
        parseChildren maxArraySize maxStringSize size fuel' depth (acc ++ textRun run) (lt :: r) := by
  obtain ⟨fuel, rfl⟩ : ∃ n, fuel = n + 1 := ⟨fuel - 1, by omega⟩
  have hskip : skipWhitespace (xmlEscapeString run ++ lt :: r) = _ := skipWhitespace_escape
  by_cases hblank : run.dropWhile isSpace = []
  · refine ⟨fuel + 1, by simp only [List.length_append] at hfuel; omega, ?_⟩
    rw [hblank] at hskip
    have hself : skipWhitespace (lt :: r) = lt :: r := skipWhitespace_cons rfl
    rw [textRun, if_pos hblank, List.append_nil]
    exact parseChildren_congr (by simp) nofun (hskip.trans hself.symm)
  · obtain ⟨d, t, hhead, hlt⟩ := xmlEscapeString_head hblank (lt :: r)
    have hrun : xmlEscapeString run ≠ [] := by
      intro hnil
      have hlast : xmlEscapeString (run.dropWhile isSpace) ++ lt :: r = lt :: r := by
        rw [← hskip, hnil]
        exact skipWhitespace_cons rfl
      rw [hhead] at hlast
      exact hlt (List.cons.inj hlast).1
    have hlength := List.length_pos_iff.mpr hrun
    refine ⟨fuel, by simp only [List.length_append] at hfuel; omega, ?_⟩
    have htext : textRun run = [.text (run.dropWhile isSpace)] := if_neg hblank
    rw [htext] at hroom hsize ⊢
    refine parseChildren_step ?_ ?_ ?_ ?_
    · rw [hskip, hhead]
      nofun
    · rw [hskip, hhead]
      simp [List.isPrefixOf, Ne.symm hlt]
    · simp only [List.length_append, List.length_singleton] at hroom
      omega
    · have hread : parseTextFrom maxStringSize size [] (xmlEscapeString (run.dropWhile isSpace) ++ lt :: r) =
          .ok (run.dropWhile isSpace, lt :: r) := parseTextFrom_escape [] (by simpa using hsize _ List.mem_cons_self)
      have hnot : commentOpen.isPrefixOf (d :: t) = false ∧ cdataOpen.isPrefixOf (d :: t) = false := by
        constructor <;> simp [commentOpen, cdataOpen, List.isPrefixOf, Ne.symm (show d ≠ 60 from hlt)]
      rw [hskip, parseChildNode, parseText, hread, hhead]
      simp only [hnot, List.head?_cons, Option.some.injEq, hlt, Bool.false_eq_true, if_false]
      exact congrArg (fun node => Except.ok (node, lt :: r)) (textNode_dropWhile hblank)

/-- A comment is read. -/
theorem parseChildren_comment {content : Bytes} (hsafe : commentSafe 0 content = true)
    (hfuel : (serializeComment content ++ r).length < fuel) (hroom : acc.length < maxArraySize) :
    ∃ fuel', r.length < fuel' ∧
      parseChildren maxArraySize maxStringSize size fuel depth acc (serializeComment content ++ r) =
        parseChildren maxArraySize maxStringSize size fuel' depth (acc ++ [.comment (spaceDashes content)]) r := by
  obtain ⟨fuel, rfl⟩ : ∃ n, fuel = n + 1 := ⟨fuel - 1, by omega⟩
  have hskip : skipWhitespace (serializeComment content ++ r) = serializeComment content ++ r := rfl
  refine ⟨fuel, by simp [serializeComment, commentOpen] at hfuel; omega, parseChildren_step ?_ ?_ hroom ?_⟩
  · rw [hskip]
    nofun
  · rfl
  · have hclose := splitAtMarker_spaceDashes (r := r) (show 0 % 2 = 0 from rfl) hsafe
    have hdrop : (serializeComment content ++ r).drop 4 = spaceDashes content ++ commentClose ++ r := by
      simp [serializeComment, commentOpen]
    rw [hskip, parseChildNode, if_pos (by rfl), hdrop, hclose]

/-- The sections of a content are read. -/
theorem parseChildren_cdata {pieces : List Bytes}
    (hclose : ∀ piece ∈ pieces, ∀ r, splitAtMarker cdataClose (piece ++ cdataClose ++ r) = some (piece, r))
    (hfuel : (pieces.flatMap cdataSection ++ r).length < fuel) (hroom : acc.length + pieces.length ≤ maxArraySize) :
    ∃ fuel', r.length < fuel' ∧
      parseChildren maxArraySize maxStringSize size fuel depth acc (pieces.flatMap cdataSection ++ r) =
        parseChildren maxArraySize maxStringSize size fuel' depth (acc ++ pieces.map .cdata) r := by
  induction pieces generalizing acc fuel with
  | nil => exact ⟨fuel, by simpa using hfuel, by simp⟩
  | cons piece pieces ih =>
    obtain ⟨fuel, rfl⟩ : ∃ n, fuel = n + 1 := ⟨fuel - 1, by omega⟩
    simp only [List.flatMap_cons, List.append_assoc, List.length_append, List.length_cons] at hfuel hroom ⊢
    have hskip : skipWhitespace (cdataSection piece ++ (pieces.flatMap cdataSection ++ r)) =
        cdataSection piece ++ (pieces.flatMap cdataSection ++ r) := rfl
    have hstep : parseChildren maxArraySize maxStringSize size (fuel + 1) depth acc
        (cdataSection piece ++ (pieces.flatMap cdataSection ++ r)) =
          parseChildren maxArraySize maxStringSize size fuel depth (acc ++ [.cdata piece])
            (pieces.flatMap cdataSection ++ r) := by
      refine parseChildren_step ?_ ?_ (by omega) ?_
      · rw [hskip]
        nofun
      · rfl
      · have hdrop : (cdataSection piece ++ (pieces.flatMap cdataSection ++ r)).drop 9 =
            piece ++ cdataClose ++ (pieces.flatMap cdataSection ++ r) := by
          simp [cdataSection, cdataOpen]
        rw [hskip, parseChildNode, if_neg (by simp [cdataSection, cdataOpen, commentOpen, List.isPrefixOf]),
          if_pos (by rfl), hdrop, hclose piece List.mem_cons_self]
    have hlength : 0 < (cdataSection piece).length := by simp [cdataSection, cdataOpen]
    have hrest : (pieces.flatMap cdataSection ++ r).length < fuel := by
      simp only [List.length_append]
      omega
    have hroom' : (acc ++ [XmlValue.cdata piece]).length + pieces.length ≤ maxArraySize := by
      simp
      omega
    obtain ⟨fuel', hfuel', heq⟩ := ih (fun p hp => hclose p (List.mem_cons_of_mem _ hp)) hrest hroom'
    exact ⟨fuel', hfuel', hstep.trans (heq.trans (by simp))⟩

/-- What follows the name in a start tag does not continue it. -/
theorem tagRest_head {attributes : List (Bytes × Bytes)} (hend : atTagEnd rest = true) :
    ∀ c ∈ (serializeAttributes attributes ++ rest).head?, isXmlNameChar c = false := by
  intro c hc
  cases attributes with
  | nil =>
    have hhead : rest.head? = some slash ∨ rest.head? = some gt := by simpa [atTagEnd] using hend
    rw [show serializeAttributes [] ++ rest = rest from rfl] at hc
    rcases hhead with hhead | hhead <;> rw [hhead] at hc <;> cases hc <;> rfl
  | cons a attributes =>
    obtain ⟨k, v⟩ := a
    have hc' : c = space := by simpa [serializeAttributes, eq_comm] using hc
    rw [hc']
    rfl

theorem attributes_length_le {attributes : List (Bytes × Bytes)} :
    attributes.length ≤ (serializeAttributes attributes).length := by
  induction attributes with
  | nil => exact Nat.le_refl 0
  | cons a attributes ih =>
    simp only [serializeAttributes, List.flatMap_cons, List.length_append, List.length_cons] at ih ⊢
    omega

/-- A child other than text is read after a run of text, and then the others are. -/
theorem parseChildren_child (node : XmlValue) {others : List XmlValue} {run tail : Bytes}
    (hstart : ∃ t, node.render ++ tail = lt :: t)
    (hchild : ∀ {acc : List XmlValue} {fuel : Nat}, (node.render ++ tail).length < fuel →
      acc.length + node.reparsed.length ≤ maxArraySize → ∃ fuel', tail.length < fuel' ∧
        parseChildren maxArraySize maxStringSize size fuel depth acc (node.render ++ tail) =
          parseChildren maxArraySize maxStringSize size fuel' depth (acc ++ node.reparsed) tail)
    (hothers : ∀ {acc : List XmlValue} {fuel : Nat}, tail.length < fuel → (acc ++ others).length ≤ maxArraySize →
      parseChildren maxArraySize maxStringSize size fuel depth acc tail = .ok (acc ++ others, r))
    (hcount : (acc ++ (textRun run ++ node.reparsed ++ others)).length ≤ maxArraySize)
    (hsize : ∀ content, .text content ∈ textRun run → content.length ≤ maxStringSize)
    (hfuel : (xmlEscapeString run ++ (node.render ++ tail)).length < fuel) :
    parseChildren maxArraySize maxStringSize size fuel depth acc (xmlEscapeString run ++ (node.render ++ tail)) =
      .ok (acc ++ (textRun run ++ node.reparsed ++ others), r) := by
  obtain ⟨t, ht⟩ := hstart
  rw [ht] at hfuel hchild ⊢
  simp only [List.length_append] at hcount
  have hroom : (acc ++ textRun run).length ≤ maxArraySize := by
    rw [List.length_append]
    omega
  obtain ⟨fuel₁, hfuel₁, hrun⟩ := parseChildren_textRun hfuel hroom hsize
  obtain ⟨fuel₂, hfuel₂, hnode⟩ := @hchild (acc ++ textRun run) fuel₁ hfuel₁ (by rw [List.length_append]; omega)
  rw [hrun, hnode, hothers hfuel₂ (by simp only [List.length_append]; omega)]
  simp

/-- All attributes of a tag are read. -/
theorem parseAttributes_tag {attributes : List (Bytes × Bytes)}
    (hnames : ∀ a ∈ attributes, isValidXmlName a.1 = true) (hend : atTagEnd rest = true) :
    parseAttributes size ((serializeAttributes attributes ++ rest).length + 1) [] (serializeAttributes attributes ++ rest) =
      .ok (attributes, rest) := by
  have hlength : attributes.length ≤ (serializeAttributes attributes).length := attributes_length_le
  exact parseAttributes_serialize hnames [] (by rw [List.length_append]; omega) hend

/-- An element starts with its name, which no other markup does. -/
theorem element_start {tag t : Bytes} (htag : isValidXmlName tag = true) {c : UInt8} {marker : Bytes}
    (hc : isXmlNameChar c = false) : (lt :: c :: marker).isPrefixOf (lt :: (tag ++ t)) = false := by
  cases tag with
  | nil => cases htag
  | cons d tag =>
    have hd : isXmlNameChar d = true := by
      simp only [isValidXmlName, List.all_cons, Bool.and_eq_true] at htag
      exact htag.2.1
    have hne : c ≠ d := by
      rintro rfl
      cases hc.symm.trans hd
    simp [List.isPrefixOf, hne]

/-- The text of an element is read back as the element, if its children are. -/
theorem parseElement_render {tag : Bytes} {attributes : List (Bytes × Bytes)} {children : List XmlValue}
    (hnames : (XmlValue.element tag attributes children).HasValidNames) (hshallow : depth + 1 ≤ maxXmlDepth)
    (hchildren : ∀ {fuel : Nat} {r : Bytes}, (renderAll children ++ lt :: slash :: r).length < fuel →
      parseChildren maxArraySize maxStringSize size fuel (depth + 1) [] (renderAll children ++ lt :: slash :: r) =
        .ok (reparsedChildren [] children, lt :: slash :: r))
    (hfuel : ((XmlValue.element tag attributes children).render ++ r).length ≤ fuel) :
    parseElement maxArraySize maxStringSize size fuel depth ((XmlValue.element tag attributes children).render ++ r) =
      .ok (.element tag attributes (reparsedChildren [] children), r) := by
  obtain ⟨htag, hattributes⟩ := hnames
  obtain ⟨fuel, rfl⟩ : ∃ n, fuel = n + 1 := ⟨fuel - 1, by simp [XmlValue.render] at hfuel; omega⟩
  rw [parseElement, if_neg (Nat.not_lt.mpr hshallow)]
  cases children with
  | nil =>
    have hend : atTagEnd (slash :: gt :: r) = true := rfl
    have hinput : (XmlValue.element tag attributes []).render ++ r =
        lt :: (tag ++ (serializeAttributes attributes ++ slash :: gt :: r)) := by
      simp [XmlValue.render]
    rw [hinput]
    simp only [expect_self, parseName_append htag (tagRest_head hend), parseAttributes_tag hattributes hend, bind,
      Except.bind, pure, Except.pure]
    simp [reparsedChildren, textRun]
  | cons child children =>
    have hinput : (XmlValue.element tag attributes (child :: children)).render ++ r =
        lt :: (tag ++ (serializeAttributes attributes ++
          gt :: (renderAll (child :: children) ++ lt :: slash :: (tag ++ gt :: r)))) := by
      simp [XmlValue.render]
    rw [hinput] at hfuel ⊢
    have hend : atTagEnd (gt :: (renderAll (child :: children) ++ lt :: slash :: (tag ++ gt :: r))) = true := rfl
    have hshorter : (renderAll (child :: children) ++ lt :: slash :: (tag ++ gt :: r)).length < fuel := by
      have htagLength : 0 < tag.length := List.length_pos_iff.mpr (by rintro rfl; cases htag)
      simp only [List.length_append, List.length_cons] at hfuel ⊢
      omega
    have hread : parseChildren maxArraySize maxStringSize size fuel (depth + 1) []
        (renderAll (child :: children) ++ lt :: slash :: (tag ++ gt :: r)) = _ := hchildren hshorter
    have hclose : ∀ c ∈ (gt :: r).head?, isXmlNameChar c = false := by
      rintro c hc
      cases hc
      rfl
    have hskip : skipWhitespace (gt :: r) = gt :: r := skipWhitespace_cons rfl
    simp only [expect_self, parseName_append htag (tagRest_head hend), parseAttributes_tag hattributes hend, bind,
      Except.bind, pure, Except.pure, List.head?_cons, Option.some.injEq, show gt ≠ slash by decide, if_false, hread,
      parseName_append htag hclose, hskip, ne_eq, not_true_eq_false]

/-- The text of children is read back, after a run of text and up to the closing tag. -/
theorem parseChildren_render : ∀ (children : List XmlValue) {run : Bytes} {acc : List XmlValue} {fuel depth : Nat} {r : Bytes},
    EverywhereIn (XmlValue.Readable maxArraySize maxStringSize) children →
    depth + nestingIn children ≤ maxXmlDepth →
    (xmlEscapeString run ++ (renderAll children ++ lt :: slash :: r)).length < fuel →
    (acc ++ reparsedChildren run children).length ≤ maxArraySize →
    (∀ content, .text content ∈ reparsedChildren run children → content.length ≤ maxStringSize) →
    parseChildren maxArraySize maxStringSize size fuel depth acc
        (xmlEscapeString run ++ (renderAll children ++ lt :: slash :: r)) =
      .ok (acc ++ reparsedChildren run children, lt :: slash :: r)
  | [], run, acc, fuel, depth, r, hchildren, hdepth, hfuel, hcount, hsize => by
    rw [reparsedChildren] at hcount hsize ⊢
    obtain ⟨fuel', hfuel', hrun⟩ := parseChildren_textRun hfuel hcount hsize
    obtain ⟨fuel', rfl⟩ : ∃ n, fuel' = n + 1 := ⟨fuel' - 1, by omega⟩
    rw [renderAll, List.nil_append, hrun]
    rfl
  | .text content :: children, run, acc, fuel, depth, r, ⟨_, hchildren⟩, hdepth, hfuel, hcount, hsize => by
    rw [reparsedChildren] at hcount hsize ⊢
    rw [renderAll, XmlValue.render, List.append_assoc, ← List.append_assoc, ← xmlEscapeString_append] at hfuel ⊢
    exact parseChildren_render children hchildren (by simpa [nestingIn, XmlValue.nesting] using hdepth) hfuel hcount hsize
  | .comment content :: children, run, acc, fuel, depth, r, ⟨hchild, hchildren⟩, hdepth, hfuel, hcount, hsize => by
    rw [renderAll, List.append_assoc] at hfuel ⊢
    have hnesting : depth + nestingIn children ≤ maxXmlDepth := by simpa [nestingIn, XmlValue.nesting] using hdepth
    refine parseChildren_child (.comment content) ⟨_, rfl⟩ ?_ ?_ hcount (fun c hc => hsize c ?_) hfuel
    · intro acc fuel hfuel hroom
      exact parseChildren_comment hchild.2.1 hfuel hroom
    · intro acc fuel hfuel hcount
      exact parseChildren_render children hchildren hnesting hfuel hcount fun c hc => hsize c (List.mem_append_right _ hc)
    · exact List.mem_append_left _ (List.mem_append_left _ hc)
  | .cdata content :: children, run, acc, fuel, depth, r, ⟨_, hchildren⟩, hdepth, hfuel, hcount, hsize => by
    rw [renderAll, List.append_assoc] at hfuel ⊢
    have hnesting : depth + nestingIn children ≤ maxXmlDepth := by simpa [nestingIn, XmlValue.nesting] using hdepth
    refine parseChildren_child (.cdata content) ⟨_, rfl⟩ ?_ ?_ hcount (fun c hc => hsize c ?_) hfuel
    · intro acc fuel hfuel hroom
      rw [XmlValue.render, ← cdataPieces_flatMap] at hfuel ⊢
      exact parseChildren_cdata (fun piece hpiece r => splitAtMarker_cdataPieces hpiece) hfuel
        (by simpa [XmlValue.reparsed] using hroom)
    · intro acc fuel hfuel hcount
      exact parseChildren_render children hchildren hnesting hfuel hcount fun c hc => hsize c (List.mem_append_right _ hc)
    · exact List.mem_append_left _ (List.mem_append_left _ hc)
  | .element tag attributes inner :: children, run, acc, fuel, depth, r, ⟨hchild, hchildren⟩, hdepth, hfuel, hcount,
    hsize => by
    rw [renderAll, List.append_assoc] at hfuel ⊢
    have hnesting : depth + (nestingIn inner + 1) ≤ maxXmlDepth ∧ depth + nestingIn children ≤ maxXmlDepth := by
      simp only [nestingIn, XmlValue.nesting] at hdepth
      omega
    refine parseChildren_child (.element tag attributes inner) ⟨_, rfl⟩ ?_ ?_ hcount (fun c hc => hsize c ?_) hfuel
    · intro acc fuel hfuel hroom
      obtain ⟨fuel, rfl⟩ : ∃ n, fuel = n + 1 := ⟨fuel - 1, by omega⟩
      have hread : parseElement maxArraySize maxStringSize size fuel depth
          ((XmlValue.element tag attributes inner).render ++ (renderAll children ++ lt :: slash :: r)) =
            .ok (.element tag attributes (reparsedChildren [] inner), renderAll children ++ lt :: slash :: r) :=
        parseElement_render hchild.1.1 (by omega) (fun hfuel =>
          parseChildren_render inner hchild.2 (by omega) hfuel hchild.1.2.2.1 hchild.1.2.2.2) (Nat.le_of_lt_succ hfuel)
      have hlength : 0 < (XmlValue.element tag attributes inner).render.length := by simp [XmlValue.render]
      have hshape : ∃ t, (XmlValue.element tag attributes inner).render ++ (renderAll children ++ lt :: slash :: r) =
          lt :: (tag ++ t) := by
        simp only [XmlValue.render, List.cons_append, List.append_assoc]
        exact ⟨_, rfl⟩
      obtain ⟨t, ht⟩ := hshape
      rw [ht] at hread hfuel ⊢
      have hskip : skipWhitespace (lt :: (tag ++ t)) = lt :: (tag ++ t) := skipWhitespace_cons rfl
      have hopen : [lt, slash].isPrefixOf (lt :: (tag ++ t)) = false := element_start hchild.1.1.1 rfl
      have hcomment : commentOpen.isPrefixOf (lt :: (tag ++ t)) = false := element_start hchild.1.1.1 rfl
      have hcdata : cdataOpen.isPrefixOf (lt :: (tag ++ t)) = false := element_start hchild.1.1.1 rfl
      refine ⟨fuel, ?_, parseChildren_step (by rw [hskip]; nofun) (by rw [hskip]; exact hopen) hroom ?_⟩
      · rw [← ht, List.length_append] at hfuel
        omega
      · rw [hskip, parseChildNode, hcomment, hcdata, hread]
        rfl
    · intro acc fuel hfuel hcount
      exact parseChildren_render children hchildren hnesting.2 hfuel hcount fun c hc => hsize c (List.mem_append_right _ hc)
    · exact List.mem_append_left _ (List.mem_append_left _ hc)
termination_by children => sizeOf children

/-- The text of an element is read back. -/
theorem xmlParseString_render {tag : Bytes} {attributes : List (Bytes × Bytes)} {children : List XmlValue}
    (hread : (XmlValue.element tag attributes children).Everywhere (XmlValue.Readable maxArraySize maxStringSize))
    (hdepth : (XmlValue.element tag attributes children).nesting ≤ maxXmlDepth) :
    xmlParseString maxArraySize maxStringSize (XmlValue.element tag attributes children).render =
      .ok (.element tag attributes (reparsedChildren [] children)) := by
  obtain ⟨⟨hnames, -, hcount, hsize⟩, hchildren⟩ := hread
  rw [XmlValue.nesting] at hdepth
  have hroot : parseElement maxArraySize maxStringSize (XmlValue.element tag attributes children).render.length
      ((XmlValue.element tag attributes children).render.length + 1) 0
      ((XmlValue.element tag attributes children).render ++ []) = _ :=
    parseElement_render hnames (by omega) (fun hfuel => parseChildren_render children hchildren (by omega) hfuel hcount hsize)
      (by simp)
  rw [List.append_nil] at hroot
  obtain ⟨t, ht⟩ : ∃ t, (XmlValue.element tag attributes children).render = lt :: (tag ++ t) := by
    simp only [XmlValue.render, List.cons_append, List.append_assoc]
    exact ⟨_, rfl⟩
  have hskip : skipWhitespace (lt :: (tag ++ t)) = lt :: (tag ++ t) := skipWhitespace_cons rfl
  have hdeclaration : xmlDeclaration.isPrefixOf (lt :: (tag ++ t)) = false := element_start hnames.1 rfl
  have hdoctypes : doctypes.any (·.isPrefixOf (lt :: (tag ++ t))) = false := by
    rw [doctypes, List.any_cons, List.any_cons, List.any_nil, Bool.or_false, Bool.or_eq_false_iff]
    exact ⟨element_start hnames.1 rfl, element_start hnames.1 rfl⟩
  rw [ht] at hroot ⊢
  simp only [xmlParseString, hskip, hdeclaration, Bool.false_eq_true, if_false, hdoctypes, hroot, bind, Except.bind,
    pure, Except.pure]
  rfl

end Parsing

/-! ## What is read back -/

section Faithfulness

mutual

/-- The elements and comments of a node, with `f` applied to the comments. -/
def XmlValue.outline (f : Bytes → Bytes) : XmlValue → List XmlValue
  | .element tag attributes children => [.element tag attributes (outlineIn f children)]
  | .comment content => [.comment (f content)]
  | .text _ | .cdata _ => []

def outlineIn (f : Bytes → Bytes) : List XmlValue → List XmlValue
  | [] => []
  | child :: children => child.outline f ++ outlineIn f children

end

/-- The text content of an element, from its children. -/
def getTextContent : List XmlValue → Bytes
  | [] => []
  | .text content :: children | .cdata content :: children => content ++ getTextContent children
  | .element _ _ _ :: children | .comment _ :: children => getTextContent children

mutual

/-- The text contents of the elements of a node, in the order of their start tags. -/
def XmlValue.textContents : XmlValue → List Bytes
  | .element _ _ children => getTextContent children :: textContentsIn children
  | .text _ | .comment _ | .cdata _ => []

def textContentsIn : List XmlValue → List Bytes
  | [] => []
  | child :: children => child.textContents ++ textContentsIn children

end

/-- The runs of text among children, a `run` of text before them included. -/
def textRuns (run : Bytes) : List XmlValue → List Bytes
  | [] => [run]
  | .text content :: children => textRuns (run ++ content) children
  | .element _ _ _ :: children | .comment _ :: children | .cdata _ :: children => run :: textRuns [] children

/-- No run of text of an element starts with whitespace. -/
def XmlValue.HasTrimmedText : XmlValue → Prop
  | .element _ _ children => ∀ run ∈ textRuns [] children, run.dropWhile isSpace = run
  | _ => True

variable {f : Bytes → Bytes} {run : Bytes} {a b : List XmlValue}

section
attribute [local simp] XmlValue.outline outlineIn getTextContent XmlValue.textContents
  textContentsIn textRuns XmlValue.HasTrimmedText
end

@[simp] theorem outlineIn_append : outlineIn f (a ++ b) = outlineIn f a ++ outlineIn f b := by
  induction a with
  | nil => rfl
  | cons child a ih => simp [outlineIn, ih]

@[simp] theorem outlineIn_textRun : outlineIn f (textRun run) = [] := by
  unfold textRun
  split <;> rfl

@[simp] theorem outlineIn_cdata {pieces : List Bytes} : outlineIn f (pieces.map .cdata) = [] := by
  induction pieces with
  | nil => rfl
  | cons piece pieces ih => simpa [outlineIn, XmlValue.outline] using ih

mutual

/-- The same elements and comments are read back, in the same places. -/
theorem outlineIn_reparsed : ∀ node : XmlValue, outlineIn id node.reparsed = node.outline spaceDashes
  | .text _ => outlineIn_textRun
  | .comment _ => rfl
  | .cdata _ => outlineIn_cdata
  | .element tag attributes children => by
    simp [XmlValue.reparsed, XmlValue.outline, outlineIn, outlineIn_reparsedChildren children []]

theorem outlineIn_reparsedChildren : ∀ (children : List XmlValue) (run : Bytes),
    outlineIn id (reparsedChildren run children) = outlineIn spaceDashes children
  | [], run => outlineIn_textRun
  | child :: children, run => by
    have hchild := outlineIn_reparsed child
    have hchildren := fun run => outlineIn_reparsedChildren children run
    cases child with
    | text content => exact hchildren _
    | _ => simp [reparsedChildren, outlineIn, hchild, hchildren]

end

@[simp] theorem getTextContent_append : getTextContent (a ++ b) = getTextContent a ++ getTextContent b := by
  induction a with
  | nil => rfl
  | cons child a ih => cases child <;> simp [getTextContent, ih]

@[simp] theorem getTextContent_textRun : getTextContent (textRun run) = run.dropWhile isSpace := by
  unfold textRun
  split
  next hblank => rw [hblank]; rfl
  · exact List.append_nil _

@[simp] theorem getTextContent_cdata {pieces : List Bytes} : getTextContent (pieces.map .cdata) = pieces.flatten := by
  induction pieces with
  | nil => rfl
  | cons piece pieces ih => simp [getTextContent, ih]

@[simp] theorem textContentsIn_append : textContentsIn (a ++ b) = textContentsIn a ++ textContentsIn b := by
  induction a with
  | nil => rfl
  | cons child a ih => simp [textContentsIn, ih]

@[simp] theorem textContentsIn_textRun : textContentsIn (textRun run) = [] := by
  unfold textRun
  split <;> rfl

@[simp] theorem textContentsIn_cdata {pieces : List Bytes} : textContentsIn (pieces.map .cdata) = [] := by
  induction pieces with
  | nil => rfl
  | cons piece pieces ih => simpa [textContentsIn, XmlValue.textContents] using ih

/-- The characters of a text that are not whitespace. -/
def nonSpace (content : Bytes) : Bytes := content.filter fun c => !isSpace c

@[simp] theorem nonSpace_append {content more : Bytes} : nonSpace (content ++ more) = nonSpace content ++ nonSpace more :=
  List.filter_append _ _

@[simp] theorem nonSpace_dropWhile : nonSpace (run.dropWhile isSpace) = nonSpace run := by
  induction run with
  | nil => rfl
  | cons c run ih =>
    cases hc : isSpace c with
    | true => simpa [hc, nonSpace] using ih
    | false => rw [List.dropWhile_cons_of_neg (by simp [hc])]

/-- No character other than whitespace is lost. -/
theorem nonSpace_reparsedChildren (children : List XmlValue) (run : Bytes) :
    nonSpace (getTextContent (reparsedChildren run children)) = nonSpace (run ++ getTextContent children) := by
  induction children generalizing run with
  | nil => simp [reparsedChildren, getTextContent]
  | cons child children ih =>
    cases child <;> simp [reparsedChildren, XmlValue.reparsed, getTextContent, ih, cdataPieces_flatten]

/-- Nothing is lost where no run of text starts with whitespace. -/
theorem getTextContent_reparsedChildren (children : List XmlValue) (run : Bytes)
    (h : ∀ r ∈ textRuns run children, r.dropWhile isSpace = r) :
    getTextContent (reparsedChildren run children) = run ++ getTextContent children := by
  induction children generalizing run with
  | nil => simp [reparsedChildren, getTextContent, h run (by simp [textRuns])]
  | cons child children ih =>
    cases child with
    | text content =>
      have hrest := ih (run ++ content) (by simpa only [textRuns] using h)
      simp [reparsedChildren, getTextContent, hrest]
    | _ =>
      have hrun := h run List.mem_cons_self
      have hrest := ih [] fun r hr => h r (List.mem_cons_of_mem _ hr)
      simp [reparsedChildren, XmlValue.reparsed, getTextContent, hrun, hrest, cdataPieces_flatten]

mutual

/-- The text of every element is read back, but for whitespace. -/
theorem textContentsIn_reparsed : ∀ node : XmlValue,
    (textContentsIn node.reparsed).map nonSpace = node.textContents.map nonSpace
  | .text _ => by simp [XmlValue.reparsed, XmlValue.textContents]
  | .comment _ => rfl
  | .cdata _ => by simp [XmlValue.reparsed, XmlValue.textContents]
  | .element tag attributes children => by
    simp [XmlValue.reparsed, XmlValue.textContents, textContentsIn, textContentsIn_reparsedChildren children [],
      nonSpace_reparsedChildren children []]

theorem textContentsIn_reparsedChildren : ∀ (children : List XmlValue) (run : Bytes),
    (textContentsIn (reparsedChildren run children)).map nonSpace = (textContentsIn children).map nonSpace
  | [], run => by simp [reparsedChildren, textContentsIn]
  | child :: children, run => by
    have hchild := textContentsIn_reparsed child
    have hchildren := fun run => textContentsIn_reparsedChildren children run
    cases child with
    | text content => exact hchildren _
    | _ => simp [reparsedChildren, textContentsIn, hchild, hchildren]

end

mutual

theorem textContentsIn_reparsed_of_trimmed : ∀ node : XmlValue, node.Everywhere XmlValue.HasTrimmedText →
    textContentsIn node.reparsed = node.textContents
  | .text _, _ => by simp [XmlValue.reparsed, XmlValue.textContents]
  | .comment _, _ => rfl
  | .cdata _, _ => by simp [XmlValue.reparsed, XmlValue.textContents]
  | .element tag attributes children, h => by
    simp [XmlValue.reparsed, XmlValue.textContents, textContentsIn,
      textContentsIn_reparsedChildren_of_trimmed children [] h.2, getTextContent_reparsedChildren children [] h.1]

theorem textContentsIn_reparsedChildren_of_trimmed : ∀ (children : List XmlValue) (run : Bytes),
    EverywhereIn XmlValue.HasTrimmedText children → textContentsIn (reparsedChildren run children) = textContentsIn children
  | [], run, _ => by simp [reparsedChildren, textContentsIn]
  | child :: children, run, h => by
    have hchild := textContentsIn_reparsed_of_trimmed child h.1
    have hchildren := fun run => textContentsIn_reparsedChildren_of_trimmed children run h.2
    cases child with
    | text content => exact hchildren _
    | _ => simp [reparsedChildren, textContentsIn, hchild, hchildren]

end

/-- Reading a serialised element back gives the same element: its name and attributes, the same
    elements and comments in the same places, and its text without the whitespace that a run of
    text starts with. -/
theorem serialize_xmlParseString {maxArraySize maxStringSize : Nat} {tag out : Bytes}
    {attributes : List (Bytes × Bytes)} {children : List XmlValue}
    (haccepted : serialize (.element tag attributes children) = .ok out)
    (hread : (XmlValue.element tag attributes children).Everywhere (XmlValue.Readable maxArraySize maxStringSize))
    (hdepth : (XmlValue.element tag attributes children).nesting ≤ maxXmlDepth) :
    xmlParseString maxArraySize maxStringSize out = .ok (.element tag attributes (reparsedChildren [] children)) ∧
      outlineIn id (reparsedChildren [] children) = outlineIn spaceDashes children ∧
      (XmlValue.element tag attributes (reparsedChildren [] children)).textContents.map nonSpace =
        (XmlValue.element tag attributes children).textContents.map nonSpace ∧
      ((XmlValue.element tag attributes children).Everywhere XmlValue.HasTrimmedText →
        (XmlValue.element tag attributes (reparsedChildren [] children)).textContents =
          (XmlValue.element tag attributes children).textContents) := by
  obtain rfl := serializeXml_compact _ haccepted
  refine ⟨xmlParseString_render hread hdepth, outlineIn_reparsedChildren children [], ?_, ?_⟩
  · simpa [XmlValue.reparsed, textContentsIn] using textContentsIn_reparsed (.element tag attributes children)
  · intro htrimmed
    simpa [XmlValue.reparsed, textContentsIn] using textContentsIn_reparsed_of_trimmed _ htrimmed

/-- `<a b="&lt;"> x<!-- - - --><c/></a>` -/
theorem serialize_xmlParseString_mixed :
    xmlParseString 10 10 [60, 97, 32, 98, 61, 34, 38, 108, 116, 59, 34, 62, 32, 120, 60, 33, 45, 45, 45, 32, 45, 45, 45,
        62, 60, 99, 47, 62, 60, 47, 97, 62] =
      .ok (.element [97] [([98], [60])] [.text [120], .comment [45, 32, 45], .element [99] [] []]) := by
  have hread : (XmlValue.element [97] [([98], [60])]
      [.text [32, 120], .comment [45, 45], .element [99] [] []]).Everywhere (XmlValue.Readable 10 10) := by
    have hnames : isValidXmlName [97] = true ∧ isValidXmlName [98] = true ∧ isValidXmlName [99] = true := by decide
    simp [XmlValue.Everywhere, EverywhereIn, XmlValue.Readable, XmlValue.HasValidNames, XmlValue.HasSafeComment,
      XmlValue.WithinLimits, reparsedChildren, XmlValue.reparsed, textRun, isSpace, hnames, commentSafe, dash]
  exact (serialize_xmlParseString rfl hread (by decide)).1

mutual

/-- The tags of the elements of a node, in the order of their start tags. -/
def XmlValue.tags : XmlValue → List Bytes
  | .element tag _ children => tag :: tagsIn children
  | .text _ | .comment _ | .cdata _ => []

def tagsIn : List XmlValue → List Bytes
  | [] => []
  | child :: children => child.tags ++ tagsIn children

end

/-- What `f` sees of a node that was serialised and read back. -/
def reread {β : Type} (f : XmlValue → β) (node : XmlValue) : Option β :=
  (serialize node).toOption.bind fun out => (xmlParseString 10 10 out).toOption.map f

/-- Elements inside each other, one more than `n`. -/
def nested : Nat → XmlValue
  | 0 => .element [97] [] []
  | n + 1 => .element [97] [] [nested n]

section
attribute [local simp] XmlValue.tags tagsIn nested
end

/-- The serializer counts the elements above an element against its limit. -/
theorem serializeXml_nested (n : Nat) {depth : Nat} (h : depth + n ≤ maxXmlDepth) :
    ∃ out, serializeXml {} depth (nested n) = .ok out := by
  induction n generalizing depth with
  | zero =>
    rw [nested, serializeXml, if_neg (by omega)]
    exact ⟨_, rfl⟩
  | succ n ih =>
    obtain ⟨inner, hinner⟩ : ∃ inner, serializeXml {} (depth + 1) (nested n) = .ok inner := ih (by omega)
    have helement : ([nested n].any XmlValue.isElement) = true := by cases n <;> rfl
    rw [nested, serializeXml, if_neg (by omega)]
    simp only [List.isEmpty_cons, Bool.false_eq_true, if_false, helement, Bool.not_true, serializeChildren, hinner]
    exact ⟨_, rfl⟩

theorem nested_render {n : Nat} {r : Bytes} : (nested (n + 1)).render ++ r =
    lt :: ([97] ++ (serializeAttributes [] ++ gt :: ((nested n).render ++ lt :: slash :: ([97] ++ gt :: r)))) := by
  simp [nested, XmlValue.render, renderAll, serializeAttributes]

theorem nested_start (n : Nat) (r : Bytes) : ∃ t, (nested n).render ++ r = lt :: 97 :: t := by
  cases n with
  | zero => exact ⟨_, rfl⟩
  | succ n => exact ⟨_, nested_render⟩

/-- The parser counts the elements a tag is inside, itself included, against its limit. -/
theorem parseElement_nested (n : Nat) {size fuel depth : Nat} {r : Bytes} (hdepth : depth ≤ maxXmlDepth)
    (hdeep : maxXmlDepth < depth + n + 1) (hfuel : ((nested n).render ++ r).length ≤ fuel) :
    parseElement 10 10 size fuel depth ((nested n).render ++ r) = .error tooDeep := by
  induction n generalizing fuel depth r with
  | zero =>
    obtain ⟨fuel, rfl⟩ : ∃ k, fuel = k + 1 := ⟨fuel - 1, by simp [nested, XmlValue.render] at hfuel; omega⟩
    rw [parseElement, if_pos (by omega)]
    rfl
  | succ n ih =>
    rw [nested_render] at hfuel ⊢
    simp only [List.length_cons, List.length_append, List.length_nil] at hfuel
    obtain ⟨fuel, rfl⟩ : ∃ k, fuel = k + 2 := ⟨fuel - 2, by omega⟩
    by_cases hlast : depth + 1 > maxXmlDepth
    · rw [parseElement, if_pos hlast]
      rfl
    · obtain ⟨t, ht⟩ := nested_start n (lt :: slash :: ([97] ++ gt :: r))
      have hchild : parseElement 10 10 size fuel (depth + 1)
          ((nested n).render ++ lt :: slash :: ([97] ++ gt :: r)) = .error tooDeep := by
        refine ih (by omega) (by omega) ?_
        simp only [List.length_cons, List.length_append, List.length_nil]
        omega
      have hchildren : parseChildren 10 10 size (fuel + 1) (depth + 1) []
          ((nested n).render ++ lt :: slash :: ([97] ++ gt :: r)) = .error tooDeep := by
        have hskip : skipWhitespace (lt :: 97 :: t) = lt :: 97 :: t := skipWhitespace_cons rfl
        rw [ht] at hchild ⊢
        rw [parseChildren, if_neg (List.cons_ne_nil _ _), hskip]
        simp only [parseChildNode, hchild]
        rfl
      have hname : isValidXmlName [97] = true := by decide
      have hend : ∀ t, atTagEnd (gt :: t) = true := fun t => rfl
      have hnone : ∀ a ∈ ([] : List (Bytes × Bytes)), isValidXmlName a.1 = true := by simp
      rw [parseElement, if_neg hlast]
      simp only [expect_self, parseName_append hname (tagRest_head (hend _)),
        parseAttributes_tag hnone (hend _), bind, Except.bind, pure, Except.pure, List.head?_cons,
        Option.some.injEq, show gt ≠ slash by decide, if_false, hchildren]

theorem xmlParseString_nested {n : Nat} (h : maxXmlDepth ≤ n) :
    xmlParseString 10 10 (nested n).render = .error tooDeep := by
  have hroot : parseElement 10 10 (nested n).render.length ((nested n).render.length + 1) 0
      ((nested n).render ++ []) = .error tooDeep :=
    parseElement_nested n (Nat.zero_le _) (by omega) (by simp)
  obtain ⟨t, ht⟩ := nested_start n []
  rw [List.append_nil] at hroot ht
  have hskip : skipWhitespace (lt :: 97 :: t) = lt :: 97 :: t := skipWhitespace_cons rfl
  rw [ht] at hroot ⊢
  simp only [xmlParseString, hskip, show xmlDeclaration.isPrefixOf (lt :: 97 :: t) = false from rfl,
    show doctypes.any (·.isPrefixOf (lt :: 97 :: t)) = false from rfl, Bool.false_eq_true, if_false, hroot, bind,
    Except.bind, pure, Except.pure]

theorem reread_nested {β : Type} {f : XmlValue → β} {n : Nat} (h : maxXmlDepth ≤ n) : reread f (nested n) = none := by
  cases hout : serialize (nested n) with
  | error e => simp [reread, hout, Except.toOption]
  | ok out =>
    obtain rfl := serializeXml_compact _ hout
    simp [reread, hout, xmlParseString_nested h, Except.toOption]

/-- The text ` x` comes back as `x`, the comment `---><b/>` brings in an element, and 129 nested
    elements, which the serializer accepts, are rejected. -/
theorem reread_differs :
    reread XmlValue.textContents (.element [97] [] [.text [32, 120]]) = some [[120]] ∧
    reread XmlValue.tags (.element [97] [] [.comment [45, 45, 45, 62, 60, 98, 47, 62]]) = some [[97], [98]] ∧
    (serialize (nested 128)).toOption.isSome = true ∧ reread XmlValue.tags (nested 128) = none := by
  refine ⟨by decide +kernel, by decide +kernel, ?_, reread_nested (Nat.le_refl _)⟩
  obtain ⟨out, hout⟩ : ∃ out, serialize (nested 128) = .ok out := serializeXml_nested 128 (Nat.le_refl _)
  rw [hout]
  rfl

end Faithfulness

end Luma.Xml
