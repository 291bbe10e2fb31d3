-- SUMMARY: When the arms of a match are taken to cover every subject, and when they do.
import Luma.Syntax.Ast
import Luma.Types.TypeMatcher
import Luma.Types.Wrappers
import Luma.Value.EqualityLaws

/-! # Exhaustive Matches

The query has no type for the subject: it infers one from the patterns. `answer` is what the
test of a pattern says about a value. Arms that are taken to be exhaustive cover every value
of the kind their patterns enumerate. -/

namespace Luma

open Codec

/-! ## Declarations of choices -/

/-- A variant, by its name. -/
structure ChoiceVariant where
  name : Bytes
  isName : TypePattern.IsName name

/-- A declared choice with its variants. -/
structure DeclaredChoice extends ChoiceDeclaration where
  variants : List ChoiceVariant

/-- The declared choices under their qualified and bare names, as they are iterated. -/
abbrev ChoiceTable := List (Bytes × DeclaredChoice)

namespace MatchPattern

/-- The kinds of patterns. -/
inductive Kind where
  | booleanCase | choiceCase | comparison | elseCase | failureResult | integerCase
  | integerRangeCase | noneCase | someCase | stringCase | successResult | variantCase
  | recordCase
  deriving DecidableEq, Repr

def kind : MatchPattern → Kind
  | booleanCase _ => .booleanCase
  | choiceCase .. => .choiceCase
  | comparison .. => .comparison
  | elseCase => .elseCase
  | failureResult _ => .failureResult
  | integerCase _ => .integerCase
  | integerRangeCase .. => .integerRangeCase
  | noneCase => .noneCase
  | someCase _ => .someCase
  | stringCase _ => .stringCase
  | successResult _ => .successResult
  | variantCase .. => .variantCase
  | recordCase .. => .recordCase

def enumType : MatchPattern → Bytes
  | choiceCase enumType _ _ => enumType
  | variantCase enumType _ => enumType
  | _ => []

def enumVariant : MatchPattern → Bytes
  | choiceCase _ enumVariant _ => enumVariant
  | variantCase _ enumVariant => enumVariant
  | _ => []

def isVariant (pattern : MatchPattern) : Bool :=
  pattern.kind = .choiceCase ∨ pattern.kind = .variantCase

end MatchPattern

namespace MatchArm

def kind (arm : MatchArm) : MatchPattern.Kind := arm.pattern.kind

end MatchArm

/-! ## The query -/

namespace MatchExhaustiveness

/-- The choice that the arms match: by its name, or by its bare name if one of its variants
    is matched. -/
def findChoiceForArms (choices : ChoiceTable) (typeName : Bytes) (arms : List MatchArm) :
    Option DeclaredChoice :=
  match OrderedMap.lookup typeName choices with
  | some decl => some decl
  | none =>
    (choices.find? fun entry =>
      entry.2.name = typeName ∧ arms.any fun arm =>
        arm.pattern.isVariant ∧ entry.2.variants.any fun variant =>
          variant.name = arm.pattern.enumVariant).map Prod.snd

def enumTypeNamesChoice (choices : ChoiceTable) (enumType : Bytes) (decl : DeclaredChoice) :
    Bool :=
  match OrderedMap.lookup enumType choices with
  | some found => found.address = decl.address
  | none => enumType = decl.name

/-- The unguarded arms. -/
def unguarded (arms : List MatchArm) : List MatchArm := arms.filter fun arm => !arm.hasGuard

/-- The patterns that lead to a body whenever they match. -/
def unguardedPatterns (arms : List MatchArm) : List MatchPattern :=
  (unguarded arms).flatMap MatchArm.patterns

/-- Which boolean values are covered. -/
structure BooleanCoverage where
  hasTrue : Bool
  hasFalse : Bool

def collectBooleanCoverage (arms : List MatchArm) : BooleanCoverage :=
  let covers (b : Bool) : Bool := (unguardedPatterns arms).any fun pattern =>
    match pattern with
    | .booleanCase value => value = b
    | _ => false
  let hasElse : Bool := (unguarded arms).any fun arm => arm.kind = .elseCase
  ⟨covers true || hasElse, covers false || hasElse⟩

/-- The one constant a pattern matches. -/
def equalityConstant : MatchPattern → Option Literal
  | .integerCase value => some (.integer value)
  | .stringCase value => some (.string value)
  | .booleanCase value => some (.boolean value)
  | .noneCase => some .none
  | .comparison .equalsEquals (some value) => value.literalConstant
  | _ => none

/-- The one constant a pattern excludes. -/
def excludedConstant : MatchPattern → Option Literal
  | .comparison .bangEquals (some value) => value.literalConstant
  | _ => none

def exactConstants (arms : List MatchArm) : List Literal :=
  (unguardedPatterns arms).filterMap equalityConstant

def hasCatchAll (arms : List MatchArm) : Bool :=
  (arms.any fun arm => arm.kind = .elseCase) ||
    (unguarded arms).any fun arm =>
      match excludedConstant arm.pattern with
      | some excluded => (exactConstants arms).any fun constant => constant.same excluded
      | none => false

/-- Do all patterns of all arms, other than `else`, satisfy the condition? -/
def allPatterns (pred : MatchPattern.Kind → Bool) (arms : List MatchArm) : Bool :=
  arms.all fun arm =>
    arm.kind = .elseCase ∨ arm.patterns.all fun pattern => pred pattern.kind

def unguardedCovers (arms : List MatchArm) (kind : MatchPattern.Kind) : Bool :=
  (unguardedPatterns arms).any fun pattern => pattern.kind = kind

/-- Do the arms name one choice? -/
def nameOneChoice (choices : ChoiceTable) (decl : DeclaredChoice) (arms : List MatchArm) :
    Bool :=
  arms.all fun arm =>
    arm.pattern.isVariant ∧ enumTypeNamesChoice choices arm.pattern.enumType decl

def coveredVariants (arms : List MatchArm) : List Bytes :=
  (unguarded arms).flatMap fun arm =>
    arm.pattern.enumVariant ::
      (arm.alternatives.filter MatchPattern.isVariant).map MatchPattern.enumVariant

/-- The choice of the first arm. -/
def choiceOf (choices : ChoiceTable) (arms : List MatchArm) : Option DeclaredChoice :=
  match arms with
  | [] => none
  | arm :: _ =>
    if arm.pattern.isVariant then findChoiceForArms choices arm.pattern.enumType arms else none

def isChoiceExhaustive (choices : ChoiceTable) (arms : List MatchArm) : Bool :=
  match choiceOf choices arms with
  | none => false
  | some decl =>
    nameOneChoice choices decl (arms.drop 1) &&
      decl.variants.all fun variant => (coveredVariants arms).contains variant.name

def isExhaustive (choices : ChoiceTable) (arms : List MatchArm) : Bool :=
  if arms.isEmpty then false
  else if hasCatchAll arms then true
  else if allPatterns (fun kind => kind = .booleanCase) arms then
    (collectBooleanCoverage arms).hasTrue && (collectBooleanCoverage arms).hasFalse
  else if allPatterns (fun kind => kind = .successResult ∨ kind = .failureResult) arms then
    unguardedCovers arms .successResult && unguardedCovers arms .failureResult
  else if allPatterns (fun kind => kind = .someCase ∨ kind = .noneCase) arms then
    unguardedCovers arms .someCase && unguardedCovers arms .noneCase
  else if allPatterns (fun kind => kind = .recordCase) arms then
    unguardedCovers arms .recordCase
  else isChoiceExhaustive choices arms

end MatchExhaustiveness

/-! ## What the tests say -/

namespace Literal

def toValue : Literal → Value
  | boolean b => .bool b
  | integer n => .integer n
  | none => .null
  | number x => .number x
  | string s => .string s

end Literal

/-- Equality with a literal, which never runs out of depth. -/
def Value.equalsLiteral (v : Value) (constant : Literal) : Bool :=
  match v, constant with
  | .null, .none => true
  | .bool a, .boolean b => a == b
  | .integer a, .integer b => a == b
  | .integer a, .number b => integerEqualsNumber a b
  | .number a, .number b => numberEquals a b
  | .number a, .integer b => integerEqualsNumber b a
  | .string a, .string b => a == b
  | _, _ => false

namespace MatchPattern

/-- What the test of the pattern says about a subject; `none` where an expression has to be
    evaluated first, or a range is tested. -/
def answer (referent : Nat → Value) (maxCallDepth : Nat) (v : Value) : MatchPattern → Option Bool
  | booleanCase b => some (v.equalsLiteral (.boolean b))
  | choiceCase _ enumVariant _ =>
    some (TypeMatcher.matchesPattern referent maxCallDepth v enumVariant)
  | comparison op value =>
    match value.bind Expression.literalConstant with
    | none => none
    | some constant =>
      match op with
      | .equalsEquals => some (v.equalsLiteral constant)
      | .bangEquals => some (!v.equalsLiteral constant)
      | _ => none
  | elseCase => some true
  | failureResult _ => some (!v.isSuccess)
  | integerCase n => some (v.equalsLiteral (.integer n))
  | integerRangeCase .. => none
  | noneCase => some (v.equalsLiteral .none)
  | someCase _ => some (!v.equalsLiteral .none)
  | stringCase s => some (v.equalsLiteral (.string s))
  | successResult _ => some v.isSuccess
  | variantCase _ enumVariant =>
    some (TypeMatcher.matchesPattern referent maxCallDepth v enumVariant)
  | recordCase recordType _ =>
    some (TypeMatcher.matchesPattern referent maxCallDepth v recordType)

end MatchPattern

/-! ## Exhaustive arms cover -/

namespace MatchExhaustiveness

section Coverage

variable {referent : Nat → Value} {maxCallDepth : Nat} {choices : ChoiceTable}
  {arms : List MatchArm} {v : Value} {p : MatchPattern}

/-- Some arm is taken whenever it is reached. -/
def Covered (referent : Nat → Value) (maxCallDepth : Nat) (arms : List MatchArm) (v : Value) :
    Prop :=
  ∃ arm ∈ arms, arm.kind = .elseCase ∨
    arm.guard = none ∧ ∃ p ∈ arm.patterns, p.answer referent maxCallDepth v = some true

/-- The subject is of the kind the patterns enumerate: a boolean for boolean patterns, a record
    that the record patterns name, a declared variant of the choice the first arm names. -/
structure Enumerates (referent : Nat → Value) (maxCallDepth : Nat) (choices : ChoiceTable)
    (arms : List MatchArm) (v : Value) : Prop where
  boolean : allPatterns (fun kind => kind = .booleanCase) arms = true → ∃ b, v = .bool b
  record : allPatterns (fun kind => kind = .recordCase) arms = true →
    ∀ recordType fieldBindings, .recordCase recordType fieldBindings ∈ unguardedPatterns arms →
      TypeMatcher.matchesPattern referent maxCallDepth v recordType = true
  choice : ∀ decl, choiceOf choices arms = some decl →
    ∃ typeName variant fields, v = .choice typeName variant.name fields ∧
      variant ∈ decl.variants

theorem mem_unguarded {arm : MatchArm} :
    arm ∈ unguarded arms ↔ arm ∈ arms ∧ arm.guard = none := by
  simp [unguarded, MatchArm.hasGuard]

theorem mem_unguardedPatterns :
    p ∈ unguardedPatterns arms ↔ ∃ arm ∈ arms, arm.guard = none ∧ p ∈ arm.patterns := by
  simp only [unguardedPatterns, List.mem_flatMap, mem_unguarded, and_assoc]

theorem covered_of_answer (hmem : p ∈ unguardedPatterns arms)
    (h : p.answer referent maxCallDepth v = some true) :
    Covered referent maxCallDepth arms v := by
  obtain ⟨arm, harm, hguard, hp⟩ := mem_unguardedPatterns.mp hmem
  exact ⟨arm, harm, .inr ⟨hguard, p, hp, h⟩⟩

/-- Equal numbers are equal to the same values. -/
theorem equalsLiteral_number {a b : Binary64} (h : a.ieeeEq b = true) :
    v.equalsLiteral (.number a) = v.equalsLiteral (.number b) := by
  simp only [Binary64.ieeeEq, Bool.and_eq_true, Bool.or_eq_true, Bool.not_eq_true',
    beq_iff_eq] at h
  obtain ⟨⟨ha, hb⟩, hbits | ⟨hza, hzb⟩⟩ := h
  · have hab : a = b := by
      cases a
      cases b
      simpa using hbits
    rw [hab]
  · cases v with
    | integer n =>
      simp only [Value.equalsLiteral, Value.integerEqualsNumber,
        Value.isFinite_of_isZero hza, Value.isFinite_of_isZero hzb, Value.units_of_isZero hza,
        Value.units_of_isZero hzb]
    | number x =>
      have hsame : ∀ z : Binary64, z.isZero = true → ((x.bits == z.bits) = true → x.isZero = true) := by
        intro z hz hx
        have hxz : x = z := by
          cases x
          cases z
          simpa using hx
        rw [hxz]
        exact hz
      simp only [Value.equalsLiteral, Value.numberEquals, Binary64.ieeeEq, ha, hb, hza, hzb]
      cases hx : x.isZero with
      | true => simp
      | false =>
        have hxa : (x.bits == a.bits) = false := by
          by_contra hne
          simpa [hx] using hsame a hza (by simpa using hne)
        have hxb : (x.bits == b.bits) = false := by
          by_contra hne
          simpa [hx] using hsame b hzb (by simpa using hne)
        rw [hxa, hxb]
    | _ => rfl

/-- Equal literals are equal to the same values. -/
theorem equalsLiteral_congr {c d : Literal} (h : c.same d = true) :
    v.equalsLiteral c = v.equalsLiteral d := by
  cases c with
  | boolean a =>
    cases d with
    | boolean b => rw [show a = b from eq_of_beq h]
    | _ => exact absurd h Bool.false_ne_true
  | integer a =>
    cases d with
    | integer b => rw [show a = b from eq_of_beq h]
    | _ => exact absurd h Bool.false_ne_true
  | none =>
    cases d with
    | none => rfl
    | _ => exact absurd h Bool.false_ne_true
  | number a =>
    cases d with
    | number b => exact equalsLiteral_number h
    | _ => exact absurd h Bool.false_ne_true
  | string a =>
    cases d with
    | string b => rw [show a = b from eq_of_beq h]
    | _ => exact absurd h Bool.false_ne_true

theorem answer_of_equalityConstant {c : Literal} (h : equalityConstant p = some c) :
    p.answer referent maxCallDepth v = some (v.equalsLiteral c) := by
  unfold equalityConstant at h
  split at h
  · rw [← Option.some.inj h]
    rfl
  · rw [← Option.some.inj h]
    rfl
  · rw [← Option.some.inj h]
    rfl
  · rw [← Option.some.inj h]
    rfl
  · simp [MatchPattern.answer, h]
  · simp at h

theorem answer_of_excludedConstant {c : Literal} (h : excludedConstant p = some c) :
    p.answer referent maxCallDepth v = some (!v.equalsLiteral c) := by
  unfold excludedConstant at h
  split at h
  · simp [MatchPattern.answer, h]
  · simp at h

/-- A constant and everything but that constant cover every value. -/
theorem hasCatchAll_covers (h : hasCatchAll arms = true) :
    Covered referent maxCallDepth arms v := by
  rw [hasCatchAll, Bool.or_eq_true] at h
  obtain helse | h := h
  · obtain ⟨arm, harm, hkind⟩ := List.any_eq_true.mp helse
    exact ⟨arm, harm, .inl (by simpa using hkind)⟩
  · obtain ⟨arm, harm, hexact⟩ := List.any_eq_true.mp h
    split at hexact
    · rename_i excluded hexcluded
      obtain ⟨c, hc, hsame⟩ := List.any_eq_true.mp hexact
      obtain ⟨q, hq, hqc⟩ := List.mem_filterMap.mp hc
      by_cases hv : v.equalsLiteral c = true
      · exact covered_of_answer hq (by rw [answer_of_equalityConstant hqc, hv])
      · obtain ⟨harm, hguard⟩ := mem_unguarded.mp harm
        refine ⟨arm, harm, .inr ⟨hguard, arm.pattern, List.mem_cons_self, ?_⟩⟩
        rw [answer_of_excludedConstant hexcluded, ← equalsLiteral_congr hsame]
        simpa using hv
    · simp at hexact

theorem unguardedCovers_kind {kind : MatchPattern.Kind} (h : unguardedCovers arms kind = true) :
    ∃ q ∈ unguardedPatterns arms, q.kind = kind := by
  obtain ⟨q, hq, hkind⟩ := List.any_eq_true.mp h
  exact ⟨q, hq, by simpa using hkind⟩

/-- Boolean patterns that cover both values cover every boolean. -/
theorem boolean_covers (hcatch : hasCatchAll arms = false)
    (hcover : ((collectBooleanCoverage arms).hasTrue &&
      (collectBooleanCoverage arms).hasFalse) = true) (hv : ∃ b, v = .bool b) :
    Covered referent maxCallDepth arms v := by
  obtain ⟨b, rfl⟩ := hv
  rw [Bool.and_eq_true] at hcover
  have helse : (unguarded arms).any (fun arm => arm.kind = .elseCase) = false := by
    rw [hasCatchAll, Bool.or_eq_false_iff] at hcatch
    rw [List.any_eq_false] at hcatch ⊢
    intro arm harm
    exact hcatch.1 arm (mem_unguarded.mp harm).1
  have hb : (unguardedPatterns arms).any (fun pattern =>
      match pattern with
      | .booleanCase value => value = b
      | _ => false) = true := by
    simp only [collectBooleanCoverage, helse, Bool.or_false] at hcover
    cases b with
    | true => exact hcover.1
    | false => exact hcover.2
  obtain ⟨q, hq, hqb⟩ := List.any_eq_true.mp hb
  cases q with
  | booleanCase value =>
    refine covered_of_answer hq ?_
    simp only [decide_eq_true_eq] at hqb
    simp [MatchPattern.answer, Value.equalsLiteral, hqb]
  | _ => simp at hqb

theorem result_covers (hsuccess : unguardedCovers arms .successResult = true)
    (hfailure : unguardedCovers arms .failureResult = true) :
    Covered referent maxCallDepth arms v := by
  obtain ⟨p, hp, hpk⟩ := unguardedCovers_kind hsuccess
  obtain ⟨q, hq, hqk⟩ := unguardedCovers_kind hfailure
  by_cases hv : v.isSuccess = true
  · refine covered_of_answer hp ?_
    cases p with
    | successResult _ => simpa [MatchPattern.answer] using hv
    | _ => simp [MatchPattern.kind] at hpk
  · refine covered_of_answer hq ?_
    cases q with
    | failureResult _ => simpa [MatchPattern.answer] using hv
    | _ => simp [MatchPattern.kind] at hqk

theorem optional_covers (hsome : unguardedCovers arms .someCase = true)
    (hnone : unguardedCovers arms .noneCase = true) :
    Covered referent maxCallDepth arms v := by
  obtain ⟨p, hp, hpk⟩ := unguardedCovers_kind hsome
  obtain ⟨q, hq, hqk⟩ := unguardedCovers_kind hnone
  by_cases hv : v.equalsLiteral .none = true
  · refine covered_of_answer hq ?_
    cases q with
    | noneCase => simpa [MatchPattern.answer] using hv
    | _ => simp [MatchPattern.kind] at hqk
  · refine covered_of_answer hp ?_
    cases p with
    | someCase _ => simpa [MatchPattern.answer] using hv
    | _ => simp [MatchPattern.kind] at hpk

theorem record_covers (hcover : unguardedCovers arms .recordCase = true)
    (hv : ∀ recordType fieldBindings, .recordCase recordType fieldBindings ∈
      unguardedPatterns arms →
      TypeMatcher.matchesPattern referent maxCallDepth v recordType = true) :
    Covered referent maxCallDepth arms v := by
  obtain ⟨p, hp, hpk⟩ := unguardedCovers_kind hcover
  cases p with
  | recordCase recordType fieldBindings =>
    refine covered_of_answer hp ?_
    rw [MatchPattern.answer, hv recordType fieldBindings hp]
  | _ => simp [MatchPattern.kind] at hpk

/-- A covered variant is the variant of some unguarded pattern. -/
theorem coveredVariants_pattern {variant : Bytes} (hall : ∀ arm ∈ arms, arm.pattern.isVariant)
    (h : variant ∈ coveredVariants arms) :
    ∃ q ∈ unguardedPatterns arms, q.isVariant = true ∧ q.enumVariant = variant := by
  obtain ⟨arm, harm, hvariant⟩ := List.mem_flatMap.mp h
  obtain ⟨hmem, hguard⟩ := mem_unguarded.mp harm
  obtain rfl | halt := List.mem_cons.mp hvariant
  · exact ⟨arm.pattern, mem_unguardedPatterns.mpr ⟨arm, hmem, hguard, List.mem_cons_self⟩,
      hall arm hmem, rfl⟩
  · obtain ⟨q, hq, rfl⟩ := List.mem_map.mp halt
    obtain ⟨hq, hkind⟩ := List.mem_filter.mp hq
    exact ⟨q, mem_unguardedPatterns.mpr ⟨arm, hmem, hguard, List.mem_cons_of_mem _ hq⟩, hkind,
      rfl⟩

/-- The test of a variant looks at the name of the variant. -/
theorem answer_variant {typeName : Bytes} {variant : ChoiceVariant} {fields : List Value}
    (hkind : p.isVariant = true) (hname : p.enumVariant = variant.name) :
    p.answer referent maxCallDepth (.choice typeName variant.name fields) = some true := by
  have htest : TypeMatcher.matchesPattern referent maxCallDepth
      (.choice typeName variant.name fields) variant.name = true := by
    rw [TypeMatcher.matchesPattern_name variant.isName]
    simp [TypeMatcher.matchesSimpleType]
  cases p with
  | choiceCase enumType enumVariant _ =>
    obtain rfl : enumVariant = variant.name := hname
    rw [MatchPattern.answer, htest]
  | variantCase enumType enumVariant =>
    obtain rfl : enumVariant = variant.name := hname
    rw [MatchPattern.answer, htest]
  | _ => simp [MatchPattern.isVariant, MatchPattern.kind] at hkind

theorem choice_covers (h : isChoiceExhaustive choices arms = true)
    (hv : ∀ decl, choiceOf choices arms = some decl →
      ∃ typeName variant fields, v = .choice typeName variant.name fields ∧
        variant ∈ decl.variants) : Covered referent maxCallDepth arms v := by
  unfold isChoiceExhaustive at h
  split at h
  · simp at h
  · rename_i decl hdecl
    rw [Bool.and_eq_true] at h
    obtain ⟨hnames, hcovered⟩ := h
    obtain ⟨typeName, variant, fields, rfl, hvariant⟩ := hv decl hdecl
    have hall : ∀ arm ∈ arms, arm.pattern.isVariant = true := by
      cases arms with
      | nil => simp
      | cons first rest =>
        intro arm harm
        obtain rfl | harm := List.mem_cons.mp harm
        · unfold choiceOf at hdecl
          dsimp only at hdecl
          split at hdecl
          · assumption
          · simp at hdecl
        · have hname := List.all_eq_true.mp hnames arm harm
          simp only [decide_eq_true_eq] at hname
          exact hname.1
    have hmem := List.all_eq_true.mp hcovered variant hvariant
    obtain ⟨q, hq, hkind, hname⟩ := coveredVariants_pattern hall (by simpa using hmem)
    exact covered_of_answer hq (answer_variant hkind hname)

/-- Arms that are taken to be exhaustive cover every subject of the kind they enumerate. -/
theorem isExhaustive_covers (h : isExhaustive choices arms = true)
    (hv : hasCatchAll arms = false → Enumerates referent maxCallDepth choices arms v) :
    Covered referent maxCallDepth arms v := by
  unfold isExhaustive at h
  split at h
  · simp at h
  · split at h
    · rename_i hcatch
      exact hasCatchAll_covers hcatch
    · rename_i hcatch
      have hcatch : hasCatchAll arms = false := by simpa using hcatch
      have henum := hv hcatch
      split at h
      · rename_i hall
        exact boolean_covers hcatch h (henum.boolean hall)
      · split at h
        · rw [Bool.and_eq_true] at h
          exact result_covers h.1 h.2
        · split at h
          · rw [Bool.and_eq_true] at h
            exact optional_covers h.1 h.2
          · split at h
            · rename_i hall
              exact record_covers h (henum.record hall)
            · exact choice_covers h henum.choice

end Coverage

end MatchExhaustiveness

end Luma
