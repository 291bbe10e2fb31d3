-- SUMMARY: A folded operator has the value the VM computes, except for sums of strings the VM refuses.
import Luma.Compiler.CompactionPieces
import Luma.Compiler.ConstantFolding

/-! # Laws of Constant Folding

Both folders agree with the handlers of the VM: what they fold, the VM computes without
raising, and to the same value. The exception is the size of strings: neither folder asks
for the limit the VM enforces. -/

namespace Luma

open Codec Vm

section

variable (float : FloatArithmetic) (limits : StringLimits) (h : StdHash) (toText : Value → Bytes)

/-- The VM computes `v` from `a` and `b` with the opcode of the operator `op`. -/
def ConstantFolder.Computes (op : TokenType) (a b v : Value) : Prop :=
  ∃ opcode, binaryOpForToken op = some opcode ∧
    binaryOp float limits h toText opcode a b = some (.ok v)

/-- A sum of two strings that is longer than a string may be. -/
def ConstantFolder.OversizedSum (lhs rhs : Literal) (op : TokenType) : Prop :=
  op = .plus ∧ ∃ s t, lhs = .string s ∧ rhs = .string t ∧
    checkStringConcatSize limits s.length t.length = false

/-- A concatenation the optimizer folds though it is longer than a string may be. -/
def Optimizer.OversizedConcatenation (val1 val2 : Value) (op : Op) : Prop :=
  op = .concatenate ∧ ∃ s t, val1 = .string s ∧ val2 = .string t ∧
    s.length + t.length ≤ maxFoldedStringLength ∧ checkStringConcatSize limits s.length t.length = false

end

section

variable {float : FloatArithmetic} {limits : StringLimits} {h : StdHash} {toText : Value → Bytes}
  {a b : Value} {l r x : Binary64}

/-! ## Handlers on numbers -/

/-- Not both operands are integers. -/
def Mixed (a b : Value) : Prop := ∀ m n, a = .integer m → b ≠ .integer n

theorem numericBinaryOp_mixed (hmixed : Mixed a b) (op : Op) :
    numericBinaryOp float limits a b op = mixedBinaryOp float limits a b op := by
  unfold numericBinaryOp
  split
  · exact absurd rfl (hmixed _ _ rfl)
  · rfl

theorem numericBinary_eq (hl : a.toNumeric? = some l) (hr : b.toNumeric? = some r) (operation : String)
    {dblOp : Binary64 → Binary64 → Binary64} (hfits : overflowsNumber l r (dblOp l r) = false) :
    numericBinary operation dblOp a b = some (.ok (.number (dblOp l r))) := by
  unfold numericBinary
  simp only [hl, hr, hfits, Bool.false_eq_true, if_false]

theorem numericBinaryOp_add_mixed (hmixed : Mixed a b) (hl : a.toNumeric? = some l) (hr : b.toNumeric? = some r)
    (hfits : overflowsNumber l r (float.add l r) = false) :
    numericBinaryOp float limits a b .add = .ok (.number (float.add l r)) := by
  rw [numericBinaryOp_mixed hmixed]
  unfold mixedBinaryOp
  simp only [numericBinary_eq hl hr _ hfits]

theorem numericBinaryOp_subtract_mixed (hmixed : Mixed a b) (hl : a.toNumeric? = some l)
    (hr : b.toNumeric? = some r) (hfits : overflowsNumber l r (float.subtract l r) = false) :
    numericBinaryOp float limits a b .subtract = .ok (.number (float.subtract l r)) := by
  rw [numericBinaryOp_mixed hmixed]
  unfold mixedBinaryOp
  simp only [numericBinary_eq hl hr _ hfits, Option.getD_some]

theorem numericBinaryOp_multiply_mixed (hmixed : Mixed a b) (hl : a.toNumeric? = some l)
    (hr : b.toNumeric? = some r) (hfits : overflowsNumber l r (float.multiply l r) = false) :
    numericBinaryOp float limits a b .multiply = .ok (.number (float.multiply l r)) := by
  rw [numericBinaryOp_mixed hmixed]
  unfold mixedBinaryOp
  simp only [numericBinary_eq hl hr _ hfits]

/-- A divisor that is not zero as a double is not zero. -/
theorem validateNonzeroDivisor_ok (hr : b.toNumeric? = some r) (hnonzero : r.isZero = false) (opName : String) :
    validateNonzeroDivisor b opName = .ok () := by
  cases b with
  | integer n =>
    rw [Value.toNumeric?, Option.some.injEq] at hr
    have hn : n ≠ 0 := by
      rintro rfl
      rw [← hr] at hnonzero
      exact absurd hnonzero (by decide)
    rw [validateNonzeroDivisor_integer, if_neg hn]
  | number y =>
    rw [Value.toNumeric?, Option.some.injEq] at hr
    subst hr
    unfold validateNonzeroDivisor
    simp only [hnonzero, Bool.false_eq_true, if_false]
  | _ => cases hr

theorem handleDivide_ok (hl : a.toNumeric? = some l) (hr : b.toNumeric? = some r) (hnonzero : r.isZero = false)
    (hfits : overflowsNumber l r (float.divide l r) = false) :
    handleDivide float a b = .ok (.number (float.divide l r)) := by
  unfold handleDivide
  simp only [hl, hr, validateNonzeroDivisor_ok hr hnonzero, hfits, Bool.false_eq_true, if_false]
  rfl

/-- Values of two kinds are ordered as doubles. -/
theorem compareValues_mixed (hmixed : Mixed a b) (hl : a.toNumeric? = some l) (hr : b.toNumeric? = some r) (op : Op) :
    compareValues a b op = .ok (.bool (applyComparison numberOrdering l r op)) := by
  unfold compareValues
  split
  · exact absurd rfl (hmixed _ _ rfl)
  · cases hl
  · simp only [hl, hr]

/-! ## Handlers on integers -/

theorem handleIntDivide_ok {m n : Int64} (hn : n ≠ 0) (hfits : wouldOverflowDiv m n = false) :
    handleIntDivide (.integer m) (.integer n) = .ok (.integer (floorQuotient m n)) := by
  unfold handleIntDivide validateNonzeroDivisor
  simp only [hn, hfits, decide_false, Bool.false_eq_true, if_false]
  rfl

theorem handleModulo_ok {m n : Int64} (hn : n ≠ 0) (hfits : wouldOverflowDiv m n = false) :
    handleModulo float (.integer m) (.integer n) = .ok (.integer (m % n)) := by
  unfold handleModulo validateNonzeroDivisor
  simp only [Value.toNumeric?, hn, hfits, decide_false, Bool.false_eq_true, if_false]
  rfl

/-! ## The folder of the compiler -/

namespace ConstantFolder

variable {op : TokenType} {lhs rhs : Literal} {e : Emitted}

theorem toNumeric?_asValue (lit : Literal) : (asValue lit).toNumeric? = asDouble? lit := by
  cases lit <;> rfl

/-- Integer arithmetic folds to what the checked operations of the VM give. -/
theorem computes_integerArithmetic {m n : Int64} (hfold : tryFoldIntegerArithmetic m n op = some e) :
    Computes float limits h toText op (.integer m) (.integer n) e.pushed := by
  unfold tryFoldIntegerArithmetic at hfold
  obtain ⟨v, hv, rfl⟩ := Option.map_eq_some_iff.mp hfold
  cases op with
  | plus =>
    refine ⟨.add, rfl, ?_⟩
    simp only [tryFoldAdd] at hv
    split at hv
    · cases hv
    · cases hv
      simp only [binaryOp, numericBinaryOp, checkedIntegerOp, if_neg (by assumption), Emitted.pushed]
  | minus =>
    refine ⟨.subtract, rfl, ?_⟩
    simp only [tryFoldSubtract] at hv
    split at hv
    · cases hv
    · cases hv
      simp only [binaryOp, numericBinaryOp, checkedIntegerOp, if_neg (by assumption), Emitted.pushed]
  | star =>
    refine ⟨.multiply, rfl, ?_⟩
    simp only [tryFoldMultiply] at hv
    split at hv
    · cases hv
    · cases hv
      simp only [binaryOp, numericBinaryOp, checkedIntegerOp, if_neg (by assumption), Emitted.pushed]
  | percent =>
    refine ⟨.modulo, rfl, ?_⟩
    simp only [tryFoldModulo] at hv
    split at hv
    · cases hv
    · rename_i hsafe
      rw [not_or, Bool.not_eq_true] at hsafe
      cases hv
      rw [binaryOp, handleModulo_ok hsafe.1 hsafe.2, Emitted.pushed]
  | slashSlash =>
    refine ⟨.intDivide, rfl, ?_⟩
    simp only [tryFoldIntDivide] at hv
    split at hv
    · cases hv
    · rename_i hsafe
      rw [not_or, Bool.not_eq_true] at hsafe
      cases hv
      rw [binaryOp, handleIntDivide_ok hsafe.1 hsafe.2, Emitted.pushed]
  | _ => cases hv

theorem computes_integerComparison {m n : Int64} (hfold : foldIntegerComparison m n op = some e) :
    Computes float limits h toText op (.integer m) (.integer n) e.pushed := by
  cases op with
  | equalsEquals => cases hfold; exact ⟨.equal, rfl, rfl⟩
  | bangEquals => cases hfold; exact ⟨.notEqual, rfl, rfl⟩
  | less => cases hfold; exact ⟨.less, rfl, rfl⟩
  | lessEquals => cases hfold; exact ⟨.lessEqual, rfl, rfl⟩
  | greater => cases hfold; exact ⟨.greater, rfl, rfl⟩
  | greaterEquals => cases hfold; exact ⟨.greaterEqual, rfl, rfl⟩
  | _ => cases hfold

theorem pushed_tryFoldWith {result : Option Value} (hfold : tryFoldWith result = some e) :
    result = some e.pushed := by
  unfold tryFoldWith at hfold
  obtain ⟨v, rfl, rfl⟩ := Option.map_eq_some_iff.mp hfold
  cases v <;> rfl

/-- Mixed arithmetic folds to what the VM computes on the promoted operands. -/
theorem computes_numberArithmetic (hmixed : Mixed a b) (hl : a.toNumeric? = some l) (hr : b.toNumeric? = some r)
    (hfold : tryFoldNumberArithmetic float l r op = some e) : Computes float limits h toText op a b e.pushed := by
  unfold tryFoldNumberArithmetic at hfold
  obtain ⟨x, hx, hfits⟩ := Option.bind_eq_some_iff.mp (pushed_tryFoldWith hfold)
  split at hfits
  · cases hfits
  · rename_i hfinite
    rw [Bool.not_eq_true] at hfinite
    rw [Option.some.injEq] at hfits
    rw [← hfits]
    cases op with
    | plus =>
      cases hx
      exact ⟨.add, rfl, congrArg some (numericBinaryOp_add_mixed hmixed hl hr hfinite)⟩
    | minus =>
      cases hx
      exact ⟨.subtract, rfl, congrArg some (numericBinaryOp_subtract_mixed hmixed hl hr hfinite)⟩
    | star =>
      cases hx
      exact ⟨.multiply, rfl, congrArg some (numericBinaryOp_multiply_mixed hmixed hl hr hfinite)⟩
    | slash =>
      simp only at hx
      split at hx
      · cases hx
      · rename_i hnonzero
        rw [Bool.not_eq_true] at hnonzero
        cases hx
        exact ⟨.divide, rfl, congrArg some (handleDivide_ok hl hr hnonzero hfinite)⟩
    | _ => cases hx

theorem computes_numberComparison (hmixed : Mixed a b) (hl : a.toNumeric? = some l) (hr : b.toNumeric? = some r)
    (hne : ¬ (op = .equalsEquals ∨ op = .bangEquals)) (hfold : tryFoldComparison l r op = some e) :
    Computes float limits h toText op a b e.pushed := by
  obtain ⟨cmp, hcmp, hv⟩ := Option.map_eq_some_iff.mp (pushed_tryFoldWith hfold)
  have hcompare := compareValues_mixed hmixed hl hr cmp
  rw [hv] at hcompare
  rw [not_or] at hne
  cases op with
  | equalsEquals => exact absurd rfl hne.1
  | bangEquals => exact absurd rfl hne.2
  | less => cases hcmp; exact ⟨.less, rfl, congrArg some hcompare⟩
  | lessEquals => cases hcmp; exact ⟨.lessEqual, rfl, congrArg some hcompare⟩
  | greater => cases hcmp; exact ⟨.greater, rfl, congrArg some hcompare⟩
  | greaterEquals => cases hcmp; exact ⟨.greaterEqual, rfl, congrArg some hcompare⟩
  | _ => cases hcmp

/-- The first step folds numeric operands as the VM does. -/
theorem computes_numericArithmetic (hfold : foldNumericArithmetic float lhs rhs op = some e) :
    Computes float limits h toText op (asValue lhs) (asValue rhs) e.pushed := by
  unfold foldNumericArithmetic at hfold
  split at hfold
  · obtain harith | ⟨-, hcompare⟩ := Option.or_eq_some_iff.mp hfold
    · exact computes_integerArithmetic harith
    · exact computes_integerComparison hcompare
  · rename_i hnot
    have hmixed : Mixed (asValue lhs) (asValue rhs) := by
      intro m n hm hn
      cases lhs <;> cases hm
      cases rhs <;> cases hn
      exact hnot m n rfl rfl
    split at hfold
    · rename_i l r hl hr
      rw [← toNumeric?_asValue] at hl hr
      exact computes_numberArithmetic hmixed hl hr hfold
    · cases hfold

/-- Two integers that reach the last step have an operator it does not fold. -/
theorem foldNumericComparison_integers {m n : Int64}
    (hfirst : foldNumericArithmetic float (.integer m) (.integer n) op = none) :
    foldNumericComparison h (.integer m) (.integer n) op = none := by
  have hcompare := (Option.or_eq_none_iff.mp hfirst).2
  cases op <;> first | rfl | cases hcompare

/-- The last step folds comparisons of numeric operands as the VM does. -/
theorem computes_numericComparison (hfirst : foldNumericArithmetic float lhs rhs op = none)
    (hfold : foldNumericComparison h lhs rhs op = some e) :
    Computes float limits h toText op (asValue lhs) (asValue rhs) e.pushed := by
  have hmixed : Mixed (asValue lhs) (asValue rhs) := by
    intro m n hm hn
    cases lhs <;> cases hm
    cases rhs <;> cases hn
    rw [foldNumericComparison_integers hfirst] at hfold
    cases hfold
  unfold foldNumericComparison at hfold
  split at hfold
  · rename_i l r hl hr
    rw [← toNumeric?_asValue] at hl hr
    split at hfold
    · rename_i hop
      split at hfold
      · rename_i equal hequal
        have heq : equality h (asValue lhs) (asValue rhs) = .ok equal := by
          rw [equality, hequal]
        cases hfold
        obtain rfl | rfl := hop
        · refine ⟨.equal, rfl, ?_⟩
          rw [binaryOp, heq, if_pos rfl]
          rfl
        · refine ⟨.notEqual, rfl, ?_⟩
          rw [binaryOp, heq, if_neg (by decide)]
          rfl
      · cases hfold
    · exact computes_numberComparison hmixed hl hr (by assumption) hfold
  · cases hfold

theorem computes_booleanEquality (hfold : foldBooleanEquality lhs rhs op = some e) :
    Computes float limits h toText op (asValue lhs) (asValue rhs) e.pushed := by
  unfold foldBooleanEquality at hfold
  split at hfold
  · split at hfold
    · cases hfold
      exact ⟨.equal, rfl, rfl⟩
    · cases hfold
      exact ⟨.notEqual, rfl, rfl⟩
    · cases hfold
  · cases hfold

/-- A sum of strings folds to what the VM computes, when it fits. -/
theorem computes_strings (hsize : ¬ OversizedSum limits lhs rhs op) (hfold : foldStrings lhs rhs op = some e) :
    Computes float limits h toText op (asValue lhs) (asValue rhs) e.pushed := by
  unfold foldStrings at hfold
  split at hfold
  · rename_i s t
    have hv := pushed_tryFoldWith hfold
    split at hv
    · cases hv
    · rename_i hop
      rw [not_not] at hop
      have hcheck : checkStringConcatSize limits s.length t.length = true := by
        by_contra hno
        exact hsize ⟨hop, s, t, rfl, rfl, Bool.eq_false_iff.mpr hno⟩
      rw [Option.some.injEq] at hv
      subst hop
      refine ⟨.add, rfl, ?_⟩
      rw [← hv]
      simp only [binaryOp, numericBinaryOp, mixedBinaryOp, numericBinary, asValue, Value.toNumeric?, hcheck, if_true]
  · cases hfold

/-- The folder agrees with the VM exactly when it is not given strings whose sum is too
    long. -/
theorem computes_iff :
    (∀ e, tryFoldBinaryAtCompileTime float h lhs rhs op = some e →
        Computes float limits h toText op (asValue lhs) (asValue rhs) e.pushed) ↔
      ¬ OversizedSum limits lhs rhs op := by
  constructor
  · rintro hall ⟨rfl, s, t, rfl, rfl, hcheck⟩
    obtain ⟨opcode, hop, hvm⟩ := hall (.constant (.string (s ++ t))) rfl
    cases hop
    simp only [binaryOp, numericBinaryOp, mixedBinaryOp, numericBinary, asValue, Value.toNumeric?, hcheck,
      Bool.false_eq_true, if_false] at hvm
    cases hvm
  · intro hsize e hfold
    unfold tryFoldBinaryAtCompileTime at hfold
    obtain hfold | ⟨hnone, hfold⟩ := Option.or_eq_some_iff.mp hfold
    · obtain hfold | ⟨-, hfold⟩ := Option.or_eq_some_iff.mp hfold
      · obtain hfold | ⟨-, hfold⟩ := Option.or_eq_some_iff.mp hfold
        · exact computes_numericArithmetic hfold
        · exact computes_strings hsize hfold
      · exact computes_booleanEquality hfold
    · have hfirst := (Option.or_eq_none_iff.mp (Option.or_eq_none_iff.mp hnone).1).1
      exact computes_numericComparison hfirst hfold

end ConstantFolder

/-! ## The passes of the optimizer -/

namespace Optimizer

variable {op : Op} {v : Value}

theorem tryFoldIntegers_sound {m n : Int64} (hfold : tryFoldIntegers m n op = some v) :
    binaryOp float limits h toText op (.integer m) (.integer n) = some (.ok v) := by
  cases op with
  | add =>
    simp only [tryFoldIntegers] at hfold
    split at hfold
    · cases hfold
    · cases hfold
      simp only [binaryOp, numericBinaryOp, checkedIntegerOp, if_neg (by assumption)]
  | subtract =>
    simp only [tryFoldIntegers] at hfold
    split at hfold
    · cases hfold
    · cases hfold
      simp only [binaryOp, numericBinaryOp, checkedIntegerOp, if_neg (by assumption)]
  | multiply =>
    simp only [tryFoldIntegers] at hfold
    split at hfold
    · cases hfold
    · cases hfold
      simp only [binaryOp, numericBinaryOp, checkedIntegerOp, if_neg (by assumption)]
  | intDivide =>
    simp only [tryFoldIntegers] at hfold
    split at hfold
    · rename_i hsafe
      cases hfold
      rw [binaryOp, handleIntDivide_ok hsafe.1 hsafe.2]
    · cases hfold
  | modulo =>
    simp only [tryFoldIntegers] at hfold
    split at hfold
    · rename_i hsafe
      cases hfold
      rw [binaryOp, handleModulo_ok hsafe.1 hsafe.2]
    · cases hfold
  | _ => cases hfold

/-- A finite result is no overflow. -/
theorem overflowsNumber_of_isFinite (hx : x.isFinite = true) : overflowsNumber l r x = false := by
  rw [overflowsNumber, hx, Bool.not_true, Bool.and_false]

theorem tryFoldNumbers_sound (hmixed : Mixed a b) (hl : a.toNumeric? = some l) (hr : b.toNumeric? = some r)
    (hfold : tryFoldNumbers float l r op = some v) :
    binaryOp float limits h toText op a b = some (.ok v) := by
  unfold tryFoldNumbers at hfold
  obtain ⟨x, hx, hfinite⟩ := Option.bind_eq_some_iff.mp hfold
  split at hfinite
  · rename_i hfin
    cases hfinite
    cases op with
    | add =>
      cases hx
      exact congrArg some (numericBinaryOp_add_mixed hmixed hl hr (overflowsNumber_of_isFinite hfin))
    | subtract =>
      cases hx
      exact congrArg some (numericBinaryOp_subtract_mixed hmixed hl hr (overflowsNumber_of_isFinite hfin))
    | multiply =>
      cases hx
      exact congrArg some (numericBinaryOp_multiply_mixed hmixed hl hr (overflowsNumber_of_isFinite hfin))
    | divide =>
      simp only at hx
      split at hx
      · cases hx
      · rename_i hnonzero
        rw [Bool.not_eq_true] at hnonzero
        cases hx
        exact congrArg some (handleDivide_ok hl hr hnonzero (overflowsNumber_of_isFinite hfin))
    | _ => cases hx
  · cases hfinite

/-- The operation agrees with the VM exactly when it is not given strings whose
    concatenation is too long. -/
theorem tryFoldOperation_iff :
    (∀ v, tryFoldOperation float a b op = some v → binaryOp float limits h toText op a b = some (.ok v)) ↔
      ¬ OversizedConcatenation limits a b op := by
  constructor
  · rintro hall ⟨rfl, s, t, rfl, rfl, hshort, hcheck⟩
    have hvm := hall (.string (s ++ t)) (by rw [tryFoldOperation, if_pos ⟨rfl, hshort⟩])
    simp only [binaryOp, handleConcatenate, hcheck, Bool.false_eq_true, if_false, Option.some.injEq,
      reduceCtorEq] at hvm
  · intro hsize v hfold
    unfold tryFoldOperation at hfold
    split at hfold
    · exact tryFoldIntegers_sound hfold
    · rename_i s t
      split at hfold
      · rename_i hshort
        have hcheck : checkStringConcatSize limits s.length t.length = true := by
          by_contra hno
          exact hsize ⟨hshort.1, s, t, rfl, rfl, hshort.2, Bool.eq_false_iff.mpr hno⟩
        cases hfold
        rw [hshort.1]
        simp only [binaryOp, handleConcatenate, hcheck, if_true]
      · cases hfold
    · rename_i hints _
      have hmixed : Mixed a b := fun m n hm hn => hints m n hm hn
      split at hfold
      · exact tryFoldNumbers_sound hmixed (by assumption) (by assumption) hfold
      · cases hfold

/-- A folded comparison is the one of the VM. -/
theorem tryFoldComparison_sound {result : Bool} (hfold : tryFoldComparison a b op = some result) :
    binaryOp float limits h toText op a b = some (.ok (.bool result)) := by
  unfold tryFoldComparison at hfold
  split at hfold
  · cases op <;> first | cases hfold; rfl | cases hfold
  · cases op <;> first | cases hfold; rfl | cases hfold
  · cases hfold

/-! ## Folds in a chunk -/

theorem sameKey_eq (hkey : ConstantPool.sameKey a b = true) : a = b := by
  unfold ConstantPool.sameKey at hkey
  split at hkey
  · exact congrArg Value.integer (by simpa using hkey)
  · exact congrArg Value.string (by simpa using hkey)
  · exact congrArg Value.number (by simpa using hkey)
  · cases hkey

/-- The index a constant gets is that of the constant. -/
theorem tryAdd_getElem {pool grown : ConstantPool} {index : Nat} (hadd : pool.tryAdd v = some (index, grown)) :
    grown.values[index]? = some v ∧ index < 65536 := by
  unfold ConstantPool.tryAdd at hadd
  have hsize := pool.size_le
  rw [CompilerLimits.maxConstants] at hsize
  split at hadd
  · rename_i i hfind
    cases hadd
    obtain ⟨hlt, hkey, -⟩ := List.findIdx?_eq_some_iff_getElem.mp hfind
    exact ⟨by rw [List.getElem?_eq_getElem hlt, sameKey_eq hkey], by omega⟩
  · obtain ⟨grown', hpush, hpair⟩ := Option.map_eq_some_iff.mp hadd
    cases hpair
    unfold ConstantPool.pushBack at hpush
    split at hpush
    · cases hpush
      exact ⟨List.getElem?_concat_length, by omega⟩
    · cases hpush

theorem byteAt_take {code : Bytes} {j start : Nat} (hj : j < start) (rest : Bytes) (hlen : start ≤ code.length) :
    byteAt (code.take start ++ rest) j = byteAt code j := by
  rw [byteAt, byteAt, List.getD_eq_getElem?_getD, List.getD_eq_getElem?_getD,
    List.getElem?_append_left (by rw [List.length_take]; omega), List.getElem?_take_of_lt hj]

theorem byteAt_nopOut {code : Bytes} {j start length : Nat} (hj : j < start) (hlen : start ≤ code.length) :
    byteAt (nopOut code start length) j = byteAt code j := by
  rw [nopOut, List.append_assoc, byteAt_take hj _ hlen]

theorem readU16At_nopOut {code : Bytes} {j start length : Nat} (hj : j + 1 < start) (hlen : start ≤ code.length) :
    readU16At (nopOut code start length) j = readU16At code j := by
  rw [readU16At, readU16At, byteAt_nopOut (by omega) hlen, byteAt_nopOut hj hlen]

theorem length_writeU16At {code : Bytes} {offset value : Nat} (hlen : offset + 2 ≤ code.length) :
    (writeU16At code offset value).length = code.length := by
  simp only [writeU16At, List.length_append, List.length_take, writeIntBe_length, List.length_drop]
  omega

theorem byteAt_writeU16At {code : Bytes} {j offset value : Nat} (hj : j < offset) (hlen : offset ≤ code.length) :
    byteAt (writeU16At code offset value) j = byteAt code j := by
  rw [writeU16At, List.append_assoc, byteAt_take hj _ hlen]

theorem readU16At_writeU16At {code : Bytes} {offset value : Nat} (hlen : offset + 2 ≤ code.length)
    (hvalue : value < 65536) : readU16At (writeU16At code offset value) offset = value := by
  have htake : (code.take offset).length = offset := by
    rw [List.length_take]
    omega
  have hat : ∀ j < 2, byteAt (writeU16At code offset value) (offset + j) = byteAt (writeIntBe 2 value) j := by
    intro j hj
    have hmiddle := byteAt_middle (w := writeIntBe 2 value) (code.take offset) (code.drop (offset + 2))
      (j := j) (by rw [writeIntBe_length]; exact hj)
    rw [htake] at hmiddle
    exact hmiddle
  have hfirst := hat 0 (by decide)
  rw [Nat.add_zero] at hfirst
  rw [readU16At, hfirst, hat 1 (by decide)]
  simp only [writeIntBe, byteAt, List.getD_cons_zero, List.getD_cons_succ, UInt8.toNat_ofNat',
    Nat.shiftRight_eq_div_pow]
  omega

theorem byteAt_set_self {code : Bytes} {i : Nat} (hi : i < code.length) (byte : UInt8) :
    byteAt (code.set i byte) i = byte := by
  rw [byteAt, List.getD_eq_getElem _ _ (by rw [List.length_set]; exact hi), List.getElem_set_self]

theorem foldablePairAt_inside {chunk : Chunk} {i : Nat} {c : FoldCandidate} (hpair : foldablePairAt chunk i = some c) :
    c.i = i ∧ c.op2Pos = i + 3 ∧ i + 6 < chunk.code.length := by
  simp only [foldablePairAt] at hpair
  split at hpair
  · rename_i hcode
    cases hop : Op.ofByte (byteAt chunk.code (i + 3 + 3)) with
    | none =>
      rw [hop] at hpair
      cases hpair
    | some arithOp =>
      rw [hop] at hpair
      cases hpair
      exact ⟨rfl, rfl, by omega⟩
  · cases hpair

/-- A folded pair pushes the value its operation folds to. -/
theorem applyFoldOptimization_pushes {chunk folded : Chunk} {i : Nat} {c : FoldCandidate}
    (hpair : foldablePairAt chunk i = some c) (hfold : applyFoldOptimization float chunk c = some folded) :
    ∃ val1 val2 v, chunk.constants.values[c.idx1]? = some val1 ∧ chunk.constants.values[c.idx2]? = some val2 ∧
      tryFoldOperation float val1 val2 c.arithOp = some v ∧ pushedAt folded i = some v := by
  obtain ⟨rfl, hop2, hinside⟩ := foldablePairAt_inside hpair
  simp only [applyFoldOptimization, Option.bind_eq_bind, Option.bind_eq_some_iff] at hfold
  obtain ⟨val1, hval1, val2, hval2, v, hv, hfold⟩ := hfold
  refine ⟨val1, val2, v, hval1, hval2, hv, ?_⟩
  split at hfold
  · cases hfold
  · obtain ⟨⟨index, grown⟩, hadd, hfold⟩ := Option.bind_eq_some_iff.mp hfold
    obtain ⟨hindex, hlt⟩ := tryAdd_getElem hadd
    cases hfold
    have hset : (chunk.code.set c.i Op.constant.toByte).length = chunk.code.length := List.length_set
    have hlen := @length_writeU16At (chunk.code.set c.i Op.constant.toByte) (c.i + 1) index (by omega)
    have hhead : byteAt (nopOut (writeU16At (chunk.code.set c.i Op.constant.toByte) (c.i + 1) index) c.op2Pos 4) c.i =
        Op.constant.toByte := by
      rw [byteAt_nopOut (by omega) (by omega), byteAt_writeU16At (by omega) (by omega), byteAt_set_self (by omega)]
    have hread : readU16At (nopOut (writeU16At (chunk.code.set c.i Op.constant.toByte) (c.i + 1) index) c.op2Pos 4)
        (c.i + 1) = index := by
      rw [readU16At_nopOut (by omega) (by omega), readU16At_writeU16At (by omega) hlt]
    simp only [pushedAt, hhead, Op.ofByte_toByte, hread]
    exact hindex

/-- A folded comparison pushes its result. -/
theorem applyComparisonFold_pushes {chunk folded : Chunk} {i : Nat} {c : FoldCandidate}
    (hpair : foldablePairAt chunk i = some c) (hfold : applyComparisonFold chunk c = some folded) :
    ∃ val1 val2 result, chunk.constants.values[c.idx1]? = some val1 ∧
      chunk.constants.values[c.idx2]? = some val2 ∧
      tryFoldComparison val1 val2 c.arithOp = some result ∧ pushedAt folded i = some (.bool result) := by
  obtain ⟨rfl, -, hinside⟩ := foldablePairAt_inside hpair
  simp only [applyComparisonFold] at hfold
  split at hfold
  · simp only [Option.bind_eq_bind, Option.bind_eq_some_iff] at hfold
    obtain ⟨val1, hval1, val2, hval2, result, hresult, hfold⟩ := hfold
    refine ⟨val1, val2, result, hval1, hval2, hresult, ?_⟩
    cases hfold
    have hset : ∀ byte, (chunk.code.set c.i byte).length = chunk.code.length := fun _ => List.length_set
    have hhead : ∀ byte, byteAt (nopOut (chunk.code.set c.i byte) (c.i + 1) 6) c.i = byte := by
      intro byte
      rw [byteAt_nopOut (by omega) (by rw [hset]; omega), byteAt_set_self (by omega)]
    cases result with
    | true =>
      have htrue := hhead Op.true_.toByte
      simp only [pushedAt, if_true, htrue, Op.ofByte_toByte]
    | false =>
      have hfalse := hhead Op.false_.toByte
      simp only [pushedAt, Bool.false_eq_true, if_false, hfalse, Op.ofByte_toByte]
  · cases hfold

end Optimizer

/-! ## Both folders -/

/-- Every fold of the two folders has the value the VM computes, exactly when the strings
    it joins fit in a string; folded comparisons always have it, and what is left in the
    chunk pushes what was folded. -/
theorem constant_folding_iff (float : FloatArithmetic) (limits : StringLimits) (h : StdHash)
    (toText : Value → Bytes) (lhs rhs : Literal) (token : TokenType) (val1 val2 : Value) (op : Op) :
    ((∀ e, ConstantFolder.tryFoldBinaryAtCompileTime float h lhs rhs token = some e →
        ConstantFolder.Computes float limits h toText token (ConstantFolder.asValue lhs)
          (ConstantFolder.asValue rhs) e.pushed) ↔
      ¬ ConstantFolder.OversizedSum limits lhs rhs token) ∧
    ((∀ v, Optimizer.tryFoldOperation float val1 val2 op = some v →
        binaryOp float limits h toText op val1 val2 = some (.ok v)) ↔
      ¬ Optimizer.OversizedConcatenation limits val1 val2 op) ∧
    (∀ result, Optimizer.tryFoldComparison val1 val2 op = some result →
      binaryOp float limits h toText op val1 val2 = some (.ok (.bool result))) ∧
    ∀ chunk i candidate, Optimizer.foldablePairAt chunk i = some candidate →
      chunk.constants.values[candidate.idx1]? = some val1 → chunk.constants.values[candidate.idx2]? = some val2 →
      candidate.arithOp = op →
      (∀ folded, Optimizer.applyFoldOptimization float chunk candidate = some folded →
        Optimizer.pushedAt folded i = Optimizer.tryFoldOperation float val1 val2 op) ∧
      ∀ folded, Optimizer.applyComparisonFold chunk candidate = some folded →
        Optimizer.pushedAt folded i = (Optimizer.tryFoldComparison val1 val2 op).map .bool := by
  refine ⟨ConstantFolder.computes_iff, Optimizer.tryFoldOperation_iff,
    fun result hfold => Optimizer.tryFoldComparison_sound hfold, fun chunk i candidate hpair hval1 hval2 hop => ?_⟩
  subst hop
  constructor
  · intro folded hfold
    obtain ⟨a, b, v, ha, hb, hv, hpushed⟩ := Optimizer.applyFoldOptimization_pushes hpair hfold
    rw [hval1, Option.some.injEq] at ha
    rw [hval2, Option.some.injEq] at hb
    rw [hpushed, ha, hb, hv]
  · intro folded hfold
    obtain ⟨a, b, result, ha, hb, hresult, hpushed⟩ := Optimizer.applyComparisonFold_pushes hpair hfold
    rw [hval1, Option.some.injEq] at ha
    rw [hval2, Option.some.injEq] at hb
    rw [hpushed, ha, hb, hresult]
    rfl

/-- Under a limit of one byte, `"a" + "b"` folds to a string the VM refuses to build. -/
theorem folded_string_exceeds_limit :
    ∃ limits : StringLimits, ∀ (float : FloatArithmetic) (h : StdHash) (toText : Value → Bytes),
      ∃ e, ConstantFolder.tryFoldBinaryAtCompileTime float h (.string [97]) (.string [98]) .plus = some e ∧
        ¬ ConstantFolder.Computes float limits h toText .plus (.string [97]) (.string [98]) e.pushed := by
  refine ⟨⟨1, 10000000⟩, fun float h toText => ⟨.constant (.string [97, 98]), rfl, ?_⟩⟩
  rintro ⟨opcode, hop, hvm⟩
  cases hop
  cases hvm

end

end Luma
