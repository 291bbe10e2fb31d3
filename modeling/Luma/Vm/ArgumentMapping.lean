-- SUMMARY: The calls the type checker accepts, and how it maps their arguments.
import Mathlib.Data.List.Perm.Subperm
import Luma.Vm.ArgumentBinding

/-! # The Mapping of the Type Checker

The checker accepts a call exactly when every argument is for a parameter, none is
given twice, and every parameter without a default value is given. -/

namespace Luma.Vm

open Codec

variable {α : Type} {sig : Signature} {call : CallExpression α}

/-- A name that is found is the name of a parameter. -/
theorem Signature.getElem?_of_idxOf? {name : Bytes} {i : Nat} (h : sig.names.idxOf? name = some i) :
    i < sig.arity ∧ sig.names[i]? = some name := by
  obtain ⟨hlt, hname, -⟩ := List.findIdx?_eq_some_iff_getElem.mp h
  refine ⟨hlt.trans_eq (List.length_map _), ?_⟩
  rw [List.getElem?_eq_getElem hlt, eq_of_beq hname]

theorem Signature.IsRequired.lt {i : Nat} (h : sig.IsRequired i) : i < sig.arity := by
  obtain ⟨p, hp, -⟩ := h
  exact (List.getElem?_eq_some_iff.mp hp).1

/-! ## Named arguments -/

section

variable (suggestName : List Bytes → Bytes → String) (fnName : String)

theorem mapNamedArgument_diagnostics {names : List Bytes} {st : NamedMapping}
    (h : (names.foldl (mapNamedArgument suggestName fnName sig) st).diagnostics = []) :
    st.diagnostics = [] := by
  induction names generalizing st with
  | nil => exact h
  | cons name names ih =>
    have hstep := ih h
    rw [mapNamedArgument] at hstep
    split at hstep
    · exact absurd hstep (List.append_ne_nil_of_right_ne_nil _ (List.cons_ne_nil _ _))
    · split at hstep
      · exact absurd hstep (List.append_ne_nil_of_right_ne_nil _ (List.cons_ne_nil _ _))
      · exact hstep

/-- Without errors, every name is known, and names no parameter that is filled already. -/
theorem mapNamedArgument_known {names : List Bytes} (st : NamedMapping)
    (hlength : st.isFilled.length = sig.arity)
    (h : (names.foldl (mapNamedArgument suggestName fnName sig) st).diagnostics = []) :
    (∀ name ∈ names, name ∈ sig.names) ∧ (names.filterMap sig.names.idxOf?).Nodup ∧
      ∀ i ∈ names.filterMap sig.names.idxOf?, st.isFilled.getD i false = false := by
  induction names generalizing st with
  | nil => exact ⟨fun _ h => absurd h List.not_mem_nil, List.nodup_nil, fun _ h => absurd h List.not_mem_nil⟩
  | cons name names ih =>
    rw [List.foldl_cons] at h
    cases hindex : sig.names.idxOf? name with
    | none =>
      have hstep := mapNamedArgument_diagnostics suggestName fnName h
      rw [mapNamedArgument, hindex] at hstep
      exact absurd hstep (List.append_ne_nil_of_right_ne_nil _ (List.cons_ne_nil _ _))
    | some index =>
      have hname : name ∈ sig.names := List.isSome_idxOf?.mp (by rw [hindex]; rfl)
      have hlt : index < st.isFilled.length := by
        rw [hlength]
        exact (Signature.getElem?_of_idxOf? hindex).1
      by_cases hfilled : st.isFilled.getD index false = true
      · have hstep := mapNamedArgument_diagnostics suggestName fnName h
        rw [mapNamedArgument, hindex] at hstep
        simp only [hfilled, if_true] at hstep
        exact absurd hstep (List.append_ne_nil_of_right_ne_nil _ (List.cons_ne_nil _ _))
      rw [mapNamedArgument, hindex] at h
      simp only [hfilled, Bool.false_eq_true, if_false] at h
      obtain ⟨hknown, hnodup, hfree⟩ := ih { st with
        isFilled := st.isFilled.set index true
        named := st.named ++ [some index] } ((List.length_set ..).trans hlength) h
      -- Whatever comes later is free after `index` is filled, so it is another parameter.
      have hother : ∀ i ∈ names.filterMap sig.names.idxOf?, i ≠ index ∧ st.isFilled.getD i false = false := by
        intro i hi
        have hset := hfree i hi
        dsimp only at hset
        by_cases hii : i = index
        · subst hii
          rw [List.getD_eq_getElem?_getD, List.getElem?_set_self hlt] at hset
          exact absurd hset.symm Bool.false_ne_true
        · rw [List.getD_eq_getElem?_getD, List.getElem?_set_ne (Ne.symm hii)] at hset
          exact ⟨hii, hset⟩
      rw [List.filterMap_cons, hindex]
      refine ⟨List.forall_mem_cons.mpr ⟨hname, hknown⟩, ?_, ?_⟩
      · exact List.nodup_cons.mpr ⟨fun hmem => (hother index hmem).1 rfl, hnodup⟩
      · exact List.forall_mem_cons.mpr ⟨Bool.eq_false_iff.mpr hfilled, fun i hi => (hother i hi).2⟩

/-- Known names of free parameters are mapped to these, and fill them. -/
theorem mapNamedArgument_ok {names : List Bytes} {st : NamedMapping}
    (hknown : ∀ name ∈ names, name ∈ sig.names) (hnodup : (names.filterMap sig.names.idxOf?).Nodup)
    (hfree : ∀ i ∈ names.filterMap sig.names.idxOf?, st.isFilled.getD i false = false) :
    names.foldl (mapNamedArgument suggestName fnName sig) st = { st with
      isFilled := writeAll ((names.filterMap sig.names.idxOf?).map fun i => (i, true)) st.isFilled
      named := st.named ++ names.map sig.names.idxOf? } := by
  induction names generalizing st with
  | nil => rw [List.foldl_nil, List.filterMap_nil, List.map_nil, List.map_nil, List.append_nil, writeAll_nil]
  | cons name names ih =>
    obtain ⟨hname, hknown⟩ := List.forall_mem_cons.mp hknown
    obtain ⟨index, hindex⟩ := Option.isSome_iff_exists.mp (List.isSome_idxOf?.mpr hname)
    rw [List.filterMap_cons, hindex] at hnodup hfree
    obtain ⟨hfresh, hnodup⟩ := List.nodup_cons.mp hnodup
    obtain ⟨hindexFree, hfree⟩ := List.forall_mem_cons.mp hfree
    have hstep : mapNamedArgument suggestName fnName sig st name = { st with
        isFilled := st.isFilled.set index true
        named := st.named ++ [some index] } := by
      rw [mapNamedArgument, hindex]
      simp only [hindexFree, Bool.false_eq_true, if_false]
    rw [List.foldl_cons, hstep, ih hknown hnodup ?_]
    · rw [List.filterMap_cons, hindex, List.map_cons, List.map_cons, writeAll_cons, hindex, List.append_assoc]
      rfl
    · intro i hi
      have hii : index ≠ i := fun h => hfresh (h ▸ hi)
      rw [List.getD_eq_getElem?_getD, List.getElem?_set_ne hii, ← List.getD_eq_getElem?_getD]
      exact hfree i hi

end

/-! ## The parameters filled by position -/

/-- The parameters filled by the positional arguments. -/
def filledByPosition (call : CallExpression α) (sig : Signature) : List Bool :=
  writeAll ((List.range call.positional.length).map fun i => (i, true)) (List.replicate sig.arity false)

theorem filledByPosition_eq :
    ((List.range call.arguments.length).map (· + call.piped.toList.length)).foldl
      (fun filled index => filled.set index true)
      (if call.piped.isSome then (List.replicate sig.arity false).set 0 true
        else List.replicate sig.arity false) = filledByPosition call sig := by
  have hfold : ∀ (positions : List Nat) (filled : List Bool),
      positions.foldl (fun filled index => filled.set index true) filled =
        writeAll (positions.map fun i => (i, true)) filled := by
    intro positions filled
    rw [writeAll, List.foldl_map]
  rw [hfold, filledByPosition, CallExpression.positional]
  cases call.piped with
  | none => 
    simp
  | some v =>
    simp [List.range_succ_eq_map]

theorem getD_filled {targets : List Nat} {n i : Nat} (hi : i < n) :
    (writeAll (targets.map fun i => (i, true)) (List.replicate n false)).getD i false = true ↔ i ∈ targets := by
  have hfst : (targets.map fun i => (i, true)).map Prod.fst = targets := by
    rw [List.map_map]
    exact List.map_id targets
  rw [List.getD_eq_getElem?_getD]
  constructor
  · intro hfilled
    by_contra hnot
    rw [getElem?_writeAll_of_notMem (by rwa [hfst]), List.getElem?_replicate, if_pos hi] at hfilled
    exact Bool.false_ne_true hfilled
  · intro hmem
    obtain ⟨v, hwrite, hv⟩ := getElem?_writeAll_mem (l := List.replicate n false)
      (hfst.symm ▸ hmem : i ∈ (targets.map fun i => (i, true)).map Prod.fst) (by rwa [List.length_replicate])
    obtain ⟨j, -, hj⟩ := List.mem_map.mp hwrite
    cases hj
    rw [hv]
    rfl

/-! ## Accepted calls -/

/-- The positions of the parameters without a default value. -/
def Signature.requiredPositions (sig : Signature) : List Nat :=
  (sig.parameters.zipIdx.filter fun p => !p.1.isOptional).map Prod.snd

theorem Signature.mem_requiredPositions {i : Nat} : i ∈ sig.requiredPositions ↔ sig.IsRequired i := by
  rw [requiredPositions, List.mem_map, IsRequired]
  constructor
  · rintro ⟨⟨p, j⟩, hmem, rfl⟩
    obtain ⟨hzip, hopt⟩ := List.mem_filter.mp hmem
    exact ⟨p, List.mk_mem_zipIdx_iff_getElem?.mp hzip, by simpa using hopt⟩
  · rintro ⟨p, hp, hopt⟩
    refine ⟨(p, i), List.mem_filter.mpr ⟨List.mk_mem_zipIdx_iff_getElem?.mpr hp, ?_⟩, rfl⟩
    simpa using hopt

theorem Signature.length_requiredPositions : sig.requiredPositions.length = sig.requiredCount := by
  rw [requiredPositions, List.length_map, ← List.countP_eq_length_filter, requiredCount]
  conv_rhs => rw [← List.zipIdx_map_fst 0 sig.parameters, List.countP_map]
  rfl

theorem Signature.nodup_requiredPositions : sig.requiredPositions.Nodup := by
  have hsub : sig.requiredPositions.Sublist (sig.parameters.zipIdx.map Prod.snd) :=
    (List.filter_sublist).map Prod.snd
  refine hsub.nodup ?_
  rw [List.zipIdx_map_snd]
  exact List.nodup_range'

/-- Every argument is for a parameter, none is given twice, and no required parameter is
    left out. -/
structure CallExpression.WellMatched (call : CallExpression α) (sig : Signature) : Prop where
  few : call.positional.length ≤ sig.arity
  known : ∀ p ∈ call.named, p.1 ∈ sig.names
  once : (call.targets sig).Nodup
  required : ∀ i, sig.IsRequired i → i ∈ call.targets sig

theorem length_targets (hknown : ∀ p ∈ call.named, p.1 ∈ sig.names) :
    (call.targets sig).length = call.positional.length + call.named.length := by
  have hnamed : ∀ named : List (Bytes × StackValue α), (∀ p ∈ named, p.1 ∈ sig.names) →
      (named.filterMap fun p => sig.names.idxOf? p.1).length = named.length := by
    intro named
    induction named with
    | nil => exact fun _ => rfl
    | cons p named ih =>
      intro hknown
      obtain ⟨hp, hknown⟩ := List.forall_mem_cons.mp hknown
      obtain ⟨i, hi⟩ := Option.isSome_iff_exists.mp (List.isSome_idxOf?.mpr hp)
      rw [List.filterMap_cons, hi, List.length_cons, List.length_cons, ih hknown]
  rw [CallExpression.targets_eq, List.length_append, List.length_range, hnamed call.named hknown]

theorem targets_eq_named : call.targets sig = List.range call.positional.length ++
    (call.named.map Prod.fst).filterMap sig.names.idxOf? := by
  rw [CallExpression.targets_eq, List.filterMap_map]
  rfl

theorem lt_of_mem_targets (hfew : call.positional.length ≤ sig.arity) {i : Nat}
    (h : i ∈ call.targets sig) : i < sig.arity := by
  rw [CallExpression.targets_eq] at h
  rcases List.mem_append.mp h with h | h
  · exact Nat.lt_of_lt_of_le (List.mem_range.mp h) hfew
  · obtain ⟨p, -, hp⟩ := List.mem_filterMap.mp h
    exact (Signature.getElem?_of_idxOf? hp).1

theorem missingArguments_eq_nil {fnName : String} {isFilled : List Bool} :
    missingArguments fnName sig isFilled = [] ↔ ∀ i, sig.IsRequired i → isFilled.getD i false = true := by
  rw [missingArguments, List.filterMap_eq_nil_iff]
  constructor
  · rintro h i ⟨p, hp, hopt⟩
    have hnone := h (p, i) (List.mk_mem_zipIdx_iff_getElem?.mpr hp)
    by_contra hfilled
    dsimp only at hnone
    rw [if_pos (by rw [Bool.eq_false_iff.mpr hfilled, hopt]; rfl)] at hnone
    exact absurd hnone (Option.some_ne_none _)
  · rintro h ⟨p, i⟩ hmem
    refine if_neg fun hmissing => ?_
    obtain ⟨hfilled, hopt⟩ := Bool.and_eq_true_iff.mp hmissing
    rw [Bool.not_eq_true'] at hfilled hopt
    exact Bool.eq_false_iff.mp hfilled (h i ⟨p, List.mk_mem_zipIdx_iff_getElem?.mp hmem, hopt⟩)

section

variable (suggestName : List Bytes → Bytes → String) (fnName : String)

/-- The named arguments of a well matched call fill free parameters. -/
theorem CallExpression.WellMatched.named (h : call.WellMatched sig) :
    ((call.named.map Prod.fst).filterMap sig.names.idxOf?).Nodup ∧
      ∀ i ∈ (call.named.map Prod.fst).filterMap sig.names.idxOf?,
        (filledByPosition call sig).getD i false = false := by
  have honce := h.once
  rw [targets_eq_named] at honce
  obtain ⟨-, hnodup, hdisjoint⟩ := List.nodup_append.mp honce
  refine ⟨hnodup, fun i hi => Bool.eq_false_iff.mpr fun hfilled => ?_⟩
  obtain ⟨name, -, hname⟩ := List.mem_filterMap.mp hi
  have hposition := (getD_filled (Signature.getElem?_of_idxOf? hname).1).mp hfilled
  exact hdisjoint i hposition i hi rfl

/-- The parameters filled by all arguments. -/
theorem writeAll_filledByPosition :
    writeAll (((call.named.map Prod.fst).filterMap sig.names.idxOf?).map fun i => (i, true))
        (filledByPosition call sig) =
      writeAll ((call.targets sig).map fun i => (i, true)) (List.replicate sig.arity false) := by
  rw [filledByPosition, ← writeAll_append, ← List.map_append, ← targets_eq_named]

/-- Mapping the named arguments of a well matched call. -/
theorem CallExpression.WellMatched.foldl_named (h : call.WellMatched sig) :
    (call.named.map Prod.fst).foldl (mapNamedArgument suggestName fnName sig)
        ⟨filledByPosition call sig, [], [], true⟩ =
      ⟨writeAll ((call.targets sig).map fun i => (i, true)) (List.replicate sig.arity false),
        (call.named.map Prod.fst).map sig.names.idxOf?, [], true⟩ := by
  have hknown : ∀ name ∈ call.named.map Prod.fst, name ∈ sig.names := List.forall_mem_map.mpr h.known
  rw [mapNamedArgument_ok suggestName fnName hknown h.named.1 h.named.2, ← writeAll_filledByPosition]
  rfl

/-- A well matched call has a fitting number of arguments. -/
theorem CallExpression.WellMatched.count (h : call.WellMatched sig) :
    ¬ (call.arguments.length + call.named.length + call.piped.toList.length < sig.requiredCount ∨
      sig.arity < call.arguments.length + call.named.length + call.piped.toList.length) := by
  have hlength := length_targets h.known
  have hpositional : call.positional.length = call.piped.toList.length + call.arguments.length :=
    List.length_append ..
  have hmost : (call.targets sig).length ≤ sig.arity := by
    rw [← @List.length_range sig.arity]
    exact (List.subperm_of_subset h.once fun i hi => List.mem_range.mpr (lt_of_mem_targets h.few hi)).length_le
  have hleast : sig.requiredCount ≤ (call.targets sig).length := by
    rw [← Signature.length_requiredPositions]
    exact (List.subperm_of_subset Signature.nodup_requiredPositions fun i hi =>
      h.required i (Signature.mem_requiredPositions.mp hi)).length_le
  omega

/-- The checker accepts exactly the well matched calls. -/
theorem mapCallArguments_accepts :
    (mapCallArguments suggestName fnName sig call).2 = [] ↔ call.WellMatched sig := by
  simp only [mapCallArguments, filledByPosition_eq]
  constructor
  · intro h
    split at h
    · exact absurd h (List.append_ne_nil_of_right_ne_nil _ (List.cons_ne_nil _ _))
    next hcount =>
    have hclean : ((call.named.map Prod.fst).foldl (mapNamedArgument suggestName fnName sig)
        ⟨filledByPosition call sig, [], [], true⟩).diagnostics = [] := by
      split at h
      · exact (List.append_eq_nil_iff.mp h).1
      · exact h
    obtain ⟨hknown, hnodup, hfree⟩ := mapNamedArgument_known suggestName fnName _
      ((length_writeAll).trans (List.length_replicate ..)) hclean
    have hpositional : call.positional.length = call.piped.toList.length + call.arguments.length :=
      List.length_append ..
    have hfew : call.positional.length ≤ sig.arity := by omega
    rw [mapNamedArgument_ok suggestName fnName hknown hnodup hfree, if_pos rfl, List.append_eq_nil_iff,
      missingArguments_eq_nil, writeAll_filledByPosition] at h
    refine ⟨hfew, List.forall_mem_map.mp hknown, ?_, fun i hi => ?_⟩
    · rw [targets_eq_named]
      refine List.nodup_append.mpr ⟨List.nodup_range, hnodup, ?_⟩
      rintro i hposition j hj rfl
      have hfilled := (getD_filled (Nat.lt_of_lt_of_le (List.mem_range.mp hposition) hfew)).mpr hposition
      exact Bool.eq_false_iff.mp (hfree i hj) hfilled
    · exact (getD_filled hi.lt).mp (h.2 i hi)
  · intro h
    rw [if_neg h.count, h.foldl_named, if_pos rfl, List.nil_append, missingArguments_eq_nil]
    exact fun i hi => (getD_filled hi.lt).mpr (h.required i hi)

/-- An accepted argument is mapped to its position or to the parameter of its name. -/
theorem mapCallArguments_mapping (h : call.WellMatched sig) :
    (mapCallArguments suggestName fnName sig call).1 =
      ⟨(List.range call.arguments.length).map fun i => some (i + call.piped.toList.length),
        (call.named.map Prod.fst).map sig.names.idxOf?⟩ := by
  have hpositional : call.positional.length = call.piped.toList.length + call.arguments.length :=
    List.length_append ..
  have hpositions : ((List.range call.arguments.length).map (· + call.piped.toList.length)).map
      (fun index => if index < sig.arity then some index else none) =
        (List.range call.arguments.length).map fun i => some (i + call.piped.toList.length) := by
    rw [List.map_map]
    refine List.map_congr_left fun i hi => if_pos ?_
    have hfew := h.few
    have hlt := List.mem_range.mp hi
    change i + call.piped.toList.length < sig.arity
    omega
  simp only [mapCallArguments, filledByPosition_eq]
  rw [if_neg h.count, h.foldl_named, if_pos rfl, hpositions]

end

end Luma.Vm
