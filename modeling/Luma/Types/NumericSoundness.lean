-- SUMMARY: A flow keeps its values in the target type exactly within the reach of the conversion.
import Luma.Types.NumericFlow

/-! # Soundness of Numeric Flows

`Widens t s path` says that along the constructors of `path` a `number` of `t` faces an
`integer` of `s`. The conversion reaches such a place when the path is short enough and
passes no task and no collection. Then, and only then, every value of the source type
becomes a value of the target type. -/

namespace Luma

open Codec

namespace TypeInfo

/-! ## Places that need a conversion -/

/-- The constructors a place can be nested in. -/
inductive Layer where
  | optional | array | dictionary | result | tuple | task | collection (c : CollectionKind)
  deriving DecidableEq, Repr

/-- The constructors that the conversion passes. -/
def Layer.IsConverted : Layer → Prop
  | .task | .collection _ => False
  | _ => True

instance {l : Layer} : Decidable l.IsConverted := by
  cases l <;> unfold Layer.IsConverted <;> infer_instance

/-- Along `path`, a `number` of the target faces an `integer` of the source. -/
inductive Widens : TypeInfo → TypeInfo → List Layer → Prop where
  | here : Widens (make .number) (make .integer) []
  | present {t s : TypeInfo} {path : List Layer} (hs : s.kind ≠ .optional) (h : Widens t s path) :
      Widens (makeOptional t) s (.optional :: path)
  | optional {t s : TypeInfo} {path : List Layer} (h : Widens t s path) :
      Widens (makeOptional t) (makeOptional s) (.optional :: path)
  | array {t s : TypeInfo} {path : List Layer} (h : Widens t s path) :
      Widens (makeArray t) (makeArray s) (.array :: path)
  | dictionary {t s : TypeInfo} {path : List Layer} (h : Widens t s path) :
      Widens (makeDict t) (makeDict s) (.dictionary :: path)
  | success {t s te se : TypeInfo} {path : List Layer} (h : Widens t s path) :
      Widens (makeResult t te) (makeResult s se) (.result :: path)
  | failure {t s te se : TypeInfo} {path : List Layer} (h : Widens te se path) :
      Widens (makeResult t te) (makeResult s se) (.result :: path)
  | tuple {ts ss : List TypeInfo} {t s : TypeInfo} {path : List Layer}
      (hlen : ts.length = ss.length) (hmem : (t, s) ∈ ts.zip ss) (h : Widens t s path) :
      Widens (makeTuple ts) (makeTuple ss) (.tuple :: path)
  | task {t s : TypeInfo} {path : List Layer} (h : Widens t s path) :
      Widens (makeTask t) (makeTask s) (.task :: path)
  | collection {c : CollectionKind} {t s : TypeInfo} {path : List Layer} (h : Widens t s path) :
      Widens (makeCollection c t) (makeCollection c s) (.collection c :: path)

/-- The conversion of `levels` levels reaches every place that needs one. -/
def Reached (levels : Nat) (t s : TypeInfo) : Prop :=
  ∀ path, Widens t s path → path.length < levels ∧ ∀ l ∈ path, l.IsConverted

/-! ## Conversion, one constructor at a time -/

theorem getElem_mem_zip {α β : Type} {as : List α} {bs : List β} {i : Nat} (ha : i < as.length)
    (hb : i < bs.length) : (as[i], bs[i]) ∈ as.zip bs :=
  List.mem_iff_getElem.mpr ⟨i, by rw [List.length_zip]; omega, List.getElem_zip⟩

section Conversion

variable {n : Nat} {t s te se : TypeInfo} {v : Value}

@[simp] theorem convert_zero : convert 0 t s v = v := rfl

theorem convert_null : convert n t s .null = .null := by
  cases n with
  | zero => rfl
  | succ n =>
    rw [convert]
    split
    · rfl
    · split
      · rfl
      · split
        · rfl
        · unfold convertContainer
          split <;> simp_all

/-- No value is converted to the missing one, and none away from it. -/
theorem convert_ne_null (h : v ≠ .null) : convert n t s v ≠ .null := by
  induction n generalizing t s v with
  | zero => exact h
  | succ n ih =>
    rw [convert]
    split
    · cases v <;> simp_all [intToNumber]
    · split
      · unfold convertOptional
        split
        · exact absurd rfl h
        · split
          · exact ih h
          · exact h
      · split
        · exact h
        · unfold convertContainer
          split
          · simp
          · simp
          · simp
          · split <;> simp
          · exact h

theorem convert_number {i : Int64} :
    convert (n + 1) (make .number) (make .integer) (.integer i) =
      .number (Binary64.ofInt i.toInt) := by
  simp [convert, make, kind, intToNumber]

theorem convert_present (hs : s.kind ≠ .optional) (hv : v ≠ .null) :
    convert n (makeOptional t) s v = convert (n - 1) t s v := by
  cases n with
  | zero => rfl
  | succ n =>
    have hconv : convertOptional (convert n) (makeOptional t) s v = convert n t s v := by
      cases v <;> simp_all [convertOptional, makeOptional, makeSingleInner, innerTypes, innerSource]
    rw [convert, if_neg (by simp),
      if_pos (by simp), hconv]
    rfl

theorem convert_optional (hv : v ≠ .null) :
    convert n (makeOptional t) (makeOptional s) v = convert (n - 1) t s v := by
  cases n with
  | zero => rfl
  | succ n =>
    have hconv : convertOptional (convert n) (makeOptional t) (makeOptional s) v =
        convert n t s v := by
      cases v <;>
        simp_all [convertOptional, makeOptional, makeSingleInner, innerTypes, innerSource, kind]
    rw [convert, if_neg (by simp),
      if_pos (by simp), hconv]
    rfl

/-- Between two types of one kind, other than optionals, a value converts component by
    component. -/
theorem convert_succ_container (t s : TypeInfo) (hk : t.kind = s.kind) (ht : t.kind ≠ .optional)
    (hn : t.kind ≠ .number) :
    convert (n + 1) t s v =
      convertContainer (convertAt (convert n) t.innerTypes s.innerTypes) t s v := by
  rw [convert, if_neg (fun h => hn h.1), if_neg ht, if_neg (not_not_intro hk)]

theorem convert_array {vs : List Value} :
    convert n (makeArray t) (makeArray s) (.array vs) =
      .array (vs.map (convert (n - 1) t s)) := by
  cases n with
  | zero =>
    rw [convert_zero]
    congr 1
    exact (List.map_id vs).symm
  | succ n =>
    rw [convert_succ_container (makeArray t) (makeArray s) rfl (by simp) (by simp)]
    rfl

theorem convert_dictionary {entries : List (Bytes × Value)} :
    convert n (makeDict t) (makeDict s) (.dictionary entries) =
      .dictionary (entries.map fun entry => (entry.1, convert (n - 1) t s entry.2)) := by
  cases n with
  | zero => simp
  | succ n =>
    rw [convert_succ_container (makeDict t) (makeDict s) rfl (by simp) (by simp)]
    rfl

theorem convert_result {isSuccess : Bool} {inner : Value} {code origin : Bytes} :
    convert n (makeResult t te) (makeResult s se) (.result isSuccess inner code origin) =
      .result isSuccess (if isSuccess then convert (n - 1) t s inner
        else convert (n - 1) te se inner) code origin := by
  cases n with
  | zero => simp
  | succ n =>
    rw [convert_succ_container (makeResult t te) (makeResult s se) rfl (by simp) (by simp)]
    cases isSuccess <;> rfl

theorem convert_tuple {ts ss : List TypeInfo} {vs : List Value} (hlen : ts.length = ss.length)
    (hvs : ts.length = vs.length) :
    convert n (makeTuple ts) (makeTuple ss) (.tuple vs) =
      .tuple (vs.mapIdx (convertAt (convert (n - 1)) ts ss)) := by
  cases n with
  | zero =>
    rw [convert_zero]
    congr 1
    apply List.ext_getElem
    · simp
    · intro i hi _
      rw [List.getElem_mapIdx, convertAt]
      split <;> simp
  | succ n =>
    rw [convert_succ_container (makeTuple ts) (makeTuple ss) rfl (by simp) (by simp)]
    simp only [convertContainer, makeTuple, kind, innerTypes, hlen, true_and,
      show vs.length = ss.length by omega, if_true]
    rfl

/-- Tasks and collections are left as they are. -/
theorem convert_task {w : Value} : convert n (makeTask t) (makeTask s) w = w := by
  cases n with
  | zero => rfl
  | succ n =>
    rw [convert_succ_container (makeTask t) (makeTask s) rfl (by simp) (by simp)]
    simp [convertContainer, makeTask, makeSingleInner, kind]

theorem convert_collection {c : CollectionKind} {w : Value} :
    convert n (makeCollection c t) (makeCollection c s) w = w := by
  cases n with
  | zero => rfl
  | succ n =>
    rw [convert_succ_container (makeCollection c t) (makeCollection c s) rfl (by simp) (by simp)]
    simp [convertContainer, makeCollection, makeGeneric, kind]

theorem convert_primitive {k : TypeKind} (hk : k ∈ primitiveKinds) :
    convert n (make k) (make k) v = v := by
  cases n with
  | zero => rfl
  | succ n =>
    simp only [primitiveKinds, List.mem_cons, List.not_mem_nil, or_false] at hk
    obtain rfl | rfl | rfl | rfl | rfl | rfl | rfl | rfl := hk <;>
      simp [convert, convertContainer]

theorem convert_noValue {k k' : TypeKind} (hk : k = .void ∨ k = .none)
    (hk' : k' = .void ∨ k' = .none) : convert n (make k) (make k') v = v := by
  cases n with
  | zero => rfl
  | succ n =>
    obtain rfl | rfl := hk <;> obtain rfl | rfl := hk' <;> simp [convert, convertContainer]

end Conversion

/-! ## Where every place is reached, values end up in the target type -/

/-- Reaching everything under a converted constructor takes one level less. -/
theorem Reached.of_layer {n : Nat} {t s t' s' : TypeInfo} {l : Layer} (h : Reached n t s)
    (hlayer : ∀ path, Widens t' s' path → Widens t s (l :: path)) : Reached (n - 1) t' s' := by
  intro path hpath
  obtain ⟨hlen, hconv⟩ := h _ (hlayer path hpath)
  simp only [List.length_cons] at hlen
  exact ⟨by omega, fun l' hl' => hconv l' (List.mem_cons_of_mem l hl')⟩

/-- Under a constructor that is never converted there is nothing to reach. -/
theorem Reached.of_opaque {n : Nat} {t s t' s' : TypeInfo} {l : Layer} (h : Reached n t s)
    (hl : ¬ l.IsConverted) (hlayer : ∀ path, Widens t' s' path → Widens t s (l :: path)) :
    Reached 0 t' s' := fun path hpath =>
  absurd ((h _ (hlayer path hpath)).2 l List.mem_cons_self) hl

theorem convert_inhabits {W : World} {n : Nat} {t s : TypeInfo} {v : Value} (hf : Flows t s)
    (hr : Reached n t s) (hv : Inhabits W s v) : Inhabits W t (convert n t s v) := by
  induction hf generalizing n v with
  | primitive hk =>
    rw [convert_primitive hk]
    exact hv
  | number =>
    obtain ⟨i, rfl⟩ := hv.integer_inv
    have hpos : 0 < n := (hr [] .here).1
    obtain ⟨m, rfl⟩ := Nat.exists_eq_succ_of_ne_zero hpos.ne'
    rw [Nat.succ_eq_add_one, convert_number]
    exact .number _
  | missing =>
    rw [hv.none_inv, convert_null]
    exact .missing
  | @present t s hs _ ih =>
    by_cases hnull : v = .null
    · rw [hnull, convert_null]
      exact .missing
    · rw [convert_present hs hnull]
      exact .present (ih (hr.of_layer fun _ => .present hs) hv)
  | optional _ ih =>
    by_cases hnull : v = .null
    · rw [hnull, convert_null]
      exact .missing
    · rw [convert_optional hnull]
      obtain rfl | hv := hv.optional_inv
      · exact absurd rfl hnull
      · exact .present (ih (hr.of_layer fun _ => .optional) hv)
  | array _ ih =>
    obtain ⟨vs, rfl, hvs⟩ := hv.array_inv
    rw [convert_array]
    apply Inhabits.array
    intro x hx
    obtain ⟨y, hy, rfl⟩ := List.mem_map.mp hx
    exact ih (hr.of_layer fun _ => .array) (hvs y hy)
  | dictionary _ ih =>
    obtain ⟨entries, rfl, hentries⟩ := hv.dictionary_inv
    rw [convert_dictionary]
    apply Inhabits.dictionary
    intro x hx
    obtain ⟨y, hy, rfl⟩ := List.mem_map.mp hx
    exact ih (hr.of_layer fun _ => .dictionary) (hentries y hy)
  | result _ _ ih ihe =>
    obtain ⟨isSuccess, inner, code, origin, rfl, hinner⟩ := hv.result_inv
    rw [convert_result]
    cases isSuccess with
    | true => exact .success (ih (hr.of_layer fun _ => .success) hinner)
    | false => exact .failure (ihe (hr.of_layer fun _ => .failure) hinner)
  | @noValue k k' te se hk hk' _ ihe =>
    obtain ⟨isSuccess, inner, code, origin, rfl, hinner⟩ := hv.result_inv
    rw [convert_result]
    cases isSuccess with
    | true =>
      have hnull : inner = .null := by
        obtain rfl | rfl := hk'
        · exact hinner.void_inv
        · exact hinner.none_inv
      simp only [if_true]
      rw [convert_noValue hk hk', hnull]
      obtain rfl | rfl := hk
      · exact .success .void
      · exact .success .none
    | false => exact .failure (ihe (hr.of_layer fun _ => .failure) hinner)
  | @tuple ts ss hlen _ ih =>
    obtain ⟨vs, rfl, hvs, hall⟩ := hv.tuple_inv
    rw [convert_tuple hlen (by omega)]
    apply Inhabits.tuple (by simp; omega)
    intro p hp
    obtain ⟨i, hi, rfl⟩ := List.getElem_of_mem hp
    simp only [List.length_zip, List.length_mapIdx] at hi
    have hts : i < ts.length := by omega
    have hss : i < ss.length := by omega
    have hpair : (ts[i], ss[i]) ∈ ts.zip ss := getElem_mem_zip hts hss
    have hvalue : (ss[i], vs[i]) ∈ ss.zip vs := getElem_mem_zip hss (by omega)
    simp only [List.getElem_zip, List.getElem_mapIdx, convertAt, List.getElem?_eq_getElem hts,
      List.getElem?_eq_getElem hss]
    exact ih _ hpair (hr.of_layer fun _ => .tuple hlen hpair) (hall _ hvalue)
  | task _ ih =>
    obtain ⟨identity, rfl, hdelivers⟩ := hv.task_inv
    rw [convert_task]
    apply Inhabits.task
    intro x hx
    have hnone := hr.of_opaque (by decide) fun _ => .task
    exact ih hnone (hdelivers x hx)
  | collection _ ih =>
    obtain ⟨vs, rfl, hvs⟩ := hv.collection_inv
    rw [convert_collection]
    apply Inhabits.collection
    intro x hx
    have hnone := hr.of_opaque (by simp [Layer.IsConverted]) fun _ => .collection
    exact ih hnone (hvs x hx)

/-! ## Where some place is not reached, an integer is left behind -/

/-- The tasks from number `k` on deliver what the table says. -/
def World.Delivers (W : World) (k : Nat) (table : Nat → Option Value) : Prop :=
  World.Pending W ∧ ∀ i, k ≤ i → W.outcome (.completion i) = table i

/-- A place that is too deep for the conversion or inside something never converted. -/
def Missed (n : Nat) (path : List Layer) : Prop :=
  n ≤ path.length ∨ ∃ l ∈ path, ¬ l.IsConverted

theorem Missed.of_layer {n : Nat} {path : List Layer} {l : Layer} (h : Missed n (l :: path))
    (hl : l.IsConverted) : Missed (n - 1) path := by
  obtain hlen | ⟨l', hmem, hl'⟩ := h
  · left
    simp only [List.length_cons] at hlen
    omega
  · obtain rfl | hmem := List.mem_cons.mp hmem
    · exact absurd hl hl'
    · exact .inr ⟨l', hmem, hl'⟩

theorem missed_zero {path : List Layer} : Missed 0 path := .inl (Nat.zero_le _)

/-- A value of the source type that the conversion leaves outside the target type. Tasks on
    the way are numbered from `k` on. -/
theorem exists_left_behind {t s : TypeInfo} {path : List Layer} (hw : Widens t s path)
    (hs : Concrete s) {n : Nat} (hm : Missed n path) (k : Nat) :
    ∃ table v, v ≠ .null ∧ ∀ W : World, World.Delivers W k table →
      Inhabits W s v ∧ ¬ Inhabits W t (convert n t s v) := by
  induction hw generalizing n k with
  | here =>
    have hzero : n = 0 := by
      obtain hlen | ⟨l, hl, -⟩ := hm
      · simpa using hlen
      · simp at hl
    subst hzero
    refine ⟨fun _ => none, .integer 0, by simp, fun W _ => ⟨.integer 0, fun h => ?_⟩⟩
    obtain ⟨x, hx⟩ := h.number_inv
    simp at hx
  | present hopt _ ih =>
    obtain ⟨table, v, hnull, hv⟩ := ih hs (hm.of_layer trivial) k
    refine ⟨table, v, hnull, fun W hW => ⟨(hv W hW).1, fun h => ?_⟩⟩
    rw [convert_present hopt hnull] at h
    obtain h | h := h.optional_inv
    · exact convert_ne_null hnull h
    · exact (hv W hW).2 h
  | optional _ ih =>
    obtain ⟨u, hu, hform⟩ := hs.wrapper_form (.inr (.inr (.inr rfl)))
    cases hform
    obtain ⟨table, v, hnull, hv⟩ := ih hu (hm.of_layer trivial) k
    refine ⟨table, v, hnull, fun W hW => ⟨.present (hv W hW).1, fun h => ?_⟩⟩
    rw [convert_optional hnull] at h
    obtain h | h := h.optional_inv
    · exact convert_ne_null hnull h
    · exact (hv W hW).2 h
  | array _ ih =>
    obtain ⟨u, hu, hform⟩ := hs.wrapper_form (.inl rfl)
    cases hform
    obtain ⟨table, v, -, hv⟩ := ih hu (hm.of_layer trivial) k
    refine ⟨table, .array [v], by simp, fun W hW => ⟨.array (by simpa using (hv W hW).1), fun h => ?_⟩⟩
    rw [convert_array] at h
    obtain ⟨vs, heq, hvs⟩ := h.array_inv
    cases heq
    exact (hv W hW).2 (hvs _ List.mem_cons_self)
  | dictionary _ ih =>
    obtain ⟨u, hu, hform⟩ := hs.wrapper_form (.inr (.inl rfl))
    cases hform
    obtain ⟨table, v, -, hv⟩ := ih hu (hm.of_layer trivial) k
    refine ⟨table, .dictionary [([], v)], by simp,
      fun W hW => ⟨.dictionary (by simpa using (hv W hW).1), fun h => ?_⟩⟩
    rw [convert_dictionary] at h
    obtain ⟨entries, heq, hentries⟩ := h.dictionary_inv
    cases heq
    exact (hv W hW).2 (hentries _ List.mem_cons_self)
  | success _ ih =>
    obtain ⟨u, e, hu, -, hform⟩ := hs.result_form rfl
    cases hform
    obtain ⟨table, v, -, hv⟩ := ih hu (hm.of_layer trivial) k
    refine ⟨table, .result true v [] [], by simp,
      fun W hW => ⟨.success (hv W hW).1, fun h => ?_⟩⟩
    rw [convert_result] at h
    obtain ⟨isSuccess, inner, code, origin, heq, hinner⟩ := h.result_inv
    cases heq
    exact (hv W hW).2 hinner
  | failure _ ih =>
    obtain ⟨u, e, -, he, hform⟩ := hs.result_form rfl
    cases hform
    obtain ⟨table, v, -, hv⟩ := ih he (hm.of_layer trivial) k
    refine ⟨table, .result false v [] [], by simp,
      fun W hW => ⟨.failure (hv W hW).1, fun h => ?_⟩⟩
    rw [convert_result] at h
    obtain ⟨isSuccess, inner, code, origin, heq, hinner⟩ := h.result_inv
    cases heq
    exact (hv W hW).2 hinner
  | @tuple ts ss t s path hlen hmem _ ih =>
    obtain ⟨us, hus, hform⟩ := hs.tuple_form rfl
    cases hform
    obtain ⟨table, v, -, hv⟩ := ih (hus s (List.of_mem_zip hmem).2) (hm.of_layer trivial) k
    obtain ⟨vs, hvs, hall⟩ := exists_values fun u hu => (hus u hu).inhabited
    obtain ⟨i, hi, hpair⟩ := List.getElem_of_mem hmem
    rw [List.length_zip] at hi
    have hts : i < ts.length := by omega
    have hss : i < ss.length := by omega
    rw [List.getElem_zip, Prod.mk.injEq] at hpair
    refine ⟨table, .tuple (vs.set i v), by simp, fun W hW => ⟨.tuple (by simp [hvs]) ?_, fun h => ?_⟩⟩
    · intro p hp
      obtain ⟨j, hj, rfl⟩ := List.getElem_of_mem hp
      rw [List.length_zip, List.length_set] at hj
      rw [List.getElem_zip, List.getElem_set]
      split
      · rename_i hij
        subst hij
        rw [hpair.2]
        exact (hv W hW).1
      · have hvalue : (ss[j], vs[j]) ∈ ss.zip vs := getElem_mem_zip (by omega) (by omega)
        exact hall _ hvalue W hW.1
    · rw [convert_tuple hlen (by simp; omega)] at h
      obtain ⟨ws, heq, hws, hconverted⟩ := h.tuple_inv
      cases heq
      have hvalue : (ts[i], convert (n - 1) t s v) ∈
          ts.zip ((vs.set i v).mapIdx (convertAt (convert (n - 1)) ts ss)) := by
        refine List.mem_iff_getElem.mpr ⟨i, by simp; omega, ?_⟩
        simp [convertAt, hpair.1, hpair.2, List.getElem?_eq_getElem hts,
          List.getElem?_eq_getElem hss]
      have hinhabits := hconverted _ hvalue
      simp only [hpair.1] at hinhabits
      exact (hv W hW).2 hinhabits
  | task _ ih =>
    obtain ⟨u, hu, hform⟩ := hs.wrapper_form (.inr (.inr (.inl rfl)))
    cases hform
    obtain ⟨table, v, -, hv⟩ := ih hu missed_zero (k + 1)
    refine ⟨fun i => if i = k then some v else table i, .task (.completion k), by simp, ?_⟩
    intro W hW
    have hdelivered : W.outcome (.completion k) = some v := by simpa using hW.2 k le_rfl
    have hrest : World.Delivers W (k + 1) table := by
      refine ⟨hW.1, fun i hi => ?_⟩
      simpa [show i ≠ k by omega] using hW.2 i (by omega)
    refine ⟨.task fun x hx => ?_, fun h => ?_⟩
    · rw [hdelivered, Option.some.injEq] at hx
      exact hx ▸ (hv W hrest).1
    · rw [convert_task] at h
      obtain ⟨identity, heq, hdelivers⟩ := h.task_inv
      cases heq
      exact (hv W hrest).2 (hdelivers v hdelivered)
  | @collection c t s path _ ih =>
    have hconcrete : Concrete s := hs.form.2.2 s List.mem_cons_self
    obtain ⟨table, v, -, hv⟩ := ih hconcrete missed_zero k
    refine ⟨table, c.value [v], by cases c <;> simp [CollectionKind.value], fun W hW =>
      ⟨.collection (by simpa using (hv W hW).1), fun h => ?_⟩⟩
    rw [convert_collection] at h
    obtain ⟨vs, heq, hvs⟩ := h.collection_inv
    obtain ⟨-, rfl⟩ := CollectionKind.value_injective heq
    exact (hv W hW).2 (hvs v List.mem_cons_self)

/-! ## Marked expressions -/

theorem Reached.mono {m n : Nat} {t s : TypeInfo} (h : Reached m t s) (hmn : m ≤ n) :
    Reached n t s := fun path hpath =>
  ⟨(h path hpath).1.trans_le hmn, (h path hpath).2⟩

/-- Whatever is reached in a flow between nominal types, nothing in it needs a conversion. -/
theorem Reached.of_record {n : Nat} {t s : TypeInfo} (h : Reached n t s) (ht : t.kind = .record) :
    Reached 0 t s := by
  intro path hpath
  have hconv := (h path hpath).2
  cases hpath with
  | collection _ => exact absurd (hconv _ List.mem_cons_self) (by simp [Layer.IsConverted])
  | _ => simp at ht

/-- The pattern on the whole of an expression converts its value along the two types. -/
theorem value_whole {maxCallDepth : Nat} {t s : TypeInfo} {e : Operand} :
    (Marked.whole (numericWideningPattern t s) e).value maxCallDepth =
      convert (min (maxWideningDepth + 1) (maxCallDepth + 1)) t s e.value := by
  rw [← perform_convert, perform, Marked.value, ← numericWideningPattern]
  cases numericWideningPattern t s with
  | none => rw [Option.getD_none, NumericWidener.widenImpl_underscore]; rfl
  | some pattern =>
    rw [Marked.performWidening, Option.getD_some]
    split
    · rename_i hnumber
      rw [hnumber, NumericWidener.widenImpl_number]
    · rfl

theorem Flows.choice_free {t s : TypeInfo} (h : Flows t s) : t.kind ≠ .choice := by
  cases h with
  | primitive hk =>
    intro hchoice
    rw [kind_make] at hchoice
    subst hchoice
    simp [primitiveKinds] at hk
  | _ => simp

theorem Flows.array_inv {t s : TypeInfo} (h : Flows t s) (ht : t.kind = .array) :
    ∃ te se, t = makeArray te ∧ s = makeArray se ∧ Flows te se := by
  cases h with
  | array h => exact ⟨_, _, rfl, rfl, h⟩
  | primitive hk =>
    rw [kind_make] at ht
    subst ht
    simp [primitiveKinds] at hk
  | _ => simp at ht

theorem Flows.dictionary_inv {t s : TypeInfo} (h : Flows t s) (ht : t.kind = .dictionary) :
    ∃ te se, t = makeDict te ∧ s = makeDict se ∧ Flows te se := by
  cases h with
  | dictionary h => exact ⟨_, _, rfl, rfl, h⟩
  | primitive hk =>
    rw [kind_make] at ht
    subst ht
    simp [primitiveKinds] at hk
  | _ => simp at ht

theorem Flows.tuple_inv {t s : TypeInfo} (h : Flows t s) (ht : t.kind = .tuple) :
    ∃ ts ss, t = makeTuple ts ∧ s = makeTuple ss ∧ ts.length = ss.length ∧
      ∀ p ∈ ts.zip ss, Flows p.1 p.2 := by
  cases h with
  | tuple hlen h => exact ⟨_, _, rfl, rfl, hlen, h⟩
  | primitive hk =>
    rw [kind_make] at ht
    subst ht
    simp [primitiveKinds] at hk
  | _ => simp at ht

theorem Flows.record_inv {t s : TypeInfo} (h : Flows t s) (ht : t.kind = .record) :
    ∃ c te se, t = makeCollection c te ∧ s = makeCollection c se := by
  cases h with
  | collection _ => exact ⟨_, _, _, rfl, rfl⟩
  | primitive hk =>
    rw [kind_make] at ht
    subst ht
    simp [primitiveKinds] at hk
  | _ => simp at ht

/-- Among these types only the collections are treated like generic user types. -/
theorem Flows.record_of_generic {t s : TypeInfo} (h : Flows t s)
    (hgeneric : widensGenericUserType t s = true) : t.kind = .record := by
  unfold widensGenericUserType at hgeneric
  split at hgeneric
  · simp at hgeneric
  · rename_i hkind
    by_contra hne
    exact hkind (.inl ⟨h.choice_free, hne⟩)

/-- Where every place is reached, a marked expression evaluates to a value of the target. -/
theorem markWideningAt_inhabits {W : World} {maxCallDepth levels : Nat}
    (hlevels : levels ≤ maxWideningDepth + 1) {e : Operand} {t s : TypeInfo} (hf : Flows t s)
    (hr : Reached (min levels (maxCallDepth + 1)) t s) (hv : Inhabits W s e.value) :
    Inhabits W t ((e.markWideningAt levels t s).value maxCallDepth) := by
  induction levels generalizing e t s with
  | zero =>
    rw [Nat.zero_min] at hr
    exact convert_inhabits hf hr hv
  | succ levels ih =>
    -- The pattern is computed afresh for every element, with all its levels.
    have hwhole : Inhabits W t
        ((Marked.whole (numericWideningPattern t s) e).value maxCallDepth) := by
      rw [value_whole]
      exact convert_inhabits hf (hr.mono (by omega)) hv
    have hlayer {t' s' : TypeInfo} {l : Layer}
        (h : ∀ path, Widens t' s' path → Widens t s (l :: path)) :
        Reached (min levels (maxCallDepth + 1)) t' s' := (hr.of_layer h).mono (by omega)
    rw [Operand.markWideningAt]
    split
    · rename_i hgeneric
      exact convert_inhabits hf (hr.of_record (hf.record_of_generic hgeneric)) hv
    · split
      · rename_i hnone
        rw [hnone] at hwhole
        exact hwhole
      · rename_i pattern hpattern
        rw [hpattern] at hwhole
        cases e with
        | other v => exact hwhole
        | arrayLiteral elements =>
          simp only
          split
          · rename_i te _ se _ ht hs
            split
            · rename_i hkinds
              obtain ⟨te', se', rfl, rfl, h⟩ := hf.array_inv hkinds.1
              cases ht
              cases hs
              obtain ⟨vs, heq, hvs⟩ := hv.array_inv
              rw [Operand.value, Operand.values_eq, Value.array.injEq] at heq
              subst heq
              simp only [Marked.value, Marked.values_eq, List.map_map]
              apply Inhabits.array
              intro x hx
              obtain ⟨element, hmem, rfl⟩ := List.mem_map.mp hx
              exact ih (by omega) h (hlayer fun _ => .array)
                (hvs _ (List.mem_map_of_mem hmem))
            · exact hwhole
          · exact hwhole
        | dictionaryLiteral entries =>
          simp only
          split
          · rename_i te _ se _ ht hs
            split
            · rename_i hkinds
              obtain ⟨te', se', rfl, rfl, h⟩ := hf.dictionary_inv hkinds.1
              cases ht
              cases hs
              obtain ⟨vs, heq, hvs⟩ := hv.dictionary_inv
              rw [Operand.value, Operand.entryValues_eq, Value.dictionary.injEq] at heq
              subst heq
              simp only [Marked.value, Marked.entryValues_eq, List.map_map]
              apply Inhabits.dictionary
              intro x hx
              obtain ⟨entry, hmem, rfl⟩ := List.mem_map.mp hx
              exact ih (by omega) h (hlayer fun _ => .dictionary)
                (hvs (entry.1, entry.2.value) (List.mem_map_of_mem hmem))
            · exact hwhole
          · exact hwhole
        | tupleLiteral elements =>
          simp only
          split
          · rename_i hkinds
            obtain ⟨ts, ss, rfl, rfl, hlen, h⟩ := hf.tuple_inv hkinds.1
            obtain ⟨vs, heq, hvs, hall⟩ := hv.tuple_inv
            rw [Operand.value, Operand.values_eq, Value.tuple.injEq] at heq
            subst heq
            have helements : ts.length = elements.length := hkinds.2.2.1
            simp only [Marked.value, Marked.values_eq, List.map_map, makeTuple, innerTypes]
            apply Inhabits.tuple (by simp; omega)
            intro p hp
            obtain ⟨i, hi, rfl⟩ := List.getElem_of_mem hp
            simp only [List.length_zip, List.length_map] at hi
            have hts : i < ts.length := by omega
            have hss : i < ss.length := by omega
            have hvs : i < (elements.map Operand.value).length := by simp; omega
            have hpair : (ts[i], ss[i]) ∈ ts.zip ss := getElem_mem_zip hts hss
            have hinhabits := hall _ (getElem_mem_zip hss hvs)
            rw [List.getElem_map] at hinhabits
            simp only [List.getElem_zip, List.getElem_map, Function.comp]
            exact ih (by omega) (h _ hpair) (hlayer fun _ => .tuple hlen hpair) hinhabits
          · exact hwhole

/-! ## When an accepted flow is sound -/

/-- A world in which task number `i` delivers what the table says. -/
def World.ofTable (table : Nat → Option Value) : World :=
  { World.empty with
    outcome := fun
      | .completion i => table i
      | .wrapper _ => none }

/-- A marked expression other than a literal is converted along the two types. -/
theorem markNumericWidening_other {maxCallDepth : Nat} {t s : TypeInfo} {v : Value}
    (hf : Flows t s) :
    ((Operand.other v).markNumericWidening t s).value maxCallDepth =
      convert (min (maxWideningDepth + 1) (maxCallDepth + 1)) t s v := by
  rw [Operand.markNumericWidening, Operand.markWideningAt]
  split
  · rename_i hgeneric
    obtain ⟨c, te, se, rfl, rfl⟩ := hf.record_inv (hf.record_of_generic hgeneric)
    rw [convert_collection]
    rfl
  · split
    · rename_i hnone
      rw [← hnone]
      exact value_whole
    · rename_i pattern hpattern
      rw [← hpattern]
      exact value_whole

/-- Every value of the source ends up in the target exactly when the conversion reaches
    every place that needs one. -/
theorem flow_inhabits_iff {maxCallDepth : Nat} {t s : TypeInfo} (hs : Concrete s)
    (hf : Flows t s) :
    (∀ (W : World) (e : Operand), Inhabits W s e.value →
      Inhabits W t ((e.markNumericWidening t s).value maxCallDepth)) ↔
    Reached (min (maxWideningDepth + 1) (maxCallDepth + 1)) t s := by
  constructor
  · intro h path hpath
    by_contra hnot
    have hmissed : Missed (min (maxWideningDepth + 1) (maxCallDepth + 1)) path := by
      rw [not_and_or, Nat.not_lt] at hnot
      obtain hlen | hconv := hnot
      · exact .inl hlen
      · push Not at hconv
        exact .inr hconv
    obtain ⟨table, v, -, hv⟩ := exists_left_behind hpath hs hmissed 0
    obtain ⟨hsource, htarget⟩ := hv (World.ofTable table) ⟨fun _ => rfl, fun _ _ => rfl⟩
    apply htarget
    rw [← markNumericWidening_other hf]
    exact h (World.ofTable table) (.other v) hsource
  · intro hr W e hv
    exact markWideningAt_inhabits le_rfl hf hr hv

/-- An accepted flow in which no integer faces a number inside a task or a collection turns
    every value of the source type into one of the target type exactly when every integer
    that faces a number is nested no deeper than the two depth limits. -/
theorem marked_inhabits_iff {symbols : SymbolTables} {maxCallDepth : Nat} {target source : TypeInfo}
    (ht : Concrete target) (hs : Concrete source)
    (haccepted : isAssignable symbols target source = true)
    (hsealed : ∀ path, Widens target source path → ∀ l ∈ path, l.IsConverted) :
    (∀ (W : World) (e : Operand), Inhabits W source e.value →
      Inhabits W target ((e.markNumericWidening target source).value maxCallDepth)) ↔
    ∀ path, Widens target source path →
      path.length ≤ maxWideningDepth ∧ path.length ≤ maxCallDepth := by
  rw [flow_inhabits_iff hs (flows_of_isAssignable ht hs haccepted)]
  constructor
  · intro hr path hpath
    have hlen := (hr path hpath).1
    omega
  · intro hdepth path hpath
    obtain ⟨hmark, hcall⟩ := hdepth path hpath
    exact ⟨by omega, hsealed path hpath⟩

/-- Arrays of integers become arrays of numbers. -/
theorem marked_inhabits_iff_array :
    (∀ (W : World) (e : Operand), Inhabits W (makeArray (make .integer)) e.value →
      Inhabits W (makeArray (make .number))
        ((e.markNumericWidening (makeArray (make .number)) (makeArray (make .integer))).value
          256)) ↔
    ∀ path, Widens (makeArray (make .number)) (makeArray (make .integer)) path →
      path.length ≤ maxWideningDepth ∧ path.length ≤ 256 := by
  have hinteger : Concrete (make .integer) := .primitive (by decide)
  have hnumber : Concrete (make .number) := .primitive (by decide)
  have haccepted : isAssignable default (makeArray (make .number)) (makeArray (make .integer)) =
      true := (Flows.array .number).isAssignable
  refine marked_inhabits_iff (.array hnumber) (.array hinteger) haccepted ?_
  intro path hpath l hl
  cases hpath with
  | array h =>
    cases h with
    | here =>
      rw [List.mem_singleton.mp hl]
      trivial

section Nested

/-- `n` arrays around a type, and around a value. -/
def nestedType (n : Nat) (t : TypeInfo) : TypeInfo := makeArray^[n] t

def nestedValue (n : Nat) (v : Value) : Value := (fun v => .array [v])^[n] v

variable {n : Nat}

theorem nestedType_succ {t : TypeInfo} : nestedType (n + 1) t = makeArray (nestedType n t) :=
  Function.iterate_succ_apply' makeArray n t

theorem nestedValue_succ {v : Value} : nestedValue (n + 1) v = .array [nestedValue n v] :=
  Function.iterate_succ_apply' (fun v => Value.array [v]) n v

theorem flows_nested : Flows (nestedType n (make .number)) (nestedType n (make .integer)) := by
  induction n with
  | zero => exact .number
  | succ n ih =>
    rw [nestedType_succ, nestedType_succ]
    exact .array ih

theorem inhabits_nested {W : World} {t : TypeInfo} {v : Value} :
    Inhabits W (nestedType n t) (nestedValue n v) ↔ Inhabits W t v := by
  induction n with
  | zero => rfl
  | succ n ih =>
    rw [nestedType_succ, nestedValue_succ, ← ih]
    constructor
    · intro h
      obtain ⟨vs, heq, hvs⟩ := h.array_inv
      cases heq
      exact hvs _ List.mem_cons_self
    · intro h
      exact .array (by simpa using h)

/-- A conversion that is not deep enough leaves nested arrays alone. -/
theorem convert_nested {m : Nat} (h : m ≤ n) {t s : TypeInfo} {v : Value} :
    convert m (nestedType n t) (nestedType n s) (nestedValue n v) = nestedValue n v := by
  induction n generalizing m with
  | zero =>
    rw [Nat.le_zero.mp h]
    rfl
  | succ n ih =>
    rw [nestedType_succ, nestedType_succ, nestedValue_succ, convert_array, List.map_cons,
      ih (by omega), List.map_nil]

end Nested

/-- An integer stays in a set of integers that is assigned to a set of numbers, and in an
    array nested in more arrays than a pattern describes. -/
theorem integer_left_behind :
    (isAssignable default (makeCollection .set (make .number))
        (makeCollection .set (make .integer)) = true ∧
      Inhabits World.empty (makeCollection .set (make .integer)) (.set [.integer 3]) ∧
      ¬ Inhabits World.empty (makeCollection .set (make .number))
        (((Operand.other (.set [.integer 3])).markNumericWidening
          (makeCollection .set (make .number)) (makeCollection .set (make .integer))).value 256)) ∧
    (isAssignable default (nestedType 65 (make .number)) (nestedType 65 (make .integer)) = true ∧
      Inhabits World.empty (nestedType 65 (make .integer)) (nestedValue 65 (.integer 3)) ∧
      ¬ Inhabits World.empty (nestedType 65 (make .number))
        (((Operand.other (nestedValue 65 (.integer 3))).markNumericWidening
          (nestedType 65 (make .number)) (nestedType 65 (make .integer))).value 256)) := by
  have hinteger : ¬ Inhabits World.empty (make .number) (.integer 3) := by
    intro h
    obtain ⟨x, hx⟩ := h.number_inv
    simp at hx
  refine ⟨⟨(Flows.collection .number).isAssignable, ?_, fun h => ?_⟩,
    flows_nested.isAssignable, inhabits_nested.mpr (.integer 3), fun h => ?_⟩
  · exact Inhabits.collection (c := .set) (by simpa using Inhabits.integer 3)
  · rw [markNumericWidening_other (.collection .number), convert_collection] at h
    obtain ⟨vs, heq, hvs⟩ := h.collection_inv
    cases heq
    exact hinteger (hvs _ List.mem_cons_self)
  · rw [markNumericWidening_other flows_nested, convert_nested (by decide), inhabits_nested] at h
    exact hinteger h

end TypeInfo

end Luma
