-- SUMMARY: Which accepted flows between types leave no integer where a number is expected.
import Luma.Types.WideningLaws

/-! # Numeric Flows

On the types without open components, assignability amounts to a relation `Flows`, and
`Widens t s path` says that, following the constructors of `path`, a `number` of `t` faces
an `integer` of `s`. A flow keeps every value in its target type exactly when each such
path stays within the depth bounds and avoids the constructors that are never converted. -/

namespace Luma

open Codec

namespace TypeInfo

/-! ## Types without open components -/

/-- The kinds of the types that have no parameters. -/
def primitiveKinds : List TypeKind :=
  [.boolean, .integer, .number, .string, .none, .void, .socket, .decimal]

/-- Types built from the primitive ones by the built-in constructors. -/
inductive Concrete : TypeInfo → Prop where
  | primitive {k : TypeKind} (h : k ∈ primitiveKinds) : Concrete (make k)
  | array {t : TypeInfo} (h : Concrete t) : Concrete (makeArray t)
  | dictionary {t : TypeInfo} (h : Concrete t) : Concrete (makeDict t)
  | optional {t : TypeInfo} (h : Concrete t) : Concrete (makeOptional t)
  | result {t e : TypeInfo} (h : Concrete t) (he : Concrete e) : Concrete (makeResult t e)
  | tuple {ts : List TypeInfo} (h : ∀ t ∈ ts, Concrete t) : Concrete (makeTuple ts)
  | task {t : TypeInfo} (h : Concrete t) : Concrete (makeTask t)
  | collection {c : CollectionKind} {t : TypeInfo} (h : Concrete t) :
      Concrete (makeCollection c t)

/-- Assignability between such types. -/
inductive Flows : TypeInfo → TypeInfo → Prop where
  | primitive {k : TypeKind} (h : k ∈ primitiveKinds) : Flows (make k) (make k)
  | number : Flows (make .number) (make .integer)
  | missing {t : TypeInfo} : Flows (makeOptional t) (make .none)
  | present {t s : TypeInfo} (hs : s.kind ≠ .optional) (h : Flows t s) : Flows (makeOptional t) s
  | optional {t s : TypeInfo} (h : Flows t s) : Flows (makeOptional t) (makeOptional s)
  | array {t s : TypeInfo} (h : Flows t s) : Flows (makeArray t) (makeArray s)
  | dictionary {t s : TypeInfo} (h : Flows t s) : Flows (makeDict t) (makeDict s)
  | result {t s te se : TypeInfo} (h : Flows t s) (he : Flows te se) :
      Flows (makeResult t te) (makeResult s se)
  | noValue {k k' : TypeKind} {te se : TypeInfo} (hk : k = .void ∨ k = .none)
      (hk' : k' = .void ∨ k' = .none) (he : Flows te se) :
      Flows (makeResult (make k) te) (makeResult (make k') se)
  | tuple {ts ss : List TypeInfo} (hlen : ts.length = ss.length)
      (h : ∀ p ∈ ts.zip ss, Flows p.1 p.2) : Flows (makeTuple ts) (makeTuple ss)
  | task {t s : TypeInfo} (h : Flows t s) : Flows (makeTask t) (makeTask s)
  | collection {c : CollectionKind} {t s : TypeInfo} (h : Flows t s) :
      Flows (makeCollection c t) (makeCollection c s)

theorem Concrete.flows_self {t : TypeInfo} (h : Concrete t) : Flows t t := by
  induction h with
  | primitive h => exact .primitive h
  | array _ ih => exact .array ih
  | dictionary _ ih => exact .dictionary ih
  | optional _ ih => exact .optional ih
  | result _ _ ih ihe => exact .result ih ihe
  | @tuple ts h ih =>
    apply Flows.tuple rfl
    intro p hp
    obtain ⟨i, hi, rfl⟩ := List.getElem_of_mem hp
    rw [List.getElem_zip]
    exact ih _ (List.getElem_mem _)
  | task _ ih => exact .task ih
  | collection _ ih => exact .collection ih

/-- Values for all types of a list, from a value for each. -/
theorem exists_values {P : TypeInfo → Value → Prop} {ts : List TypeInfo}
    (h : ∀ t ∈ ts, ∃ v, P t v) : ∃ vs, ts.length = vs.length ∧ ∀ p ∈ ts.zip vs, P p.1 p.2 := by
  induction ts with
  | nil => exact ⟨[], rfl, by simp⟩
  | cons t ts ih =>
    obtain ⟨v, hv⟩ := h t List.mem_cons_self
    obtain ⟨vs, hlen, hvs⟩ := ih fun t' ht' => h t' (List.mem_cons_of_mem t ht')
    refine ⟨v :: vs, by simp [hlen], fun p hp => ?_⟩
    rw [List.zip_cons_cons, List.mem_cons] at hp
    obtain rfl | hp := hp
    · exact hv
    · exact hvs p hp

theorem primitive_inhabited {k : TypeKind} (h : k ∈ primitiveKinds) :
    ∃ v, ∀ W : World, Inhabits W (make k) v := by
  simp only [primitiveKinds, List.mem_cons, List.not_mem_nil, or_false] at h
  obtain rfl | rfl | rfl | rfl | rfl | rfl | rfl | rfl := h
  · exact ⟨_, fun _ => .boolean true⟩
  · exact ⟨_, fun _ => .integer 0⟩
  · exact ⟨_, fun _ => .number (Binary64.ofInt 0)⟩
  · exact ⟨_, fun _ => .string []⟩
  · exact ⟨_, fun _ => .none⟩
  · exact ⟨_, fun _ => .void⟩
  · exact ⟨_, fun _ => .socket 0⟩
  · exact ⟨_, fun _ => .decimal ⟨[], 0, false, by simp, by simp, fun _ => rfl⟩⟩

/-- No wrapped task has delivered anything. -/
def World.Pending (W : World) : Prop := ∀ a, W.outcome (.wrapper a) = none

/-- Every type without open components describes some value. -/
theorem Concrete.inhabited {s : TypeInfo} (h : Concrete s) :
    ∃ v, ∀ W : World, World.Pending W → Inhabits W s v := by
  induction h with
  | primitive h =>
    obtain ⟨v, hv⟩ := primitive_inhabited h
    exact ⟨v, fun W _ => hv W⟩
  | array _ _ => exact ⟨.array [], fun W _ => .array (by simp)⟩
  | dictionary _ _ => exact ⟨.dictionary [], fun W _ => .dictionary (by simp)⟩
  | optional _ _ => exact ⟨.null, fun W _ => .missing⟩
  | result _ _ ih _ =>
    obtain ⟨v, hv⟩ := ih
    exact ⟨.result true v [] [], fun W hW => .success (hv W hW)⟩
  | tuple _ ih =>
    obtain ⟨vs, hlen, hvs⟩ := exists_values ih
    exact ⟨.tuple vs, fun W hW => .tuple hlen fun p hp => hvs p hp W hW⟩
  | task _ _ => exact ⟨.task (.wrapper 0), fun W hW => .task (by simp [hW 0])⟩
  | @collection c _ _ _ => exact ⟨c.value [], fun W _ => .collection (by simp)⟩

/-! ## Assignability -/

/-- The kinds of the types without open components. -/
theorem Concrete.kind_ne {t : TypeInfo} (h : Concrete t) :
    t.kind ≠ .unknown ∧ t.kind ≠ .stdlibAny ∧ t.kind ≠ .choice ∧ t.kind ≠ .interface ∧
      t.kind ≠ .channel ∧ t.kind ≠ .reference ∧ t.kind ≠ .func := by
  cases h with
  | @primitive k h =>
    simp only [primitiveKinds, List.mem_cons, List.not_mem_nil, or_false] at h
    obtain rfl | rfl | rfl | rfl | rfl | rfl | rfl | rfl := h <;> decide
  | _ => simp [makeArray, makeDict, makeOptional, makeResult, makeTuple, makeTask, makeCollection,
      makeGeneric, makeSingleInner, kind]

/-- How two types without open components can be assignable. -/
inductive AssignableBy (symbols : SymbolTables) (t s : TypeInfo) : Prop where
  | missing (hs : s.kind = .none) (ht : t.kind = .none ∨ t.kind = .optional)
  | equal (h : t.equals s = true)
  | promoted (ht : t.kind = .number) (hs : s.kind = .integer)
  | wrapped (ht : t.kind = .optional) (hs : s.kind ≠ .optional)
      (h : elementAssignable symbols t.innerTypes s = true)
  | named (hk : t.kind = s.kind) (ht : t.kind = .record) (hname : t.name = s.name)
      (h : innerTypesAssignable symbols t.innerTypes s.innerTypes = true)
  | covariant (hk : t.kind = s.kind)
      (ht : t.kind = .array ∨ t.kind = .dictionary ∨ t.kind = .task ∨ t.kind = .optional)
      (h : firstAssignable symbols t.innerTypes s.innerTypes = true)
  | result (hk : t.kind = s.kind) (ht : t.kind = .result)
      (h : resultAssignable symbols t.innerTypes s.innerTypes = true)
  | tuple (hk : t.kind = s.kind) (ht : t.kind = .tuple)
      (hlen : t.innerTypes.length = s.innerTypes.length)
      (h : allAssignable symbols t.innerTypes s.innerTypes = true)

theorem assignableBy_container {symbols : SymbolTables} {kind : TypeKind} {name name' : Bytes}
    {inner inner' : List TypeInfo} {ret ret' : Option TypeInfo} (hchannel : kind ≠ .channel)
    (hreference : kind ≠ .reference) (hfunc : kind ≠ .func)
    (h : isContainerAssignable symbols kind inner inner' ret ret' = true) :
    AssignableBy symbols (.mk kind name inner ret) (.mk kind name' inner' ret') := by
  unfold isContainerAssignable at h
  split at h
  · exact .covariant rfl (.inl rfl) h
  · exact .covariant rfl (.inr (.inl rfl)) h
  · exact .covariant rfl (.inr (.inr (.inl rfl))) h
  · exact .covariant rfl (.inr (.inr (.inr rfl))) h
  · exact absurd rfl hchannel
  · exact absurd rfl hreference
  · exact .result rfl rfl h
  · exact absurd rfl hfunc
  · split at h
    · simp at h
    · rename_i hlen
      exact .tuple rfl rfl (not_not.mp hlen) h
  · simp at h

theorem assignableBy {symbols : SymbolTables} {t s : TypeInfo} (ht : Concrete t)
    (hs : Concrete s) (h : isAssignable symbols t s = true) : AssignableBy symbols t s := by
  obtain ⟨htu, hta, htc, hti, htch, htr, htf⟩ := ht.kind_ne
  obtain ⟨hsu, hsa, hsc, hsi, -, -, -⟩ := hs.kind_ne
  cases t with
  | mk kind name inner ret =>
  cases s with
  | mk kind' name' inner' ret' =>
  simp only [TypeInfo.kind] at htu hta htc hti htch htr htf hsu hsa hsc hsi
  rw [isAssignable] at h
  simp only [htu, hsu, hta, hsa, htc, hti, or_self, false_and, if_false] at h
  split at h
  · rename_i hnone
    exact .missing hnone (of_decide_eq_true h)
  · split at h
    · rename_i hequal
      exact .equal hequal
    · split at h
      · rename_i hnum
        exact .promoted hnum.1 hnum.2
      · split at h
        · rename_i hopt
          exact .wrapped hopt.1 hopt.2 h
        · split at h
          · rename_i hnamed
            simp only [or_false] at hnamed
            exact .named hnamed.1 hnamed.2.1 hnamed.2.2 h
          · split at h
            · rename_i hkind
              subst hkind
              exact assignableBy_container htch htr htf h
            · simp at h

theorem allEqual_eq {ts ss : List TypeInfo} (h : ∀ t ∈ ts, ∀ s ∈ ss, t.equals s = true → t = s)
    (heq : allEqual ts ss = true) : ts = ss := by
  induction ts generalizing ss with
  | nil =>
    cases ss with
    | nil => rfl
    | cons s ss => simp [allEqual] at heq
  | cons t ts ih =>
    cases ss with
    | nil => simp [allEqual] at heq
    | cons s ss =>
      simp only [allEqual, Bool.and_eq_true] at heq
      rw [h t List.mem_cons_self s List.mem_cons_self heq.1,
        ih (fun t' ht' s' hs' => h t' (List.mem_cons_of_mem t ht') s' (List.mem_cons_of_mem s hs'))
          heq.2]

/-- Only collections have a name, and no such type has a return type. -/
theorem Concrete.form {t : TypeInfo} (h : Concrete t) :
    t.returnType = none ∧ (t.kind ≠ .record → t.name = []) ∧ ∀ u ∈ t.innerTypes, Concrete u := by
  cases h with
  | primitive h => exact ⟨rfl, fun _ => rfl, by simp [make, innerTypes]⟩
  | array h | dictionary h | optional h | task h =>
    exact ⟨rfl, fun _ => rfl, fun u hu => by rw [List.mem_singleton.mp hu]; exact h⟩
  | result h he =>
    refine ⟨rfl, fun _ => rfl, fun u hu => ?_⟩
    obtain rfl | hu := List.mem_cons.mp hu
    · exact h
    · rw [List.mem_singleton.mp hu]
      exact he
  | tuple h => exact ⟨rfl, fun _ => rfl, h⟩
  | collection h =>
    exact ⟨rfl, fun hk => absurd rfl hk, fun u hu => by rw [List.mem_singleton.mp hu]; exact h⟩

/-- On these types the checker's equality is equality. -/
theorem Concrete.equals_eq {t s : TypeInfo} (ht : Concrete t) (hs : Concrete s)
    (h : t.equals s = true) : t = s := by
  cases t with
  | mk kind name inner ret =>
  cases s with
  | mk kind' name' inner' ret' =>
  obtain ⟨rfl, hname, hinner⟩ := ht.form
  obtain ⟨rfl, hname', hinner'⟩ := hs.form
  simp only [TypeInfo.kind, TypeInfo.name, innerTypes] at hname hname' hinner hinner'
  have hlists (hall : allEqual inner inner' = true) : inner = inner' :=
    allEqual_eq (fun u hu u' hu' => (hinner u hu).equals_eq (hinner' u' hu')) hall
  obtain ⟨-, -, hchoice, hinterface, -⟩ := ht.kind_ne
  simp only [TypeInfo.kind] at hchoice hinterface
  rw [equals] at h
  split at h
  · simp at h
  · rename_i hkind
    rw [not_not] at hkind
    subst hkind
    simp only [hchoice, hinterface, or_false] at h
    split at h
    · split at h
      · simp at h
      · rename_i hnames
        rw [not_not.mp hnames, hlists h]
    · rename_i hrecord
      rw [hname hrecord, hname' hrecord, hlists (Bool.and_eq_true_iff.mp h).1]
termination_by sizeOf t
decreasing_by
  have := List.sizeOf_lt_of_mem hu
  simp_all
  omega

section Forms

variable {s : TypeInfo}

theorem Concrete.primitive_form (h : Concrete s) (hk : s.kind ∈ primitiveKinds) :
    s = make s.kind := by
  cases h with
  | primitive h => rfl
  | _ => simp [primitiveKinds, makeArray, makeDict, makeOptional, makeResult, makeTuple, makeTask,
      makeCollection, makeGeneric, makeSingleInner, kind] at hk

theorem Concrete.wrapper_form (h : Concrete s)
    (hk : s.kind = .array ∨ s.kind = .dictionary ∨ s.kind = .task ∨ s.kind = .optional) :
    ∃ u, Concrete u ∧ s = makeSingleInner s.kind u := by
  cases h with
  | primitive h =>
    exfalso
    simp only [primitiveKinds, List.mem_cons, List.not_mem_nil, or_false] at h
    obtain rfl | rfl | rfl | rfl | rfl | rfl | rfl | rfl := h <;> simp [make, kind] at hk
  | array h | dictionary h | optional h | task h => exact ⟨_, h, rfl⟩
  | _ => simp [makeResult, makeTuple, makeCollection, makeGeneric, kind] at hk

theorem Concrete.result_form (h : Concrete s) (hk : s.kind = .result) :
    ∃ u e, Concrete u ∧ Concrete e ∧ s = makeResult u e := by
  cases h with
  | primitive h =>
    subst hk
    simp [primitiveKinds] at h
  | result h he => exact ⟨_, _, h, he, rfl⟩
  | _ => simp [makeArray, makeDict, makeOptional, makeTuple, makeTask, makeCollection,
      makeGeneric, makeSingleInner, kind] at hk

theorem Concrete.tuple_form (h : Concrete s) (hk : s.kind = .tuple) :
    ∃ us, (∀ u ∈ us, Concrete u) ∧ s = makeTuple us := by
  cases h with
  | primitive h =>
    subst hk
    simp [primitiveKinds] at h
  | tuple h => exact ⟨_, h, rfl⟩
  | _ => simp [makeArray, makeDict, makeOptional, makeResult, makeTask, makeCollection,
      makeGeneric, makeSingleInner, kind] at hk

theorem Concrete.collection_form (h : Concrete s) (hk : s.kind = .record) :
    ∃ c u, Concrete u ∧ s = makeCollection c u := by
  cases h with
  | primitive h =>
    subst hk
    simp [primitiveKinds] at h
  | collection h => exact ⟨_, _, h, rfl⟩
  | _ => simp [makeArray, makeDict, makeOptional, makeResult, makeTuple, makeTask,
      makeSingleInner, kind] at hk

end Forms

theorem allAssignable_zip {symbols : SymbolTables} {ts ss : List TypeInfo}
    (h : allAssignable symbols ts ss = true) :
    ∀ p ∈ ts.zip ss, isAssignable symbols p.1 p.2 = true := by
  induction ts generalizing ss with
  | nil => simp
  | cons t ts ih =>
    cases ss with
    | nil => simp
    | cons s ss =>
      rw [allAssignable, Bool.and_eq_true] at h
      intro p hp
      rw [List.zip_cons_cons, List.mem_cons] at hp
      obtain rfl | hp := hp
      · exact h.1
      · exact ih h.2 p hp

theorem isNoValue_kind {t : TypeInfo} (h : t.isNoValue = true) : t.kind = .void ∨ t.kind = .none :=
  of_decide_eq_true h

/-- Assignability between types without open components is `Flows`. -/
theorem flows_of_isAssignable {symbols : SymbolTables} {t s : TypeInfo} (ht : Concrete t)
    (hs : Concrete s) (h : isAssignable symbols t s = true) : Flows t s := by
  cases assignableBy ht hs h with
  | missing hsk htk =>
    rw [hs.primitive_form (by rw [hsk]; decide), hsk]
    obtain htk | htk := htk
    · rw [ht.primitive_form (by rw [htk]; decide), htk]
      exact .primitive (by decide)
    · obtain ⟨u, -, hu⟩ := ht.wrapper_form (.inr (.inr (.inr htk)))
      rw [hu, htk]
      exact .missing
  | equal heq =>
    rw [← ht.equals_eq hs heq]
    exact ht.flows_self
  | promoted htk hsk =>
    rw [ht.primitive_form (by rw [htk]; decide), hs.primitive_form (by rw [hsk]; decide), htk, hsk]
    exact .number
  | wrapped htk hsk helement =>
    obtain ⟨u, hu, hform⟩ := ht.wrapper_form (.inr (.inr (.inr htk)))
    rw [hform, makeSingleInner, innerTypes, elementAssignable] at helement
    have hrec := flows_of_isAssignable hu hs helement
    rw [hform, htk]
    exact .present hsk hrec
  | named hk htk hname hinner =>
    obtain ⟨c, u, hu, hform⟩ := ht.collection_form htk
    obtain ⟨c', u', hu', rfl⟩ := hs.collection_form (hk.symm.trans htk)
    rw [hform] at hname hinner ⊢
    cases CollectionKind.name_injective hname
    simp only [makeCollection, makeGeneric, innerTypes, innerTypesAssignable, allAssignable,
      List.isEmpty_cons, Bool.or_self, Bool.false_eq_true, if_false, List.length_cons,
      ne_eq, not_true_eq_false, Bool.and_true] at hinner
    exact .collection (flows_of_isAssignable hu hu' hinner)
  | covariant hk htk hfirst =>
    obtain ⟨u, hu, hform⟩ := ht.wrapper_form htk
    obtain ⟨u', hu', hform'⟩ := hs.wrapper_form (hk ▸ htk)
    rw [hform, hform', makeSingleInner, makeSingleInner, innerTypes, innerTypes,
      firstAssignable] at hfirst
    have hrec := flows_of_isAssignable hu hu' hfirst
    rw [hform, hform', ← hk]
    obtain htk | htk | htk | htk := htk
    · rw [htk]
      exact .array hrec
    · rw [htk]
      exact .dictionary hrec
    · rw [htk]
      exact .task hrec
    · rw [htk]
      exact .optional hrec
  | result hk htk hresult =>
    obtain ⟨u, e, hu, he, hform⟩ := ht.result_form htk
    obtain ⟨u', e', hu', he', rfl⟩ := hs.result_form (hk.symm.trans htk)
    rw [hform] at hresult ⊢
    simp only [makeResult, innerTypes, resultAssignable, firstAssignable] at hresult
    split at hresult
    · simp at hresult
    · rename_i hvalue
      have herror := flows_of_isAssignable he he' hresult
      simp only [Bool.and_eq_true, Bool.not_eq_true', not_and, Bool.not_eq_false] at hvalue
      by_cases hnone : (u.isNoValue && u'.isNoValue) = true
      · obtain ⟨hn, hn'⟩ := Bool.and_eq_true_iff.mp hnone
        rw [hu.primitive_form (by obtain hn | hn := isNoValue_kind hn <;> rw [hn] <;> decide),
          hu'.primitive_form (by obtain hn | hn := isNoValue_kind hn' <;> rw [hn] <;> decide)]
        exact .noValue (isNoValue_kind hn) (isNoValue_kind hn') herror
      · exact .result (flows_of_isAssignable hu hu' (hvalue (by simpa using hnone))) herror
  | tuple hk htk hlen hall =>
    obtain ⟨us, hus, hform⟩ := ht.tuple_form htk
    obtain ⟨us', hus', rfl⟩ := hs.tuple_form (hk.symm.trans htk)
    rw [hform] at hlen hall ⊢
    apply Flows.tuple hlen
    intro p hp
    have hmem : p.1 ∈ us := (List.of_mem_zip hp).1
    exact flows_of_isAssignable (hus _ hmem) (hus' _ (List.of_mem_zip hp).2)
      (allAssignable_zip hall p hp)
termination_by sizeOf t
decreasing_by
  all_goals rw [hform]
  · simp only [makeSingleInner, mk.sizeOf_spec, List.cons.sizeOf_spec]
    omega
  · simp only [makeCollection, makeGeneric, mk.sizeOf_spec, List.cons.sizeOf_spec]
    omega
  · simp only [makeSingleInner, mk.sizeOf_spec, List.cons.sizeOf_spec]
    omega
  · simp only [makeResult, mk.sizeOf_spec, List.cons.sizeOf_spec]
    omega
  · simp only [makeResult, mk.sizeOf_spec, List.cons.sizeOf_spec]
    omega
  · have hlt := List.sizeOf_lt_of_mem hmem
    simp only [makeTuple, mk.sizeOf_spec]
    omega

theorem allAssignable_of_zip {symbols : SymbolTables} {ts ss : List TypeInfo}
    (h : ∀ p ∈ ts.zip ss, isAssignable symbols p.1 p.2 = true) :
    allAssignable symbols ts ss = true := by
  induction ts generalizing ss with
  | nil => rw [allAssignable]; simp
  | cons t ts ih =>
    cases ss with
    | nil => rw [allAssignable]; simp
    | cons s ss =>
      rw [allAssignable, h (t, s) (by simp), Bool.true_and]
      exact ih fun p hp => h p (List.mem_cons_of_mem (t, s) hp)

/-- Every such flow is accepted. -/
theorem Flows.isAssignable {symbols : SymbolTables} {t s : TypeInfo} (h : Flows t s) :
    isAssignable symbols t s = true := by
  induction h with
  | primitive hk => exact isAssignable_refl symbols _
  | number =>
    rw [make, make, TypeInfo.isAssignable]
    simp
  | missing =>
    rw [makeOptional, make, makeSingleInner, TypeInfo.isAssignable]
    simp
  | @present t s hs _ ih =>
    cases s with
    | mk kind name inner ret =>
    simp only [TypeInfo.kind] at hs
    rw [makeOptional, makeSingleInner, TypeInfo.isAssignable]
    simp [hs, elementAssignable, ih]
  | optional _ ih | array _ ih | dictionary _ ih | task _ ih =>
    rw [TypeInfo.isAssignable.eq_def]
    simp [makeOptional, makeArray, makeDict, makeTask, makeSingleInner, isContainerAssignable,
      firstAssignable, ih]
  | result _ _ ih ihe =>
    rw [makeResult, makeResult, TypeInfo.isAssignable]
    simp [isContainerAssignable, resultAssignable, firstAssignable, ih, ihe]
  | noValue hk hk' _ ihe =>
    rw [makeResult, makeResult, TypeInfo.isAssignable]
    simp [isContainerAssignable, resultAssignable, firstAssignable, isNoValue, hk, hk', ihe]
  | tuple hlen _ ih =>
    rw [makeTuple, makeTuple, TypeInfo.isAssignable]
    simp [isContainerAssignable, hlen, allAssignable_of_zip ih]
  | collection _ ih =>
    rw [makeCollection, makeCollection, makeGeneric, makeGeneric, TypeInfo.isAssignable]
    simp [innerTypesAssignable, allAssignable, ih]

end TypeInfo

end Luma
