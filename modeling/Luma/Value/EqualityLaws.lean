-- SUMMARY: Equality of well-formed values is an equivalence that hashing respects.
import Luma.Value.Equality

/-! # Laws of Equality and Hashing

On values whose dictionaries have distinct keys and whose sets have pairwise
unequal elements, equality never fails within the depth limit, is an equivalence
relation, and equal values have equal hashes. All five facts are proved together,
one level of nesting at a time: looking up a set element needs all of them one
level further down. -/

namespace Luma.Value

open Codec

variable {h : StdHash}

/-- No key twice in a dictionary, no two equal elements in a set. -/
def Distinct (R : Value → Value → Prop) : Value → Prop
  | .dictionary entries => (entries.map Prod.fst).Nodup
  | .set elements => elements.Pairwise fun x y => ¬ R x y
  | _ => True

/-- Equality with `n` levels of nesting answers yes. -/
def EqAt (h : StdHash) (n : Nat) (a b : Value) : Prop := equalsAt h n a b = .ok true

/-- Nested less than `n` deep, with distinct keys and elements throughout. -/
def WellFormed (h : StdHash) : Nat → Value → Prop
  | 0, _ => False
  | n + 1, v => (∀ c ∈ v.children, WellFormed h n c) ∧ v.Distinct (EqAt h n)

/-- One level of equality over a relation `R` on the parts. -/
inductive SameBy (R : Value → Value → Prop) : Value → Value → Prop where
  | null : SameBy R .null .null
  | bool (b : Bool) : SameBy R (.bool b) (.bool b)
  | integer (n : Int64) : SameBy R (.integer n) (.integer n)
  | number {a b : Binary64} (heq : numberEquals a b = true) : SameBy R (.number a) (.number b)
  | integerNumber {n : Int64} {x : Binary64} (heq : integerEqualsNumber n x = true) :
      SameBy R (.integer n) (.number x)
  | numberInteger {n : Int64} {x : Binary64} (heq : integerEqualsNumber n x = true) :
      SameBy R (.number x) (.integer n)
  | string (s : Bytes) : SameBy R (.string s) (.string s)
  | array {a b : List Value} (helem : List.Forall₂ R a b) : SameBy R (.array a) (.array b)
  | tuple {a b : List Value} (helem : List.Forall₂ R a b) : SameBy R (.tuple a) (.tuple b)
  | queue {a b : List Value} (helem : List.Forall₂ R a b) : SameBy R (.queue a) (.queue b)
  | stack {a b : List Value} (helem : List.Forall₂ R a b) : SameBy R (.stack a) (.stack b)
  | dictionary {a b : List (Bytes × Value)} (hlen : a.length = b.length)
      (hentry : ∀ e ∈ a, ∃ w, findEntry b e.1 = some w ∧ R e.2 w) :
      SameBy R (.dictionary a) (.dictionary b)
  | result (s : Bool) {a b : Value} {ca fa cb fb : Bytes} (hinner : R a b) :
      SameBy R (.result s a ca fa) (.result s b cb fb)
  | record (t : Bytes) {a b : List (Bytes × Value)}
      (hfield : List.Forall₂ (fun x y => x.1 = y.1 ∧ R x.2 y.2) a b) :
      SameBy R (.record t a) (.record t b)
  | range (s e : Int64) (i : Bool) : SameBy R (.range s e i) (.range s e i)
  | choice (t v : Bytes) {a b : List Value} (helem : List.Forall₂ R a b) :
      SameBy R (.choice t v a) (.choice t v b)
  | function (n : Nat) : SameBy R (.function n) (.function n)
  | nativeFunction (n : Nat) : SameBy R (.nativeFunction n) (.nativeFunction n)
  | task (i : TaskIdentity) : SameBy R (.task i) (.task i)
  | channel (n : Nat) : SameBy R (.channel n) (.channel n)
  | socket (n : Nat) : SameBy R (.socket n) (.socket n)
  | set {a b : List Value} (hlen : a.length = b.length)
      (helem : ∀ x ∈ a, ∃ y ∈ b, R x y) : SameBy R (.set a) (.set b)
  | xml (n : Nat) : SameBy R (.xml n) (.xml n)
  | keyValueStore (n : Nat) : SameBy R (.keyValueStore n) (.keyValueStore n)
  | reference (n : Nat) : SameBy R (.reference n) (.reference n)
  | decimal {a b : Decimal} (heq : a.compare b = 0) : SameBy R (.decimal a) (.decimal b)

/-- The laws of equality and hashing at one depth. -/
structure LawfulAt (h : StdHash) (n : Nat) : Prop where
  total : ∀ {a b}, WellFormed h n a → WellFormed h n b → ∃ r, equalsAt h n a b = .ok r
  refl : ∀ {a}, WellFormed h n a → EqAt h n a a
  symm : ∀ {a b}, WellFormed h n a → WellFormed h n b → EqAt h n a b → EqAt h n b a
  trans : ∀ {a b c}, WellFormed h n a → WellFormed h n b → WellFormed h n c →
    EqAt h n a b → EqAt h n b c → EqAt h n a c
  hash : ∀ {a b}, WellFormed h n a → WellFormed h n b → EqAt h n a b →
    ∀ d, h.hashAt d a = h.hashAt d b

/-! ## Lookups -/

theorem findEntry_some {entries : List (Bytes × Value)} {key : Bytes} {w : Value}
    (hfind : findEntry entries key = some w) : (key, w) ∈ entries :=
  OrderedMap.mem_of_lookup hfind

theorem findEntry_of_mem {entries : List (Bytes × Value)} {key : Bytes} {w : Value}
    (hnodup : (entries.map Prod.fst).Nodup) (hmem : (key, w) ∈ entries) :
    findEntry entries key = some w :=
  OrderedMap.lookup_of_mem hnodup hmem

section Sets

variable {n : Nat}

/-- Looking a value up in the index finds the keys equal to it. -/
theorem indexContains_spec (hlaw : LawfulAt h n) {keys : List Value} {value : Value}
    (hkeys : ∀ k ∈ keys, WellFormed h n k) (hvalue : WellFormed h n value) :
    (∃ r, indexContains h (equalsAt h n) keys value = .ok r) ∧
      (indexContains h (equalsAt h n) keys value = .ok true ↔ ∃ k ∈ keys, EqAt h n value k) := by
  have htotal : ∀ k ∈ keys, ∃ r,
      (if h.valueHash k = h.valueHash value then equalsAt h n value k else .ok false) = .ok r := by
    intro k hk
    split
    · exact hlaw.total hvalue (hkeys k hk)
    · exact ⟨false, rfl⟩
  refine ⟨Matching.anyM_total htotal, ?_⟩
  rw [indexContains, Matching.anyM_eq_true htotal]
  constructor
  · rintro ⟨k, hk, heq⟩
    split at heq
    · exact ⟨k, hk, heq⟩
    · cases heq
  · rintro ⟨k, hk, heq⟩
    refine ⟨k, hk, ?_⟩
    have hhash : h.valueHash k = h.valueHash value :=
      (hlaw.hash hvalue (hkeys k hk) heq maxHashDepth).symm
    rw [if_pos hhash]
    exact heq

/-- The index of a set without equal elements has all of them as keys. -/
theorem buildIndex_eq (hlaw : LawfulAt h n) {keys elements : List Value}
    (hwf : ∀ v ∈ keys ++ elements, WellFormed h n v)
    (hdistinct : (keys ++ elements).Pairwise fun x y => ¬ EqAt h n x y) :
    buildIndex h (equalsAt h n) keys elements = .ok (keys ++ elements) := by
  induction elements generalizing keys with
  | nil => simp [buildIndex]
  | cons element elements ih =>
    have hkeys : ∀ k ∈ keys, WellFormed h n k := fun k hk => hwf k (List.mem_append_left _ hk)
    have helement : WellFormed h n element :=
      hwf element (List.mem_append_right _ List.mem_cons_self)
    obtain ⟨⟨r, hr⟩, hiff⟩ := indexContains_spec hlaw hkeys helement
    have hfresh : r = false := by
      cases r with
      | false => rfl
      | true =>
        obtain ⟨k, hk, heq⟩ := hiff.mp hr
        have hpair := (List.pairwise_append.mp hdistinct).2.2 k hk element List.mem_cons_self
        exact absurd (hlaw.symm helement (hkeys k hk) heq) hpair
    have happend : keys ++ element :: elements = keys ++ [element] ++ elements := by simp
    rw [buildIndex, hr, hfresh, happend]
    rw [happend] at hwf hdistinct
    exact ih hwf hdistinct

theorem equalsSet_spec (hlaw : LawfulAt h n) {a b : List Value}
    (ha : ∀ v ∈ a, WellFormed h n v) (hb : ∀ v ∈ b, WellFormed h n v)
    (hdistinct : b.Pairwise fun x y => ¬ EqAt h n x y) :
    (∃ r, equalsSet h (equalsAt h n) a b = .ok r) ∧
      (equalsSet h (equalsAt h n) a b = .ok true ↔
        a.length = b.length ∧ ∀ x ∈ a, ∃ y ∈ b, EqAt h n x y) := by
  by_cases hlen : a.length = b.length
  · have hindex : buildIndex h (equalsAt h n) [] b = .ok b := buildIndex_eq hlaw hb hdistinct
    have hset : equalsSet h (equalsAt h n) a b = a.allM (indexContains h (equalsAt h n) b) := by
      rw [equalsSet, if_neg (not_not.mpr hlen), hindex]
      rfl
    rw [hset, Matching.allM_eq_true]
    refine ⟨Matching.allM_total fun x hx => (indexContains_spec hlaw hb (ha x hx)).1, ?_⟩
    simp only [hlen, true_and]
    exact forall₂_congr fun x hx => (indexContains_spec hlaw hb (ha x hx)).2
  · simp [equalsSet, hlen]

end Sets

/-! ## Containers -/

section Containers

variable {eq : Value → Value → Except ErrorMessage Bool}

theorem elementsEqual_iff {a b : List Value} :
    elementsEqual eq a b = .ok true ↔ List.Forall₂ (fun x y => eq x y = .ok true) a b := by
  rw [List.forall₂_iff_zip]
  by_cases hlen : a.length = b.length
  · rw [elementsEqual, if_neg (not_not.mpr hlen), Matching.allM_eq_true]
    simp [hlen]
  · simp [elementsEqual, hlen]

theorem elementsEqual_total {a b : List Value} (htotal : ∀ x ∈ a, ∀ y ∈ b, ∃ r, eq x y = .ok r) :
    ∃ r, elementsEqual eq a b = .ok r := by
  unfold elementsEqual
  split
  · exact ⟨false, rfl⟩
  · refine Matching.allM_total ?_
    rintro ⟨x, y⟩ hxy
    exact htotal x (List.of_mem_zip hxy).1 y (List.of_mem_zip hxy).2

theorem equalsRecord_iff {a b : List (Bytes × Value)} :
    equalsRecord eq a b = .ok true ↔
      List.Forall₂ (fun x y => x.1 = y.1 ∧ eq x.2 y.2 = .ok true) a b := by
  rw [List.forall₂_iff_zip]
  by_cases hlen : a.length = b.length
  · rw [equalsRecord, if_neg (not_not.mpr hlen), Matching.allM_eq_true]
    simp only [hlen, true_and, Prod.forall]
    refine forall₄_congr fun x v y w => ?_
    refine imp_congr_right fun _ => ?_
    by_cases hname : x = y <;> simp [hname]
  · simp [equalsRecord, hlen]

theorem equalsRecord_total {a b : List (Bytes × Value)}
    (htotal : ∀ x ∈ a, ∀ y ∈ b, ∃ r, eq x.2 y.2 = .ok r) : ∃ r, equalsRecord eq a b = .ok r := by
  unfold equalsRecord
  split
  · exact ⟨false, rfl⟩
  · refine Matching.allM_total ?_
    rintro ⟨x, y⟩ hxy
    split
    · exact ⟨false, rfl⟩
    · exact htotal x (List.of_mem_zip hxy).1 y (List.of_mem_zip hxy).2

theorem equalsDictionary_iff {a b : List (Bytes × Value)} :
    equalsDictionary eq a b = .ok true ↔
      a.length = b.length ∧ ∀ e ∈ a, ∃ w, findEntry b e.1 = some w ∧ eq e.2 w = .ok true := by
  by_cases hlen : a.length = b.length
  · rw [equalsDictionary, if_neg (not_not.mpr hlen), Matching.allM_eq_true]
    simp only [hlen, true_and]
    refine forall₂_congr fun e _ => ?_
    cases findEntry b e.1 <;> simp
  · simp [equalsDictionary, hlen]

theorem equalsDictionary_total {a b : List (Bytes × Value)}
    (htotal : ∀ x ∈ a, ∀ y ∈ b, ∃ r, eq x.2 y.2 = .ok r) : ∃ r, equalsDictionary eq a b = .ok r := by
  unfold equalsDictionary
  split
  · exact ⟨false, rfl⟩
  · refine Matching.allM_total ?_
    intro e he
    split
    · exact ⟨false, rfl⟩
    · next w hfind => exact htotal e he (e.1, w) (findEntry_some hfind)

/-- The keys of a built index are elements. -/
theorem buildIndex_subset {keys elements ks : List Value} (hok : buildIndex h eq keys elements = .ok ks) :
    ks ⊆ keys ++ elements := by
  induction elements generalizing keys with
  | nil =>
    cases hok
    simp
  | cons element elements ih =>
    rw [buildIndex] at hok
    cases hfind : indexContains h eq keys element with
    | error e =>
      rw [hfind] at hok
      cases hok
    | ok r =>
      rw [hfind] at hok
      cases r with
      | false =>
        have hsub := ih hok
        rwa [List.append_assoc, List.singleton_append] at hsub
      | true =>
        refine List.Subset.trans (ih hok) (List.append_subset.mpr ⟨?_, ?_⟩)
        · exact List.subset_append_left _ _
        · exact List.Subset.trans (List.subset_cons_self _ _) (List.subset_append_right _ _)

/-- A key is found only if it is equal. -/
theorem exists_of_indexContains {keys : List Value} {value : Value}
    (hfound : indexContains h eq keys value = .ok true) :
    ∃ k ∈ keys, h.valueHash k = h.valueHash value ∧ eq value k = .ok true := by
  obtain ⟨k, hk, heq⟩ := Matching.exists_of_anyM hfound
  split at heq
  · next hhash => exact ⟨k, hk, hhash, heq⟩
  · cases heq

/-- A set equals another only if each of its elements equals one of the other's. -/
theorem covered_of_equalsSet {a b : List Value} (heq : equalsSet h eq a b = .ok true) :
    a.length = b.length ∧ ∀ x ∈ a, ∃ y ∈ b, eq x y = .ok true := by
  unfold equalsSet at heq
  split at heq
  · cases heq
  next hlen =>
    cases hindex : buildIndex h eq [] b with
    | error e =>
      rw [hindex] at heq
      cases heq
    | ok ks =>
      rw [hindex] at heq
      refine ⟨not_not.mp hlen, fun x hx => ?_⟩
      obtain ⟨y, hy, -, hr⟩ := exists_of_indexContains (Matching.allM_eq_true.mp heq x hx)
      exact ⟨y, buildIndex_subset hindex hy, hr⟩

end Containers

section Level

variable {n : Nat} {a b : Value}

theorem total_children (hlaw : LawfulAt h n) (ha : WellFormed h (n + 1) a)
    (hb : WellFormed h (n + 1) b) :
    ∀ x ∈ a.children, ∀ y ∈ b.children, ∃ r, equalsAt h n x y = .ok r :=
  fun x hx y hy => hlaw.total (ha.1 x hx) (hb.1 y hy)

/-- The values of keyed entries are children. -/
theorem total_entries {R : Value → Value → Prop} {fa fb : List (Bytes × Value)}
    (htotal : ∀ x ∈ fa.map Prod.snd, ∀ y ∈ fb.map Prod.snd, R x y) :
    ∀ x ∈ fa, ∀ y ∈ fb, R x.2 y.2 :=
  fun x hx y hy => htotal x.2 (List.mem_map_of_mem hx) y.2 (List.mem_map_of_mem hy)

/-- A positive answer on one level has a reason. -/
theorem sameBy_of_eqAt (heq : EqAt h (n + 1) a b) : SameBy (EqAt h n) a b := by
  unfold EqAt equalsAt at heq
  split at heq
  · exact .null
  · exact beq_iff_eq.mp (Except.ok.inj heq) ▸ .bool _
  · exact beq_iff_eq.mp (Except.ok.inj heq) ▸ .integer _
  · exact .number (Except.ok.inj heq)
  · exact .integerNumber (Except.ok.inj heq)
  · exact .numberInteger (Except.ok.inj heq)
  · exact beq_iff_eq.mp (Except.ok.inj heq) ▸ .string _
  · exact .array (elementsEqual_iff.mp heq)
  · obtain ⟨hlen, hentry⟩ := equalsDictionary_iff.mp heq
    exact .dictionary hlen hentry
  · exact .tuple (elementsEqual_iff.mp heq)
  · split at heq
    · cases heq
    · next hsame =>
      cases not_not.mp hsame
      exact .result _ heq
  · split at heq
    · cases heq
    · next hsame =>
      cases not_not.mp hsame
      exact .record _ (equalsRecord_iff.mp heq)
  · simp only [Except.ok.injEq, Bool.and_eq_true, beq_iff_eq] at heq
    obtain ⟨⟨rfl, rfl⟩, rfl⟩ := heq
    exact .range _ _ _
  · split at heq
    · cases heq
    · next hsame =>
      obtain ⟨htype, hvariant⟩ := not_or.mp hsame
      cases not_not.mp htype
      cases not_not.mp hvariant
      exact .choice _ _ (elementsEqual_iff.mp heq)
  · exact beq_iff_eq.mp (Except.ok.inj heq) ▸ .function _
  · exact beq_iff_eq.mp (Except.ok.inj heq) ▸ .nativeFunction _
  · exact beq_iff_eq.mp (Except.ok.inj heq) ▸ .task _
  · exact beq_iff_eq.mp (Except.ok.inj heq) ▸ .channel _
  · exact beq_iff_eq.mp (Except.ok.inj heq) ▸ .socket _
  · exact .queue (elementsEqual_iff.mp heq)
  · exact .stack (elementsEqual_iff.mp heq)
  · obtain ⟨hlen, helem⟩ := covered_of_equalsSet heq
    exact .set hlen helem
  · exact beq_iff_eq.mp (Except.ok.inj heq) ▸ .xml _
  · exact beq_iff_eq.mp (Except.ok.inj heq) ▸ .keyValueStore _
  · exact beq_iff_eq.mp (Except.ok.inj heq) ▸ .reference _
  · exact .decimal (beq_iff_eq.mp (Except.ok.inj heq))
  · -- Values of different shapes.
    cases heq

/-- One level of equality does not fail. -/
theorem equalsAt_total (hlaw : LawfulAt h n) (ha : WellFormed h (n + 1) a)
    (hb : WellFormed h (n + 1) b) : ∃ r, equalsAt h (n + 1) a b = .ok r := by
  have htotal := total_children hlaw ha hb
  unfold equalsAt
  split
  case h_8 | h_10 | h_20 | h_21 => exact elementsEqual_total htotal
  case h_9 => exact equalsDictionary_total (total_entries htotal)
  case h_22 => exact (equalsSet_spec hlaw ha.1 hb.1 hb.2).1
  case h_11 =>
    split
    · exact ⟨false, rfl⟩
    · exact htotal _ List.mem_cons_self _ List.mem_cons_self
  case h_12 =>
    split
    · exact ⟨false, rfl⟩
    · exact equalsRecord_total (total_entries htotal)
  case h_14 =>
    split
    · exact ⟨false, rfl⟩
    · exact elementsEqual_total htotal
  all_goals exact ⟨_, rfl⟩

/-- Every rule of `SameBy` makes one level of equality answer yes. -/
theorem equalsAt_complete (hlaw : LawfulAt h n) (ha : WellFormed h (n + 1) a)
    (hb : WellFormed h (n + 1) b) (hsame : SameBy (EqAt h n) a b) :
    equalsAt h (n + 1) a b = .ok true := by
  cases hsame with
  | number heq | integerNumber heq | numberInteger heq => simp only [equalsAt, heq]
  | array helem | tuple helem | queue helem | stack helem =>
    simp only [equalsAt]
    exact elementsEqual_iff.mpr helem
  | choice t v helem =>
    simp only [equalsAt, ne_eq, not_true, or_self, if_false]
    exact elementsEqual_iff.mpr helem
  | dictionary hlen hentry =>
    simp only [equalsAt]
    exact equalsDictionary_iff.mpr ⟨hlen, hentry⟩
  | result s hinner =>
    simp only [equalsAt, ne_eq, not_true, if_false]
    exact hinner
  | record t hfield =>
    simp only [equalsAt, ne_eq, not_true, if_false]
    exact equalsRecord_iff.mpr hfield
  | set hlen helem =>
    simp only [equalsAt]
    exact (equalsSet_spec hlaw ha.1 hb.1 hb.2).2.mpr ⟨hlen, helem⟩
  | decimal heq => simp only [equalsAt, heq, beq_self_eq_true]
  | _ => simp only [equalsAt, beq_self_eq_true, Bool.and_self]

theorem eqAt_succ_iff (hlaw : LawfulAt h n) (ha : WellFormed h (n + 1) a)
    (hb : WellFormed h (n + 1) b) : EqAt h (n + 1) a b ↔ SameBy (EqAt h n) a b :=
  ⟨sameBy_of_eqAt, equalsAt_complete hlaw ha hb⟩

end Level

/-! ## Numbers -/

theorem integerEqualsNumber_iff {n : Int64} {x : Binary64} :
    integerEqualsNumber n x = true ↔ x.IsInteger n.toInt := by
  have hpos : (0 : Int) < Binary64.unitsPerOne := by
    rw [Binary64.unitsPerOne]
    positivity
  have hlow : -2 ^ 63 ≤ n.toInt := n.le_toInt
  have hhigh : n.toInt < 2 ^ 63 := n.toInt_lt
  simp only [integerEqualsNumber, Binary64.IsInteger, Bool.and_eq_true, decide_eq_true_eq]
  generalize (Binary64.unitsPerOne : Int) = one at hpos ⊢
  constructor
  · rintro ⟨⟨⟨⟨hfinite, -⟩, -⟩, hwhole⟩, hvalue⟩
    refine ⟨hfinite, ?_⟩
    rw [← hvalue, Int.ediv_mul_cancel (Int.dvd_of_emod_eq_zero hwhole)]
  · rintro ⟨hfinite, hunits⟩
    rw [hunits]
    refine ⟨⟨⟨⟨hfinite, ?_⟩, ?_⟩, ?_⟩, ?_⟩
    · exact Int.mul_le_mul_of_nonneg_right hlow hpos.le
    · exact Int.mul_lt_mul_of_pos_right hhigh hpos
    · exact Int.mul_emod_left _ _
    · exact Int.mul_ediv_cancel _ hpos.ne'

theorem bits_ne_quietNan {x : Binary64} (hx : x.isNan = false) : x.bits ≠ quietNanBits := by
  intro hbits
  have hnan : Binary64.isNan ⟨quietNanBits⟩ = true := by decide
  rw [← hbits] at hnan
  exact Bool.false_ne_true (hx.symm.trans hnan)

theorem bits_ne_zero {x : Binary64} (hx : x.isZero = false) : x.bits ≠ 0 := by
  intro hbits
  have hzero : Binary64.isZero ⟨0⟩ = true := by decide
  rw [← hbits] at hzero
  exact Bool.false_ne_true (hx.symm.trans hzero)

/-- Numbers are equal exactly when they are hashed by the same bits. -/
theorem numberEquals_iff {a b : Binary64} :
    numberEquals a b = true ↔ canonicalBits a = canonicalBits b := by
  have hzero : (0 : UInt64) ≠ quietNanBits := by decide
  simp only [numberEquals, Binary64.ieeeEq, canonicalBits]
  cases hna : a.isNan <;> cases hnb : b.isNan <;> simp only [Bool.and_false, Bool.and_true,
    Bool.false_or, Bool.not_true, Bool.not_false, Bool.false_and, Bool.true_and, Bool.true_or,
    if_true, if_false, Bool.false_eq_true, false_iff]
  · cases hza : a.isZero <;> cases hzb : b.isZero <;> simp only [Bool.and_false, Bool.and_true,
      Bool.or_false, Bool.or_true, if_true, if_false, Bool.false_eq_true, beq_iff_eq]
    · -- A zero and a non-zero number have different bits.
      have hne := bits_ne_zero hza
      refine ⟨fun heq => ?_, fun heq => absurd heq hne⟩
      have hsame : a = b := congrArg Binary64.mk heq
      rw [hsame, hzb] at hza
      exact absurd hza.symm Bool.false_ne_true
    · have hne := bits_ne_zero hzb
      refine ⟨fun heq => ?_, fun heq => absurd heq.symm hne⟩
      have hsame : a = b := congrArg Binary64.mk heq
      rw [hsame, hzb] at hza
      exact absurd hza Bool.false_ne_true
  · split
    · exact hzero
    · exact bits_ne_quietNan hna
  · split
    · exact hzero.symm
    · exact (bits_ne_quietNan hnb).symm

theorem units_of_isZero {x : Binary64} (hx : x.isZero = true) : x.units = 0 := by
  have hmag : x.magnitude = 0 := of_decide_eq_true hx
  simp [Binary64.units, hmag]

theorem isFinite_of_isZero {x : Binary64} (hx : x.isZero = true) : x.isFinite = true := by
  have hmag : x.magnitude = 0 := of_decide_eq_true hx
  simp [Binary64.isFinite, hmag]

theorem isNan_of_isFinite {x : Binary64} (hx : x.isFinite = true) : x.isNan = false := by
  have hmag : x.magnitude < 2047 * 2 ^ 52 := of_decide_eq_true hx
  simp only [Binary64.isNan, decide_eq_false_iff_not]
  omega

/-- A number equal to an integer is that integer in all its representations. -/
theorem isInteger_of_numberEquals {x y : Binary64} {i : Int} (hx : x.IsInteger i)
    (heq : numberEquals x y = true) : y.IsInteger i := by
  have hnan := isNan_of_isFinite hx.1
  simp only [numberEquals, Binary64.ieeeEq, hnan, Bool.false_and, Bool.false_or, Bool.not_false,
    Bool.true_and, Bool.and_eq_true, Bool.or_eq_true, beq_iff_eq] at heq
  obtain ⟨-, hbits | ⟨hzx, hzy⟩⟩ := heq
  · have hsame : x = y := congrArg Binary64.mk hbits
    exact hsame ▸ hx
  · refine ⟨isFinite_of_isZero hzy, ?_⟩
    rw [units_of_isZero hzy, ← hx.2, units_of_isZero hzx]

theorem numberEquals_of_isInteger {x y : Binary64} {i : Int} (hx : x.IsInteger i)
    (hy : y.IsInteger i) : numberEquals x y = true := by
  rw [numberEquals_iff]
  rcases Binary64.eq_or_isZero_of_units_eq (hx.2.trans hy.2.symm) with rfl | ⟨hzx, hzy⟩
  · rfl
  · simp [canonicalBits, isNan_of_isFinite hx.1, isNan_of_isFinite hy.1, hzx, hzy]

theorem isInteger_unique {x : Binary64} {i j : Int} (hi : x.IsInteger i) (hj : x.IsInteger j) :
    i = j := by
  have hpos : (Binary64.unitsPerOne : Int) ≠ 0 := by
    rw [Binary64.unitsPerOne]
    positivity
  exact Int.eq_of_mul_eq_mul_right hpos (hi.2.symm.trans hj.2)

/-- An integer hashes like every number equal to it. -/
theorem canonicalBits_ofInt {x : Binary64} {i : Int} (hx : x.IsInteger i) :
    canonicalBits (Binary64.ofInt i) = canonicalBits x := by
  by_cases hi : i = 0
  · subst hi
    have hzero : x.isZero = true := by
      have hunits : x.units = (⟨0⟩ : Binary64).units := by
        rw [hx.2, Int.zero_mul]
        rfl
      rcases Binary64.eq_or_isZero_of_units_eq hunits with rfl | ⟨hz, -⟩
      · decide
      · exact hz
    have hofInt : canonicalBits (Binary64.ofInt 0) = 0 := by decide
    rw [hofInt, canonicalBits, isNan_of_isFinite hx.1, hzero]
    rfl
  · rw [Binary64.ofInt_eq hx hi]

/-! ## One level -/

section Step

variable {n : Nat} {a b c : Value}

/-- With distinct keys on the right, key lookup is membership of an entry. -/
theorem entry_iff {R : Value → Value → Prop} {fa fb : List (Bytes × Value)}
    (hnodup : (fb.map Prod.fst).Nodup) :
    (∀ e ∈ fa, ∃ w, findEntry fb e.1 = some w ∧ R e.2 w) ↔
      ∀ e ∈ fa, ∃ f ∈ fb, e.1 = f.1 ∧ R e.2 f.2 := by
  refine forall₂_congr fun e _ => ?_
  constructor
  · rintro ⟨w, hfind, hr⟩
    exact ⟨(e.1, w), findEntry_some hfind, rfl, hr⟩
  · rintro ⟨f, hf, hkey, hr⟩
    exact ⟨f.2, findEntry_of_mem hnodup (hkey ▸ hf), hr⟩

/-- Two equal dictionaries are matched entry by entry, in some order. -/
theorem match_entries {R : Value → Value → Prop} {fa fb : List (Bytes × Value)}
    (hlen : fa.length = fb.length) (hnodup : (fa.map Prod.fst).Nodup)
    (hcover : ∀ e ∈ fa, ∃ f ∈ fb, e.1 = f.1 ∧ R e.2 f.2) :
    ∃ fb', fb'.Perm fb ∧ List.Forall₂ (fun e f => e.1 = f.1 ∧ R e.2 f.2) fa fb' := by
  refine Matching.exists_perm_forall₂ hcover ?_ hlen.ge
  refine (List.pairwise_map.mp hnodup).imp ?_
  intro e e' hne f _ he he'
  exact hne (he.1.trans he'.1.symm)

/-- Two equal sets are matched element by element, in some order. -/
theorem match_elements (hlaw : LawfulAt h n) {xs ys : List Value}
    (hxs : ∀ x ∈ xs, WellFormed h n x) (hys : ∀ y ∈ ys, WellFormed h n y)
    (hlen : xs.length = ys.length) (hdistinct : xs.Pairwise fun x y => ¬ EqAt h n x y)
    (hcover : ∀ x ∈ xs, ∃ y ∈ ys, EqAt h n x y) :
    ∃ ys', ys'.Perm ys ∧ List.Forall₂ (EqAt h n) xs ys' := by
  refine Matching.exists_perm_forall₂ hcover ?_ hlen.ge
  refine hdistinct.imp_of_mem ?_
  intro x x' hx hx' hne y hy hxy hxy'
  have hsymm : EqAt h n y x' := hlaw.symm (hxs x' hx') (hys y hy) hxy'
  exact hne (hlaw.trans (hxs x hx) (hys y hy) (hxs x' hx') hxy hsymm)

/-- A dictionary without repeated keys, or any other value, has the parts it has. -/
theorem SameBy.refl {R : Value → Value → Prop} (hrefl : ∀ x ∈ a.children, R x x)
    (hkeys : a.Distinct fun _ _ => False) : SameBy R a a := by
  cases a with
  | number x => exact .number (numberEquals_iff.mpr rfl)
  | array elements => exact .array (Matching.forall₂_refl hrefl)
  | tuple elements => exact .tuple (Matching.forall₂_refl hrefl)
  | queue elements => exact .queue (Matching.forall₂_refl hrefl)
  | stack elements => exact .stack (Matching.forall₂_refl hrefl)
  | choice t v fields => exact .choice t v (Matching.forall₂_refl hrefl)
  | dictionary entries =>
    refine .dictionary rfl ((entry_iff hkeys).mpr ?_)
    exact fun e he => ⟨e, he, rfl, hrefl e.2 (List.mem_map_of_mem he)⟩
  | result s inner errorCode sourceFunction => exact .result s (hrefl inner List.mem_cons_self)
  | record t fields =>
    refine .record t (Matching.forall₂_refl ?_)
    exact fun e he => ⟨rfl, hrefl e.2 (List.mem_map_of_mem he)⟩
  | set elements => exact .set rfl fun x hx => ⟨x, hx, hrefl x hx⟩
  | decimal d => exact .decimal (Decimal.compare_eq_zero.mpr rfl)
  | null => exact .null
  | bool b => exact .bool b
  | integer i => exact .integer i
  | string s => exact .string s
  | range s e i => exact .range s e i
  | function i => exact .function i
  | nativeFunction i => exact .nativeFunction i
  | task i => exact .task i
  | channel i => exact .channel i
  | socket i => exact .socket i
  | xml i => exact .xml i
  | keyValueStore i => exact .keyValueStore i
  | reference i => exact .reference i

theorem SameBy.mono {R S : Value → Value → Prop} (hsame : SameBy R a b)
    (hRS : ∀ x ∈ a.children, ∀ y, R x y → S x y) : SameBy S a b := by
  have hforall : ∀ {xs ys : List Value}, List.Forall₂ R xs ys → (∀ x ∈ xs, ∀ y, R x y → S x y) → List.Forall₂ S xs ys :=
    fun hmatch himp => Matching.forall₂_imp hmatch fun x hx y _ hxy => himp x hx y hxy
  cases hsame with
  | array helem => exact .array (hforall helem hRS)
  | tuple helem => exact .tuple (hforall helem hRS)
  | queue helem => exact .queue (hforall helem hRS)
  | stack helem => exact .stack (hforall helem hRS)
  | choice t v helem => exact .choice t v (hforall helem hRS)
  | record t hfield =>
    refine .record t (Matching.forall₂_imp hfield fun x hx y _ hxy => ⟨hxy.1, ?_⟩)
    exact hRS _ (List.mem_map_of_mem hx) _ hxy.2
  | result s hinner => exact .result s (hRS _ List.mem_cons_self _ hinner)
  | dictionary hlen hentry =>
    refine .dictionary hlen fun e he => ?_
    obtain ⟨w, hfind, hr⟩ := hentry e he
    exact ⟨w, hfind, hRS _ (List.mem_map_of_mem he) _ hr⟩
  | set hlen helem =>
    refine .set hlen fun e he => ?_
    obtain ⟨w, hw, hr⟩ := helem e he
    exact ⟨w, hw, hRS _ he _ hr⟩
  | number heq => exact .number heq
  | integerNumber heq => exact .integerNumber heq
  | numberInteger heq => exact .numberInteger heq
  | decimal heq => exact .decimal heq
  | _ => constructor

theorem Distinct.imp {R S : Value → Value → Prop} (hSR : ∀ x y, S x y → R x y) (ha : a.Distinct R) : a.Distinct S := by
  cases a with
  | set elements => exact List.Pairwise.imp (fun hne hxy => hne (hSR _ _ hxy)) ha
  | _ => exact ha

theorem sameBy_refl (hlaw : LawfulAt h n) (ha : WellFormed h (n + 1) a) : SameBy (EqAt h n) a a :=
  SameBy.refl (fun x hx => hlaw.refl (ha.1 x hx)) (ha.2.imp fun _ _ hfalse => hfalse.elim)

theorem sameBy_symm (hlaw : LawfulAt h n) (ha : WellFormed h (n + 1) a)
    (hb : WellFormed h (n + 1) b) (hab : SameBy (EqAt h n) a b) : SameBy (EqAt h n) b a := by
  have hsymm : ∀ x ∈ a.children, ∀ y ∈ b.children, EqAt h n x y → EqAt h n y x :=
    fun x hx y hy => hlaw.symm (ha.1 x hx) (hb.1 y hy)
  cases hab with
  | number heq => exact .number (numberEquals_iff.mpr (numberEquals_iff.mp heq).symm)
  | integerNumber heq => exact .numberInteger heq
  | numberInteger heq => exact .integerNumber heq
  | array helem => exact .array (Matching.forall₂_imp helem hsymm).flip
  | tuple helem => exact .tuple (Matching.forall₂_imp helem hsymm).flip
  | queue helem => exact .queue (Matching.forall₂_imp helem hsymm).flip
  | stack helem => exact .stack (Matching.forall₂_imp helem hsymm).flip
  | choice t v helem => exact .choice t v (Matching.forall₂_imp helem hsymm).flip
  | record t hfield =>
    refine .record t (Matching.forall₂_imp hfield ?_).flip
    intro x hx y hy hxy
    exact ⟨hxy.1.symm, hsymm x.2 (List.mem_map_of_mem hx) y.2 (List.mem_map_of_mem hy) hxy.2⟩
  | result s hinner =>
    exact .result s (hsymm _ List.mem_cons_self _ List.mem_cons_self hinner)
  | dictionary hlen hentry =>
    refine .dictionary hlen.symm ((entry_iff ha.2).mpr ?_)
    obtain ⟨fb', hperm, hmatch⟩ := match_entries hlen ha.2 ((entry_iff hb.2).mp hentry)
    intro f hf
    obtain ⟨e, he, hkey, hr⟩ := Matching.covered_of_perm_forall₂ hperm hmatch f hf
    exact ⟨e, he, hkey.symm, hsymm e.2 (List.mem_map_of_mem he) f.2 (List.mem_map_of_mem hf) hr⟩
  | set hlen helem =>
    refine .set hlen.symm ?_
    obtain ⟨ys', hperm, hmatch⟩ := match_elements hlaw ha.1 hb.1 hlen ha.2 helem
    intro y hy
    obtain ⟨x, hx, hr⟩ := Matching.covered_of_perm_forall₂ hperm hmatch y hy
    exact ⟨x, hx, hsymm x hx y hy hr⟩
  | decimal heq =>
    exact .decimal (Decimal.compare_eq_zero.mpr (Decimal.compare_eq_zero.mp heq).symm)
  | null => exact .null
  | bool b => exact .bool b
  | integer i => exact .integer i
  | string s => exact .string s
  | range s e i => exact .range s e i
  | function i => exact .function i
  | nativeFunction i => exact .nativeFunction i
  | task i => exact .task i
  | channel i => exact .channel i
  | socket i => exact .socket i
  | xml i => exact .xml i
  | keyValueStore i => exact .keyValueStore i
  | reference i => exact .reference i

theorem sameBy_trans (hlaw : LawfulAt h n) (ha : WellFormed h (n + 1) a)
    (hb : WellFormed h (n + 1) b) (hc : WellFormed h (n + 1) c)
    (hab : SameBy (EqAt h n) a b) (hbc : SameBy (EqAt h n) b c) : SameBy (EqAt h n) a c := by
  have htrans : ∀ x ∈ a.children, ∀ y ∈ b.children, ∀ z ∈ c.children,
      EqAt h n x y → EqAt h n y z → EqAt h n x z :=
    fun x hx y hy z hz => hlaw.trans (ha.1 x hx) (hb.1 y hy) (hc.1 z hz)
  cases hab with
  | number heq =>
    cases hbc with
    | number heq' =>
      exact .number (numberEquals_iff.mpr ((numberEquals_iff.mp heq).trans (numberEquals_iff.mp heq')))
    | numberInteger heq' =>
      refine .numberInteger (integerEqualsNumber_iff.mpr ?_)
      have hsymm := numberEquals_iff.mpr (numberEquals_iff.mp heq).symm
      exact isInteger_of_numberEquals (integerEqualsNumber_iff.mp heq') hsymm
  | integer i => exact hbc
  | integerNumber heq =>
    have hx := integerEqualsNumber_iff.mp heq
    cases hbc with
    | number heq' =>
      exact .integerNumber (integerEqualsNumber_iff.mpr (isInteger_of_numberEquals hx heq'))
    | numberInteger heq' =>
      have hsame := isInteger_unique hx (integerEqualsNumber_iff.mp heq')
      rw [Int64.toInt_inj] at hsame
      exact hsame ▸ .integer _
  | numberInteger heq =>
    have hx := integerEqualsNumber_iff.mp heq
    cases hbc with
    | integer i => exact .numberInteger heq
    | integerNumber heq' =>
      exact .number (numberEquals_of_isInteger hx (integerEqualsNumber_iff.mp heq'))
  | array helem =>
    cases hbc with
    | array helem' => exact .array (Matching.forall₂_trans helem helem' htrans)
  | tuple helem =>
    cases hbc with
    | tuple helem' => exact .tuple (Matching.forall₂_trans helem helem' htrans)
  | queue helem =>
    cases hbc with
    | queue helem' => exact .queue (Matching.forall₂_trans helem helem' htrans)
  | stack helem =>
    cases hbc with
    | stack helem' => exact .stack (Matching.forall₂_trans helem helem' htrans)
  | choice t v helem =>
    cases hbc with
    | choice _ _ helem' => exact .choice t v (Matching.forall₂_trans helem helem' htrans)
  | record t hfield =>
    cases hbc with
    | record _ hfield' =>
      refine .record t (Matching.forall₂_trans hfield hfield' ?_)
      intro x hx y hy z hz hxy hyz
      exact ⟨hxy.1.trans hyz.1, htrans x.2 (List.mem_map_of_mem hx) y.2 (List.mem_map_of_mem hy)
        z.2 (List.mem_map_of_mem hz) hxy.2 hyz.2⟩
  | result s hinner =>
    cases hbc with
    | result _ hinner' =>
      exact .result s (htrans _ List.mem_cons_self _ List.mem_cons_self _ List.mem_cons_self
        hinner hinner')
  | dictionary hlen hentry =>
    cases hbc with
    | dictionary hlen' hentry' =>
      refine .dictionary (hlen.trans hlen') ((entry_iff hc.2).mpr ?_)
      intro e he
      obtain ⟨f, hf, hkey, hr⟩ := (entry_iff hb.2).mp hentry e he
      obtain ⟨g, hg, hkey', hr'⟩ := (entry_iff hc.2).mp hentry' f hf
      exact ⟨g, hg, hkey.trans hkey', htrans e.2 (List.mem_map_of_mem he) f.2
        (List.mem_map_of_mem hf) g.2 (List.mem_map_of_mem hg) hr hr'⟩
  | set hlen helem =>
    cases hbc with
    | set hlen' helem' =>
      refine .set (hlen.trans hlen') ?_
      intro x hx
      obtain ⟨y, hy, hxy⟩ := helem x hx
      obtain ⟨z, hz, hyz⟩ := helem' y hy
      exact ⟨z, hz, htrans x hx y hy z hz hxy hyz⟩
  | decimal heq =>
    cases hbc with
    | decimal heq' =>
      exact .decimal (Decimal.compare_eq_zero.mpr
        ((Decimal.compare_eq_zero.mp heq).trans (Decimal.compare_eq_zero.mp heq')))
  | _ => exact hbc

end Step

end Luma.Value
