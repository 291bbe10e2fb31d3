-- SUMMARY: Exactly the values without repeated keys obey the laws of equality.
import Luma.Value.HashLaws
import Mathlib.Data.Set.Finite.Lemmas
import Mathlib.Data.Set.Finite.List

/-! # Repeated Keys

A dictionary with a repeated key is compared by its first entry for that key, and
by its number of entries. Such a dictionary either differs from itself, or equals
a dictionary without repetition that does not equal it. The same goes for a set
that holds equal elements. So the laws of equality hold of a value and its parts
exactly when no dictionary in it repeats a key and no set an element. -/

namespace Luma.Value

open Codec

variable {h : StdHash}

/-- Nested less than `n` deep. -/
def Nested : Nat → Value → Prop
  | 0, _ => False
  | n + 1, v => ∀ c ∈ v.children, Nested n c

instance decidableNested : (n : Nat) → (v : Value) → Decidable (Nested n v)
  | 0, _ => .isFalse id
  | n + 1, v =>
    have := decidableNested n
    inferInstanceAs (Decidable (∀ c ∈ v.children, Nested n c))

/-- A value is part of itself and of what its parts are stored in. -/
inductive Within : Value → Value → Prop where
  | self (v : Value) : Within v v
  | child {s c v : Value} (hmem : c ∈ v.children) (hpart : Within s c) : Within s v

/-- The laws of equality and hashing as one value sees them: it equals itself, and
    next to well-formed values equality is symmetric, transitive and respected by
    the hash. -/
structure Obeys (h : StdHash) (v : Value) : Prop where
  refl : equals h v v = .ok true
  symm : ∀ {b}, WellFormed h maxDisplayDepth b →
    (equals h v b = .ok true ↔ equals h b v = .ok true)
  trans : ∀ {b c}, WellFormed h maxDisplayDepth b → WellFormed h maxDisplayDepth c →
    equals h v b = .ok true → equals h b c = .ok true → equals h v c = .ok true
  hash : ∀ {b}, WellFormed h maxDisplayDepth b → equals h v b = .ok true →
    h.valueHash v = h.valueHash b

/-! ## More depth changes no answer -/

section Depth

variable {eq eq' : Value → Value → Except ErrorMessage Bool}

theorem elementsEqual_mono {a b : List Value} {r : Bool}
    (himp : ∀ x y r, eq x y = .ok r → eq' x y = .ok r) (hok : elementsEqual eq a b = .ok r) :
    elementsEqual eq' a b = .ok r := by
  unfold elementsEqual at hok ⊢
  split
  · next hlen => rwa [if_pos hlen] at hok
  · next hlen =>
    rw [if_neg hlen] at hok
    exact Matching.allM_mono (fun x _ => himp x.1 x.2) hok

theorem equalsDictionary_mono {a b : List (Bytes × Value)} {r : Bool}
    (himp : ∀ x y r, eq x y = .ok r → eq' x y = .ok r) (hok : equalsDictionary eq a b = .ok r) :
    equalsDictionary eq' a b = .ok r := by
  unfold equalsDictionary at hok ⊢
  split
  · next hlen => rwa [if_pos hlen] at hok
  · next hlen =>
    rw [if_neg hlen] at hok
    refine Matching.allM_mono (fun e _ r he => ?_) hok
    cases hfind : findEntry b e.1 with
    | none => rwa [hfind] at he
    | some w =>
      rw [hfind] at he
      exact himp e.2 w r he

theorem equalsRecord_mono {a b : List (Bytes × Value)} {r : Bool}
    (himp : ∀ x y r, eq x y = .ok r → eq' x y = .ok r) (hok : equalsRecord eq a b = .ok r) :
    equalsRecord eq' a b = .ok r := by
  unfold equalsRecord at hok ⊢
  split
  · next hlen => rwa [if_pos hlen] at hok
  · next hlen =>
    rw [if_neg hlen] at hok
    refine Matching.allM_mono (fun e _ r he => ?_) hok
    split
    · next hname => rwa [if_pos hname] at he
    · next hname =>
      rw [if_neg hname] at he
      exact himp e.1.2 e.2.2 r he

theorem indexContains_mono {keys : List Value} {v : Value} {r : Bool}
    (himp : ∀ x y r, eq x y = .ok r → eq' x y = .ok r)
    (hok : indexContains h eq keys v = .ok r) : indexContains h eq' keys v = .ok r := by
  refine Matching.anyM_mono (fun k _ r hk => ?_) hok
  split
  · next hhash =>
    rw [if_pos hhash] at hk
    exact himp v k r hk
  · next hhash => rwa [if_neg hhash] at hk

theorem buildIndex_mono {keys elements ks : List Value}
    (himp : ∀ x y r, eq x y = .ok r → eq' x y = .ok r)
    (hok : buildIndex h eq keys elements = .ok ks) : buildIndex h eq' keys elements = .ok ks := by
  induction elements generalizing keys with
  | nil => exact hok
  | cons element elements ih =>
    rw [buildIndex] at hok ⊢
    cases hfind : indexContains h eq keys element with
    | error e =>
      rw [hfind] at hok
      cases hok
    | ok r =>
      rw [indexContains_mono himp hfind]
      rw [hfind] at hok
      cases r
      · exact ih hok
      · exact ih hok

theorem equalsSet_mono {a b : List Value} {r : Bool}
    (himp : ∀ x y r, eq x y = .ok r → eq' x y = .ok r) (hok : equalsSet h eq a b = .ok r) :
    equalsSet h eq' a b = .ok r := by
  unfold equalsSet at hok ⊢
  split
  · next hlen => rwa [if_pos hlen] at hok
  · next hlen =>
    rw [if_neg hlen] at hok
    cases hindex : buildIndex h eq [] b with
    | error e =>
      rw [hindex] at hok
      cases hok
    | ok ks =>
      rw [buildIndex_mono himp hindex]
      rw [hindex] at hok
      exact Matching.allM_mono (fun x _ r => indexContains_mono himp) hok

end Depth

/-- An answer found within some depth is found with more depth too. -/
theorem equalsAt_mono {n : Nat} {a b : Value} {r : Bool} (hok : equalsAt h n a b = .ok r) :
    equalsAt h (n + 1) a b = .ok r := by
  induction n generalizing a b r with
  | zero => cases hok
  | succ n ih =>
    have himp : ∀ x y r, equalsAt h n x y = .ok r → equalsAt h (n + 1) x y = .ok r :=
      fun x y r => ih
    unfold equalsAt at hok ⊢
    split at hok
    case h_8 | h_10 | h_20 | h_21 => exact elementsEqual_mono himp hok
    case h_9 => exact equalsDictionary_mono himp hok
    case h_22 => exact equalsSet_mono himp hok
    case h_11 =>
      split
      · next hs => rwa [if_pos hs] at hok
      · next hs =>
        rw [if_neg hs] at hok
        exact himp _ _ _ hok
    case h_12 =>
      split
      · next hs => rwa [if_pos hs] at hok
      · next hs =>
        rw [if_neg hs] at hok
        exact equalsRecord_mono himp hok
    case h_14 =>
      split
      · next hs => rwa [if_pos hs] at hok
      · next hs =>
        rw [if_neg hs] at hok
        exact elementsEqual_mono himp hok
    all_goals exact hok

theorem equalsAt_mono_le {n m : Nat} {a b : Value} {r : Bool} (hle : n ≤ m)
    (hok : equalsAt h n a b = .ok r) : equalsAt h m a b = .ok r := by
  induction hle with
  | refl => exact hok
  | step _ ih => exact equalsAt_mono ih

theorem distinct_mono {n : Nat} {v : Value} (hchildren : ∀ c ∈ v.children, WellFormed h n c)
    (hdistinct : v.Distinct (EqAt h n)) : v.Distinct (EqAt h (n + 1)) := by
  cases v with
  | set elements =>
    refine List.Pairwise.imp_of_mem ?_ hdistinct
    intro x y hx hy hne heq
    -- The lookup one level down does not fail, so it said no.
    obtain ⟨r, hr⟩ := (lawfulAt n).total (hchildren x hx) (hchildren y hy)
    have hrtrue : r = true := Except.ok.inj ((equalsAt_mono hr).symm.trans heq)
    rw [hrtrue] at hr
    exact hne hr
  | _ => exact hdistinct

theorem wellFormed_mono {n : Nat} {v : Value} (hv : WellFormed h n v) : WellFormed h (n + 1) v := by
  induction n generalizing v with
  | zero => exact hv.elim
  | succ n ih => exact ⟨fun c hc => ih (hv.1 c hc), distinct_mono hv.1 hv.2⟩

theorem wellFormed_mono_le {n m : Nat} {v : Value} (hle : n ≤ m) (hv : WellFormed h n v) :
    WellFormed h m v := by
  induction hle with
  | refl => exact hv
  | step _ ih => exact wellFormed_mono ih

theorem wellFormed_within {n : Nat} {s v : Value} (hpart : Within s v) (hv : WellFormed h n v) :
    WellFormed h n s := by
  induction hpart generalizing n with
  | self => exact hv
  | child hmem _ ih =>
    cases n with
    | zero => exact hv.elim
    | succ n => exact wellFormed_mono (ih (hv.1 _ hmem))

theorem wellFormed_string (n : Nat) (s : Bytes) : WellFormed h (n + 1) (.string s) :=
  ⟨fun _ hc => absurd hc List.not_mem_nil, trivial⟩

theorem obeys_of_wellFormed {v : Value} (hv : WellFormed h maxDisplayDepth v) : Obeys h v where
  refl := (lawfulAt _).refl hv
  symm hb := ⟨(lawfulAt _).symm hv hb, (lawfulAt _).symm hb hv⟩
  trans hb hc := (lawfulAt _).trans hv hb hc
  hash hb heq := (lawfulAt _).hash hv hb heq _

/-! ## A repeated key or element breaks the laws -/

/-- Any number of byte strings outside a given list. -/
theorem exists_fresh (taken : List Bytes) (m : Nat) :
    ∃ fresh : List Bytes, fresh.length = m ∧ fresh.Nodup ∧ ∀ s ∈ fresh, s ∉ taken := by
  have hinf : {s : Bytes | s ∈ taken}ᶜ.Infinite := (List.finite_toSet taken).infinite_compl
  obtain ⟨fresh, hsub, hcard⟩ := hinf.exists_subset_card_eq m
  refine ⟨fresh.toList, ?_, fresh.nodup_toList, ?_⟩
  · rw [Finset.length_toList, hcard]
  · exact fun s hs => hsub (Finset.mem_coe.mpr (Finset.mem_toList.mp hs))

section Repeated

variable {n : Nat}

theorem equals_dictionary_iff {a b : List (Bytes × Value)} :
    equals h (.dictionary a) (.dictionary b) = .ok true ↔
      a.length = b.length ∧ ∀ e ∈ a, ∃ w, findEntry b e.1 = some w ∧ EqAt h 63 e.2 w :=
  equalsDictionary_iff

/-- A dictionary that obeys the laws repeats no key. -/
theorem nodup_of_obeys {entries : List (Bytes × Value)}
    (hvalues : ∀ e ∈ entries, WellFormed h 63 e.2) (hobeys : Obeys h (.dictionary entries)) :
    (entries.map Prod.fst).Nodup := by
  have hlaw := lawfulAt (h := h) 63
  obtain ⟨-, hself⟩ := equals_dictionary_iff.mp hobeys.refl
  -- Both entries of a repeated key equal the first one.
  have hsame : ∀ e ∈ entries, ∀ f ∈ entries, e.1 = f.1 → EqAt h 63 e.2 f.2 := by
    intro e he f hf hkey
    obtain ⟨w, hfind, heq⟩ := hself e he
    obtain ⟨w', hfind', heq'⟩ := hself f hf
    have hw : w = w' := Option.some.inj (hfind.symm.trans (hkey ▸ hfind'))
    have hwf : WellFormed h 63 w' := hvalues (f.1, w') (findEntry_some hfind')
    subst hw
    exact hlaw.trans (hvalues e he) hwf (hvalues f hf) heq (hlaw.symm (hvalues f hf) hwf heq')
  obtain ⟨reps, hsub, hpair, hcover⟩ :=
    Matching.exists_representatives (R := fun e f => e.1 = f.1 ∧ EqAt h 63 e.2 f.2) entries
      fun e he => ⟨rfl, hlaw.refl (hvalues e he)⟩
  have hreps : (reps.map Prod.fst).Nodup := by
    refine List.pairwise_map.mpr (hpair.imp_of_mem ?_)
    intro e f he hf hne hkey
    exact hne ⟨hkey, hsame e (hsub.subset he) f (hsub.subset hf) hkey⟩
  by_contra hdup
  have hlt : reps.length < entries.length := by
    refine lt_of_le_of_ne hsub.length_le fun hlen => hdup ?_
    rwa [← hsub.eq_of_length hlen]
  obtain ⟨fresh, hcount, hnodup, hfresh⟩ :=
    exists_fresh (entries.map Prod.fst) (entries.length - reps.length)
  -- The representatives, filled up with fresh keys to the same length.
  let padding : List (Bytes × Value) := fresh.map fun s => (s, .null)
  have hkeys : padding.map Prod.fst = fresh := by simp [padding, Function.comp_def]
  have hpadding : ∀ e ∈ padding, WellFormed h 63 e.2 := by
    intro e he
    obtain ⟨s, -, rfl⟩ := List.mem_map.mp he
    exact ⟨fun c hc => absurd hc List.not_mem_nil, trivial⟩
  have hfilled : ∀ e ∈ reps ++ padding, WellFormed h 63 e.2 := by
    intro e he
    rcases List.mem_append.mp he with he | he
    · exact hvalues e (hsub.subset he)
    · exact hpadding e he
  have hunique : ((reps ++ padding).map Prod.fst).Nodup := by
    rw [List.map_append, hkeys]
    refine List.nodup_append.mpr ⟨hreps, hnodup, ?_⟩
    intro s hs t ht heq
    exact hfresh t ht (heq ▸ (hsub.map Prod.fst).subset hs)
  have hwf : WellFormed h maxDisplayDepth (.dictionary (reps ++ padding)) := by
    refine ⟨?_, hunique⟩
    intro c hc
    obtain ⟨e, he, rfl⟩ := List.mem_map.mp hc
    exact hfilled e he
  have hforward : equals h (.dictionary entries) (.dictionary (reps ++ padding)) = .ok true := by
    refine equals_dictionary_iff.mpr ⟨?_, ?_⟩
    · rw [List.length_append, List.length_map, hcount]
      omega
    · refine (entry_iff hunique).mpr fun e he => ?_
      obtain ⟨f, hf, hr⟩ := hcover e he
      exact ⟨f, List.mem_append_left _ hf, hr⟩
  have hback := equals_dictionary_iff.mp ((hobeys.symm hwf).mp hforward)
  obtain ⟨s, hs⟩ : ∃ s, s ∈ fresh := List.exists_mem_of_length_pos (by omega)
  obtain ⟨w, hfind, -⟩ := hback.2 (s, .null)
    (List.mem_append_right _ (List.mem_map_of_mem hs))
  exact hfresh s hs (List.mem_map_of_mem (f := Prod.fst) (findEntry_some hfind))

/-- The bytes of a string value. -/
def stringBytes? : Value → Option Bytes
  | .string s => some s
  | _ => none

/-- Only a string equals a string. -/
theorem eq_string_of_eqAt {v : Value} {s : Bytes} (heq : EqAt h 63 v (.string s)) : v = .string s := by
  have hsame := sameBy_of_eqAt heq
  cases hsame
  rfl

/-- A set that obeys the laws has no two equal elements. -/
theorem pairwise_of_obeys {elements : List Value} (hwf : ∀ v ∈ elements, WellFormed h 63 v)
    (hobeys : Obeys h (.set elements)) : elements.Pairwise fun x y => ¬ EqAt h 63 x y := by
  have hlaw := lawfulAt (h := h) 63
  obtain ⟨reps, hsub, hpair, hcover⟩ :=
    Matching.exists_representatives (R := EqAt h 63) elements fun v hv => hlaw.refl (hwf v hv)
  by_contra hdup
  have hlt : reps.length < elements.length := by
    refine lt_of_le_of_ne hsub.length_le fun hlen => hdup ?_
    rwa [← hsub.eq_of_length hlen]
  let strings : List Bytes := elements.filterMap stringBytes?
  have hstrings : ∀ s, .string s ∈ elements → s ∈ strings :=
    fun s hs => List.mem_filterMap.mpr ⟨.string s, hs, rfl⟩
  obtain ⟨fresh, hcount, hnodup, hfresh⟩ := exists_fresh strings (elements.length - reps.length)
  -- The representatives, filled up with fresh strings to the same length.
  have hfilled : ∀ v ∈ reps ++ fresh.map Value.string, WellFormed h 63 v := by
    intro v hv
    rcases List.mem_append.mp hv with hv | hv
    · exact hwf v (hsub.subset hv)
    · obtain ⟨s, -, rfl⟩ := List.mem_map.mp hv
      exact wellFormed_string 62 s
  have hunique : (reps ++ fresh.map Value.string).Pairwise fun x y => ¬ EqAt h 63 x y := by
    refine List.pairwise_append.mpr ⟨hpair, List.pairwise_map.mpr (hnodup.imp ?_), ?_⟩
    · intro s t hne heq
      exact hne (Value.string.inj (eq_string_of_eqAt heq))
    · intro x hx y hy heq
      obtain ⟨s, hs, rfl⟩ := List.mem_map.mp hy
      have hmem := hsub.subset hx
      have hx := eq_string_of_eqAt heq
      exact hfresh s hs (hstrings s (hx ▸ hmem))
  have hforward : equals h (.set elements) (.set (reps ++ fresh.map Value.string)) = .ok true := by
    refine (equalsSet_spec hlaw hwf hfilled hunique).2.mpr ⟨?_, ?_⟩
    · rw [List.length_append, List.length_map, hcount]
      omega
    · intro x hx
      obtain ⟨y, hy, hr⟩ := hcover x hx
      exact ⟨y, List.mem_append_left _ hy, hr⟩
  have hwhole : WellFormed h maxDisplayDepth (.set (reps ++ fresh.map Value.string)) :=
    ⟨hfilled, hunique⟩
  have hback := (hobeys.symm hwhole).mp hforward
  obtain ⟨s, hs⟩ : ∃ s, s ∈ fresh := List.exists_mem_of_length_pos (by omega)
  obtain ⟨y, hy, hr⟩ := (covered_of_equalsSet hback).2 (.string s)
    (List.mem_append_right _ (List.mem_map_of_mem hs))
  have heq := eq_string_of_eqAt (hlaw.symm (wellFormed_string 62 s) (hwf y hy) hr)
  exact hfresh s hs (hstrings s (heq ▸ hy))

end Repeated

theorem wellFormed_of_obeys {n : Nat} {v : Value} (hle : n ≤ maxDisplayDepth) (hv : Nested n v)
    (hobeys : ∀ s, Within s v → Obeys h s) : WellFormed h n v := by
  induction n generalizing v with
  | zero => exact hv.elim
  | succ n ih =>
    have hle63 : n ≤ 63 := Nat.le_of_succ_le_succ hle
    have hchildren : ∀ c ∈ v.children, WellFormed h n c := fun c hc =>
      ih (Nat.le_of_succ_le hle) (hv c hc) fun s hs => hobeys s (.child hc hs)
    have hparts : ∀ c ∈ v.children, WellFormed h 63 c :=
      fun c hc => wellFormed_mono_le hle63 (hchildren c hc)
    refine ⟨hchildren, ?_⟩
    cases v with
    | dictionary entries =>
      refine nodup_of_obeys (fun e he => ?_) (hobeys _ (.self _))
      exact hparts e.2 (List.mem_map_of_mem he)
    | set elements =>
      refine (pairwise_of_obeys hparts (hobeys _ (.self _))).imp fun hne heq => ?_
      exact hne (equalsAt_mono_le hle63 heq)
    | _ => trivial

/-- A value and all its parts obey the laws of equality and hashing exactly when no
    dictionary in the value repeats a key and no set an equal element. An integer
    equals just the numbers that are this integer. -/
theorem obeys_iff_wellFormed {v : Value} (hv : Nested maxDisplayDepth v) :
    ((∀ s, Within s v → Obeys h s) ↔ WellFormed h maxDisplayDepth v) ∧
      ∀ i x, (equals h (.integer i) (.number x) = .ok true ↔ x.IsInteger i.toInt) ∧
        (equals h (.number x) (.integer i) = .ok true ↔ x.IsInteger i.toInt) := by
  have hexact : ∀ i x, (.ok (integerEqualsNumber i x) : Except ErrorMessage Bool) = .ok true ↔
      x.IsInteger i.toInt := by
    intro i x
    rw [Except.ok.injEq]
    exact integerEqualsNumber_iff
  refine ⟨⟨wellFormed_of_obeys le_rfl hv, ?_⟩, fun i x => ⟨hexact i x, hexact i x⟩⟩
  exact fun hwf s hpart => obeys_of_wellFormed (wellFormed_within hpart hwf)

/-- Hashing of builtin types by identity, and of strings by a polynomial. -/
def identityHash : StdHash where
  bool b := if b then 1 else 0
  int n := n.toUInt64
  size n := n.toUInt64
  int64 n := n.toUInt64
  uint64 n := n
  string s := s.foldl (fun acc byte => 31 * acc + byte.toUInt64) 7

theorem obeys_iff_wellFormed_sample :
    ((∀ s, Within s (.set [.integer 1, .null]) → Obeys identityHash s) ↔
        WellFormed identityHash maxDisplayDepth (.set [.integer 1, .null])) ∧
      ∀ i x, (equals identityHash (.integer i) (.number x) = .ok true ↔ x.IsInteger i.toInt) ∧
        (equals identityHash (.number x) (.integer i) = .ok true ↔ x.IsInteger i.toInt) :=
  obeys_iff_wellFormed (by decide)

/-- A dictionary whose second entry for a key shadows no first one differs from itself. -/
theorem repeatedKey_differs_from_itself :
    ¬ ∀ v, Nested maxDisplayDepth v → equals identityHash v v = .ok true := by
  intro hrefl
  have hself := hrefl (.dictionary [([97], .integer 1), ([97], .integer 2)])
    (by decide)
  exact absurd hself (by decide)

end Luma.Value
