-- SUMMARY: Equal values hash alike, and the laws of equality at every depth.
import Luma.Value.EqualityLaws

/-! # Hashing Respects Equality

Values matched by one level of equality have the same hash when their parts do.
With the laws of one level this gives, by induction on the nesting, the laws of
equality and hashing at every depth. -/

namespace Luma.Value

open Codec

variable {h : StdHash} {n : Nat} {a b : Value}

/-! ## Hashes -/

/-- Combining without order does not see the order. -/
theorem xorAll_perm {as bs : List UInt64} (hperm : as.Perm bs) :
    StdHash.xorAll as = StdHash.xorAll bs := by
  have hcomm : ∀ x ∈ as, ∀ y ∈ as, ∀ z : UInt64, z ^^^ x ^^^ y = z ^^^ y ^^^ x := by
    intro x _ y _ z
    rw [UInt64.xor_assoc, UInt64.xor_comm x y, ← UInt64.xor_assoc]
  exact hperm.foldl_eq' hcomm 0

theorem hashDouble_eq {x y : Binary64} (heq : numberEquals x y = true) :
    h.hashDouble x = h.hashDouble y := by
  rw [StdHash.hashDouble, numberEquals_iff.mp heq, StdHash.hashDouble]

theorem hashDouble_ofInt {i : Int64} {x : Binary64} (heq : integerEqualsNumber i x = true) :
    h.hashDouble (Binary64.ofInt i.toInt) = h.hashDouble x := by
  rw [StdHash.hashDouble, canonicalBits_ofInt (integerEqualsNumber_iff.mp heq), StdHash.hashDouble]

/-- Matched scalars are hashed alike. -/
theorem sameBy_hashScalar {R : Value → Value → Prop} (hsame : SameBy R a b) :
    h.hashScalar a = h.hashScalar b := by
  cases hsame with
  | number heq => exact congrArg some (hashDouble_eq heq)
  | integerNumber heq => exact congrArg some (hashDouble_ofInt heq)
  | numberInteger heq => exact congrArg some (hashDouble_ofInt heq).symm
  | decimal heq =>
    rw [StdHash.hashScalar, StdHash.hashScalar, Decimal.compare_eq_zero.mp heq]
  | _ => rfl

/-- Matched values other than an integer and a number are of one type. -/
theorem sameBy_valueType {R : Value → Value → Prop} (hsame : SameBy R a b)
    (hscalar : h.hashScalar a = none) : a.valueType = b.valueType := by
  cases hsame with
  | integerNumber | numberInteger => cases hscalar
  | _ => rfl

theorem sameBy_hash (hlaw : LawfulAt h n) (ha : WellFormed h (n + 1) a)
    (hb : WellFormed h (n + 1) b) (hsame : SameBy (EqAt h n) a b) (d : Nat) :
    h.hashAt d a = h.hashAt d b := by
  have hscalar := sameBy_hashScalar (h := h) hsame
  cases d with
  | zero =>
    rw [StdHash.hashAt, StdHash.hashAt, ← hscalar]
    cases hnone : h.hashScalar a with
    | some hash => rfl
    | none => rw [sameBy_valueType hsame hnone]
  | succ d =>
    have hchild : ∀ x ∈ a.children, ∀ y ∈ b.children, EqAt h n x y → h.hashAt d x = h.hashAt d y :=
      fun x hx y hy heq => hlaw.hash (ha.1 x hx) (hb.1 y hy) heq d
    cases hsame with
    | number | integerNumber | numberInteger | decimal =>
      simp only [StdHash.hashAt, StdHash.hashScalar] at hscalar ⊢
      exact Option.some.inj hscalar
    | array helem | tuple helem | queue helem | stack helem | choice t v helem =>
      simp only [StdHash.hashAt, StdHash.hashScalar, valueType, helem.length_eq,
        Matching.map_eq_of_forall₂ helem hchild]
    | record t hfield =>
      have hmap := Matching.map_eq_of_forall₂ (f := fun e => [h.string e.1, h.hashAt d e.2])
        (g := fun e => [h.string e.1, h.hashAt d e.2]) hfield fun x hx y hy hxy => by
          rw [hxy.1, hchild x.2 (List.mem_map_of_mem hx) y.2 (List.mem_map_of_mem hy) hxy.2]
      simp only [StdHash.hashAt, StdHash.hashScalar, valueType, List.flatMap_def, hmap]
    | result s hinner =>
      simp only [StdHash.hashAt, StdHash.hashScalar, valueType,
        hchild _ List.mem_cons_self _ List.mem_cons_self hinner]
    | dictionary hlen hentry =>
      obtain ⟨fb', hperm, hmatch⟩ := match_entries hlen ha.2 ((entry_iff hb.2).mp hentry)
      have hxor := xorAll_perm (Matching.map_perm_of_forall₂
        (f := fun e => hashCombine (h.string e.1) (h.hashAt d e.2))
        (g := fun e => hashCombine (h.string e.1) (h.hashAt d e.2)) hperm hmatch
        fun x hx y hy hxy => by
          rw [hxy.1, hchild x.2 (List.mem_map_of_mem hx) y.2 (List.mem_map_of_mem hy) hxy.2])
      simp only [StdHash.hashAt, StdHash.hashScalar, valueType, hlen, hxor]
    | set hlen helem =>
      obtain ⟨ys', hperm, hmatch⟩ := match_elements hlaw ha.1 hb.1 hlen ha.2 helem
      have hxor := xorAll_perm (Matching.map_perm_of_forall₂ hperm hmatch hchild)
      simp only [children] at hxor
      simp only [StdHash.hashAt, StdHash.hashScalar, valueType, hlen, hxor]
    | _ => rfl

/-! ## Every depth -/

theorem lawfulAt_zero : LawfulAt h 0 where
  total ha := ha.elim
  refl ha := ha.elim
  symm ha := ha.elim
  trans ha := ha.elim
  hash ha := ha.elim

theorem lawfulAt_succ (hlaw : LawfulAt h n) : LawfulAt h (n + 1) where
  total ha hb := equalsAt_total hlaw ha hb
  refl ha := (eqAt_succ_iff hlaw ha ha).mpr (sameBy_refl hlaw ha)
  symm ha hb hab :=
    (eqAt_succ_iff hlaw hb ha).mpr (sameBy_symm hlaw ha hb ((eqAt_succ_iff hlaw ha hb).mp hab))
  trans ha hb hc hab hbc :=
    (eqAt_succ_iff hlaw ha hc).mpr (sameBy_trans hlaw ha hb hc
      ((eqAt_succ_iff hlaw ha hb).mp hab) ((eqAt_succ_iff hlaw hb hc).mp hbc))
  hash ha hb hab := sameBy_hash hlaw ha hb ((eqAt_succ_iff hlaw ha hb).mp hab)

theorem lawfulAt (n : Nat) : LawfulAt h n := by
  induction n with
  | zero => exact lawfulAt_zero
  | succ n ih => exact lawfulAt_succ ih

end Luma.Value
