-- SUMMARY: Linked lists whose nodes keep their identity, and indexes from keys to nodes.
import Luma.Library.OrderedMap
import Mathlib.Data.List.Perm.Basic

/-! # Linked Lists

The nodes of a linked list keep their identity while they move, so an iterator to a node
stays valid until the node is erased. An index of a list finds the node of a key; it is
sound while it holds one entry for each node and no two nodes have one key. -/

/-- A list of nodes, front first, and the identity of the next node. -/
structure LinkedList (α : Type) where
  nodes : List (Nat × α)
  fresh : Nat
  distinct : (nodes.map Prod.fst).Nodup
  below : ∀ node ∈ nodes, node.1 < fresh

namespace LinkedList

variable {α κ : Type}

def empty : LinkedList α := ⟨[], 0, List.nodup_nil, fun _ h => absurd h List.not_mem_nil⟩

/-- Erase all nodes; their identities are not used again. -/
def clear (l : LinkedList α) : LinkedList α := ⟨[], l.fresh, List.nodup_nil, fun _ h => absurd h List.not_mem_nil⟩

def elements (l : LinkedList α) : List α := l.nodes.map Prod.snd

/-- The node with an identity. -/
def find (l : LinkedList α) (n : Nat) : Option (Nat × α) := l.nodes.find? fun node => node.1 = n

theorem fresh_notMem (l : LinkedList α) : l.fresh ∉ l.nodes.map Prod.fst := by
  intro hmem
  obtain ⟨node, hnode, heq⟩ := List.mem_map.mp hmem
  exact absurd (l.below node hnode) (heq ▸ Nat.lt_irrefl _)

/-- Erase a node. -/
def erase (l : LinkedList α) (n : Nat) : LinkedList α where
  nodes := l.nodes.filter fun node => node.1 ≠ n
  fresh := l.fresh
  distinct := l.distinct.sublist (List.filter_sublist.map _)
  below node hnode := l.below node (List.mem_of_mem_filter hnode)

/-- Make a new node at the front. -/
def pushFront (l : LinkedList α) (a : α) : LinkedList α where
  nodes := (l.fresh, a) :: l.nodes
  fresh := l.fresh + 1
  distinct := List.nodup_cons.mpr ⟨l.fresh_notMem, l.distinct⟩
  below node hnode := by
    obtain rfl | hnode := List.mem_cons.mp hnode
    · exact Nat.lt_succ_self _
    · exact Nat.lt_succ_of_lt (l.below node hnode)

/-- Make a new node at the back. -/
def pushBack (l : LinkedList α) (a : α) : LinkedList α where
  nodes := l.nodes ++ [(l.fresh, a)]
  fresh := l.fresh + 1
  distinct := by
    rw [List.map_append, List.nodup_append]
    refine ⟨l.distinct, List.nodup_singleton _, fun n hn m hm heq => ?_⟩
    have hfresh : n = l.fresh := heq.trans (List.mem_singleton.mp hm)
    exact l.fresh_notMem (hfresh ▸ hn)
  below node hnode := by
    obtain hnode | hnode := List.mem_append.mp hnode
    · exact Nat.lt_succ_of_lt (l.below node hnode)
    · rw [List.mem_singleton.mp hnode]
      exact Nat.lt_succ_self _

theorem find_eq_some {l : LinkedList α} {n : Nat} {node : Nat × α} :
    l.find n = some node ↔ node ∈ l.nodes ∧ node.1 = n := by
  constructor
  · intro h
    exact ⟨List.mem_of_find?_eq_some h, by simpa using List.find?_some h⟩
  · rintro ⟨hmem, rfl⟩
    cases hfind : l.find node.1 with
    | none => exact absurd (List.find?_eq_none.mp hfind node hmem) (by simp)
    | some other =>
      have hother := List.mem_of_find?_eq_some hfind
      have heq : other.1 = node.1 := by simpa using List.find?_some hfind
      rw [List.inj_on_of_nodup_map l.distinct hother hmem heq]

/-- A node and the nodes other than it are all nodes. -/
theorem perm_cons_filter {l : LinkedList α} {node : Nat × α} (hnode : node ∈ l.nodes) :
    l.nodes.Perm (node :: l.nodes.filter fun other => other.1 ≠ node.1) := by
  have hnodup : l.nodes.Nodup := List.Nodup.of_map _ l.distinct
  refine (List.perm_ext_iff_of_nodup hnodup ?_).mpr fun other => ?_
  · exact List.nodup_cons.mpr ⟨fun h => by simpa using List.of_mem_filter h, hnodup.filter _⟩
  · rw [List.mem_cons, List.mem_filter]
    constructor
    · intro hother
      by_cases heq : other.1 = node.1
      · exact .inl (List.inj_on_of_nodup_map l.distinct hother hnode heq)
      · exact .inr ⟨hother, by simpa using heq⟩
    · rintro (rfl | hother)
      · exact hnode
      · exact hother.1

/-- Move a node to the front. -/
def toFront (l : LinkedList α) (n : Nat) : LinkedList α :=
  match hfind : l.find n with
  | none => l
  | some node =>
    { nodes := node :: l.nodes.filter fun other => other.1 ≠ node.1
      fresh := l.fresh
      distinct := ((perm_cons_filter (find_eq_some.mp hfind).1).map Prod.fst).nodup_iff.mp l.distinct
      below := fun other hother =>
        l.below other ((perm_cons_filter (find_eq_some.mp hfind).1).mem_iff.mpr hother) }

/-- Move a node to the back. -/
def toBack (l : LinkedList α) (n : Nat) : LinkedList α :=
  match hfind : l.find n with
  | none => l
  | some node =>
    have hperm := (perm_cons_filter (find_eq_some.mp hfind).1).trans
      (List.perm_append_singleton node (l.nodes.filter fun other => other.1 ≠ node.1)).symm
    { nodes := (l.nodes.filter fun other => other.1 ≠ node.1) ++ [node]
      fresh := l.fresh
      distinct := (hperm.map Prod.fst).nodup_iff.mp l.distinct
      below := fun other hother => l.below other (hperm.mem_iff.mpr hother) }

/-- Overwrite the elements of all nodes. -/
def mapNodes (l : LinkedList α) (f : Nat × α → α) : LinkedList α where
  nodes := l.nodes.map fun node => (node.1, f node)
  fresh := l.fresh
  distinct := by
    rw [List.map_map]
    exact l.distinct
  below node hnode := by
    obtain ⟨old, hold, rfl⟩ := List.mem_map.mp hnode
    exact l.below old hold

/-- Overwrite the element of one node. -/
def update (l : LinkedList α) (n : Nat) (f : α → α) : LinkedList α :=
  l.mapNodes fun node => if node.1 = n then f node.2 else node.2

theorem nodes_toFront {l : LinkedList α} {node : Nat × α} (hnode : node ∈ l.nodes) :
    (l.toFront node.1).nodes = node :: l.nodes.filter fun other => other.1 ≠ node.1 := by
  have hfind : l.find node.1 = some node := find_eq_some.mpr ⟨hnode, rfl⟩
  unfold toFront
  split
  · next hnone => rw [hfind] at hnone; cases hnone
  · next found hfound =>
    rw [hfind] at hfound
    cases hfound
    rfl

theorem nodes_toBack {l : LinkedList α} {node : Nat × α} (hnode : node ∈ l.nodes) :
    (l.toBack node.1).nodes = (l.nodes.filter fun other => other.1 ≠ node.1) ++ [node] := by
  have hfind : l.find node.1 = some node := find_eq_some.mpr ⟨hnode, rfl⟩
  unfold toBack
  split
  · next hnone => rw [hfind] at hnone; cases hnone
  · next found hfound =>
    rw [hfind] at hfound
    cases hfound
    rfl

theorem length_toBack {l : LinkedList α} {n : Nat} : (l.toBack n).nodes.length = l.nodes.length := by
  unfold toBack
  split
  · rfl
  · next node hfind =>
    have hperm := perm_cons_filter (find_eq_some.mp hfind).1
    exact ((List.perm_append_singleton node _).trans hperm.symm).length_eq

@[simp] theorem nodes_erase {l : LinkedList α} {n : Nat} : (l.erase n).nodes = l.nodes.filter fun node => node.1 ≠ n :=
  rfl

@[simp] theorem elements_pushFront {l : LinkedList α} {a : α} : (l.pushFront a).elements = a :: l.elements := rfl

@[simp] theorem elements_pushBack {l : LinkedList α} {a : α} : (l.pushBack a).elements = l.elements ++ [a] :=
  List.map_append

theorem elements_mapNodes {l : LinkedList α} {f : Nat × α → α} : (l.mapNodes f).elements = l.nodes.map f := by
  rw [elements, mapNodes, List.map_map]
  rfl

/-- Erasing the last node leaves the nodes before it. -/
theorem nodes_erase_last {l : LinkedList α} {front : List (Nat × α)} {back : Nat × α}
    (hnodes : l.nodes = front ++ [back]) : (l.erase back.1).nodes = front := by
  have hdistinct := l.distinct
  rw [hnodes, List.map_append, List.nodup_append] at hdistinct
  rw [nodes_erase, hnodes, List.filter_append, List.filter_eq_self.mpr, List.filter_eq_nil_iff.mpr, List.append_nil]
  · intro node hnode
    rw [List.mem_singleton.mp hnode]
    simp
  · intro node hnode
    have hne := hdistinct.2.2 node.1 (List.mem_map_of_mem hnode) back.1 (List.mem_singleton_self _)
    exact decide_eq_true hne

/-! ## Indexes -/

/-- The index holds the key of each node with the node, and no two nodes have one key. -/
structure Indexes (key : α → κ) (index : List (κ × Nat)) (l : LinkedList α) : Prop where
  perm : index.Perm (l.nodes.map fun node => (key node.2, node.1))
  unique : (l.elements.map key).Nodup

namespace Indexes

variable {key : α → κ} {index : List (κ × Nat)} {l : LinkedList α} {k : κ} {n : Nat} {node : Nat × α}

theorem empty : Indexes key [] (LinkedList.empty : LinkedList α) := ⟨.nil, List.nodup_nil⟩

theorem clear : Indexes key [] l.clear := ⟨.nil, List.nodup_nil⟩

theorem keys_perm (h : Indexes key index l) : (OrderedMap.keys index).Perm (l.elements.map key) := by
  have hkeys := h.perm.map Prod.fst
  rw [List.map_map] at hkeys
  rw [elements, List.map_map]
  exact hkeys

theorem keys_nodup (h : Indexes key index l) : (OrderedMap.keys index).Nodup := h.keys_perm.nodup_iff.mpr h.unique

theorem length_eq (h : Indexes key index l) : index.length = l.nodes.length := by
  rw [h.perm.length_eq, List.length_map]

theorem key_injective (h : Indexes key index l) {node other : Nat × α} (hnode : node ∈ l.nodes)
    (hother : other ∈ l.nodes) (heq : key node.2 = key other.2) : node = other := by
  have hunique := h.unique
  rw [elements, List.map_map] at hunique
  exact List.inj_on_of_nodup_map hunique hnode hother heq

/-- A list with the same nodes in another order has the same indexes. -/
theorem of_perm (h : Indexes key index l) {l' : LinkedList α} (hperm : l'.nodes.Perm l.nodes) :
    Indexes key index l' where
  perm := h.perm.trans (hperm.symm.map _)
  unique := ((hperm.map Prod.snd).map key).nodup_iff.mpr h.unique

theorem toFront (h : Indexes key index l) (hnode : node ∈ l.nodes) : Indexes key index (l.toFront node.1) :=
  h.of_perm ((nodes_toFront hnode).symm ▸ (perm_cons_filter hnode).symm)

theorem toBack (h : Indexes key index l) (hnode : node ∈ l.nodes) : Indexes key index (l.toBack node.1) := by
  refine h.of_perm ?_
  rw [nodes_toBack hnode]
  exact (List.perm_append_singleton _ _).trans (perm_cons_filter hnode).symm

theorem pushFront (h : Indexes key index l) {a : α} (hnew : ∀ b ∈ l.elements, key b ≠ key a) :
    Indexes key (index ++ [(key a, l.fresh)]) (l.pushFront a) where
  perm := (List.perm_append_singleton _ _).trans (h.perm.cons _)
  unique := by
    refine List.nodup_cons.mpr ⟨fun hmem => ?_, h.unique⟩
    obtain ⟨b, hb, heq⟩ := List.mem_map.mp hmem
    exact hnew b hb heq

theorem pushBack (h : Indexes key index l) {a : α} (hnew : ∀ b ∈ l.elements, key b ≠ key a) :
    Indexes key (index ++ [(key a, l.fresh)]) (l.pushBack a) where
  perm := by
    rw [LinkedList.pushBack, List.map_append]
    exact h.perm.append_right _
  unique := by
    rw [elements, LinkedList.pushBack, List.map_append, List.map_append, List.nodup_append]
    refine ⟨h.unique, List.nodup_singleton _, fun k hk k' hk' heq => ?_⟩
    obtain ⟨b, hb, rfl⟩ := List.mem_map.mp hk
    exact hnew b hb (heq.trans (List.mem_singleton.mp hk'))

/-- Overwriting elements keeps an index while it keeps their keys. -/
theorem mapNodes (h : Indexes key index l) {f : Nat × α → α} (hf : ∀ node ∈ l.nodes, key (f node) = key node.2) :
    Indexes key index (l.mapNodes f) where
  perm := by
    rw [LinkedList.mapNodes, List.map_map]
    refine h.perm.trans (.of_eq (List.map_congr_left fun node hnode => ?_))
    rw [Function.comp_apply, hf node hnode]
  unique := by
    have hunique := h.unique
    rw [elements, List.map_map] at hunique
    rw [elements, LinkedList.mapNodes, List.map_map, List.map_map]
    refine (List.map_congr_left fun node hnode => ?_) ▸ hunique
    exact (hf node hnode).symm

variable [DecidableEq κ]

theorem lookup_eq_some (h : Indexes key index l) :
    OrderedMap.lookup k index = some n ↔ ∃ a, (n, a) ∈ l.nodes ∧ key a = k := by
  constructor
  · intro hlookup
    obtain ⟨node, hnode, heq⟩ := List.mem_map.mp (h.perm.mem_iff.mp (OrderedMap.mem_of_lookup hlookup))
    cases heq
    exact ⟨node.2, hnode, rfl⟩
  · rintro ⟨a, hnode, rfl⟩
    exact OrderedMap.lookup_of_mem h.keys_nodup (h.perm.mem_iff.mpr (List.mem_map.mpr ⟨(n, a), hnode, rfl⟩))

theorem lookup_eq_none (h : Indexes key index l) :
    OrderedMap.lookup k index = none ↔ ∀ a ∈ l.elements, key a ≠ k := by
  rw [OrderedMap.lookup_eq_none, h.keys_perm.mem_iff, List.mem_map]
  constructor
  · intro hk a ha heq
    exact hk ⟨a, ha, heq⟩
  · rintro hk ⟨a, ha, heq⟩
    exact hk a ha heq

/-- Leaving out a node is leaving out its key. -/
theorem elements_filter (h : Indexes key index l) (hnode : node ∈ l.nodes) :
    (l.nodes.filter fun other => other.1 ≠ node.1).map Prod.snd = l.elements.filter fun a => key a ≠ key node.2 := by
  rw [elements, List.filter_map]
  congr 1
  refine List.filter_congr fun other hother => ?_
  rw [Function.comp_apply, decide_eq_decide, not_iff_not]
  constructor
  · intro heq
    rw [List.inj_on_of_nodup_map l.distinct hother hnode heq]
  · intro heq
    rw [h.key_injective hother hnode heq]

/-- Updating an element of a key changes no element of another key. -/
theorem elements_filter_update (hnode : node ∈ l.nodes) {f : α → α}
    (hf : ∀ a, key (f a) = key a) :
    ((l.update node.1 f).elements.filter fun a => key a ≠ key node.2) =
      l.elements.filter fun a => key a ≠ key node.2 := by
  have hkey : ∀ other : Nat × α, key (if other.1 = node.1 then f other.2 else other.2) = key other.2 := by
    intro other
    split
    · exact hf other.2
    · rfl
  rw [update, elements_mapNodes, elements, List.filter_map, List.filter_map]
  have hsame : l.nodes.filter ((fun a => decide (key a ≠ key node.2)) ∘ fun other =>
      if other.1 = node.1 then f other.2 else other.2) =
      l.nodes.filter ((fun a => decide (key a ≠ key node.2)) ∘ Prod.snd) :=
    List.filter_congr fun other _ => by rw [Function.comp_apply, Function.comp_apply, hkey]
  rw [hsame]
  refine List.map_congr_left fun other hother => ?_
  obtain ⟨hmem, hne⟩ := List.mem_filter.mp hother
  rw [if_neg]
  intro heq
  rw [List.inj_on_of_nodup_map l.distinct hmem hnode heq] at hne
  simp at hne

theorem elements_erase (h : Indexes key index l) (hnode : node ∈ l.nodes) :
    (l.erase node.1).elements = l.elements.filter fun a => key a ≠ key node.2 := h.elements_filter hnode

theorem elements_toFront (h : Indexes key index l) (hnode : node ∈ l.nodes) :
    (l.toFront node.1).elements = node.2 :: l.elements.filter fun a => key a ≠ key node.2 := by
  rw [elements, nodes_toFront hnode, List.map_cons, h.elements_filter hnode]

theorem elements_toBack (h : Indexes key index l) (hnode : node ∈ l.nodes) :
    (l.toBack node.1).elements = (l.elements.filter fun a => key a ≠ key node.2) ++ [node.2] := by
  rw [elements, nodes_toBack hnode, List.map_append, h.elements_filter hnode, List.map_singleton]

theorem erase (h : Indexes key index l) (hnode : node ∈ l.nodes) :
    Indexes key (OrderedMap.remove (key node.2) index) (l.erase node.1) where
  perm := by
    refine (h.perm.filter _).trans (.of_eq ?_)
    rw [List.filter_map, LinkedList.erase]
    congr 1
    refine List.filter_congr fun other hother => ?_
    rw [Function.comp_apply, decide_eq_decide, not_iff_not]
    constructor
    · intro heq
      rw [h.key_injective hother hnode heq]
    · intro heq
      rw [List.inj_on_of_nodup_map l.distinct hother hnode heq]
  unique := by
    rw [h.elements_erase hnode]
    exact h.unique.sublist (List.filter_sublist.map key)

end Indexes

end LinkedList
