-- SUMMARY: Depth-first expansion of a graph whose nodes consist of leaves and edges.
import Mathlib.Data.List.Nodup
import Mathlib.Data.Set.Insert
import Mathlib.Logic.Relation

/-! # Depth-First Expansion

A node consists of leaves and edges to nodes, in an order. To expand it is to put the leaves
of a node in the place of the first edge to it, depth first, and nothing in the place of any
other. -/

namespace DepthFirst

variable {α β : Type}

/-- What a node consists of. -/
inductive Item (α β : Type) where
  | leaf (b : β)
  | edge (a : α)

/-- A node that was entered, with what it consists of. -/
structure Visit (α β : Type) where
  node : α
  content : List (Item α β)

def Item.leaf? : Item α β → Option β
  | .leaf b => some b
  | .edge _ => none

def leaves (items : List (Item α β)) : List β := items.filterMap Item.leaf?

/-- The nodes that were seen once some visits were made. -/
def after (seen : Set α) (visits : List (Visit α β)) : Set α := {a | a ∈ seen ∨ a ∈ visits.map Visit.node}

/-- Expanding items, when some nodes have been seen, makes visits and leaves an output. -/
inductive Expands (Content : α → List (Item α β) → Prop) :
    Set α → List (Item α β) → List (Visit α β) → List β → Prop where
  | done {seen : Set α} : Expands Content seen [] [] []
  | leaf {seen : Set α} {b : β} {items : List (Item α β)} {visits : List (Visit α β)} {out : List β}
      (hrest : Expands Content seen items visits out) : Expands Content seen (.leaf b :: items) visits (b :: out)
  | skip {seen : Set α} {a : α} {items : List (Item α β)} {visits : List (Visit α β)} {out : List β}
      (hseen : a ∈ seen) (hrest : Expands Content seen items visits out) :
      Expands Content seen (.edge a :: items) visits out
  | enter {seen : Set α} {a : α} {content items : List (Item α β)} {inner visits : List (Visit α β)}
      {innerOut out : List β} (hnew : a ∉ seen) (hcontent : Content a content)
      (hinner : Expands Content (insert a seen) content inner innerOut)
      (hrest : Expands Content (after seen (⟨a, content⟩ :: inner)) items visits out) :
      Expands Content seen (.edge a :: items) (⟨a, content⟩ :: inner ++ visits) (innerOut ++ out)

/-! ## What has been seen -/

section Seen

variable {seen : Set α} {visits visits' : List (Visit α β)} {v : Visit α β} {a : α}

theorem mem_after : a ∈ after seen visits ↔ a ∈ seen ∨ a ∈ visits.map Visit.node := Iff.rfl

theorem after_nil : after seen ([] : List (Visit α β)) = seen := by
  ext a
  simp [after]

theorem after_append : after seen (visits ++ visits') = after (after seen visits) visits' := by
  ext a
  simp only [mem_after, List.map_append, List.mem_append, or_assoc]

theorem after_cons : after seen (v :: visits) = after (insert v.node seen) visits := by
  ext a
  simp only [mem_after, List.map_cons, List.mem_cons, Set.mem_insert_iff, or_assoc, or_left_comm]

end Seen

variable {Content : α → List (Item α β) → Prop} {seen : Set α} {items items' : List (Item α β)}
  {visits : List (Visit α β)} {out : List β}

/-! ## Composition -/

theorem Expands.append {visits' : List (Visit α β)} {out' : List β} (h : Expands Content seen items visits out)
    (h' : Expands Content (after seen visits) items' visits' out') :
    Expands Content seen (items ++ items') (visits ++ visits') (out ++ out') := by
  induction h with
  | done =>
    rw [after_nil] at h'
    exact h'
  | leaf _ ih => exact .leaf (ih h')
  | skip hseen _ ih => exact .skip hseen (ih h')
  | enter hnew hcontent hinner _ _ ih =>
    rw [after_append] at h'
    rw [List.append_assoc, List.append_assoc]
    exact .enter hnew hcontent hinner (ih h')

theorem expands_leaves (bs : List β) : Expands Content seen (bs.map .leaf) [] bs := by
  induction bs with
  | nil => exact .done
  | cons b bs ih => exact .leaf ih

/-- Items are expanded one after the other. -/
theorem Expands.of_append (h : Expands Content seen (items ++ items') visits out) :
    ∃ visits₁ visits₂ out₁ out₂, visits = visits₁ ++ visits₂ ∧ out = out₁ ++ out₂ ∧
      Expands Content seen items visits₁ out₁ ∧ Expands Content (after seen visits₁) items' visits₂ out₂ := by
  induction items generalizing seen visits out with
  | nil =>
    refine ⟨[], visits, [], out, rfl, rfl, .done, ?_⟩
    rw [after_nil]
    exact h
  | cons item items ih =>
    cases h with
    | leaf hrest =>
      obtain ⟨visits₁, visits₂, out₁, out₂, rfl, rfl, h₁, h₂⟩ := ih hrest
      exact ⟨visits₁, visits₂, _, out₂, rfl, rfl, .leaf h₁, h₂⟩
    | skip hseen hrest =>
      obtain ⟨visits₁, visits₂, out₁, out₂, rfl, rfl, h₁, h₂⟩ := ih hrest
      exact ⟨visits₁, visits₂, out₁, out₂, rfl, rfl, .skip hseen h₁, h₂⟩
    | @enter _ a content _ inner _ innerOut _ hnew hcontent hinner hrest =>
      obtain ⟨visits₁, visits₂, out₁, out₂, rfl, rfl, h₁, h₂⟩ := ih hrest
      refine ⟨⟨a, content⟩ :: inner ++ visits₁, visits₂, innerOut ++ out₁, out₂, ?_, ?_,
        .enter hnew hcontent hinner h₁, ?_⟩
      · simp only [List.cons_append, List.append_assoc]
      · rw [List.append_assoc]
      · rw [after_append]
        exact h₂

/-! ## Laws -/

/-- No node is entered twice, or when it was seen before. -/
theorem Expands.nodup (h : Expands Content seen items visits out) :
    (visits.map Visit.node).Nodup ∧ ∀ a ∈ visits.map Visit.node, a ∉ seen := by
  induction h with
  | done => exact ⟨List.nodup_nil, fun a ha => absurd ha List.not_mem_nil⟩
  | leaf _ ih => exact ih
  | skip _ _ ih => exact ih
  | @enter seen a content items inner visits innerOut out hnew _ _ _ ihinner ihrest =>
    have hfresh : a ∉ inner.map Visit.node := fun ha => ihinner.2 a ha (Set.mem_insert a seen)
    have hbefore : ∀ b ∈ visits.map Visit.node, b ∉ seen ∧ b ≠ a ∧ b ∉ inner.map Visit.node := by
      intro b hb
      have hnot := ihrest.2 b hb
      rw [mem_after, List.map_cons, List.mem_cons, not_or, not_or] at hnot
      exact hnot
    rw [List.map_append, List.map_cons]
    refine ⟨(List.nodup_append).mpr ⟨List.nodup_cons.mpr ⟨hfresh, ihinner.1⟩, ihrest.1, ?_⟩, ?_⟩
    · rintro b hb c hc rfl
      rcases List.mem_cons.mp hb with rfl | hb
      · exact (hbefore b hc).2.1 rfl
      · exact (hbefore b hc).2.2 hb
    · intro b hb
      rcases List.mem_append.mp hb with hb | hb
      · rcases List.mem_cons.mp hb with rfl | hb
        · exact hnew
        · exact fun hseen => ihinner.2 b hb (Set.mem_insert_of_mem a hseen)
      · exact (hbefore b hb).1

theorem Expands.content (h : Expands Content seen items visits out) : ∀ v ∈ visits, Content v.node v.content := by
  induction h with
  | done => exact fun v hv => absurd hv List.not_mem_nil
  | leaf _ ih => exact ih
  | skip _ _ ih => exact ih
  | enter _ hcontent _ _ ihinner ihrest =>
    intro v hv
    rcases List.mem_append.mp hv with hv | hv
    · rcases List.mem_cons.mp hv with rfl | hv
      · exact hcontent
      · exact ihinner v hv
    · exact ihrest v hv

/-- Each leaf of the items and of each node that was entered is in the output, once. -/
theorem Expands.perm (h : Expands Content seen items visits out) :
    out.Perm (leaves items ++ visits.flatMap fun v => leaves v.content) := by
  induction h with
  | done => exact List.Perm.refl _
  | leaf _ ih => exact ih.cons _
  | skip _ _ ih => exact ih
  | @enter seen a content items inner visits innerOut out _ _ _ _ ihinner ihrest =>
    have hedge : leaves (.edge a :: items) = leaves items := rfl
    rw [hedge, List.cons_append, List.flatMap_cons, List.flatMap_append, ← List.append_assoc (leaves content)]
    exact (ihinner.append ihrest).trans (List.perm_append_comm_assoc _ _ _)

/-- The target of an edge has been seen in the end. -/
theorem Expands.closed (h : Expands Content seen items visits out) {a : α}
    (ha : .edge a ∈ items ∨ ∃ v ∈ visits, .edge a ∈ v.content) : a ∈ after seen visits := by
  induction h with
  | done =>
    rcases ha with ha | ⟨v, hv, -⟩
    · exact absurd ha List.not_mem_nil
    · exact absurd hv List.not_mem_nil
  | leaf _ ih =>
    refine ih (ha.imp_left fun ha => ?_)
    exact (List.mem_cons.mp ha).resolve_left fun heq => by cases heq
  | skip hseen _ ih =>
    rcases ha with ha | ha
    · rcases List.mem_cons.mp ha with heq | ha
      · cases heq
        exact Or.inl hseen
      · exact ih (Or.inl ha)
    · exact ih (Or.inr ha)
  | @enter seen b content items inner visits innerOut out _ _ _ _ ihinner ihrest =>
    rw [after_append]
    have hinner : (.edge a ∈ content ∨ ∃ v ∈ inner, .edge a ∈ v.content) →
        a ∈ after (after seen (⟨b, content⟩ :: inner)) visits := by
      intro ha
      refine Or.inl ?_
      rw [after_cons]
      exact ihinner ha
    rcases ha with ha | ⟨v, hv, ha⟩
    · rcases List.mem_cons.mp ha with heq | ha
      · cases heq
        exact Or.inl (Or.inr List.mem_cons_self)
      · exact ihrest (Or.inl ha)
    · rcases List.mem_append.mp hv with hv | hv
      · rcases List.mem_cons.mp hv with rfl | hv
        · exact hinner (Or.inl ha)
        · exact hinner (Or.inr ⟨v, hv, ha⟩)
      · exact ihrest (Or.inr ⟨v, hv, ha⟩)

/-- An edge of a node that was entered, to one that had not been seen. -/
def Leads (seen : Set α) (visits : List (Visit α β)) (a b : α) : Prop :=
  (∃ v ∈ visits, v.node = a ∧ .edge b ∈ v.content) ∧ b ∉ seen

theorem Leads.mono {seen' : Set α} {visits' : List (Visit α β)} (hseen : seen ⊆ seen')
    (hvisits : ∀ v ∈ visits, v ∈ visits') {a b : α} (h : Relation.ReflTransGen (Leads seen' visits) a b) :
    Relation.ReflTransGen (Leads seen visits') a b := by
  refine Relation.ReflTransGen.mono (fun c d hlead => ?_) _ _ h
  obtain ⟨⟨v, hv, hnode, hedge⟩, hfresh⟩ := hlead
  exact ⟨⟨v, hvisits v hv, hnode, hedge⟩, fun hmem => hfresh (hseen hmem)⟩

/-- Only what an edge leads to is entered. -/
theorem Expands.reached (h : Expands Content seen items visits out) {a : α} (ha : a ∈ visits.map Visit.node) :
    ∃ b, .edge b ∈ items ∧ b ∉ seen ∧ Relation.ReflTransGen (Leads seen visits) b a := by
  induction h with
  | done => exact absurd ha List.not_mem_nil
  | leaf _ ih =>
    obtain ⟨b, hb, hreach⟩ := ih ha
    exact ⟨b, List.mem_cons_of_mem _ hb, hreach⟩
  | skip _ _ ih =>
    obtain ⟨b, hb, hreach⟩ := ih ha
    exact ⟨b, List.mem_cons_of_mem _ hb, hreach⟩
  | @enter seen c content items inner visits innerOut out hnew _ _ _ ihinner ihrest =>
    rw [List.map_append, List.mem_append, List.map_cons, List.mem_cons] at ha
    rcases ha with (rfl | ha) | ha
    · exact ⟨a, List.mem_cons_self, hnew, .refl⟩
    · obtain ⟨b, hb, hfresh, hreach⟩ := ihinner ha
      have hin : ∀ v ∈ inner, v ∈ ⟨c, content⟩ :: inner ++ visits := fun v hv =>
        List.mem_append_left _ (List.mem_cons_of_mem _ hv)
      have hfirst : Leads seen (⟨c, content⟩ :: inner ++ visits) c b :=
        ⟨⟨_, List.mem_cons_self, rfl, hb⟩, fun hseen => hfresh (Set.mem_insert_of_mem c hseen)⟩
      exact ⟨c, List.mem_cons_self, hnew, .head hfirst (Leads.mono (Set.subset_insert c seen) hin hreach)⟩
    · obtain ⟨b, hb, hfresh, hreach⟩ := ihrest ha
      refine ⟨b, List.mem_cons_of_mem _ hb, fun hseen => hfresh (Or.inl hseen), ?_⟩
      exact Leads.mono (fun _ hseen => Or.inl hseen) (fun v hv => List.mem_append_right _ hv) hreach

/-- The nodes entered are those that edges reach through nodes that had not been seen. -/
theorem Expands.mem_iff (h : Expands Content seen items visits out) {a : α} : a ∈ visits.map Visit.node ↔
    ∃ b, .edge b ∈ items ∧ b ∉ seen ∧ Relation.ReflTransGen (Leads seen visits) b a := by
  constructor
  · exact h.reached
  · rintro ⟨b, hb, hfresh, hreach⟩
    have hstart : b ∈ visits.map Visit.node := (h.closed (Or.inl hb)).resolve_left hfresh
    induction hreach with
    | refl => exact hstart
    | tail _ hstep _ =>
      obtain ⟨⟨v, hv, -, hedge⟩, hnew⟩ := hstep
      exact (h.closed (Or.inr ⟨v, hv, hedge⟩)).resolve_left hnew

end DepthFirst
