-- SUMMARY: A line of symbols with a cursor, and the editing of the flat sequence that encodes it.
import Mathlib.Tactic.Common
import Mathlib.Data.List.TakeWhile

/-! # Coded lines

A line of symbols is edited at a cursor between two of them. An editor keeps the line as the
flat sequence of the codes of its symbols, and the cursor as an offset into it. -/

namespace CodedLine

variable {α β : Type}

/-- A line of symbols, cut at its cursor. -/
@[ext] structure Line (α : Type) where
  left : List α := []
  right : List α := []
  deriving DecidableEq, Repr

namespace Line

def text (l : Line α) : List α := l.left ++ l.right

/-! ## Edits -/

/-- A line with the cursor behind it. -/
def atEnd (text : List α) : Line α := ⟨text, []⟩

def insert (l : Line α) (a : α) : Line α := ⟨l.left ++ [a], l.right⟩

def deleteBefore (l : Line α) : Line α := ⟨l.left.dropLast, l.right⟩

def deleteAfter (l : Line α) : Line α := ⟨l.left, l.right.tail⟩

def back (l : Line α) : Line α := ⟨l.left.dropLast, l.left.getLast?.toList ++ l.right⟩

def forward (l : Line α) : Line α := ⟨l.left ++ l.right.head?.toList, l.right.tail⟩

def toStart (l : Line α) : Line α := ⟨[], l.text⟩

def toEnd (l : Line α) : Line α := atEnd l.text

def killAfter (l : Line α) : Line α := ⟨l.left, []⟩

def killBefore (l : Line α) : Line α := ⟨[], l.right⟩

/-- The symbols between the last one before the cursor that ends a word, and the cursor. -/
def word (ends : α → Bool) (l : Line α) : List α := (l.left.reverse.takeWhile fun a => !ends a).reverse

/-- What is in front of the word. -/
def beforeWord (ends : α → Bool) (l : Line α) : List α := (l.left.reverse.dropWhile fun a => !ends a).reverse

def replaceWord (ends : α → Bool) (l : Line α) (new : List α) : Line α := ⟨l.beforeWord ends ++ new, l.right⟩

/-! ## Laws -/

theorem left_eq (ends : α → Bool) (l : Line α) : l.left = l.beforeWord ends ++ l.word ends := by
  rw [beforeWord, word, ← List.reverse_append, List.takeWhile_append_dropWhile, List.reverse_reverse]

theorem ends_eq_false_of_mem_word {ends : α → Bool} {l : Line α} {a : α} (ha : a ∈ l.word ends) :
    ends a = false := by
  rw [word, List.mem_reverse] at ha
  simpa using List.mem_takeWhile_imp ha

/-- A word has its line in front of it, or a symbol that ends words. -/
theorem beforeWord_cases (ends : α → Bool) (l : Line α) :
    l.beforeWord ends = [] ∨ ∃ front a, l.beforeWord ends = front ++ [a] ∧ ends a = true := by
  rw [beforeWord]
  cases hrest : l.left.reverse.dropWhile fun a => !ends a with
  | nil => exact .inl rfl
  | cons a front =>
    right
    refine ⟨front.reverse, a, List.reverse_cons, ?_⟩
    have hstop := List.head_dropWhile_not (fun a => !ends a) (l := l.left.reverse) (by rw [hrest]; exact List.cons_ne_nil a front)
    simpa [hrest] using hstop

end Line

/-! ## Sequences edited at an offset -/

def insertAt (s : List β) (pos : Nat) (new : List β) : List β := s.take pos ++ new ++ s.drop pos

def eraseAt (s : List β) (pos count : Nat) : List β := s.take pos ++ s.drop (pos + count)

def replaceAt (s : List β) (pos count : Nat) (new : List β) : List β := s.take pos ++ new ++ s.drop (pos + count)

section Splices

variable {x y z new : List β}

theorem drop_append_append : (x ++ y ++ z).drop (x.length + y.length) = z := by
  rw [← List.length_append, List.drop_left]

theorem take_append_append : (x ++ y ++ z).take x.length = x := by
  rw [List.append_assoc, List.take_left]

theorem insertAt_append : insertAt (x ++ z) x.length new = x ++ new ++ z := by
  rw [insertAt, List.take_left, List.drop_left]

theorem eraseAt_append : eraseAt (x ++ y ++ z) x.length y.length = x ++ z := by
  rw [eraseAt, take_append_append, drop_append_append]

theorem replaceAt_append : replaceAt (x ++ y ++ z) x.length y.length new = x ++ new ++ z := by
  rw [replaceAt, take_append_append, drop_append_append]

end Splices

/-! ## Codes -/

variable (code : α → List β)

def encode (s : List α) : List β := s.flatMap code

@[simp] theorem encode_nil : encode code [] = [] := rfl

@[simp] theorem encode_cons (a : α) (s : List α) : encode code (a :: s) = code a ++ encode code s := rfl

@[simp] theorem encode_append (s t : List α) : encode code (s ++ t) = encode code s ++ encode code t :=
  List.flatMap_append

theorem encode_singleton (a : α) : encode code [a] = code a := by
  rw [encode_cons, encode_nil, List.append_nil]

/-- The codes of the symbols one behind another. -/
def Line.buffer (l : Line α) : List β := encode code l.text

/-- Where the code behind the cursor starts. -/
def Line.offset (l : Line α) : Nat := (encode code l.left).length

variable {code} {l : Line α} {a : α}

theorem Line.buffer_eq : l.buffer code = encode code l.left ++ encode code l.right := encode_append code _ _

theorem Line.offset_le : l.offset code ≤ (l.buffer code).length := by
  rw [Line.buffer_eq, List.length_append]
  exact Nat.le_add_right _ _

/-- No symbol is coded as nothing. -/
def Visible (code : α → List β) : Prop := ∀ a, code a ≠ []

theorem encode_eq_nil_iff (hvisible : Visible code) {s : List α} : encode code s = [] ↔ s = [] := by
  constructor
  · intro hnil
    cases s with
    | nil => rfl
    | cons a s => exact absurd (List.append_eq_nil_iff.mp hnil).1 (hvisible a)
  · rintro rfl
    rfl

theorem Line.offset_eq_zero_iff (hvisible : Visible code) : l.offset code = 0 ↔ l.left = [] := by
  rw [Line.offset, List.length_eq_zero_iff, encode_eq_nil_iff hvisible]

/-- The cursor is in front of the end as long as there is a symbol behind it. -/
theorem Line.offset_lt_iff (hvisible : Visible code) : l.offset code < (l.buffer code).length ↔ l.right ≠ [] := by
  rw [Line.buffer_eq, List.length_append, Line.offset, Ne, ← encode_eq_nil_iff hvisible, ← List.length_eq_zero_iff]
  omega

/-! ## Codes that tell symbols apart -/

/-- The front of a sequence is the code of one symbol at most. -/
def Instantaneous (code : α → List β) : Prop := ∀ {a b : α} {x y : List β}, code a ++ x = code b ++ y → a = b ∧ x = y

/-- No code starts inside another one. -/
def Synchronizing (code : α → List β) : Prop :=
  ∀ {a b : α} {x y z z' : List β}, code b = x ++ y → x ≠ [] → y ≠ [] → code a ++ z ≠ y ++ z'

section Codes

variable {s t : List α}

theorem Instantaneous.prefix_iff (h : Instantaneous code) (hvisible : Visible code) :
    encode code s <+: encode code t ↔ s <+: t := by
  constructor
  · intro hstart
    induction s generalizing t with
    | nil => exact List.nil_prefix
    | cons a s ih =>
      obtain ⟨rest, hrest⟩ := hstart
      cases t with
      | nil =>
        rw [encode_cons, encode_nil, List.append_assoc] at hrest
        exact absurd (List.append_eq_nil_iff.mp hrest).1 (hvisible a)
      | cons b t =>
        rw [encode_cons, encode_cons, List.append_assoc] at hrest
        obtain ⟨rfl, htail⟩ := h hrest
        exact List.cons_prefix_cons.mpr ⟨rfl, ih ⟨rest, htail⟩⟩
  · rintro ⟨rest, rfl⟩
    exact ⟨encode code rest, (encode_append code s rest).symm⟩

/-- Where the code of a symbol is found, a symbol is. -/
theorem Synchronizing.front (h : Synchronizing code) (hvisible : Visible code)
    {x z : List β} (heq : encode code t = x ++ code a ++ z) : ∃ front, x = encode code front := by
  induction t generalizing x with
  | nil =>
    have hempty := List.append_eq_nil_iff.mp (List.append_eq_nil_iff.mp heq.symm).1
    exact absurd hempty.2 (hvisible a)
  | cons b t ih =>
    by_cases hx : x = []
    · exact ⟨[], hx⟩
    · rw [encode_cons, List.append_assoc] at heq
      rcases List.append_eq_append_iff.mp heq with ⟨x', rfl, ht⟩ | ⟨y, hb, hy⟩
      · obtain ⟨front, rfl⟩ := ih (by rw [ht, List.append_assoc])
        exact ⟨b :: front, rfl⟩
      · by_cases hempty : y = []
        · rw [hempty, List.append_nil] at hb
          exact ⟨[b], by rw [encode_singleton, hb]⟩
        · exact absurd hy (h hb hx hempty)

theorem Synchronizing.infix_iff (h : Synchronizing code) (hinstant : Instantaneous code) (hvisible : Visible code)
    (hs : s ≠ []) : encode code s <:+: encode code t ↔ s <:+: t := by
  constructor
  · rintro ⟨x, z, heq⟩
    obtain ⟨a, s, rfl⟩ := List.exists_cons_of_ne_nil hs
    have hfound : encode code t = x ++ code a ++ (encode code s ++ z) := by
      rw [← heq, encode_cons]
      simp only [List.append_assoc]
    obtain ⟨front, rfl⟩ := h.front hvisible hfound
    rw [← encode_append] at heq
    exact (List.suffix_append front (a :: s)).isInfix.trans
      ((hinstant.prefix_iff hvisible).mp ⟨z, heq⟩).isInfix
  · rintro ⟨front, rest, rfl⟩
    exact ⟨encode code front, encode code rest, by rw [encode_append, encode_append]⟩

end Codes

end CodedLine
