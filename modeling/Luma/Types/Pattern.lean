-- SUMMARY: Type pattern strings: how the machine parses them, and how the parts come back.
import Luma.Library.BigEndian
import Luma.Library.Brackets
import Luma.Types.TypeInfo

/-! # Type Patterns

The compiler hands types to the machine as strings. The machine parses one layer at a
time: a tuple in parentheses, a base name with parameters in angle brackets, or a simple
name. A text whose brackets match is read back as it was put together. -/

namespace Luma

open Codec

namespace TypePattern

/-! ## Letters -/

/-- The letters a pattern is divided by. -/
def lt : UInt8 := 60
def gt : UInt8 := 62
def lparen : UInt8 := 40
def rparen : UInt8 := 41
def comma : UInt8 := 44

/-- Brackets of both kinds, with the comma between components. -/
def delimiters : Delimiters UInt8 where
  isOpen c := c == lt || c == lparen
  isClose c := c == gt || c == rparen
  isSeparator c := c == comma

/-- The angle brackets alone. -/
def angles : Delimiters UInt8 where
  isOpen c := c == lt
  isClose c := c == gt
  isSeparator _ := false

/-! ## Qualified names -/

def dot : UInt8 := 46

def isQualifiedName (name : Bytes) : Bool := name.any (· = dot)

/-- What follows the last dot of a name, or the whole name. -/
def qualifiedMember (name : Bytes) : Bytes := (name.reverse.takeWhile (· ≠ dot)).reverse

def makeQualified (ns member : Bytes) : Bytes := if ns = [] then member else ns ++ dot :: member

/-- What precedes the last dot of a name; nothing if there is no dot. -/
def owningNamespace (name : Bytes) : Bytes :=
  if isQualifiedName name then ((name.reverse.dropWhile (· ≠ dot)).tail).reverse else []

/-- Is code in `current` inside `owner`, or in a namespace nested in it? -/
def isWithinNamespace (current owner : Bytes) : Bool :=
  owner ≠ [] ∧ current.take owner.length = owner ∧
    (current.length = owner.length ∨ current[owner.length]? = some dot)

/-! ## Parsing -/

inductive Kind where
  | simple | parameterized | tuple
  deriving DecidableEq, Repr

end TypePattern

/-- One layer of a type pattern. -/
structure TypePattern where
  kind : TypePattern.Kind
  base : Bytes
  params : List Bytes
  deriving DecidableEq, Repr

namespace TypePattern

/-- Split a list of type arguments at its outermost commas. -/
def splitTopLevelParams (inner : Bytes) : List Bytes := delimiters.split inner

/-- The letters before the bracket that closes the one already open `depth` times, and
    those after it. -/
def closingAngle (depth : Nat) (inner : Bytes) : Bytes → Option (Bytes × Bytes)
  | [] => none
  | c :: text =>
    if c = lt then closingAngle (depth + 1) (inner ++ [c]) text
    else if c = gt then
      if depth = 0 then some (inner, text) else closingAngle (depth - 1) (inner ++ [c]) text
    else closingAngle depth (inner ++ [c]) text

/-- The letters before the first opening angle bracket, and those after it. -/
def openingAngle (base : Bytes) : Bytes → Option (Bytes × Bytes)
  | [] => none
  | c :: text => if c = lt then some (base, text) else openingAngle (base ++ [c]) text

/-- Parse one layer of a pattern. The bracket that closes the first angle bracket must be
    the last letter. -/
def parse (pattern : Bytes) : Option TypePattern :=
  if pattern = [] then none
  else if pattern.head? = some lparen ∧ pattern.getLast? = some rparen then
    some ⟨.tuple, [], splitTopLevelParams (pattern.tail.dropLast)⟩
  else
    match openingAngle [] pattern with
    | some (base, rest) =>
      match closingAngle 0 [] rest with
      | some (inner, []) => some ⟨.parameterized, base, splitTopLevelParams inner⟩
      | _ => none
    | none => some ⟨.simple, pattern, []⟩

/-! ## Reading back what was put together -/

/-- `base<params>` with the parameters separated by commas. -/
def generic (base : Bytes) (params : List Bytes) : Bytes :=
  base ++ lt :: Delimiters.join comma params ++ [gt]

/-- `(params)` with the parameters separated by commas. -/
def tuple (params : List Bytes) : Bytes := lparen :: Delimiters.join comma params ++ [rparen]

/-- A text that can stand as a component of a pattern. -/
structure Component (p : Bytes) : Prop where
  nonempty : p ≠ []
  balanced : delimiters.Component p
  angled : angles.Component p

/-- A name without brackets or commas. -/
def IsName (p : Bytes) : Prop := p ≠ [] ∧ ∀ c ∈ p, delimiters.IsPlain c

instance {p : Bytes} : Decidable (IsName p) :=
  decidable_of_iff ((!p.isEmpty && p.all fun c => decide (delimiters.IsPlain c)) = true)
    (by simp [IsName])

theorem IsName.ne_lt {p : Bytes} (h : IsName p) {c : UInt8} (hc : c ∈ p) : c ≠ lt := by
  rintro rfl
  have := (h.2 _ hc).1
  simp [delimiters] at this

theorem IsName.ne_lparen {p : Bytes} (h : IsName p) {c : UInt8} (hc : c ∈ p) : c ≠ lparen := by
  rintro rfl
  have := (h.2 _ hc).1
  simp [delimiters] at this

theorem IsName.ne_gt {p : Bytes} (h : IsName p) {c : UInt8} (hc : c ∈ p) : c ≠ gt := by
  rintro rfl
  have := (h.2 _ hc).2.1
  simp [delimiters] at this

theorem IsName.component {p : Bytes} (h : IsName p) : Component p where
  nonempty := h.1
  balanced := Delimiters.component_plain h.2
  angled := Delimiters.component_plain fun c hc => by
    simp [Delimiters.IsPlain, angles, h.ne_lt hc, h.ne_gt hc]

theorem openingAngle_append {base name rest : Bytes} (h : ∀ c ∈ name, c ≠ lt) :
    openingAngle base (name ++ lt :: rest) = some (base ++ name, rest) := by
  induction name generalizing base with
  | nil => simp [openingAngle]
  | cons c name ih =>
    rw [List.cons_append, openingAngle, if_neg (h c List.mem_cons_self),
      ih fun c' hc' => h c' (List.mem_cons_of_mem c hc')]
    simp

theorem openingAngle_none {base name : Bytes} (h : ∀ c ∈ name, c ≠ lt) :
    openingAngle base name = none := by
  induction name generalizing base with
  | nil => rfl
  | cons c name ih =>
    rw [openingAngle, if_neg (h c List.mem_cons_self)]
    exact ih fun c' hc' => h c' (List.mem_cons_of_mem c hc')

theorem closingAngle_append {d e : Nat} {inner p rest : Bytes} (h : angles.scan d p = some e) :
    closingAngle d inner (p ++ rest) = closingAngle e (inner ++ p) rest := by
  induction p generalizing d inner with
  | nil =>
    simp only [Delimiters.scan, Option.some.injEq] at h
    simp [h]
  | cons c p ih =>
    have hassoc : inner ++ c :: p = inner ++ [c] ++ p := by simp
    simp only [Delimiters.scan, angles, beq_iff_eq, Bool.false_and, Bool.false_eq_true,
      if_false] at h
    rw [List.cons_append, closingAngle, hassoc]
    split at h
    · rename_i hopen
      rw [if_pos hopen]
      exact ih h
    · rename_i hopen
      rw [if_neg hopen]
      split at h
      · rename_i hclose
        rw [if_pos hclose]
        cases d with
        | zero => simp at h
        | succ d =>
          rw [if_neg (Nat.succ_ne_zero d)]
          exact ih h
      · rename_i hclose
        rw [if_neg hclose]
        exact ih h

theorem splitTopLevelParams_join {params : List Bytes} (hne : params ≠ [])
    (h : ∀ p ∈ params, Component p) :
    splitTopLevelParams (Delimiters.join comma params) = params := by
  cases params with
  | nil => exact absurd rfl hne
  | cons p params =>
    apply Delimiters.split_join
    · rfl
    · rfl
    · rfl
    · exact fun q hq => (h q hq).balanced

/-- A join of components can be read inside angle brackets, whatever separates them. -/
theorem angles_join {params : List Bytes} (h : ∀ p ∈ params, Component p) :
    angles.Component (Delimiters.join comma params) := by
  induction params with
  | nil => rfl
  | cons p params ih =>
    have hp := (h p List.mem_cons_self).angled
    have hrest := ih fun q hq => h q (List.mem_cons_of_mem p hq)
    cases params with
    | nil => exact hp
    | cons q params =>
      rw [Delimiters.join_cons_cons]
      have hcomma : angles.Component [comma] := rfl
      exact hp.append (hcomma.append hrest)

theorem parse_name {p : Bytes} (h : IsName p) : parse p = some ⟨.simple, p, []⟩ := by
  have hhead : ¬ (p.head? = some lparen ∧ p.getLast? = some rparen) := by
    rintro ⟨hp, -⟩
    exact h.ne_lparen (List.mem_of_mem_head? hp) rfl
  unfold parse
  rw [if_neg h.1, if_neg hhead, openingAngle_none fun c hc => h.ne_lt hc]

theorem parse_generic {base : Bytes} {params : List Bytes} (hbase : IsName base)
    (hne : params ≠ []) (h : ∀ p ∈ params, Component p) :
    parse (generic base params) = some ⟨.parameterized, base, params⟩ := by
  have hform : generic base params =
      base ++ lt :: (Delimiters.join comma params ++ [gt]) := by simp [generic]
  have hhead : ¬ ((generic base params).head? = some lparen ∧
      (generic base params).getLast? = some rparen) := by
    rintro ⟨-, hp⟩
    rw [generic, List.getLast?_concat] at hp
    simp [gt, rparen] at hp
  unfold parse
  rw [if_neg (by simp [generic]), if_neg hhead, hform,
    openingAngle_append fun c hc => hbase.ne_lt hc]
  simp only [List.nil_append]
  rw [closingAngle_append (angles_join h)]
  simp [closingAngle, gt, lt, splitTopLevelParams_join hne h]

theorem parse_tuple {params : List Bytes} (hne : params ≠ []) (h : ∀ p ∈ params, Component p) :
    parse (tuple params) = some ⟨.tuple, [], params⟩ := by
  have hhead : (tuple params).head? = some lparen ∧ (tuple params).getLast? = some rparen :=
    ⟨rfl, by rw [tuple, List.getLast?_concat]⟩
  unfold parse
  rw [if_neg (by simp [tuple]), if_pos hhead]
  simp [tuple, splitTopLevelParams_join hne h]

theorem Component.tuple {params : List Bytes} (h : ∀ p ∈ params, Component p) :
    Component (tuple params) where
  nonempty := by simp [TypePattern.tuple]
  balanced := by
    apply Delimiters.component_bracketed
    · rfl
    · rfl
    · rfl
    · exact Delimiters.scan_join rfl rfl (fun p hp => (h p hp).balanced) 0
  angled := by
    have hopen : angles.Component [lparen] := rfl
    have hclose : angles.Component [rparen] := rfl
    have hinner := (hopen.append (angles_join h)).append hclose
    simpa [TypePattern.tuple] using hinner

theorem Component.generic {base : Bytes} {params : List Bytes} (hbase : IsName base)
    (h : ∀ p ∈ params, Component p) : Component (generic base params) where
  nonempty := by simp [TypePattern.generic]
  balanced := by
    have hinner : delimiters.Component (lt :: Delimiters.join comma params ++ [gt]) := by
      apply Delimiters.component_bracketed
      · rfl
      · rfl
      · rfl
      · exact Delimiters.scan_join rfl rfl (fun p hp => (h p hp).balanced) 0
    have hall := hbase.component.balanced.append hinner
    simpa [TypePattern.generic] using hall
  angled := by
    have hinner : angles.Component (lt :: Delimiters.join comma params ++ [gt]) := by
      apply Delimiters.component_bracketed
      · rfl
      · rfl
      · rfl
      · exact (angles_join h).scan 1
    have hall := hbase.component.angled.append hinner
    simpa [TypePattern.generic] using hall

end TypePattern

end Luma
