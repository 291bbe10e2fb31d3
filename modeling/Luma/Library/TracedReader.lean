-- SUMMARY: A byte reader by position that records what it does, and the rules by which it refines the abstract one.
import Luma.Library.ByteReader

/-! # Traced Readers

A traced reader walks a buffer by a position, as a reader over a raw pointer does, and
records every byte that it looks at. A program over it may also leave notes, for one
about the loops that it enters. Errors keep the record.

`Refines` says that such a program does the same as an abstract reader, looks at bytes
of the buffer only, and leaves only notes that are allowed. Its rules are syntax
directed; the precondition is about the number of bytes that are left, the postcondition
about the result and the notes. -/

namespace Codec.Traced

/-- What a traced reader records. -/
inductive Event (ν : Type) where
  | byte (index : Nat)
  | note (n : ν)

/-- The state of a traced reader. -/
structure Cursor (ν : Type) where
  pos : Nat
  error : Bool
  log : List (Event ν)

/-- A program over a traced reader. -/
def Walk (ν ε α : Type) := Bytes → Cursor ν → Except ε α × Cursor ν

variable {ν ε α β : Type}

instance : Monad (Walk ν ε) where
  pure a := fun _ c => (.ok a, c)
  bind w f := fun data c =>
    match w data c with
    | (.ok a, c') => f a data c'
    | (.error e, c') => (.error e, c')

namespace Walk

/-- Look at one byte. -/
def byteAt (index : Nat) : Walk ν ε UInt8 := fun data c =>
  (.ok (data.getD index 0), { c with log := c.log ++ [.byte index] })

/-- Look at `count` bytes from an index on. -/
def bytesFrom : (index count : Nat) → Walk ν ε Bytes
  | _, 0 => pure []
  | index, count + 1 => do
    let b ← byteAt index
    let rest ← bytesFrom (index + 1) count
    pure (b :: rest)

def position : Walk ν ε Nat := fun _ c => (.ok c.pos, c)

def advance (count : Nat) : Walk ν ε Unit := fun _ c => (.ok (), { c with pos := c.pos + count })

def raise : Walk ν ε Unit := fun _ c => (.ok (), { c with error := true })

/-- Has a read failed so far? -/
def failed : Walk ν ε Bool := fun _ c => (.ok c.error, c)

/-- Are at least `n` bytes left? -/
def hasRemaining (n : Nat) : Walk ν ε Bool := fun data c => (.ok (decide (n ≤ data.length - c.pos)), c)

/-- Leave a note, which may say how many bytes are left. -/
def note (n : Nat → ν) : Walk ν ε Unit := fun data c =>
  (.ok (), { c with log := c.log ++ [.note (n (data.length - c.pos))] })

def abort (e : ε) : Walk ν ε α := fun _ c => (.error e, c)

/-- Abort with `e` unless `c` holds. -/
def check (c : Bool) (e : ε) : Walk ν ε Unit := if c then pure () else abort e

/-- Consume the next `count` bytes. -/
def take (count : Nat) : Walk ν ε Bytes := do
  let bytes ← bytesFrom (← position) count
  advance count
  pure bytes

/-- A big-endian integer of `width` bytes, or zero with the flag raised. -/
def readInt (width : Nat) : Walk ν ε Nat := do
  if ← hasRemaining width then
    let bytes ← take width
    pure (readIntBe bytes)
  else
    raise
    pure 0

/-- Copy `size` bytes over `dest`, or keep `dest` and raise the flag. -/
def readBytes (dest : Bytes) (size : Nat) : Walk ν ε Bytes := do
  if ← hasRemaining size then take size
  else
    raise
    pure dest

/-- Read back a string behind its four-byte length. -/
def readString : Walk ν ε Bytes := do
  let len ← readInt 4
  let error ← failed
  let enough ← hasRemaining len
  if error || !enough then
    raise
    pure []
  else take len

/-- Read `count` elements one after the other; the reader of each one is told its
    index, counted from `start`. -/
def readIndexed (element : Nat → Walk ν ε α) : (start count : Nat) → Walk ν ε (List α)
  | _, 0 => pure []
  | start, count + 1 => do
    let x ← element start
    let xs ← readIndexed element (start + 1) count
    pure (x :: xs)

/-- Read `count` elements one after the other. -/
def readMany (count : Nat) (element : Walk ν ε α) : Walk ν ε (List α) := readIndexed (fun _ => element) 0 count

/-- Report every failure as `e`. -/
def orElseError {δ : Type} (w : Walk ν δ α) (e : ε) : Walk ν ε α := fun data c =>
  match w data c with
  | (.ok a, c') => (.ok a, c')
  | (.error _, c') => (.error e, c')

end Walk

/-! ## Refinement -/

/-- The notes of a record. -/
def notes (log : List (Event ν)) : List ν :=
  log.filterMap fun
    | .byte _ => none
    | .note n => some n

@[simp] theorem notes_append {log log' : List (Event ν)} : notes (log ++ log') = notes log ++ notes log' :=
  List.filterMap_append

/-- A byte of the buffer, or a note that is allowed. -/
def Event.Fine (Allowed : ν → Prop) (data : Bytes) : Event ν → Prop
  | .byte index => index < data.length
  | .note n => Allowed n

/-- The abstract reader at the same place. -/
def Cursor.reader (data : Bytes) (c : Cursor ν) : Reader where
  rest := data.drop c.pos
  error := c.error

/-- A walk does what the parser does: the same error, or the same result at the same place. -/
def SameResult (data : Bytes) (p : Except ε (α × Reader)) : Except ε α × Cursor ν → Prop
  | (.ok a, c) => c.pos ≤ data.length ∧ p = .ok (a, c.reader data)
  | (.error e, _) => p = .error e

/-- From a place with a number of bytes left for which `P` holds, the walk does what the
    parser does, and records only what is fine; when it ends well, `Q` holds of its
    result, its notes and the number of bytes then left. -/
def Refines (Allowed : ν → Prop) (P : Nat → Prop) (w : Walk ν ε α) (p : Parser ε α)
    (Q : α → List ν → Nat → Prop) : Prop :=
  ∀ data (c : Cursor ν), c.pos ≤ data.length → P (data.length - c.pos) →
    SameResult data (p (c.reader data)) (w data c) ∧
      ∃ new, (w data c).2.log = c.log ++ new ∧ (∀ e ∈ new, e.Fine Allowed data) ∧
        ∀ a, (w data c).1 = .ok a → Q a (notes new) (data.length - (w data c).2.pos)

section Rules

variable {Allowed : ν → Prop} {P : Nat → Prop} {Q : β → List ν → Nat → Prop}

theorem Walk.bind_ok {w : Walk ν ε α} {f : α → Walk ν ε β} {data : Bytes} {c c' : Cursor ν} {a : α}
    (h : w data c = (.ok a, c')) : (w >>= f) data c = f a data c' := by
  simp only [bind, h]

theorem Walk.bind_error {w : Walk ν ε α} {f : α → Walk ν ε β} {data : Bytes} {c c' : Cursor ν} {e : ε}
    (h : w data c = (.error e, c')) : (w >>= f) data c = (.error e, c') := by
  simp only [bind, h]

theorem parser_bind_ok {p : Parser ε α} {g : α → Parser ε β} {r r' : Reader} {a : α} (h : p r = .ok (a, r')) :
    (p >>= g) r = g a r' := by
  simp only [bind, StateT.bind, h, Except.bind]

theorem parser_bind_error {p : Parser ε α} {g : α → Parser ε β} {r : Reader} {e : ε} (h : p r = .error e) :
    (p >>= g) r = .error e := by
  simp only [bind, StateT.bind, h, Except.bind]

theorem Refines.pure {b : β} (h : ∀ left, P left → Q b [] left) : Refines Allowed P (pure b : Walk ν ε β) (pure b) Q := by
  intro data c hpos hleft
  refine ⟨⟨hpos, rfl⟩, [], (List.append_nil _).symm, by simp, ?_⟩
  intro b' hb'
  cases hb'
  exact h _ hleft

theorem Refines.abort {e : ε} {p : Parser ε β} (h : ∀ r, p r = .error e) :
    Refines Allowed P (Walk.abort e : Walk ν ε β) p Q := by
  intro data c _ _
  refine ⟨h _, [], (List.append_nil _).symm, by simp, ?_⟩
  intro b hb
  exact nomatch hb

theorem Refines.weaken {w : Walk ν ε β} {p : Parser ε β} {P' : Nat → Prop}
    {Q' : β → List ν → Nat → Prop} (h : Refines Allowed P w p Q) (hP : ∀ n, P' n → P n)
    (hQ : ∀ b ns n, Q b ns n → Q' b ns n) :
    Refines Allowed P' w p Q' := by
  intro data c hpos hleft
  obtain ⟨hsame, new, hlog, hfine, hpost⟩ := h data c hpos (hP _ hleft)
  exact ⟨hsame, new, hlog, hfine, fun b hb => hQ b _ _ (hpost b hb)⟩

/-- What the parser's results have in common holds of the result. -/
theorem Refines.also {w : Walk ν ε β} {p : Parser ε β} {φ : β → Prop} (h : Refines Allowed P w p Q)
    (hφ : ∀ r b r', p r = .ok (b, r') → φ b) : Refines Allowed P w p fun b ns left => Q b ns left ∧ φ b := by
  intro data c hpos hleft
  obtain ⟨hsame, new, hlog, hfine, hpost⟩ := h data c hpos hleft
  refine ⟨hsame, new, hlog, hfine, fun b hb => ⟨hpost b hb, ?_⟩⟩
  rcases hstep : w data c with ⟨_ | a, c'⟩
  · rw [hstep] at hb
    exact nomatch hb
  · rw [hstep] at hb hsame
    cases hb
    exact hφ _ _ _ hsame.2

theorem parser_bind_inv {p : Parser ε α} {g : α → Parser ε β} {r r'' : Reader} {b : β}
    (h : (p >>= g) r = .ok (b, r'')) : ∃ a r', p r = .ok (a, r') ∧ g a r' = .ok (b, r'') := by
  rcases hp : p r with e | ⟨a, r'⟩
  · rw [parser_bind_error hp] at h
    exact nomatch h
  · rw [parser_bind_ok hp] at h
    exact ⟨a, r', rfl, h⟩

/-- A step, and what comes after it. -/
theorem Refines.bind {w : Walk ν ε α} {p : Parser ε α} {f : α → Walk ν ε β} {g : α → Parser ε β}
    {Q₁ : α → List ν → Nat → Prop} (hw : Refines Allowed P w p Q₁)
    (hf : ∀ a ns, (∃ left, Q₁ a ns left) →
      Refines Allowed (Q₁ a ns) (f a) (g a) fun b ns' => Q b (ns ++ ns')) :
    Refines Allowed P (w >>= f) (p >>= g) Q := by
  intro data c hpos hleft
  obtain ⟨hsame, new, hlog, hfine, hpost⟩ := hw data c hpos hleft
  rcases hstep : w data c with ⟨_ | a, c'⟩
  · rw [hstep] at hsame hlog
    rw [Walk.bind_error hstep, parser_bind_error hsame]
    exact ⟨rfl, new, hlog, hfine, fun b hb => nomatch hb⟩
  · rw [hstep] at hsame hlog hpost
    rw [Walk.bind_ok hstep, parser_bind_ok hsame.2]
    obtain ⟨hsame', new', hlog', hfine', hpost'⟩ := hf a _ ⟨_, hpost a rfl⟩ data c' hsame.1 (hpost a rfl)
    refine ⟨hsame', new ++ new', ?_, ?_, ?_⟩
    · rw [hlog', hlog, List.append_assoc]
    · intro e he
      exact (List.mem_append.mp he).elim (hfine e) (hfine' e)
    · intro b hb
      rw [notes_append]
      exact hpost' b hb

/-- A step that leaves the reader where it is. -/
theorem Refines.look {f : α → Walk ν ε β} {g : α → Parser ε β} {w : Walk ν ε α} {p : Parser ε α}
    {R : α → Nat → Prop}
    (hlook : ∀ data (c : Cursor ν), P (data.length - c.pos) → ∃ a, w data c = (.ok a, c) ∧
      p (c.reader data) = .ok (a, c.reader data) ∧ R a (data.length - c.pos))
    (hf : ∀ a, Refines Allowed (R a) (f a) (g a) Q) : Refines Allowed P (w >>= f) (p >>= g) Q := by
  intro data c hpos hleft
  obtain ⟨a, hw, hp, hR⟩ := hlook data c hleft
  rw [Walk.bind_ok hw, parser_bind_ok hp]
  exact hf a data c hpos hR

theorem Refines.failed {f : Bool → Walk ν ε β} {g : Bool → Parser ε β} (hf : ∀ b, Refines Allowed P (f b) (g b) Q) :
    Refines Allowed P (Walk.failed >>= f) (Parser.failed >>= g) Q :=
  .look (fun _ c hleft => ⟨c.error, rfl, rfl, hleft⟩) hf

theorem Refines.hasRemaining {n : Nat} {f : Bool → Walk ν ε β} {g : Bool → Parser ε β}
    (hf : ∀ b, Refines Allowed (fun left => P left ∧ b = decide (n ≤ left)) (f b) (g b) Q) :
    Refines Allowed P (Walk.hasRemaining n >>= f) (Parser.hasRemaining n >>= g) Q := by
  refine .look (fun data c hleft => ⟨decide (n ≤ data.length - c.pos), rfl, ?_, hleft, rfl⟩) hf
  simp only [Parser.hasRemaining, Cursor.reader, List.length_drop]

theorem Refines.check {cond : Bool} {e : ε} {f : Unit → Walk ν ε β} {g : Unit → Parser ε β}
    (hf : cond = true → Refines Allowed P (f ()) (g ()) Q) :
    Refines Allowed P (Walk.check cond e >>= f) (Parser.check cond e >>= g) Q := by
  cases cond with
  | true => exact hf rfl
  | false =>
    intro data c _ _
    exact ⟨rfl, [], (List.append_nil _).symm, by simp, fun b hb => nomatch hb⟩

/-- A note that is allowed wherever the walk may be. -/
theorem Refines.note {n : Nat → ν} {f : Unit → Walk ν ε β} {p : Parser ε β} (hn : ∀ left, P left → Allowed (n left))
    (hf : ∀ left, P left → Refines Allowed P (f ()) p fun b ns => Q b (n left :: ns)) :
    Refines Allowed P (Walk.note n >>= f) p Q := by
  intro data c hpos hleft
  obtain ⟨hsame, new, hlog, hfine, hpost⟩ := hf _ hleft data
    { c with log := c.log ++ [.note (n (data.length - c.pos))] } hpos hleft
  refine ⟨hsame, .note (n (data.length - c.pos)) :: new, ?_, ?_, hpost⟩
  · rw [Walk.bind_ok rfl, hlog, List.append_assoc]
    rfl
  · intro e he
    rcases List.mem_cons.mp he with rfl | he
    · exact hn _ hleft
    · exact hfine e he

theorem Refines.orElseError {δ : Type} {w : Walk ν δ β} {p : Parser δ β} {e : ε} (h : Refines Allowed P w p Q) :
    Refines Allowed P (w.orElseError e) (p.orElseError e) Q := by
  intro data c hpos hleft
  obtain ⟨hsame, new, hlog, hfine, hpost⟩ := h data c hpos hleft
  rcases hstep : w data c with ⟨_ | a, c'⟩
  · rw [hstep] at hsame hlog
    have hwalk : w.orElseError e data c = (.error e, c') := by simp only [Walk.orElseError, hstep]
    have hparse : p.orElseError e (c.reader data) = .error e := by
      have hp : p (c.reader data) = .error _ := hsame
      simp only [Parser.orElseError, hp]
    rw [hwalk, hparse]
    refine ⟨rfl, new, hlog, hfine, ?_⟩
    intro b hb
    cases hb
  · rw [hstep] at hsame hlog hpost
    have hwalk : w.orElseError e data c = (.ok a, c') := by simp only [Walk.orElseError, hstep]
    have hparse : p.orElseError e (c.reader data) = .ok (a, c'.reader data) := by
      simp only [Parser.orElseError, hsame.2]
    rw [hwalk, hparse]
    exact ⟨⟨hsame.1, rfl⟩, new, hlog, hfine, fun b hb => hpost b (by cases hb; rfl)⟩

/-! ## Reading -/

theorem Walk.bytesFrom_eq {data : Bytes} {c : Cursor ν} {index count : Nat} (h : index + count ≤ data.length) :
    (Walk.bytesFrom index count : Walk ν ε Bytes) data c =
      (.ok ((data.drop index).take count), { c with log := c.log ++ (List.range' index count).map .byte }) := by
  induction count generalizing index c with
  | zero =>
    rw [List.take_zero, List.range'_zero, List.map_nil, List.append_nil]
    rfl
  | succ count ih =>
    have hindex : index < data.length := by omega
    rw [Walk.bytesFrom, Walk.bind_ok rfl, Walk.bind_ok (ih (by omega)), List.drop_eq_getElem_cons hindex,
      List.take_succ_cons]
    simp [Pure.pure, List.range'_succ, hindex]

theorem Walk.take_eq {data : Bytes} {c : Cursor ν} {count : Nat} (h : c.pos + count ≤ data.length) :
    (Walk.take count : Walk ν ε Bytes) data c =
      (.ok ((data.drop c.pos).take count),
        { c with pos := c.pos + count, log := c.log ++ (List.range' c.pos count).map .byte }) := by
  rw [Walk.take, Walk.bind_ok rfl, Walk.bind_ok (Walk.bytesFrom_eq h)]
  rfl

/-- From a state on the walk does what the parser does, and looks at bytes of the buffer only. -/
def QuietAt (data : Bytes) (c : Cursor ν) (w : Walk ν ε α) (p : Parser ε α) : Prop :=
  SameResult data (p (c.reader data)) (w data c) ∧
    ∃ indices : List Nat, (w data c).2.log = c.log ++ indices.map .byte ∧ ∀ i ∈ indices, i < data.length

def Quiet (w : Walk ν ε α) (p : Parser ε α) : Prop :=
  ∀ data (c : Cursor ν), c.pos ≤ data.length → QuietAt data c w p

theorem Quiet.refines {w : Walk ν ε α} {p : Parser ε α} (h : Quiet w p) :
    Refines Allowed P w p fun _ ns _ => ns = [] := by
  intro data c hpos _
  obtain ⟨hsame, indices, hlog, hinside⟩ := h data c hpos
  refine ⟨hsame, _, hlog, ?_, ?_⟩
  · intro e he
    obtain ⟨i, hi, rfl⟩ := List.mem_map.mp he
    exact hinside i hi
  · intro _ _
    simp [notes, List.filterMap_map]

theorem Quiet.bind {w : Walk ν ε α} {p : Parser ε α} {f : α → Walk ν ε β} {g : α → Parser ε β} (hw : Quiet w p)
    (hf : ∀ a, Quiet (f a) (g a)) : Quiet (w >>= f) (p >>= g) := by
  intro data c hpos
  obtain ⟨hsame, indices, hlog, hinside⟩ := hw data c hpos
  rcases hstep : w data c with ⟨_ | a, c'⟩
  · rw [hstep] at hsame hlog
    rw [QuietAt, Walk.bind_error hstep, parser_bind_error hsame]
    exact ⟨rfl, indices, hlog, hinside⟩
  · rw [hstep] at hsame hlog
    rw [QuietAt, Walk.bind_ok hstep, parser_bind_ok hsame.2]
    obtain ⟨hsame', indices', hlog', hinside'⟩ := hf a data c' hsame.1
    refine ⟨hsame', indices ++ indices', ?_, ?_⟩
    · rw [hlog', hlog, List.append_assoc, List.map_append]
    · intro i hi
      exact (List.mem_append.mp hi).elim (hinside i) (hinside' i)

theorem quiet_pure {a : α} : Quiet (pure a : Walk ν ε α) (pure a) :=
  fun _ _ hpos => ⟨⟨hpos, rfl⟩, [], (List.append_nil _).symm, by simp⟩

theorem quiet_failed : Quiet (Walk.failed : Walk ν ε Bool) Parser.failed :=
  fun _ _ hpos => ⟨⟨hpos, rfl⟩, [], (List.append_nil _).symm, by simp⟩

theorem quiet_check {cond : Bool} {e : ε} : Quiet (Walk.check cond e : Walk ν ε Unit) (Parser.check cond e) := by
  intro data c hpos
  cases cond with
  | true => exact ⟨⟨hpos, rfl⟩, [], (List.append_nil _).symm, by simp⟩
  | false => exact ⟨rfl, [], (List.append_nil _).symm, by simp⟩

section Consume

variable {data : Bytes} {c : Cursor ν} {count : Nat} {w : Walk ν ε α} {p : Parser ε α}

/-- The next bytes are consumed. -/
theorem quietAt_take (of : Bytes → α) (hpos : c.pos ≤ data.length) (hcount : count ≤ data.length - c.pos)
    (hw : w data c = (Walk.take count >>= fun bytes => pure (of bytes)) data c)
    (hp : p (c.reader data) = .ok (of ((data.drop c.pos).take count),
      { c.reader data with rest := (data.drop c.pos).drop count })) : QuietAt data c w p := by
  have hfits : c.pos + count ≤ data.length := by omega
  rw [QuietAt, hw, hp, Walk.bind_ok (Walk.take_eq hfits)]
  refine ⟨⟨hfits, ?_⟩, List.range' c.pos count, rfl, ?_⟩
  · simp only [Cursor.reader, List.drop_drop]
  · intro i hi
    have hrange := List.mem_range'_1.mp hi
    omega

/-- Nothing is consumed, and the flag is raised. -/
theorem quietAt_raise {a : α} (hpos : c.pos ≤ data.length) (hw : w data c = (.ok a, { c with error := true }))
    (hp : p (c.reader data) = .ok (a, { c.reader data with error := true })) : QuietAt data c w p := by
  rw [QuietAt, hw, hp]
  exact ⟨⟨hpos, rfl⟩, [], (List.append_nil _).symm, by simp⟩

theorem reader_length : (c.reader data).rest.length = data.length - c.pos := List.length_drop

end Consume

theorem Walk.hasRemaining_true {data : Bytes} {c : Cursor ν} {n : Nat} (h : n ≤ data.length - c.pos) :
    (Walk.hasRemaining n : Walk ν ε Bool) data c = (.ok true, c) := by
  simp only [Walk.hasRemaining, decide_eq_true h]

theorem Walk.hasRemaining_false {data : Bytes} {c : Cursor ν} {n : Nat} (h : ¬ n ≤ data.length - c.pos) :
    (Walk.hasRemaining n : Walk ν ε Bool) data c = (.ok false, c) := by
  simp only [Walk.hasRemaining, decide_eq_false h]

theorem quiet_readInt {width : Nat} : Quiet (Walk.readInt width : Walk ν ε Nat) (Parser.readInt width) := by
  intro data c hpos
  by_cases hcount : width ≤ data.length - c.pos
  · refine quietAt_take readIntBe hpos hcount (Walk.bind_ok (Walk.hasRemaining_true hcount)) ?_
    rw [Parser.readInt, if_pos (by rw [reader_length]; exact hcount)]
    rfl
  · refine quietAt_raise hpos (Walk.bind_ok (Walk.hasRemaining_false hcount)) ?_
    rw [Parser.readInt, if_neg (by rw [reader_length]; exact hcount)]

theorem quiet_readBytes {dest : Bytes} {size : Nat} :
    Quiet (Walk.readBytes dest size : Walk ν ε Bytes) (Parser.readBytes dest size) := by
  intro data c hpos
  by_cases hcount : size ≤ data.length - c.pos
  · refine quietAt_take id hpos hcount ?_ ?_
    · have hfits : c.pos + size ≤ data.length := by omega
      rw [Walk.readBytes, Walk.bind_ok (Walk.hasRemaining_true hcount), if_pos rfl, Walk.take_eq hfits,
        Walk.bind_ok (Walk.take_eq hfits)]
      rfl
    · rw [Parser.readBytes, if_pos (by rw [reader_length]; exact hcount)]
      rfl
  · refine quietAt_raise hpos (Walk.bind_ok (Walk.hasRemaining_false hcount)) ?_
    rw [Parser.readBytes, if_neg (by rw [reader_length]; exact hcount)]

theorem quiet_readString : Quiet (Walk.readString : Walk ν ε Bytes) Parser.readString := by
  refine Quiet.bind quiet_readInt fun len data c hpos => ?_
  cases herror : c.error with
  | true =>
    refine quietAt_raise (a := []) hpos ?_ ?_
    · rw [Walk.bind_ok rfl]
      simp only [herror]
      rfl
    · simp only [Cursor.reader, herror, Bool.true_or, if_true]
  | false =>
    by_cases hcount : len ≤ data.length - c.pos
    · refine quietAt_take id hpos hcount ?_ ?_
      · have hfits : c.pos + len ≤ data.length := by omega
        rw [Walk.bind_ok rfl, Walk.bind_ok (Walk.hasRemaining_true hcount), herror, if_neg (by decide),
          Walk.take_eq hfits, Walk.bind_ok (Walk.take_eq hfits)]
        rfl
      · have hleft : len ≤ (data.drop c.pos).length := by rw [List.length_drop]; exact hcount
        simp only [Cursor.reader, herror, decide_eq_true hleft]
        rfl
    · refine quietAt_raise (a := []) hpos ?_ ?_
      · rw [Walk.bind_ok rfl, Walk.bind_ok (Walk.hasRemaining_false hcount), herror]
        rfl
      · have hleft : ¬ len ≤ (data.drop c.pos).length := by rw [List.length_drop]; exact hcount
        simp only [Cursor.reader, herror, decide_eq_false hleft]
        rfl

/-! ## Loops -/

/-- The notes of a loop are those of its elements one after the other. -/
def EachNotes (Q : α → List ν → Prop) (xs : List α) (ns : List ν) : Prop :=
  ∃ parts : List (List ν), ns = parts.flatten ∧ List.Forall₂ Q xs parts

theorem EachNotes.nil {Q : α → List ν → Prop} : EachNotes Q [] [] := ⟨[], rfl, .nil⟩

theorem EachNotes.cons {Q : α → List ν → Prop} {x : α} {xs : List α} {ns ns' : List ν} (h : Q x ns)
    (h' : EachNotes Q xs ns') : EachNotes Q (x :: xs) (ns ++ ns') := by
  obtain ⟨parts, rfl, hparts⟩ := h'
  exact ⟨ns :: parts, rfl, .cons h hparts⟩

/-- Elements each of which leaves its own notes. -/
theorem EachNotes.flatMap {φ : α → Prop} {leaves : α → List ν} {xs : List α} {ns : List ν}
    (h : EachNotes (fun x ns => ns = leaves x ∧ φ x) xs ns) : ns = xs.flatMap leaves ∧ ∀ x ∈ xs, φ x := by
  obtain ⟨parts, rfl, hparts⟩ := h
  induction hparts with
  | nil => exact ⟨rfl, by simp⟩
  | cons hx _ ih =>
    rw [List.flatten_cons, List.flatMap_cons, hx.1, ih.1]
    exact ⟨rfl, List.forall_mem_cons.mpr ⟨hx.2, ih.2⟩⟩

/-- Elements without notes have none together. -/
theorem EachNotes.silent {xs : List α} {ns : List ν} (h : EachNotes (fun _ ns => ns = []) xs ns) : ns = [] := by
  obtain ⟨parts, rfl, hparts⟩ := h
  induction hparts with
  | nil => rfl
  | cons hx _ ih => rw [List.flatten_cons, hx, ih, List.append_nil]

theorem Refines.readIndexed {element : Nat → Walk ν ε α} {element' : Nat → Parser ε α} {Q : α → List ν → Prop}
    (helem : ∀ i, Refines Allowed (fun _ => True) (element i) (element' i) fun x ns _ => Q x ns) {start count : Nat} :
    Refines Allowed P (Walk.readIndexed element start count) (Parser.readIndexed element' start count)
      fun xs ns _ => xs.length = count ∧ EachNotes Q xs ns := by
  induction count generalizing P start with
  | zero => exact .pure fun _ _ => ⟨rfl, .nil⟩
  | succ count ih =>
    refine .bind ((helem start).weaken (fun _ _ => trivial) fun _ _ _ h => h) fun x ns ⟨_, hx⟩ => ?_
    refine .bind ih fun xs ns' ⟨_, hxs⟩ => ?_
    refine .pure fun _ _ => ⟨by rw [List.length_cons, hxs.1], ?_⟩
    rw [List.append_nil]
    exact .cons hx hxs.2

/-- A step that leaves no notes, and what comes after it. -/
theorem Quiet.then {w : Walk ν ε α} {p : Parser ε α} {f : α → Walk ν ε β} {g : α → Parser ε β} (hw : Quiet w p)
    (hf : ∀ a, Refines Allowed (fun _ => True) (f a) (g a) Q) : Refines Allowed P (w >>= f) (p >>= g) Q := by
  refine .bind hw.refines fun a ns ⟨_, hns⟩ => ?_
  rw [hns]
  exact (hf a).weaken (fun _ _ => trivial) fun _ _ _ h => h

end Rules

end Codec.Traced
