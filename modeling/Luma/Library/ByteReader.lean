-- SUMMARY: A byte reader with a sticky error flag, and the rule of reading back what was written.
import Luma.Library.BigEndian

/-! # Byte Readers

A reader walks a byte buffer and remembers whether any read ran past its end.
A read that fails yields a default and leaves the position alone; callers look
at the flag when they choose to, and abort with an error of their own.

`Reads p bytes v` says that `p` consumes exactly `bytes`, whatever follows
them, and yields `v`. The rules below are syntax directed: one for each way a
parser is put together. -/

namespace Codec

/-- Reader state: the bytes not yet consumed, and whether some read failed. -/
structure Reader where
  rest : Bytes
  error : Bool
  deriving DecidableEq, Repr

/-- A parser over a reader, aborting with an error of type `ε`. -/
abbrev Parser (ε : Type) := StateT Reader (Except ε)

namespace Parser

variable {ε : Type} {α β : Type}

/-- Are at least `n` bytes left? -/
def hasRemaining (n : Nat) : Parser ε Bool :=
  fun r => .ok (decide (n ≤ r.rest.length), r)

/-- Has a read failed so far? -/
def failed : Parser ε Bool := fun r => .ok (r.error, r)

/-- A big-endian integer of `width` bytes, or zero with the flag raised. -/
def readInt (width : Nat) : Parser ε Nat := fun r =>
  if width ≤ r.rest.length then
    .ok (readIntBe (r.rest.take width), { r with rest := r.rest.drop width })
  else
    .ok (0, { r with error := true })

/-- A string behind its four-byte length. -/
def writeString (s : Bytes) : Bytes := writeIntBe 4 s.length ++ s

@[simp] theorem writeString_length (s : Bytes) : (writeString s).length = 4 + s.length := by
  simp [writeString]

/-- Copy `size` bytes over `dest`, or keep `dest` and raise the flag. -/
def readBytes (dest : Bytes) (size : Nat) : Parser ε Bytes := fun r =>
  if size ≤ r.rest.length then
    .ok (r.rest.take size, { r with rest := r.rest.drop size })
  else
    .ok (dest, { r with error := true })

/-- Read back a string behind its four-byte length. -/
def readString : Parser ε Bytes := do
  let len ← readInt 4
  fun r =>
    if r.error || !decide (len ≤ r.rest.length) then
      .ok ([], { r with error := true })
    else
      .ok (r.rest.take len, { r with rest := r.rest.drop len })

/-- Abort with `e` unless `c` holds. -/
def check (c : Bool) (e : ε) : Parser ε Unit :=
  if c then pure () else throw e

/-- Read `count` elements one after the other; the reader of each one is told its
    index, counted from `start`. -/
def readIndexed (element : Nat → Parser ε α) : (start count : Nat) → Parser ε (List α)
  | _, 0 => pure []
  | start, count + 1 => do
    let x ← element start
    let xs ← readIndexed element (start + 1) count
    return x :: xs

/-- Read `count` elements one after the other. -/
def readMany (count : Nat) (element : Parser ε α) : Parser ε (List α) :=
  readIndexed (fun _ => element) 0 count

/-- Report every failure of `p` as `e`. -/
def orElseError {δ : Type} (p : Parser δ α) (e : ε) : Parser ε α := fun r =>
  match p r with
  | .ok result => .ok result
  | .error _ => .error e

/-- `p` consumes exactly `bytes` in front of any continuation, without
    raising the error flag, and yields `v`. -/
def Reads (p : Parser ε α) (bytes : Bytes) (v : α) : Prop :=
  ∀ rest, p ⟨bytes ++ rest, false⟩ = .ok (v, ⟨rest, false⟩)

/-! ## Composition -/

theorem Reads.pure {v : α} : Reads (pure v : Parser ε α) [] v :=
  fun _ => rfl

theorem Reads.bind {p : Parser ε α} {f : α → Parser ε β} {b₁ b₂ : Bytes} {v : α} {w : β}
    (hp : Reads p b₁ v) (hf : Reads (f v) b₂ w) :
    Reads (p >>= f) (b₁ ++ b₂) w := by
  intro rest
  have hstep := hp (b₂ ++ rest)
  have hnext := hf rest
  simp only [Bind.bind, StateT.bind, List.append_assoc, hstep, Except.bind, hnext]

/-- A step that consumes nothing. -/
theorem Reads.bind_nil {p : Parser ε α} {f : α → Parser ε β} {b : Bytes} {v : α} {w : β}
    (hp : Reads p [] v) (hf : Reads (f v) b w) : Reads (p >>= f) b w := by
  simpa only [List.nil_append] using hp.bind hf

theorem Reads.map {p : Parser ε α} {b : Bytes} {v : α} (f : α → β) (hp : Reads p b v) :
    Reads (p >>= fun x => Pure.pure (f x)) b (f v) := by
  have hbind := hp.bind (f := fun x => Pure.pure (f x)) (Reads.pure (v := f v))
  rwa [List.append_nil] at hbind

/-- Looking at the error flag of a run that has not failed. -/
theorem Reads.failed {f : Bool → Parser ε β} {b : Bytes} {w : β}
    (hf : Reads (f false) b w) :
    Reads (Parser.failed >>= f) b w :=
  fun rest => hf rest

/-- A lookahead that the bytes still to be read satisfy. -/
theorem Reads.hasRemaining {n : Nat} {f : Bool → Parser ε β} {b : Bytes} {w : β}
    (hn : n ≤ b.length) (hf : Reads (f true) b w) :
    Reads (Parser.hasRemaining n >>= f) b w := by
  intro rest
  have hle : n ≤ (b ++ rest).length := by
    rw [List.length_append]
    omega
  have hlook : Parser.hasRemaining (ε := ε) n ⟨b ++ rest, false⟩ =
      .ok (true, ⟨b ++ rest, false⟩) := by
    simp only [Parser.hasRemaining, hle, decide_true]
  simp only [Bind.bind, StateT.bind, hlook, Except.bind]
  exact hf rest

theorem Reads.check {c : Bool} {e : ε} {f : Unit → Parser ε β} {b : Bytes} {w : β}
    (hc : c = true) (hf : Reads (f ()) b w) :
    Reads (Parser.check c e >>= f) b w := by
  subst hc
  exact hf

theorem Reads.orElseError {δ : Type} {p : Parser δ α} {b : Bytes} {v : α} {e : ε}
    (hp : Reads p b v) : Reads (p.orElseError e) b v := by
  intro rest
  simp only [Parser.orElseError, hp rest]

/-! ## Primitive readers -/

theorem Reads.readInt {width value : Nat} (hlt : value < 256 ^ width) :
    Reads (readInt width : Parser ε Nat) (writeIntBe width value) value := by
  intro rest
  have hlen : (writeIntBe width value).length = width := writeIntBe_length width value
  have htake : (writeIntBe width value ++ rest).take width = writeIntBe width value :=
    List.take_left' hlen
  have hdrop : (writeIntBe width value ++ rest).drop width = rest :=
    List.drop_left' hlen
  have hle : width ≤ (writeIntBe width value ++ rest).length := by
    simp
  simp only [Parser.readInt, hle, if_true, htake, hdrop, readIntBe_writeIntBe_of_lt hlt]

theorem Reads.readBytes {dest bytes : Bytes} :
    Reads (readBytes dest bytes.length : Parser ε Bytes) bytes bytes := by
  intro rest
  simp [Parser.readBytes]

theorem Reads.readString {s : Bytes} (hlt : s.length < 256 ^ 4) :
    Reads (readString : Parser ε Bytes) (writeString s) s := by
  refine Reads.bind (Reads.readInt hlt) ?_
  intro rest
  simp

/-- Elements read one after the other, each from its own encoding. -/
theorem Reads.readIndexed {element : Nat → Parser ε α} {encode : α → Bytes} {xs : List α}
    {start : Nat} (helem : ∀ i, ∀ x ∈ xs, Reads (element i) (encode x) x) :
    Reads (readIndexed element start xs.length) (xs.flatMap encode) xs := by
  induction xs generalizing start with
  | nil => exact Reads.pure
  | cons x xs ih =>
    have hx : Reads (element start) (encode x) x := helem start x List.mem_cons_self
    have hxs : Reads (Parser.readIndexed element (start + 1) xs.length) (xs.flatMap encode) xs :=
      ih (fun i y hy => helem i y (List.mem_cons_of_mem x hy))
    exact Reads.bind hx (Reads.map (fun ys => x :: ys) hxs)

theorem Reads.readMany {element : Parser ε α} {encode : α → Bytes} {xs : List α}
    (helem : ∀ x ∈ xs, Reads element (encode x) x) :
    Reads (readMany xs.length element) (xs.flatMap encode) xs :=
  Reads.readIndexed (fun _ => helem)

end Parser

end Codec
