-- SUMMARY: The gzip container around a deflate library, the bytes it reads and its round trip.
import Luma.Library.LittleEndian
import Luma.Stdlib.RunLength

/-! # Gzip

A gzip file is a header with optional fields, a deflate stream, and a trailer with the
checksum and the size of the text. The deflate library is a parameter; the loop that
drains it, and everything that reads the container, are the codec's own. -/

namespace Luma.Gzip

open Codec RunLength

/-! ## The deflate library -/

/-- The status of one call of `mz_inflate`. -/
inductive MzStatus where
  | ok
  | streamEnd
  | bufError
  | other
  deriving DecidableEq

/-- What one call of `mz_inflate` does. -/
structure InflateCall (Stream : Type) where
  status : MzStatus
  produced : Bytes
  next : Stream

/-- What the codec uses of the deflate library: a compression in one call into a buffer
    with room for a number of bytes, and a decompression that takes call after call. -/
structure Miniz where
  compressBound : Nat → Nat
  deflate : (level windowBits : Int) → (input : Bytes) → (room : Nat) → Option Bytes
  Stream : Type
  inflateInit : (windowBits : Int) → (input : Bytes) → Option Stream
  availIn : Stream → Nat
  inflate : Stream → (room : Nat) → InflateCall Stream
  availIn_le : ∀ s room, availIn (inflate s room).next ≤ availIn s

def mzDefaultWindowBits : Int := 15

def mzDefaultCompression : Int := -1

def kMinDeflateLevel : Int := 1

def kMaxDeflateLevel : Int := 9

def kInflateScratchSize : Nat := 64 * 1024

/-- The level that is handed to the library. -/
def compressionLevel : Option Int → Int
  | none => mzDefaultCompression
  | some level => max kMinDeflateLevel (min level kMaxDeflateLevel)

section Codec

variable (miniz : Miniz)

/-- The sizes go to the library as 32-bit numbers. -/
def deflateCompressWindowed (input : Bytes) (level : Option Int) (windowBits : Int) : Bytes :=
  if input = [] then []
  else
    match miniz.deflate (compressionLevel level) windowBits (input.take (input.length % 2 ^ 32))
        (miniz.compressBound input.length % 2 ^ 32) with
    | none => []
    | some deflated => deflated

def deflateCompress (input : Bytes) (level : Option Int) : Bytes :=
  deflateCompressWindowed miniz input level (-mzDefaultWindowBits)

/-- The loop of `inflateWindowed`, which drains the stream chunk by chunk. -/
def inflateLoop (s : miniz.Stream) (out : Bytes) : Except DecodeError Bytes :=
  let call := miniz.inflate s kInflateScratchSize
  if _hlong : 0 < call.produced.length ∧ out.length + call.produced.length > maxStringSize then .error .tooLarge
  else
    match call.status with
    | .streamEnd => .ok (out ++ call.produced)
    | .bufError => .error .truncated
    | .other => .error .corrupt
    | .ok =>
      if _hstalled : miniz.availIn call.next = miniz.availIn s ∧ call.produced.length = 0 then .error .truncated
      else inflateLoop call.next (out ++ call.produced)
termination_by miniz.availIn s + (maxStringSize - out.length)
decreasing_by
  have hle := miniz.availIn_le s kInflateScratchSize
  simp only [call] at _hlong _hstalled
  rw [List.length_append]
  omega

def inflateWindowed (input : Bytes) (windowBits : Int) : Except DecodeError Bytes :=
  if input = [] then .ok []
  else
    match miniz.inflateInit windowBits (input.take (input.length % 2 ^ 32)) with
    | none => .error .corrupt
    | some s => inflateLoop miniz s []

def deflateDecompressChecked (input : Bytes) : Except DecodeError Bytes :=
  inflateWindowed miniz input (-mzDefaultWindowBits)

end Codec

/-! ## The checksum -/

/-- The reversed polynomial of CRC-32/ISO-HDLC. -/
def kPolynomial : UInt32 := 0xEDB88320

def crcBit (crc : UInt32) : UInt32 := if crc &&& 1 ≠ 0 then (crc >>> 1) ^^^ kPolynomial else crc >>> 1

/-- An entry of the lookup table. -/
def crcTable (i : UInt32) : UInt32 := crcBit (crcBit (crcBit (crcBit (crcBit (crcBit (crcBit (crcBit i)))))))

def crcByte (crc : UInt32) (byte : UInt8) : UInt32 := crcTable ((crc ^^^ byte.toUInt32) &&& 0xFF) ^^^ (crc >>> 8)

def crc32Hash (data : Bytes) : UInt32 := data.foldl crcByte 0xFFFFFFFF ^^^ 0xFFFFFFFF

/-! ## The container -/

def kGzipHeaderSize : Nat := 10

def kGzipTrailerSize : Nat := 8

def kMinGzipSize : Nat := kGzipHeaderSize + kGzipTrailerSize

def kGzipId1 : UInt8 := 0x1f

def kGzipId2 : UInt8 := 0x8b

def kGzipCmDeflate : UInt8 := 0x08

def kGzipFlagFhcrc : UInt8 := 0x02

def kGzipFlagFextra : UInt8 := 0x04

def kGzipFlagFname : UInt8 := 0x08

def kGzipFlagFcomment : UInt8 := 0x10

def gzipHeader : Bytes := [kGzipId1, kGzipId2, kGzipCmDeflate, 0x00, 0x00, 0x00, 0x00, 0x00, 0x00, 0xff]

def gzipCompress (miniz : Miniz) (input : Bytes) (level : Option Int) : Bytes :=
  gzipHeader ++ deflateCompress miniz input level ++ writeIntLe 4 (crc32Hash input).toNat ++
    writeIntLe 4 (input.length % 2 ^ 32)

/-- Why a reading ends without data: it reads outside of its input, or reports an error. -/
inductive Stop where
  | outside
  | error (kind : DecodeError)
  deriving DecidableEq

/-- The byte at an offset of the input. -/
def byteAt (input : Bytes) (offset : Nat) : Except Stop UInt8 :=
  match input[offset]? with
  | some b => .ok b
  | none => .error .outside

/-- `count` bytes of the input from an offset on. -/
def bytesAt (input : Bytes) (offset count : Nat) : Except Stop Bytes :=
  if offset + count ≤ input.length then .ok ((input.drop offset).take count) else .error .outside

def report {α : Type} (kind : DecodeError) : Except Stop α := .error (.error kind)

/-- The magic bytes and the compression method. -/
def checkMagic (input : Bytes) : Except Stop Unit := do
  if (← byteAt input 0) ≠ kGzipId1 then report .unsupportedFormat
  else if (← byteAt input 1) ≠ kGzipId2 then report .unsupportedFormat
  else if (← byteAt input 2) ≠ kGzipCmDeflate then report .unsupportedFormat
  else pure ()

/-- The offset after the extra field, whose size is its first two bytes. -/
def skipExtra (input : Bytes) (offset : Nat) : Except Stop Nat :=
  if offset + 2 > input.length then report .truncated
  else do
    let low ← byteAt input offset
    let high ← byteAt input (offset + 1)
    let xlen := low.toNat ||| high.toNat <<< 8
    if offset + 2 + xlen > input.length then report .truncated
    else pure (offset + (2 + xlen))

/-- The offset of the next zero byte, or the end of the input. -/
def findTerminator (input : Bytes) (offset : Nat) : Except Stop Nat :=
  if _h : offset < input.length then do
    if (← byteAt input offset) ≠ 0 then findTerminator input (offset + 1) else pure offset
  else pure offset
termination_by input.length - offset

/-- The offset after a text that ends with a zero byte. -/
def skipText (input : Bytes) (offset : Nat) : Except Stop Nat := do
  let offset ← findTerminator input offset
  if offset ≥ input.length then report .truncated else pure (offset + 1)

/-- Skip a field of the header that is there when its flag is set. -/
def skipField (flags flag : UInt8) (skip : Nat → Except Stop Nat) (offset : Nat) : Except Stop Nat :=
  if flags &&& flag ≠ 0 then skip offset else pure offset

def gzipDecompressChecked (miniz : Miniz) (input : Bytes) : Except Stop Bytes :=
  if input.length < kMinGzipSize then report .truncated
  else do
    checkMagic input
    let flags ← byteAt input 3
    let offset ← skipField flags kGzipFlagFextra (skipExtra input) kGzipHeaderSize
    let offset ← skipField flags kGzipFlagFname (skipText input) offset
    let offset ← skipField flags kGzipFlagFcomment (skipText input) offset
    let offset ← skipField flags kGzipFlagFhcrc (fun offset => pure (offset + 2)) offset
    if offset + kGzipTrailerSize > input.length then report .truncated
    else do
      let compressed ← bytesAt input offset (input.length - offset - kGzipTrailerSize)
      match deflateDecompressChecked miniz compressed with
      | .error kind => report kind
      | .ok decompressed => do
        let trailerStart := input.length - kGzipTrailerSize
        let expectedCrc ← bytesAt input trailerStart 4
        let expectedIsize ← bytesAt input (trailerStart + 4) 4
        if (crc32Hash decompressed).toNat ≠ readIntLe expectedCrc then report .corrupt
        else if decompressed.length % 2 ^ 32 ≠ readIntLe expectedIsize then report .corrupt
        else pure decompressed

def gzipDecompress (miniz : Miniz) (input : Bytes) : Option Bytes := (gzipDecompressChecked miniz input).toOption

/-- The checksum that is stored in the trailer. -/
def storedCrc (input : Bytes) : Nat := readIntLe ((input.drop (input.length - kGzipTrailerSize)).take 4)

/-- The size that is stored in the trailer. -/
def storedSize (input : Bytes) : Nat := readIntLe ((input.drop (input.length - kGzipTrailerSize + 4)).take 4)

/-! ## Reading inside -/

/-- The reading does not end because of a read outside of the input. -/
def Inside {α : Type} (r : Except Stop α) : Prop := r ≠ .error .outside

section Inside

variable {α β : Type} {input : Bytes} {offset count : Nat}

@[simp] theorem inside_ok {a : α} : Inside (.ok a) := by
  simp [Inside]

@[simp] theorem inside_pure {a : α} : Inside (pure a) := inside_ok

@[simp] theorem inside_report {kind : DecodeError} : Inside (report kind : Except Stop α) := by
  simp [Inside, report]

theorem Inside.bind {r : Except Stop α} {f : α → Except Stop β} (hr : Inside r) (hf : ∀ a, Inside (f a)) :
    Inside (r >>= f) := by
  cases r with
  | ok a => exact hf a
  | error stop => exact fun h => hr (congrArg Except.error (Except.error.inj h))

theorem byteAt_inside (h : offset < input.length) : Inside (byteAt input offset) := by
  rw [byteAt, List.getElem?_eq_getElem h]
  exact inside_ok

theorem bytesAt_inside (h : offset + count ≤ input.length) : Inside (bytesAt input offset count) := by
  rw [bytesAt, if_pos h]
  exact inside_ok

theorem checkMagic_inside (h : kMinGzipSize ≤ input.length) : Inside (checkMagic input) := by
  have hsize : 18 ≤ input.length := h
  refine Inside.bind (byteAt_inside (by omega)) fun id1 => ?_
  split
  · exact inside_report
  refine Inside.bind (byteAt_inside (by omega)) fun id2 => ?_
  split
  · exact inside_report
  refine Inside.bind (byteAt_inside (by omega)) fun method => ?_
  split
  · exact inside_report
  · exact inside_pure

theorem skipExtra_inside : Inside (skipExtra input offset) := by
  unfold skipExtra
  split
  · exact inside_report
  refine Inside.bind (byteAt_inside (by omega)) fun low => ?_
  refine Inside.bind (byteAt_inside (by omega)) fun high => ?_
  dsimp only
  split
  · exact inside_report
  · exact inside_pure

theorem findTerminator_inside : Inside (findTerminator input offset) := by
  fun_induction findTerminator input offset with
  | case1 offset h ih =>
    refine Inside.bind (byteAt_inside h) fun b => ?_
    split
    · exact ih
    · exact inside_pure
  | case2 offset h => exact inside_pure

theorem skipText_inside : Inside (skipText input offset) := by
  refine Inside.bind findTerminator_inside fun offset => ?_
  split
  · exact inside_report
  · exact inside_pure

theorem skipField_inside {flags flag : UInt8} {skip : Nat → Except Stop Nat} (h : Inside (skip offset)) :
    Inside (skipField flags flag skip offset) := by
  unfold skipField
  split
  · exact h
  · exact inside_pure

/-- Whatever the input, it is read only inside. -/
theorem gzipDecompressChecked_inside {miniz : Miniz} : Inside (gzipDecompressChecked miniz input) := by
  unfold gzipDecompressChecked
  split
  · exact inside_report
  next hsize =>
    have hsize : 18 ≤ input.length := Nat.not_lt.mp hsize
    refine Inside.bind (checkMagic_inside hsize) fun _ => ?_
    refine Inside.bind (byteAt_inside (by omega)) fun flags => ?_
    refine Inside.bind (skipField_inside skipExtra_inside) fun offset => ?_
    refine Inside.bind (skipField_inside skipText_inside) fun offset => ?_
    refine Inside.bind (skipField_inside skipText_inside) fun offset => ?_
    refine Inside.bind (skipField_inside inside_pure) fun offset => ?_
    split
    · exact inside_report
    next hoffset =>
      have hoffset : offset + 8 ≤ input.length := Nat.not_lt.mp hoffset
      refine Inside.bind (bytesAt_inside (by simp only [kGzipTrailerSize]; omega)) fun compressed => ?_
      split
      · exact inside_report
      · refine Inside.bind (bytesAt_inside (by simp only [kGzipTrailerSize]; omega)) fun expectedCrc => ?_
        refine Inside.bind (bytesAt_inside (by simp only [kGzipTrailerSize]; omega)) fun expectedIsize => ?_
        split
        · exact inside_report
        split
        · exact inside_report
        · exact inside_pure

end Inside

/-! ## The trailer -/

section Trailer

variable {α β : Type} {miniz : Miniz} {input text : Bytes}

theorem bind_ok {r : Except Stop α} {f : α → Except Stop β} {b : β} (h : r >>= f = .ok b) :
    ∃ a, r = .ok a ∧ f a = .ok b := by
  cases r with
  | ok a => exact ⟨a, rfl, h⟩
  | error stop => exact nomatch h

theorem report_ne_ok {kind : DecodeError} {a : α} : (report kind : Except Stop α) ≠ .ok a := by
  simp [report]

theorem bytesAt_ok {offset count : Nat} {bytes : Bytes} (h : bytesAt input offset count = .ok bytes) :
    bytes = (input.drop offset).take count := by
  unfold bytesAt at h
  split at h
  · exact (Except.ok.inj h).symm
  · exact nomatch h

/-- Data is returned only with the checksum and the size that the trailer stores. -/
theorem gzipDecompressChecked_trailer (h : gzipDecompressChecked miniz input = .ok text) :
    (crc32Hash text).toNat = storedCrc input ∧ text.length % 2 ^ 32 = storedSize input := by
  unfold gzipDecompressChecked at h
  split at h
  · exact absurd h report_ne_ok
  obtain ⟨_, -, h⟩ := bind_ok h
  obtain ⟨flags, -, h⟩ := bind_ok h
  obtain ⟨_, -, h⟩ := bind_ok h
  obtain ⟨_, -, h⟩ := bind_ok h
  obtain ⟨_, -, h⟩ := bind_ok h
  obtain ⟨offset, -, h⟩ := bind_ok h
  split at h
  · exact absurd h report_ne_ok
  obtain ⟨compressed, -, h⟩ := bind_ok h
  split at h
  · exact absurd h report_ne_ok
  next decompressed _ =>
    obtain ⟨expectedCrc, hcrc, h⟩ := bind_ok h
    obtain ⟨expectedIsize, hsize, h⟩ := bind_ok h
    split at h
    · exact absurd h report_ne_ok
    next hcrcs =>
      split at h
      · exact absurd h report_ne_ok
      next hsizes =>
        obtain rfl : decompressed = text := Except.ok.inj h
        rw [bytesAt_ok hcrc] at hcrcs
        rw [bytesAt_ok hsize] at hsizes
        exact ⟨Decidable.not_not.mp hcrcs, Decidable.not_not.mp hsizes⟩

end Trailer

/-! ## The round trip -/

/-- Call after call into a buffer of the codec's size, the stream yields a text, moving
    on with every call, and then ends. -/
inductive Miniz.Inflates (miniz : Miniz) : miniz.Stream → Bytes → Prop where
  | last {s : miniz.Stream} (hend : (miniz.inflate s kInflateScratchSize).status = .streamEnd) :
      Inflates miniz s (miniz.inflate s kInflateScratchSize).produced
  | more {s : miniz.Stream} {rest : Bytes} (hok : (miniz.inflate s kInflateScratchSize).status = .ok)
      (hmoves : ¬(miniz.availIn (miniz.inflate s kInflateScratchSize).next = miniz.availIn s ∧
        (miniz.inflate s kInflateScratchSize).produced.length = 0))
      (h : Inflates miniz (miniz.inflate s kInflateScratchSize).next rest) :
      Inflates miniz s ((miniz.inflate s kInflateScratchSize).produced ++ rest)

/-- The library's inflate inverts its deflate: into a buffer of the size that it asks for
    the library compresses every text, and from the compressed text the stream yields the
    text. For texts up to the limit on strings these sizes are 32-bit numbers. -/
structure Miniz.Inverts (miniz : Miniz) : Prop where
  bound : ∀ n ≤ maxStringSize, miniz.compressBound n < 2 ^ 32
  inverts : ∀ (level : Int) (text : Bytes), level = mzDefaultCompression ∨ kMinDeflateLevel ≤ level ∧ level ≤ kMaxDeflateLevel →
    text ≠ [] → text.length < 2 ^ 32 →
      ∃ deflated s, miniz.deflate level (-mzDefaultWindowBits) text (miniz.compressBound text.length) = some deflated ∧
        deflated ≠ [] ∧ deflated.length ≤ miniz.compressBound text.length ∧
        miniz.inflateInit (-mzDefaultWindowBits) deflated = some s ∧ miniz.Inflates s text

section RoundTrip

variable {miniz : Miniz} {text out : Bytes} {level : Option Int}

theorem inflateLoop_of_inflates {s : miniz.Stream} (h : miniz.Inflates s text)
    (hsize : out.length + text.length ≤ maxStringSize) : inflateLoop miniz s out = .ok (out ++ text) := by
  induction h generalizing out with
  | @last s hend =>
    rw [inflateLoop, dif_neg (by omega)]
    simp only [hend]
  | @more s rest hok hmoves _ ih =>
    rw [List.length_append] at hsize
    rw [inflateLoop, dif_neg (by omega)]
    simp only [hok]
    rw [dif_neg hmoves, ih (by rw [List.length_append]; omega), List.append_assoc]

theorem compressionLevel_inside :
    compressionLevel level = mzDefaultCompression ∨
      kMinDeflateLevel ≤ compressionLevel level ∧ compressionLevel level ≤ kMaxDeflateLevel := by
  cases level with
  | none => exact Or.inl rfl
  | some level =>
    right
    simp only [compressionLevel, kMinDeflateLevel, kMaxDeflateLevel]
    omega

theorem deflateDecompressChecked_deflateCompress (h : miniz.Inverts) (hsize : text.length ≤ maxStringSize) :
    deflateDecompressChecked miniz (deflateCompress miniz text level) = .ok text := by
  have hlimit : maxStringSize < 2 ^ 32 := by decide
  by_cases hempty : text = []
  · subst hempty
    rfl
  · obtain ⟨deflated, s, hdeflate, hne, hroom, hinit, hinflates⟩ :=
      h.inverts (compressionLevel level) text compressionLevel_inside hempty (by omega)
    have hbound := h.bound text.length hsize
    have hcompressed : deflateCompress miniz text level = deflated := by
      rw [deflateCompress, deflateCompressWindowed, if_neg hempty, Nat.mod_eq_of_lt (by omega),
        Nat.mod_eq_of_lt hbound, List.take_length, hdeflate]
    rw [hcompressed, deflateDecompressChecked, inflateWindowed, if_neg hne, Nat.mod_eq_of_lt (by omega),
      List.take_length, hinit]
    exact inflateLoop_of_inflates hinflates (by simpa using hsize)

theorem bytesAt_middle {before bytes after : Bytes} {offset count : Nat} (hoffset : offset = before.length)
    (hcount : count = bytes.length) : bytesAt (before ++ bytes ++ after) offset count = .ok bytes := by
  subst hoffset hcount
  have hfits : before.length + bytes.length ≤ (before ++ bytes ++ after).length := by
    rw [List.length_append, List.length_append]
    exact Nat.le_add_right _ _
  rw [bytesAt, if_pos hfits, List.append_assoc, List.drop_left, List.take_left]

theorem skipField_unset {flag : UInt8} {skip : Nat → Except Stop Nat} {offset : Nat} :
    skipField 0 flag skip offset = .ok offset := by
  have hunset : 0 &&& flag = 0 := UInt8.zero_and
  rw [skipField, hunset, if_neg (not_not_intro rfl)]
  rfl

/-- Behind the codec's own header, and before a trailer, the decoder takes all bytes for
    the deflate stream. -/
theorem gzipDecompressChecked_framed {deflated crc isize : Bytes} (hcrc : crc.length = 4) (hisize : isize.length = 4)
    (hinflate : deflateDecompressChecked miniz deflated = .ok text) (hsum : (crc32Hash text).toNat = readIntLe crc)
    (htext : text.length % 2 ^ 32 = readIntLe isize) :
    gzipDecompressChecked miniz (gzipHeader ++ deflated ++ crc ++ isize) = .ok text := by
  have hlength : (gzipHeader ++ deflated ++ crc ++ isize).length = 18 + deflated.length := by
    simp only [List.length_append, hcrc, hisize]
    rw [Nat.add_assoc, Nat.add_comm 18, Nat.add_comm _ deflated.length]
    rfl
  have hheader : gzipHeader.length = 10 := rfl
  have hmagic : checkMagic (gzipHeader ++ deflated ++ crc ++ isize) = .ok () := rfl
  have hflags : byteAt (gzipHeader ++ deflated ++ crc ++ isize) 3 = .ok 0 := rfl
  have hcompressed : bytesAt (gzipHeader ++ deflated ++ crc ++ isize) kGzipHeaderSize
      ((gzipHeader ++ deflated ++ crc ++ isize).length - kGzipHeaderSize - kGzipTrailerSize) = .ok deflated := by
    rw [hlength, List.append_assoc]
    exact bytesAt_middle rfl (by simp only [kGzipHeaderSize, kGzipTrailerSize]; omega)
  have htrailer : bytesAt (gzipHeader ++ deflated ++ crc ++ isize)
      ((gzipHeader ++ deflated ++ crc ++ isize).length - kGzipTrailerSize) 4 = .ok crc := by
    refine bytesAt_middle ?_ hcrc.symm
    rw [hlength, List.length_append, hheader, kGzipTrailerSize]
    omega
  have hend : bytesAt (gzipHeader ++ deflated ++ crc ++ isize)
      ((gzipHeader ++ deflated ++ crc ++ isize).length - kGzipTrailerSize + 4) 4 = .ok isize := by
    have hall : gzipHeader ++ deflated ++ crc ++ isize = (gzipHeader ++ deflated ++ crc) ++ isize ++ [] :=
      (List.append_nil _).symm
    rw [hlength, hall]
    refine bytesAt_middle ?_ hisize.symm
    rw [List.length_append, List.length_append, hheader, hcrc, kGzipTrailerSize]
    omega
  have hsize : ¬ (gzipHeader ++ deflated ++ crc ++ isize).length < kMinGzipSize := by
    rw [hlength]
    exact Nat.not_lt.mpr (Nat.le_add_right _ _)
  have hoffset : ¬ kGzipHeaderSize + kGzipTrailerSize > (gzipHeader ++ deflated ++ crc ++ isize).length := hsize
  rw [gzipDecompressChecked, if_neg hsize, hmagic, hflags]
  simp only [bind, Except.bind, skipField_unset, if_neg hoffset, hcompressed, hinflate, htrailer, hend]
  rw [if_neg (not_not_intro hsum), if_neg (not_not_intro htext)]
  rfl

theorem gzipDecompressChecked_gzipCompress (h : miniz.Inverts) (hsize : text.length ≤ maxStringSize) :
    gzipDecompressChecked miniz (gzipCompress miniz text level) = .ok text := by
  refine gzipDecompressChecked_framed (writeIntLe_length 4 _) (writeIntLe_length 4 _)
    (deflateDecompressChecked_deflateCompress h hsize) ?_ ?_
  · exact (readIntLe_writeIntLe_of_lt (crc32Hash text).toNat_lt).symm
  · have hfits : text.length % 2 ^ 32 < 256 ^ 4 := Nat.mod_lt _ (by decide)
    exact (readIntLe_writeIntLe_of_lt hfits).symm

theorem gzipDecompress_gzipCompress (h : miniz.Inverts) (hsize : text.length ≤ maxStringSize) :
    gzipDecompress miniz (gzipCompress miniz text level) = some text := by
  rw [gzipDecompress, gzipDecompressChecked_gzipCompress h hsize]
  rfl

end RoundTrip

/-! ## Framing -/

/-- Both codecs give back every text within the limit on strings, unless its run-length
    entries are longer than that limit, in which case their encoder throws. Whatever the
    input, the gzip container is read inside of it only, and data comes back only with the
    checksum and the size that are stored. -/
theorem compression_framing {miniz : Miniz} (h : miniz.Inverts) :
    (∀ text : Bytes, text.length ≤ maxStringSize →
      if 2 * (rleEntries text).length ≤ maxStringSize then
        ∃ encoded, rleEncode text = .ok encoded ∧ rleDecode encoded = some text
      else rleEncode text = .error encodedTooLarge) ∧
    (∀ (text : Bytes) (level : Option Int), text.length ≤ maxStringSize →
      gzipDecompress miniz (gzipCompress miniz text level) = some text) ∧
    (∀ input : Bytes, gzipDecompressChecked miniz input ≠ .error .outside ∧
      ∀ text, gzipDecompressChecked miniz input = .ok text →
        (crc32Hash text).toNat = storedCrc input ∧ text.length % 2 ^ 32 = storedSize input) := by
  refine ⟨fun text hsize => ?_, fun text level hsize => gzipDecompress_gzipCompress h hsize, fun input => ?_⟩
  · have hencode := rleEncode_eq text
    rw [written_length] at hencode
    split
    next hfits =>
      rw [if_pos hfits] at hencode
      refine ⟨_, hencode, ?_⟩
      rw [rleDecode_of_rleEncode hencode, if_pos hsize]
    next hlong => rw [hencode, if_neg hlong]
  · exact ⟨gzipDecompressChecked_inside, fun text => gzipDecompressChecked_trailer⟩

/-- A library that stores every text but `a`, for which it writes a fixed Huffman block. -/
def storing : Miniz where
  compressBound n := max (128 + n * 110 / 100) (128 + n + (n / (31 * 1024) + 1) * 5)
  deflate _ _ input _ := some (if input = [97] then [0x4b, 0x04, 0x00] else 0x01 :: input)
  Stream := Bytes × Nat
  inflateInit _ input := some (if input = [0x4b, 0x04, 0x00] then [97] else input.drop 1, input.length)
  availIn := Prod.snd
  inflate s room :=
    { status := if s.1.length ≤ room then .streamEnd else .ok
      produced := s.1.take room
      next := (s.1.drop room, s.2) }
  availIn_le := fun _ _ => Nat.le_refl _

theorem storing_inflates (text : Bytes) (rest : Nat) : storing.Inflates (text, rest) text := by
  induction hlength : text.length using Nat.strongRecOn generalizing text with
  | ind n ih =>
    by_cases hfits : text.length ≤ kInflateScratchSize
    · have hall : text.take kInflateScratchSize = text := List.take_of_length_le hfits
      have hlast : storing.Inflates (text, rest) (text.take kInflateScratchSize) := .last (if_pos hfits)
      rwa [hall] at hlast
    · have hpositive : 0 < kInflateScratchSize := by decide
      have hnext : storing.Inflates (text.drop kInflateScratchSize, rest) (text.drop kInflateScratchSize) :=
        ih _ (by rw [List.length_drop]; omega) _ rfl
      have hmore : storing.Inflates (text, rest)
          (text.take kInflateScratchSize ++ text.drop kInflateScratchSize) := by
        refine .more (if_neg hfits) ?_ hnext
        rintro ⟨-, hproduced⟩
        have htake : (text.take kInflateScratchSize).length = 0 := hproduced
        rw [List.length_take] at htake
        omega
      rwa [List.take_append_drop] at hmore

theorem storing_inverts : storing.Inverts where
  bound := by
    intro n hn
    have hlimit : maxStringSize = 268435456 := rfl
    simp only [storing]
    omega
  inverts := by
    intro level text _ hne _
    by_cases ha : text = [97]
    · subst ha
      exact ⟨[0x4b, 0x04, 0x00], _, rfl, by decide, by decide, rfl, storing_inflates [97] 3⟩
    · refine ⟨0x01 :: text, (text, text.length + 1), ?_, List.cons_ne_nil _ _, ?_, ?_, storing_inflates text _⟩
      · simp only [storing, if_neg ha]
      · simp only [storing, List.length_cons]
        omega
      · simp [storing]

theorem compression_framing_a :
    gzipDecompress storing (gzipCompress storing [97] none) = some [97] ∧
      ∃ encoded, rleEncode [97] = .ok encoded ∧ rleDecode encoded = some [97] := by
  refine ⟨(compression_framing storing_inverts).2.1 [97] none (by decide), ?_⟩
  have hentries := (compression_framing storing_inverts).1 [97] (by decide)
  have hfits : 2 * (rleEntries [97]).length ≤ maxStringSize := by
    simp [rleEntries, furtherRun, runEntries, maxStringSize]
  rwa [if_pos hfits] at hentries

/-- A text of 256 MB without two equal bytes in a row has a longer encoding, which is not
    written. -/
theorem alternating_not_encoded : ¬ ∀ text, ∃ encoded, rleEncode text = .ok encoded ∧ rleDecode encoded = some text := by
  intro h
  obtain ⟨encoded, hencode, -⟩ := h (alternating (128 * 1024 * 1024))
  rw [rleEncode_eq, written_length, rleEntries_alternating_length, if_neg (by decide)] at hencode
  exact nomatch hencode

end Luma.Gzip
