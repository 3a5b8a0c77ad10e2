import HardApi.Gmp
import HardApi.Lib.Bytes
import HardApi.Lib.Loop

/-!
# Bitstream files

A `.bit` file starts with a counted field and two more bytes; then come fields, each with a
description byte and a big-endian `short` for its length, up to the field `0x65`, whose length is
an `int` and which is the payload. The two extractions walk over the fields without a look at the
end of the file: an access outside the file is a `Fault`, and so is the write of a whole word for
the last bytes of a payload that has not a multiple of four of them.

`extractBitstreamInfo_ok_iff` says which files are accepted and what is found in them.
`extractBitstreamPayload` skips the fields instead of reading them, so it follows a negative length
back; `extractBitstreamPayload_none_iff` says when it never comes out.
-/

namespace HardApi

open Bytes

/-! ## Reading -/

/-- The loop of `readRawBitfile`: chunks of `READ_CHUNK_SIZE` bytes up to the first short one. -/
def readChunks (file buffer : List Byte) : List Byte :=
  let chunk := file.take 1024
  if _h : chunk.length = 1024 then readChunks (file.drop 1024) (buffer ++ chunk)
  else buffer ++ chunk
termination_by file.length
decreasing_by
  simp only [chunk, List.length_take] at _h
  simp only [List.length_drop]
  omega

def readRawBitfile (file : List Byte) : List Byte := readChunks file []

theorem readChunks_eq (file buffer : List Byte) : readChunks file buffer = buffer ++ file := by
  fun_induction readChunks file buffer with
  | case1 file buffer chunk hfull ih =>
    rw [ih, List.append_assoc, List.take_append_drop]
  | case2 file buffer chunk hshort =>
    have hlen : file.length ≤ 1024 := by
      simp only [chunk, List.length_take] at hshort
      omega
    rw [show chunk = file from List.take_of_length_le hlen]

/-- The whole file is read. -/
@[simp] theorem readRawBitfile_eq (file : List Byte) : readRawBitfile file = file :=
  readChunks_eq file []

variable (raw : List Byte) (offset : ℤ)

/-- `memcpy` of `count` bytes from the file. -/
def readBytes (count : ℕ) : Except Fault (List Byte) :=
  if 0 ≤ offset ∧ offset.toNat + count ≤ raw.length then
    .ok ((raw.drop offset.toNat).take count)
  else .error .undefined

/-- `rawBitData[offset]`. -/
def readByte : Except Fault Byte := do
  match ← readBytes raw offset 1 with
  | [b] => return b
  | _ => throw .undefined

def readShort : Except Fault ℤ := do
  match ← readBytes raw offset 2 with
  | [b₀, b₁] => return (bswap16 (loadShort b₀ b₁)).toInt
  | _ => throw .undefined

def readInt : Except Fault ℤ := do
  match ← readBytes raw offset 4 with
  | [b₀, b₁, b₂, b₃] => return (bswap32 (loadInt b₀ b₁ b₂ b₃)).toInt
  | _ => throw .undefined

/-- The field `0x65` after its description, the same in both extractions. `malloc` of a negative
length fails. -/
def readPayload : Except Fault (List Byte) := do
  let length ← readInt raw offset
  if length < 0 then throw .undefined else
  let data ← readBytes raw (offset + 4) length.toNat
  if length % 4 = 0 then return swapWords data else throw .undefined

/-! ## The two walks -/

/-- `PYNQ_BITSTREAM_INFO`. -/
structure BitstreamInfo where
  design : List Byte
  version : List Byte
  part : List Byte
  date : List Byte
  time : List Byte
  data_length : ℤ
  data : List Byte
  deriving DecidableEq, Repr

/-- What `extractBitstreamInfo` does with a field that is not the payload. A design without `;` is
a copy from `NULL`. -/
def recordField (header : BitstreamInfo) (desc : Byte) (buffer : List Byte) :
    Except Fault BitstreamInfo :=
  if desc = 0x61 then
    let text := cString buffer
    match strrchr text 0x3b with
    | some semi =>
      .ok { header with design := text.take semi, version := text.drop (semi + 1) }
    | none => .error .undefined
  else if desc = 0x62 then .ok { header with part := buffer }
  else if desc = 0x63 then .ok { header with date := buffer }
  else if desc = 0x64 then .ok { header with time := buffer }
  else .ok header

/-- A round that a fault ends. -/
def orFault {σ β : Type*} (round : Except Fault (σ ⊕ β)) : σ ⊕ Except Fault β :=
  match round with
  | .ok (.inl s) => .inl s
  | .ok (.inr b) => .inr (.ok b)
  | .error e => .inr (.error e)

/-- One round of `extractBitstreamPayload`. -/
def payloadRound : ℤ ⊕ Except Fault (List Byte) :=
  orFault do
    let desc ← readByte raw offset
    if desc = 0x65 then
      let data ← readPayload raw (offset + 1)
      return .inr data
    else
      let length ← readShort raw (offset + 1)
      return .inl (offset + 1 + (2 + length))

/-- One round of `extractBitstreamInfo`. A negative length is a `memcpy` of too many bytes. -/
def infoRound (s : ℤ × BitstreamInfo) : (ℤ × BitstreamInfo) ⊕ Except Fault BitstreamInfo :=
  orFault do
    let (offset, header) := s
    let desc ← readByte raw offset
    if desc = 0x65 then
      let length ← readInt raw (offset + 1)
      let data ← readPayload raw (offset + 1)
      return .inr { header with data_length := length, data }
    else
      let length ← readShort raw (offset + 1)
      if length < 0 then throw .undefined else
      let buffer ← readBytes raw (offset + 1 + 2) length.toNat
      let header ← recordField header desc buffer
      return .inl (offset + 1 + 2 + length, header)

/-- `extractBitstreamPayload` on the bytes of the file; `none` if it never returns. The length it
returns beside the data is theirs. -/
def extractBitstreamPayload (file : List Byte) : Option (Except Fault (List Byte)) :=
  let raw := readRawBitfile file
  match readShort raw 0 with
  | .ok length => Loop.rounds (payloadRound raw) (raw.length + 1) (4 + length)
  | .error e => some (.error e)

/-- `extractBitstreamInfo`; the fields that the file does not have keep what the caller had. -/
def extractBitstreamInfo (file : List Byte) (header : BitstreamInfo) :
    Option (Except Fault BitstreamInfo) :=
  let raw := readRawBitfile file
  match readShort raw 0 with
  | .ok length => Loop.rounds (infoRound raw) (raw.length + 1) (4 + length, header)
  | .error e => some (.error e)

/-! ## What is read -/

/-- `rest` is what the file holds from `offset` on. -/
def At (rest : List Byte) : Prop := ∃ pre, raw = pre ++ rest ∧ offset = pre.length

section
variable {raw} {offset} {bytes rest rest' data : List Byte} {b : Byte} {x : ℤ}

theorem At.unique (h : At raw offset rest) (h' : At raw offset rest') : rest = rest' := by
  obtain ⟨pre, rfl, rfl⟩ := h
  obtain ⟨pre', heq, hlen⟩ := h'
  exact (List.append_inj heq (by exact_mod_cast hlen)).2

theorem At.append (h : At raw offset (bytes ++ rest)) : At raw (offset + bytes.length) rest := by
  obtain ⟨pre, rfl, rfl⟩ := h
  exact ⟨pre ++ bytes, by simp, by simp⟩

theorem At.cons (h : At raw offset (b :: rest)) : At raw (offset + 1) rest :=
  At.append (show At raw offset ([b] ++ rest) from h)

theorem readBytes_ok_iff {count : ℕ} :
    readBytes raw offset count = .ok bytes ↔
      bytes.length = count ∧ ∃ rest, At raw offset (bytes ++ rest) := by
  unfold readBytes
  constructor
  · intro h
    split at h
    case isTrue hin =>
      obtain rfl := Except.ok.inj h
      refine ⟨by simp; omega, (raw.drop offset.toNat).drop count, raw.take offset.toNat, ?_, ?_⟩
      · rw [List.take_append_drop, List.take_append_drop]
      · rw [List.length_take]
        omega
    case isFalse => cases h
  · rintro ⟨rfl, rest, pre, rfl, rfl⟩
    simp

theorem ok_bind {ε α β : Type} (a : α) (f : α → Except ε β) :
    (Except.ok a : Except ε α) >>= f = f a := rfl

theorem readByte_ok_iff :
    readByte raw offset = .ok b ↔ ∃ rest, At raw offset (b :: rest) := by
  unfold readByte
  rw [bind_ok_iff]
  constructor
  · rintro ⟨bytes, hbytes, h⟩
    obtain ⟨hlen, rest, hrest⟩ := readBytes_ok_iff.mp hbytes
    obtain ⟨b', rfl⟩ := List.length_eq_one_iff.mp hlen
    obtain rfl := Except.ok.inj h
    exact ⟨rest, hrest⟩
  · rintro ⟨rest, hrest⟩
    exact ⟨[b], readBytes_ok_iff.mpr ⟨rfl, rest, hrest⟩, rfl⟩

theorem readShort_ok_iff : readShort raw offset = .ok x ↔
    ∃ (y : BitVec 16) (rest : List Byte), x = y.toInt ∧ At raw offset (bigShort y ++ rest) := by
  unfold readShort
  rw [bind_ok_iff]
  constructor
  · rintro ⟨bytes, hbytes, h⟩
    obtain ⟨hlen, rest, hrest⟩ := readBytes_ok_iff.mp hbytes
    obtain ⟨b₀, b₁, rfl⟩ := List.length_eq_two.mp hlen
    obtain rfl := Except.ok.inj h
    refine ⟨b₀ ++ b₁, rest, by rw [bswap16_loadShort], ?_⟩
    rwa [bigShort_append]
  · rintro ⟨y, rest, rfl, hrest⟩
    refine ⟨bigShort y, readBytes_ok_iff.mpr ⟨rfl, rest, hrest⟩, ?_⟩
    simp only [bigShort, bswap16_loadShort, append_of_short]
    rfl

theorem readInt_ok_iff : readInt raw offset = .ok x ↔
    ∃ (y : BitVec 32) (rest : List Byte), x = y.toInt ∧ At raw offset (bigInt y ++ rest) := by
  unfold readInt
  rw [bind_ok_iff]
  constructor
  · rintro ⟨bytes, hbytes, h⟩
    obtain ⟨hlen, rest, hrest⟩ := readBytes_ok_iff.mp hbytes
    obtain ⟨b₀, b₁, b₂, b₃, rfl⟩ := List.length_eq_four.mp hlen
    obtain rfl := Except.ok.inj h
    refine ⟨b₀ ++ b₁ ++ b₂ ++ b₃, rest, by rw [bswap32_loadInt], ?_⟩
    rwa [bigInt_append]
  · rintro ⟨y, rest, rfl, hrest⟩
    refine ⟨bigInt y, readBytes_ok_iff.mpr ⟨rfl, rest, hrest⟩, ?_⟩
    simp only [bigInt, bswap32_loadInt, append_of_int]
    rfl

end

/-! ## Well-formed files -/

/-- A field of the header. -/
structure Field where
  desc : Byte
  content : List Byte
  desc_ne : desc ≠ 0x65
  length_lt : content.length < 2 ^ 15

namespace Field

variable (field : Field)

def bytes : List Byte :=
  field.desc :: (bigShort (BitVec.ofNat 16 field.content.length) ++ field.content)

@[simp] theorem length_bytes : (field.bytes.length : ℤ) = 1 + 2 + field.content.length := by
  simp [bytes, bigShort]
  ring

theorem toInt_length : (BitVec.ofNat 16 field.content.length).toInt = field.content.length := by
  have hlt := field.length_lt
  rw [BitVec.toInt_eq_toNat_of_lt (by simp; omega), BitVec.toNat_ofNat]
  omega

end Field

/-- The payload and its length, with its description. -/
def payloadBytes (data : List Byte) : List Byte :=
  0x65 :: (bigInt (BitVec.ofNat 32 data.length) ++ data)

theorem toInt_data_length {data : List Byte} (h : data.length < 2 ^ 31) :
    (BitVec.ofNat 32 data.length).toInt = data.length := by
  rw [BitVec.toInt_eq_toNat_of_lt (by simp; omega), BitVec.toNat_ofNat]
  omega

/-- A length that is not negative is the length of as many bytes. -/
theorem ofNat_of_toInt {n w : ℕ} {y : BitVec w} (h : (n : ℤ) = y.toInt) :
    BitVec.ofNat w n = y := by
  rw [← BitVec.ofInt_natCast, h, BitVec.ofInt_toInt]

section
variable {raw : List Byte} {offset offset' : ℤ} {data rest : List Byte}
  {header header' : BitstreamInfo}

theorem readPayload_ok_iff : readPayload raw offset = .ok data ↔
    ∃ (data' rest : List Byte), data = swapWords data' ∧ data'.length < 2 ^ 31 ∧
      4 ∣ data'.length ∧
      At raw offset (bigInt (BitVec.ofNat 32 data'.length) ++ data' ++ rest) := by
  unfold readPayload
  rw [bind_ok_iff]
  constructor
  · rintro ⟨length, hlength, h⟩
    obtain ⟨y, rest, rfl, hrest⟩ := readInt_ok_iff.mp hlength
    have hneg : ¬ y.toInt < 0 := fun hneg => by
      rw [if_pos hneg] at h
      cases h
    rw [if_neg hneg] at h
    obtain ⟨data', hdata, h⟩ := bind_ok_iff.mp h
    have hdvd : y.toInt % 4 = 0 := by
      by_contra hdvd
      rw [if_neg hdvd] at h
      cases h
    rw [if_pos hdvd] at h
    obtain rfl := Except.ok.inj h
    obtain ⟨hlen, rest', hrest'⟩ := readBytes_ok_iff.mp hdata
    have hy : (data'.length : ℤ) = y.toInt := by omega
    obtain rfl := ofNat_of_toInt hy
    have hlt := BitVec.toInt_lt (x := BitVec.ofNat 32 data'.length)
    refine ⟨data', rest', rfl, by omega, by omega, ?_⟩
    rw [List.append_assoc, ← hrest.append.unique hrest']
    exact hrest
  · rintro ⟨data', rest, rfl, hlt, hdvd, hrest⟩
    rw [List.append_assoc] at hrest
    refine ⟨data'.length, readInt_ok_iff.mpr ⟨_, _, (toInt_data_length hlt).symm, hrest⟩, ?_⟩
    have hdata : readBytes raw (offset + 4) data'.length = .ok data' :=
      readBytes_ok_iff.mpr ⟨rfl, rest, hrest.append⟩
    rw [if_neg (by omega), Int.toNat_natCast, hdata]
    exact if_pos (by omega)

theorem orFault_eq_inl_iff {σ β : Type} {round : Except Fault (σ ⊕ β)} {t : σ} :
    orFault round = .inl t ↔ round = .ok (.inl t) := by
  rcases round with e | (t' | b) <;> simp [orFault]

theorem orFault_eq_ok_iff {σ β : Type} {round : Except Fault (σ ⊕ β)} {b : β} :
    orFault round = .inr (.ok b) ↔ round = .ok (.inr b) := by
  rcases round with e | (t | b') <;> simp [orFault]

/-! ## One round -/

theorem payloadRound_of_field (field : Field) (h : At raw offset (field.bytes ++ rest)) :
    payloadRound raw offset = .inl (offset + field.bytes.length) := by
  have hdesc : readByte raw offset = .ok field.desc := readByte_ok_iff.mpr ⟨_, h⟩
  have hnext : At raw (offset + 1) (bigShort (BitVec.ofNat 16 field.content.length) ++
      (field.content ++ rest)) := by
    simpa [Field.bytes] using h.cons
  have hlength : readShort raw (offset + 1) = .ok (field.content.length : ℤ) :=
    readShort_ok_iff.mpr ⟨_, _, field.toInt_length.symm, hnext⟩
  unfold payloadRound
  rw [orFault_eq_inl_iff, hdesc, bind_ok_iff]
  refine ⟨field.desc, rfl, ?_⟩
  rw [if_neg field.desc_ne, hlength, bind_ok_iff]
  refine ⟨_, rfl, congrArg (fun o => Except.ok (Sum.inl o)) ?_⟩
  rw [field.length_bytes]
  ring

theorem payloadRound_of_payload (hlt : data.length < 2 ^ 31) (hdvd : 4 ∣ data.length)
    (h : At raw offset (payloadBytes data ++ rest)) :
    payloadRound raw offset = .inr (.ok (swapWords data)) := by
  have hdesc : readByte raw offset = .ok 0x65 := readByte_ok_iff.mpr ⟨_, h⟩
  have hpayload : readPayload raw (offset + 1) = .ok (swapWords data) :=
    readPayload_ok_iff.mpr ⟨data, rest, rfl, hlt, hdvd, h.cons⟩
  unfold payloadRound
  rw [orFault_eq_ok_iff, hdesc, bind_ok_iff]
  refine ⟨0x65, rfl, ?_⟩
  rw [if_pos rfl, hpayload]
  rfl

/-- One round of `extractBitstreamInfo` goes on over a well-formed field. -/
theorem infoRound_eq_inl_iff : infoRound raw (offset, header) = .inl (offset', header') ↔
    ∃ (field : Field) (rest : List Byte), At raw offset (field.bytes ++ rest) ∧
      offset' = offset + field.bytes.length ∧
      recordField header field.desc field.content = .ok header' := by
  unfold infoRound
  rw [orFault_eq_inl_iff, bind_ok_iff]
  constructor
  · rintro ⟨desc, hdesc, h⟩
    by_cases hpayload : desc = 0x65
    · rw [if_pos hpayload] at h
      obtain ⟨length, -, h⟩ := bind_ok_iff.mp h
      obtain ⟨data, -, h⟩ := bind_ok_iff.mp h
      cases h
    · rw [if_neg hpayload] at h
      obtain ⟨length, hlength, h⟩ := bind_ok_iff.mp h
      obtain ⟨rest, hrest⟩ := readByte_ok_iff.mp hdesc
      obtain ⟨y, rest₁, rfl, hrest₁⟩ := readShort_ok_iff.mp hlength
      have hneg : ¬ y.toInt < 0 := fun hneg => by
        rw [if_pos hneg] at h
        cases h
      rw [if_neg hneg] at h
      obtain ⟨buffer, hbuffer, h⟩ := bind_ok_iff.mp h
      obtain ⟨header₁, hrecord, h⟩ := bind_ok_iff.mp h
      obtain ⟨hlen, rest₂, hrest₂⟩ := readBytes_ok_iff.mp hbuffer
      have hy : (buffer.length : ℤ) = y.toInt := by omega
      have hlt := BitVec.toInt_lt (x := y)
      obtain rfl := ofNat_of_toInt hy
      have hrest_eq := hrest.cons.unique hrest₁
      have hrest₁_eq : rest₁ = buffer ++ rest₂ := At.unique hrest₁.append hrest₂
      obtain ⟨hoffset, rfl⟩ := Prod.mk.inj (Sum.inl.inj (Except.ok.inj h))
      let field : Field := ⟨desc, buffer, hpayload, by omega⟩
      refine ⟨field, rest₂, ?_, ?_, ?_⟩
      · rw [hrest_eq, hrest₁_eq] at hrest
        simpa [Field.bytes, field] using hrest
      · rw [field.length_bytes, ← hoffset, ← hy]
        ring
      · exact hrecord
  · rintro ⟨field, rest, hat, rfl, hrecord⟩
    have hshort : At raw (offset + 1) (bigShort (BitVec.ofNat 16 field.content.length) ++
        (field.content ++ rest)) := by
      simpa [Field.bytes] using hat.cons
    have hbuffer : readBytes raw (offset + 1 + 2) field.content.length = .ok field.content :=
      readBytes_ok_iff.mpr ⟨rfl, rest, hshort.append⟩
    refine ⟨field.desc, readByte_ok_iff.mpr ⟨_, hat⟩, ?_⟩
    rw [if_neg field.desc_ne, bind_ok_iff]
    refine ⟨field.content.length,
      readShort_ok_iff.mpr ⟨_, _, field.toInt_length.symm, hshort⟩, ?_⟩
    rw [if_neg (by omega), Int.toNat_natCast, hbuffer, bind_ok_iff]
    refine ⟨field.content, rfl, ?_⟩
    rw [hrecord, field.length_bytes, ← add_assoc, ← add_assoc]
    rfl

/-- It ends well with a payload of whole words. -/
theorem infoRound_eq_ok_iff : infoRound raw (offset, header) = .inr (.ok header') ↔
    ∃ data rest : List Byte, At raw offset (payloadBytes data ++ rest) ∧ data.length < 2 ^ 31 ∧
      4 ∣ data.length ∧
      header' = { header with data_length := data.length, data := swapWords data } := by
  unfold infoRound
  rw [orFault_eq_ok_iff, bind_ok_iff]
  constructor
  · rintro ⟨desc, hdesc, h⟩
    by_cases hpayload : desc = 0x65
    · subst hpayload
      rw [if_pos rfl] at h
      obtain ⟨length, hlength, h⟩ := bind_ok_iff.mp h
      obtain ⟨_, hdata, h⟩ := bind_ok_iff.mp h
      obtain ⟨rest, hrest⟩ := readByte_ok_iff.mp hdesc
      obtain ⟨data, rest₁, rfl, hlt, hdvd, hrest₁⟩ := readPayload_ok_iff.mp hdata
      have hrest_eq := hrest.cons.unique hrest₁
      refine ⟨data, rest₁, ?_, hlt, hdvd, ?_⟩
      · rw [hrest_eq] at hrest
        simpa [payloadBytes] using hrest
      · have hint : readInt raw (offset + 1) = .ok (data.length : ℤ) := by
          rw [List.append_assoc] at hrest₁
          exact readInt_ok_iff.mpr ⟨_, _, (toInt_data_length hlt).symm, hrest₁⟩
        obtain rfl := Except.ok.inj (hlength.symm.trans hint)
        exact (Sum.inr.inj (Except.ok.inj h)).symm
    · rw [if_neg hpayload] at h
      obtain ⟨length, -, h⟩ := bind_ok_iff.mp h
      by_cases hneg : length < 0
      · rw [if_pos hneg] at h
        cases h
      · rw [if_neg hneg] at h
        obtain ⟨buffer, -, h⟩ := bind_ok_iff.mp h
        obtain ⟨header₁, -, h⟩ := bind_ok_iff.mp h
        cases h
  · rintro ⟨data, rest, hat, hlt, hdvd, rfl⟩
    refine ⟨0x65, readByte_ok_iff.mpr ⟨_, hat⟩, ?_⟩
    have hint : At raw (offset + 1) (bigInt (BitVec.ofNat 32 data.length) ++ (data ++ rest)) := by
      simpa [payloadBytes] using hat.cons
    rw [if_pos rfl, bind_ok_iff]
    refine ⟨data.length, readInt_ok_iff.mpr ⟨_, _, (toInt_data_length hlt).symm, hint⟩, ?_⟩
    rw [readPayload_ok_iff.mpr ⟨data, rest, rfl, hlt, hdvd, hat.cons⟩]
    rfl

/-- The last bytes of a payload that is not made of whole words are written as a whole word. -/
theorem readPayload_of_not_dvd (hlt : data.length < 2 ^ 31) (hdvd : ¬ 4 ∣ data.length)
    (h : At raw offset (bigInt (BitVec.ofNat 32 data.length) ++ data ++ rest)) :
    readPayload raw offset = .error .undefined := by
  rw [List.append_assoc] at h
  have hlength := readInt_ok_iff.mpr ⟨_, _, (toInt_data_length hlt).symm, h⟩
  have hdata : readBytes raw (offset + 4) data.length = .ok data :=
    readBytes_ok_iff.mpr ⟨rfl, rest, h.append⟩
  unfold readPayload
  rw [hlength, ok_bind, if_neg (by omega), Int.toNat_natCast, hdata, ok_bind]
  exact if_neg (by omega)

theorem infoRound_of_not_dvd (hlt : data.length < 2 ^ 31) (hdvd : ¬ 4 ∣ data.length)
    (h : At raw offset (payloadBytes data ++ rest)) :
    infoRound raw (offset, header) = .inr (.error .undefined) := by
  have hdesc : readByte raw offset = .ok 0x65 := readByte_ok_iff.mpr ⟨_, h⟩
  have hint : At raw (offset + 1) (bigInt (BitVec.ofNat 32 data.length) ++ (data ++ rest)) := by
    simpa [payloadBytes] using h.cons
  have hlength := readInt_ok_iff.mpr ⟨_, _, (toInt_data_length hlt).symm, hint⟩
  have hpayload := readPayload_of_not_dvd hlt hdvd h.cons
  unfold infoRound
  simp only [hdesc, hlength, hpayload]
  rfl

theorem payloadRound_of_not_dvd (hlt : data.length < 2 ^ 31) (hdvd : ¬ 4 ∣ data.length)
    (h : At raw offset (payloadBytes data ++ rest)) :
    payloadRound raw offset = .inr (.error .undefined) := by
  have hdesc : readByte raw offset = .ok 0x65 := readByte_ok_iff.mpr ⟨_, h⟩
  have hpayload := readPayload_of_not_dvd hlt hdvd h.cons
  unfold payloadRound
  simp only [hdesc, hpayload]
  rfl

/-! ## Whole files -/

/-- From `offset` on the file holds the fields and the payload, and `rest` that is not looked at. -/
def WellFormedAt (raw : List Byte) (offset : ℤ) (fields : List Field) (data : List Byte) : Prop :=
  ∃ rest, At raw offset (fields.flatMap Field.bytes ++ (payloadBytes data ++ rest)) ∧
    data.length < 2 ^ 31 ∧ 4 ∣ data.length

/-- The fields into the header, the payload after them. -/
def recordFields (header : BitstreamInfo) (fields : List Field) (data : List Byte) :
    Except Fault BitstreamInfo := do
  let header ←
    fields.foldlM (fun header field => recordField header field.desc field.content) header
  return { header with data_length := data.length, data := swapWords data }

theorem wellFormedAt_cons {field : Field} {fields : List Field} :
    WellFormedAt raw offset (field :: fields) data ↔
      (∃ rest, At raw offset (field.bytes ++ rest)) ∧
        WellFormedAt raw (offset + field.bytes.length) fields data := by
  constructor
  · rintro ⟨rest, hat, hdata⟩
    rw [List.flatMap_cons, List.append_assoc] at hat
    exact ⟨⟨_, hat⟩, rest, hat.append, hdata⟩
  · rintro ⟨⟨rest₀, hfield⟩, rest, hat, hdata⟩
    refine ⟨rest, ?_, hdata⟩
    rw [List.flatMap_cons, List.append_assoc, ← hfield.append.unique hat]
    exact hfield

/-- What the loop of `extractBitstreamInfo` does behind the fields, it does with them in front. -/
theorem infoRound_walk {fields : List Field} {n : ℕ} {b : Except Fault BitstreamInfo}
    (hat : At raw offset (fields.flatMap Field.bytes ++ rest))
    (hrecord : fields.foldlM (fun header field => recordField header field.desc field.content)
      header = .ok header')
    (hends : Loop.Ends (infoRound raw)
      (offset + (fields.flatMap Field.bytes).length, header') n b) :
    ∃ m, Loop.Ends (infoRound raw) (offset, header) m b := by
  induction fields generalizing offset header with
  | nil =>
    obtain rfl := Except.ok.inj hrecord
    exact ⟨n, by simpa using hends⟩
  | cons field fields ih =>
    rw [List.flatMap_cons, List.append_assoc] at hat
    rw [List.foldlM_cons, bind_ok_iff] at hrecord
    obtain ⟨header₁, hfirst, hrecord⟩ := hrecord
    obtain ⟨m, hm⟩ := ih hat.append hrecord (by
      rw [List.flatMap_cons, List.length_append, Nat.cast_add, ← add_assoc] at hends
      exact hends)
    exact ⟨m + 1, .later (infoRound_eq_inl_iff.mpr ⟨field, _, hat, rfl, hfirst⟩) hm⟩

theorem payloadRound_walk {fields : List Field} {n : ℕ} {b : Except Fault (List Byte)}
    (hat : At raw offset (fields.flatMap Field.bytes ++ rest))
    (hends : Loop.Ends (payloadRound raw) (offset + (fields.flatMap Field.bytes).length) n b) :
    ∃ m, Loop.Ends (payloadRound raw) offset m b := by
  induction fields generalizing offset with
  | nil => exact ⟨n, by simpa using hends⟩
  | cons field fields ih =>
    rw [List.flatMap_cons, List.append_assoc] at hat
    obtain ⟨m, hm⟩ := ih hat.append (by
      rw [List.flatMap_cons, List.length_append, Nat.cast_add, ← add_assoc] at hends
      exact hends)
    exact ⟨m + 1, .later (payloadRound_of_field field hat) hm⟩

/-- The loop of `extractBitstreamInfo` ends well exactly on well-formed fields. -/
theorem infoRound_ends_iff :
    (∃ n, Loop.Ends (infoRound raw) (offset, header) n (.ok header')) ↔
      ∃ fields data, WellFormedAt raw offset fields data ∧
        recordFields header fields data = .ok header' := by
  constructor
  · rintro ⟨n, h⟩
    generalize hs : (offset, header) = s at h
    generalize hb : (Except.ok header' : Except Fault BitstreamInfo) = b at h
    induction h generalizing offset header with
    | now h =>
      subst hs hb
      obtain ⟨data, rest, hat, hlt, hdvd, rfl⟩ := infoRound_eq_ok_iff.mp h
      exact ⟨[], data, ⟨rest, by simpa using hat, hlt, hdvd⟩, rfl⟩
    | @later s t n b h _ ih =>
      subst hs
      obtain ⟨offset', header₁⟩ := t
      obtain ⟨field, rest, hat, hoffset, hrecord⟩ := infoRound_eq_inl_iff.mp h
      obtain ⟨fields, data, hwell, hfields⟩ := ih rfl hb
      refine ⟨field :: fields, data, wellFormedAt_cons.mpr ⟨⟨rest, hat⟩, hoffset ▸ hwell⟩, ?_⟩
      rw [recordFields, List.foldlM_cons, hrecord]
      exact hfields
  · rintro ⟨fields, data, ⟨rest, hat, hlt, hdvd⟩, hrecord⟩
    obtain ⟨header₁, hfields, hheader⟩ := bind_ok_iff.mp hrecord
    obtain rfl := Except.ok.inj hheader
    exact infoRound_walk hat hfields
      (.now (infoRound_eq_ok_iff.mpr ⟨data, rest, hat.append, hlt, hdvd, rfl⟩))

/-- So does the loop of `extractBitstreamPayload`. -/
theorem payloadRound_ends {fields : List Field} (h : WellFormedAt raw offset fields data) :
    ∃ n, Loop.Ends (payloadRound raw) offset n (.ok (swapWords data)) := by
  obtain ⟨rest, hat, hlt, hdvd⟩ := h
  exact payloadRound_walk hat (.now (payloadRound_of_payload hlt hdvd hat.append))

/-- Both loops only go on from inside the file. -/
theorem inside_of_readByte {b : Byte} (h : readByte raw offset = .ok b) :
    0 ≤ offset ∧ offset.toNat < raw.length := by
  obtain ⟨rest, pre, rfl, rfl⟩ := readByte_ok_iff.mp h
  simp

theorem inside_of_payloadRound (h : payloadRound raw offset = .inl offset') :
    0 ≤ offset ∧ offset.toNat < raw.length := by
  unfold payloadRound at h
  rw [orFault_eq_inl_iff, bind_ok_iff] at h
  obtain ⟨desc, hdesc, -⟩ := h
  exact inside_of_readByte hdesc

/-- Every field read brings `extractBitstreamInfo` nearer to the end of the file. -/
theorem infoRound_ends (raw : List Byte) (offset : ℤ) (header : BitstreamInfo) :
    ∃ n b, n ≤ raw.length + 1 ∧ Loop.Ends (infoRound raw) (offset, header) n b := by
  have hfalls : ∀ s t, infoRound raw s = .inl t →
      raw.length - t.1.toNat < raw.length - s.1.toNat := by
    rintro ⟨offset, header⟩ ⟨offset', header'⟩ hround
    obtain ⟨field, rest, hat, rfl, -⟩ := infoRound_eq_inl_iff.mp hround
    obtain ⟨hnonneg, hlt⟩ := inside_of_readByte (readByte_ok_iff.mpr ⟨_, hat⟩)
    rw [field.length_bytes]
    omega
  obtain ⟨n, b, hn, hends⟩ := Loop.exists_ends _ hfalls (offset, header)
  exact ⟨n, b, by omega, hends⟩

end

variable {file : List Byte} {header header' : BitstreamInfo}

section
variable {length : ℤ} {e : Fault}

theorem extractBitstreamInfo_of_ok (h : readShort file 0 = .ok length) :
    extractBitstreamInfo file header =
      Loop.rounds (infoRound file) (file.length + 1) (4 + length, header) := by
  simp only [extractBitstreamInfo, readRawBitfile_eq, h]

theorem extractBitstreamInfo_of_error (h : readShort file 0 = .error e) :
    extractBitstreamInfo file header = some (.error e) := by
  simp only [extractBitstreamInfo, readRawBitfile_eq, h]

theorem extractBitstreamPayload_of_ok (h : readShort file 0 = .ok length) :
    extractBitstreamPayload file =
      Loop.rounds (payloadRound file) (file.length + 1) (4 + length) := by
  simp only [extractBitstreamPayload, readRawBitfile_eq, h]

theorem extractBitstreamPayload_of_error (h : readShort file 0 = .error e) :
    extractBitstreamPayload file = some (.error e) := by
  simp only [extractBitstreamPayload, readRawBitfile_eq, h]

end

/-- `extractBitstreamInfo` always comes to an end. -/
theorem extractBitstreamInfo_isSome (file : List Byte) (header : BitstreamInfo) :
    (extractBitstreamInfo file header).isSome := by
  cases hshort : readShort file 0 with
  | error e => rw [extractBitstreamInfo_of_error hshort, Option.isSome_some]
  | ok length =>
    obtain ⟨n, b, hn, hends⟩ := infoRound_ends file (4 + length) header
    rw [extractBitstreamInfo_of_ok hshort, Loop.rounds_of_ends hends hn, Option.isSome_some]

/-- The first field is at the start of the file. -/
theorem at_zero_iff {l : List Byte} : At file 0 l ↔ file = l := by
  constructor
  · rintro ⟨pre, rfl, hpre⟩
    obtain rfl : pre = [] := List.length_eq_zero_iff.mp (by omega)
    rfl
  · rintro rfl
    exact ⟨[], rfl, rfl⟩

theorem wellFormed_of_info (h : extractBitstreamInfo file header = some (.ok header')) :
    ∃ (y : BitVec 16) (rest : List Byte) (fields : List Field) (data : List Byte),
      file = bigShort y ++ rest ∧ WellFormedAt file (4 + y.toInt) fields data ∧
        recordFields header fields data = .ok header' := by
  cases hshort : readShort file 0 with
  | error e =>
    rw [extractBitstreamInfo_of_error hshort] at h
    cases Option.some.inj h
  | ok length =>
    rw [extractBitstreamInfo_of_ok hshort] at h
    obtain ⟨n, -, hends⟩ := Loop.rounds_eq_some_iff.mp h
    obtain ⟨y, rest, rfl, hrest⟩ := readShort_ok_iff.mp hshort
    obtain ⟨fields, data, hwell, hrecord⟩ := infoRound_ends_iff.mp ⟨n, hends⟩
    exact ⟨y, rest, fields, data, at_zero_iff.mp hrest, hwell, hrecord⟩

theorem info_of_wellFormed {y : BitVec 16} {rest data : List Byte} {fields : List Field}
    (hfile : file = bigShort y ++ rest) (hwell : WellFormedAt file (4 + y.toInt) fields data)
    (hrecord : recordFields header fields data = .ok header') :
    extractBitstreamInfo file header = some (.ok header') := by
  have hshort := readShort_ok_iff.mpr ⟨y, rest, rfl, at_zero_iff.mpr hfile⟩
  obtain ⟨n, hends⟩ := infoRound_ends_iff.mpr ⟨fields, data, hwell, hrecord⟩
  obtain ⟨m, b, hm, hends'⟩ := infoRound_ends file (4 + y.toInt) header
  obtain ⟨rfl, rfl⟩ := hends.unique hends'
  rw [extractBitstreamInfo_of_ok hshort]
  exact Loop.rounds_of_ends hends hm

/-- **What is accepted.** `extractBitstreamInfo` succeeds exactly on a file whose first field leads
to well-formed fields, the design among them with a `;`, and a payload of whole words behind them;
the header then holds the fields and the payload in the other byte order. -/
theorem extractBitstreamInfo_ok_iff :
    extractBitstreamInfo file header = some (.ok header') ↔
      ∃ (y : BitVec 16) (rest : List Byte) (fields : List Field) (data : List Byte),
        file = bigShort y ++ rest ∧ WellFormedAt file (4 + y.toInt) fields data ∧
          recordFields header fields data = .ok header' := by
  constructor
  · exact wellFormed_of_info
  · rintro ⟨y, rest, fields, data, hfile, hwell, hrecord⟩
    exact info_of_wellFormed hfile hwell hrecord

/-- The rounds that `extractBitstreamPayload` is given are always enough. -/
theorem payloadRound_le {offset : ℤ} {n : ℕ} {b : Except Fault (List Byte)}
    (h : Loop.Ends (payloadRound file) offset n b) : n ≤ file.length + 1 := by
  apply h.le_of_bounded Int.toNat
  · exact fun s t hround => (inside_of_payloadRound hround).2
  · intro s s' t t' hround hround' heq
    have hnonneg := (inside_of_payloadRound hround).1
    have hnonneg' := (inside_of_payloadRound hround').1
    omega

theorem payload_of_wellFormed {y : BitVec 16} {rest data : List Byte} {fields : List Field}
    (hfile : file = bigShort y ++ rest) (hwell : WellFormedAt file (4 + y.toInt) fields data) :
    extractBitstreamPayload file = some (.ok (swapWords data)) := by
  have hshort := readShort_ok_iff.mpr ⟨y, rest, rfl, at_zero_iff.mpr hfile⟩
  obtain ⟨n, hends⟩ := payloadRound_ends hwell
  rw [extractBitstreamPayload_of_ok hshort]
  exact Loop.rounds_of_ends hends (payloadRound_le hends)

/-- **When the payload extraction never returns**: exactly when it comes back, over a field of
negative length, to a place where it has been. The other one, which reads its fields, always comes
to an end. -/
theorem extractBitstreamPayload_none_iff :
    (extractBitstreamPayload file = none ↔
      ∃ length offset, readShort file 0 = .ok length ∧
        Relation.ReflTransGen (Loop.Goes (payloadRound file)) (4 + length) offset ∧
        Relation.TransGen (Loop.Goes (payloadRound file)) offset offset) ∧
    ∀ header, (extractBitstreamInfo file header).isSome := by
  refine ⟨?_, extractBitstreamInfo_isSome file⟩
  have hnever : ∀ offset, (∀ n b, ¬ Loop.Ends (payloadRound file) offset n b) ↔
      Loop.rounds (payloadRound file) (file.length + 1) offset = none := by
    intro offset
    rw [Option.eq_none_iff_forall_ne_some]
    constructor
    · intro h b hrounds
      obtain ⟨n, -, hends⟩ := Loop.rounds_eq_some_iff.mp hrounds
      exact h n b hends
    · intro h n b hends
      exact h b (Loop.rounds_of_ends hends (payloadRound_le hends))
  have hcycle : ∀ offset, (∀ n b, ¬ Loop.Ends (payloadRound file) offset n b) ↔ ∃ t,
      Relation.ReflTransGen (Loop.Goes (payloadRound file)) offset t ∧
        Relation.TransGen (Loop.Goes (payloadRound file)) t t := by
    intro offset
    apply Loop.never_ends_iff (N := file.length) Int.toNat
    · exact fun s t hround => (inside_of_payloadRound hround).2
    · intro s s' t t' hround hround' heq
      have hnonneg := (inside_of_payloadRound hround).1
      have hnonneg' := (inside_of_payloadRound hround').1
      omega
  cases hshort : readShort file 0 with
  | error e =>
    rw [extractBitstreamPayload_of_error hshort]
    simp
  | ok length =>
    rw [extractBitstreamPayload_of_ok hshort, ← hnever, hcycle]
    constructor
    · rintro ⟨offset, hreach, hback⟩
      exact ⟨length, offset, rfl, hreach, hback⟩
    · rintro ⟨_, offset, hlength, hreach, hback⟩
      obtain rfl := Except.ok.inj hlength
      exact ⟨offset, hreach, hback⟩

/-! ## The files the vendor's tools write -/

/-- A file with the five fields of the header. Field contents end with a zero byte. -/
structure BitFile where
  preamble : List Byte
  /-- Two bytes that are not looked at. -/
  unknown : BitVec 16
  design : List Byte
  version : List Byte
  part : List Byte
  date : List Byte
  time : List Byte
  data : List Byte
  preamble_lt : preamble.length < 2 ^ 15
  design_lt : (design ++ 0x3b :: version ++ [0]).length < 2 ^ 15
  part_lt : part.length < 2 ^ 15
  date_lt : date.length < 2 ^ 15
  time_lt : time.length < 2 ^ 15
  data_lt : data.length < 2 ^ 31
  design_text : 0 ∉ design
  /-- The version is what stands behind the last `;`. -/
  version_text : 0 ∉ version ∧ 0x3b ∉ version

namespace BitFile

variable (bit : BitFile)

def fields : List Field :=
  [⟨0x61, bit.design ++ 0x3b :: bit.version ++ [0], by decide, bit.design_lt⟩,
    ⟨0x62, bit.part, by decide, bit.part_lt⟩, ⟨0x63, bit.date, by decide, bit.date_lt⟩,
    ⟨0x64, bit.time, by decide, bit.time_lt⟩]

def bytes : List Byte :=
  bigShort (BitVec.ofNat 16 bit.preamble.length) ++ bit.preamble ++ bigShort bit.unknown ++
    bit.fields.flatMap Field.bytes ++ payloadBytes bit.data

theorem toInt_preamble : (BitVec.ofNat 16 bit.preamble.length).toInt = bit.preamble.length := by
  have hlt := bit.preamble_lt
  rw [BitVec.toInt_eq_toNat_of_lt (by simp; omega), BitVec.toNat_ofNat]
  omega

theorem bytes_eq : bit.bytes = bigShort (BitVec.ofNat 16 bit.preamble.length) ++ (bit.preamble ++
    (bigShort bit.unknown ++ (bit.fields.flatMap Field.bytes ++ payloadBytes bit.data))) := by
  simp only [bytes, List.append_assoc]

theorem at_fields : At bit.bytes (4 + (BitVec.ofNat 16 bit.preamble.length).toInt)
    (bit.fields.flatMap Field.bytes ++ (payloadBytes bit.data ++ [])) := by
  rw [bit.toInt_preamble]
  refine ⟨bigShort (BitVec.ofNat 16 bit.preamble.length) ++ bit.preamble ++
    bigShort bit.unknown, ?_, ?_⟩
  · simp [bytes]
  · simp [bigShort]
    omega

/-- What the header of the file says. -/
def info : BitstreamInfo where
  design := bit.design
  version := bit.version
  part := bit.part
  date := bit.date
  time := bit.time
  data_length := bit.data.length
  data := swapWords bit.data

theorem cString_design :
    cString (bit.design ++ 0x3b :: bit.version ++ [0]) = bit.design ++ 0x3b :: bit.version := by
  rw [cString, List.takeWhile_append_of_pos, List.takeWhile_cons_of_neg (by simp), List.append_nil]
  intro b hb
  have hne : b ≠ 0 := by
    rintro rfl
    rcases List.mem_append.mp hb with hdesign | hversion
    · exact bit.design_text hdesign
    · rcases List.mem_cons.mp hversion with hsemi | hversion
      · exact absurd hsemi (by decide)
      · exact bit.version_text.1 hversion
  simpa using hne

theorem foldlM_fields (header : BitstreamInfo) :
    bit.fields.foldlM (fun header field => recordField header field.desc field.content) header =
      .ok { bit.info with data_length := header.data_length, data := header.data } := by
  have hsemi : strrchr (bit.design ++ 0x3b :: bit.version) 0x3b = some bit.design.length :=
    strrchr_append bit.version_text.2
  have hdesign : recordField header 0x61 (bit.design ++ 0x3b :: bit.version ++ [0]) =
      .ok { header with design := bit.design, version := bit.version } := by
    simp only [recordField, if_true, cString_design, hsemi]
    rw [List.take_left' rfl, List.drop_append]
    simp
  simp only [fields, List.foldlM_cons, hdesign]
  rfl

theorem info_bytes (h : 4 ∣ bit.data.length) (header : BitstreamInfo) :
    extractBitstreamInfo bit.bytes header = some (.ok bit.info) := by
  refine info_of_wellFormed bit.bytes_eq ⟨[], bit.at_fields, bit.data_lt, h⟩ ?_
  rw [recordFields, bit.foldlM_fields header]
  rfl

theorem payload_bytes (h : 4 ∣ bit.data.length) :
    extractBitstreamPayload bit.bytes = some (.ok (swapWords bit.data)) :=
  payload_of_wellFormed bit.bytes_eq ⟨[], bit.at_fields, bit.data_lt, h⟩

theorem info_bytes_of_not_dvd (h : ¬ 4 ∣ bit.data.length) (header : BitstreamInfo) :
    extractBitstreamInfo bit.bytes header = some (.error .undefined) := by
  have hshort := readShort_ok_iff.mpr ⟨_, _, rfl, at_zero_iff.mpr bit.bytes_eq⟩
  obtain ⟨n, hends⟩ := infoRound_walk bit.at_fields (bit.foldlM_fields header)
    (.now (infoRound_of_not_dvd bit.data_lt h bit.at_fields.append))
  obtain ⟨m, b, hm, hends'⟩ := infoRound_ends bit.bytes
    (4 + (BitVec.ofNat 16 bit.preamble.length).toInt) header
  obtain ⟨rfl, rfl⟩ := hends.unique hends'
  rw [extractBitstreamInfo_of_ok hshort]
  exact Loop.rounds_of_ends hends hm

theorem payload_bytes_of_not_dvd (h : ¬ 4 ∣ bit.data.length) :
    extractBitstreamPayload bit.bytes = some (.error .undefined) := by
  have hshort := readShort_ok_iff.mpr ⟨_, _, rfl, at_zero_iff.mpr bit.bytes_eq⟩
  obtain ⟨n, hends⟩ := payloadRound_walk bit.at_fields
    (.now (payloadRound_of_not_dvd bit.data_lt h bit.at_fields.append))
  rw [extractBitstreamPayload_of_ok hshort]
  exact Loop.rounds_of_ends hends (payloadRound_le hends)

end BitFile

/-- **Round trip.** Of a file with all its fields the two extractions return what it says, whatever
the caller's header held, if the payload is made of whole words; for any other length both of them
write behind their buffer. -/
theorem extract_bytes (bit : BitFile) (header : BitstreamInfo) :
    extractBitstreamInfo bit.bytes header =
        some (if 4 ∣ bit.data.length then .ok bit.info else .error .undefined) ∧
      extractBitstreamPayload bit.bytes =
        some (if 4 ∣ bit.data.length then .ok (swapWords bit.data) else .error .undefined) := by
  by_cases h : 4 ∣ bit.data.length
  · rw [if_pos h, if_pos h]
    exact ⟨bit.info_bytes h header, bit.payload_bytes h⟩
  · rw [if_neg h, if_neg h]
    exact ⟨bit.info_bytes_of_not_dvd h header, bit.payload_bytes_of_not_dvd h⟩

/-- **The two extractions agree** on every file that the stricter one accepts. -/
theorem extractBitstreamPayload_of_info
    (h : extractBitstreamInfo file header = some (.ok header')) :
    extractBitstreamPayload file = some (.ok header'.data) ∧
      header'.data_length = header'.data.length := by
  obtain ⟨y, rest, fields, data, hfile, hwell, hrecord⟩ := wellFormed_of_info h
  obtain ⟨header₁, -, hheader⟩ := bind_ok_iff.mp hrecord
  obtain rfl := Except.ok.inj hheader
  exact ⟨payload_of_wellFormed hfile hwell, by simp⟩

/-- A design without a name and one word of payload. -/
def smallBit : BitFile where
  preamble := [0x0f, 0xf0]
  unknown := 1
  design := []
  version := [0x31]
  part := [0]
  date := [0]
  time := [0]
  data := [1, 2, 3, 4]
  preamble_lt := by decide
  design_lt := by decide
  part_lt := by decide
  date_lt := by decide
  time_lt := by decide
  data_lt := by decide
  design_text := by decide
  version_text := by decide

theorem extractBitstreamPayload_of_info_smallBit :
    extractBitstreamPayload smallBit.bytes = some (.ok [4, 3, 2, 1]) ∧ (4 : ℤ) = 4 :=
  extractBitstreamPayload_of_info (smallBit.info_bytes (by decide) smallBit.info)

end HardApi
