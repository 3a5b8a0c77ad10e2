import HardApi.Pynq.Bitstream

/-!
# Programming a bitstream

`loadBitstream` writes the payload of a `.bit` file under `/lib/firmware`, then the flags and last
the name of that file to the FPGA manager, which starts programming when it gets the name.
`loadBitstream_spec` says what the files hold however far it has come: the name never reaches the
manager before the payload and the flags are where it looks for them.

The name comes from a `sprintf` of a buffer into itself, which C leaves undefined. What a library
makes of it is a `Sprintf`; without one no call returns.
-/

namespace HardApi

open Bytes

abbrev Path := List Byte

def ascii (text : String) : List Byte := text.toList.map fun c => BitVec.ofNat 8 c.toNat

/-! ## Names -/

/-- `FIRMWARE_PATH_PREFIX`. -/
def firmwarePathPrefix : Path := ascii "/lib/firmware/"

/-- `BS_FPGA_MAN_FLAGS`. -/
def bsFpgaManFlags : Path := ascii "/sys/class/fpga_manager/fpga0/flags"

/-- `BS_FPGA_MAN`. -/
def bsFpgaMan : Path := ascii "/sys/class/fpga_manager/fpga0/firmware"

def getBaseNameFromFile (filename : Path) : Path :=
  match strrchr filename 0x2f with
  | some slash => filename.drop (slash + 1)
  | none => filename

/-- What a library makes of `sprintf(name, "%s.bin", name)`: the text that is in the buffer then,
which has room for `.bin`, and is made of nothing but the name and the format. -/
structure Sprintf where
  left : Path → Path
  fits : ∀ name, (left name).length ≤ name.length + 4
  bytes : ∀ name, ∀ b ∈ left name, b ∈ name ∨ b ∈ ascii ".bin"

/-- A library that reads the name before it writes over it. -/
def Sprintf.appending : Sprintf where
  left name := name ++ ascii ".bin"
  fits _ := List.length_append.le
  bytes _ _ := List.mem_append.mp

/-- A library that ends the text first, and then finds no name. -/
def Sprintf.truncating : Sprintf where
  left _ := ascii ".bin"
  fits name := Nat.le_add_left _ name.length
  bytes _ _ := Or.inr

/-- The name up to its last dot, and `.bin` by `sprintf`; C alone, `none`, does not say what that
leaves. Without a dot the length is that of a `NULL` pointer. -/
def getBinNameFromBit (sprintf : Option Sprintf) (filename : Path) : Except Fault Path :=
  match strrchr filename 0x2e with
  | some dot =>
    match sprintf with
    | some sprintf => .ok (sprintf.left (filename.take dot))
    | none => .error .undefined
  | none => .error .undefined

theorem getBaseNameFromFile_of_slash {dir base : Path} (h : 0x2f ∉ base) :
    getBaseNameFromFile (dir ++ 0x2f :: base) = base := by
  rw [getBaseNameFromFile, strrchr_append h]
  simp

theorem slash_notMem_getBaseNameFromFile (filename : Path) :
    0x2f ∉ getBaseNameFromFile filename := by
  unfold getBaseNameFromFile
  cases h : strrchr filename 0x2f with
  | some slash =>
    obtain ⟨dir, base, rfl, rfl, hbase⟩ := strrchr_eq_some_iff.mp h
    simpa using hbase
  | none => exact strrchr_eq_none_iff.mp h

theorem getBinNameFromBit_of_dot (sprintf : Sprintf) {stem ext : Path} (h : 0x2e ∉ ext) :
    getBinNameFromBit (some sprintf) (stem ++ 0x2e :: ext) = .ok (sprintf.left stem) := by
  rw [getBinNameFromBit, strrchr_append h]
  exact congrArg (fun name => Except.ok (sprintf.left name)) (List.take_left' rfl)

theorem getBinNameFromBit_ok {sprintf : Option Sprintf} {filename bin : Path}
    (h : getBinNameFromBit sprintf filename = .ok bin) :
    ∃ library stem ext, sprintf = some library ∧ filename = stem ++ 0x2e :: ext ∧ 0x2e ∉ ext ∧
      bin = library.left stem := by
  unfold getBinNameFromBit at h
  cases hdot : strrchr filename 0x2e with
  | none =>
    rw [hdot] at h
    cases h
  | some dot =>
    obtain ⟨stem, ext, rfl, rfl, hext⟩ := strrchr_eq_some_iff.mp hdot
    have htake : (stem ++ 0x2e :: ext).take stem.length = stem := List.take_left' rfl
    simp only [hdot, htake] at h
    cases sprintf with
    | none => cases h
    | some library => exact ⟨library, stem, ext, rfl, rfl, hext, (Except.ok.inj h).symm⟩

/-- The name of the firmware has no directory. -/
theorem Sprintf.slash_notMem_left (sprintf : Sprintf) {stem : Path} (hslash : 0x2f ∉ stem) :
    0x2f ∉ sprintf.left stem := by
  intro hmem
  rcases sprintf.bytes stem 0x2f hmem with hstem | hbin
  · exact hslash hstem
  · exact absurd hbin (by decide)

/-- The firmware is not one of the manager's files. -/
theorem firmware_ne {bin path : Path} (hpath : path = bsFpgaManFlags ∨ path = bsFpgaMan) :
    firmwarePathPrefix ++ bin ≠ path := by
  have hprefix : ∀ text : Path, firmwarePathPrefix ++ bin = text →
      text.take firmwarePathPrefix.length = firmwarePathPrefix := by
    rintro text rfl
    exact List.take_left' rfl
  intro heq
  have htake := hprefix path heq
  rcases hpath with rfl | rfl
  · exact absurd htake (by decide)
  · exact absurd htake (by decide)

/-! ## Files -/

structure Files where
  content : Path → Option (List Byte)
  /-- Whether `fopen` succeeds in opening a file to write it. -/
  canOpen : Path → Bool

/-- `fopen`, one write of everything and `fclose`; `none` if the file cannot be opened. -/
def Files.write (files : Files) (path : Path) (bytes : List Byte) : Option Files :=
  if files.canOpen path then
    some { files with content := Function.update files.content path (some bytes) }
  else none

/-- The three writes, up to the first file that cannot be opened, and the return code. -/
def writeFirmware (files : Files) (bin payload flag : List Byte) : Files × Bool :=
  match files.write (firmwarePathPrefix ++ bin) payload with
  | none => (files, false)
  | some files =>
    match files.write bsFpgaManFlags flag with
    | none => (files, false)
    | some files =>
      match files.write bsFpgaMan bin with
      | none => (files, false)
      | some files => (files, true)

/-- `loadBitstream`; `flag` is the text of its argument `partial`. A file that is not there is read
through a `NULL` handle. -/
def loadBitstream (sprintf : Option Sprintf) (files : Files) (bitstream_name : Path)
    (flag : List Byte) : Option (Except Fault (Files × Bool)) :=
  match files.content bitstream_name with
  | none => some (.error .undefined)
  | some file =>
    (extractBitstreamPayload file).map fun payload => do
      let payload ← payload
      let bin ← getBinNameFromBit sprintf (getBaseNameFromFile bitstream_name)
      return writeFirmware files bin payload flag

/-- `PYNQ_loadBitstream`. -/
def pynqLoadBitstream (sprintf : Option Sprintf) (files : Files) (filename : Path) :
    Option (Except Fault (Files × Bool)) :=
  loadBitstream sprintf files filename (ascii "0")

/-- `PYNQ_loadPartialBitstream`. -/
def pynqLoadPartialBitstream (sprintf : Option Sprintf) (files : Files) (filename : Path) :
    Option (Except Fault (Files × Bool)) :=
  loadBitstream sprintf files filename (ascii "1")

variable {files files' : Files} {bitstream_name bin payload flag : List Byte} {ok : Bool}

/-- What the files hold after the writes, however far they have come. -/
structure Written (files files' : Files) (bin payload flag : List Byte) (ok : Bool) : Prop where
  /-- The return code says whether all three files could be opened. -/
  ok_iff : ok = true ↔ files.canOpen (firmwarePathPrefix ++ bin) = true ∧
    files.canOpen bsFpgaManFlags = true ∧ files.canOpen bsFpgaMan = true
  firmware : ok = true → files'.content (firmwarePathPrefix ++ bin) = some payload
  flags : ok = true → files'.content bsFpgaManFlags = some flag
  manager : files'.content bsFpgaMan = if ok then some bin else files.content bsFpgaMan
  frame : ∀ path, path ≠ firmwarePathPrefix ++ bin → path ≠ bsFpgaManFlags → path ≠ bsFpgaMan →
    files'.content path = files.content path

theorem writeFirmware_written (h : writeFirmware files bin payload flag = (files', ok)) :
    Written files files' bin payload flag ok := by
  have hflags : firmwarePathPrefix ++ bin ≠ bsFpgaManFlags := firmware_ne (Or.inl rfl)
  have hman : firmwarePathPrefix ++ bin ≠ bsFpgaMan := firmware_ne (Or.inr rfl)
  have hne : bsFpgaMan ≠ bsFpgaManFlags := by decide
  unfold writeFirmware Files.write at h
  cases hopen : files.canOpen (firmwarePathPrefix ++ bin) with
  | false =>
    obtain ⟨rfl, rfl⟩ : files = files' ∧ false = ok := by simpa [hopen] using h
    exact ⟨by simp [hopen], by simp, by simp, by simp, fun _ _ _ _ => rfl⟩
  | true =>
    cases hopenFlags : files.canOpen bsFpgaManFlags with
    | false =>
      simp only [hopen, hopenFlags, if_true] at h
      obtain ⟨rfl, rfl⟩ := Prod.mk.inj h
      refine ⟨by simp [hopenFlags], by simp, by simp, ?_, fun path hpath _ _ => ?_⟩
      · simp [hman.symm]
      · simp [hpath]
    | true =>
      cases hopenMan : files.canOpen bsFpgaMan with
      | false =>
        simp only [hopen, hopenFlags, hopenMan, if_true] at h
        obtain ⟨rfl, rfl⟩ := Prod.mk.inj h
        refine ⟨by simp [hopenMan], by simp, by simp, ?_, fun path hpath hpath' _ => ?_⟩
        · simp [hman.symm, hne]
        · simp [hpath, hpath']
      | true =>
        simp only [hopen, hopenFlags, hopenMan, if_true] at h
        obtain ⟨rfl, rfl⟩ := Prod.mk.inj h
        refine ⟨by simp [hopen, hopenFlags, hopenMan], fun _ => ?_, fun _ => ?_, by simp,
          fun path hpath hpath' hpath'' => ?_⟩
        · simp [hman, hflags]
        · simp [hne.symm]
        · simp [hpath, hpath', hpath'']

theorem loadBitstream_eq (sprintf : Sprintf) (bit : BitFile) (dir stem ext : Path)
    (hdata : 4 ∣ bit.data.length) (hslash : 0x2f ∉ stem ++ 0x2e :: ext) (hdot : 0x2e ∉ ext)
    (hfile : files.content (dir ++ 0x2f :: (stem ++ 0x2e :: ext)) = some bit.bytes) :
    loadBitstream (some sprintf) files (dir ++ 0x2f :: (stem ++ 0x2e :: ext)) flag =
      some (.ok (writeFirmware files (sprintf.left stem) (swapWords bit.data) flag)) := by
  unfold loadBitstream
  rw [hfile]
  simp only [bit.payload_bytes hdata, getBaseNameFromFile_of_slash hslash,
    getBinNameFromBit_of_dot sprintf hdot, Option.map_some, ok_bind]
  rfl

/-- **Programming a bitstream.** When `loadBitstream` returns, there is a library that says what
its `sprintf` leaves, the payload is the one of the file and the name has no directory, and the
manager has been given the name, with payload and flags in place, or nothing at all and the return
code says so. -/
theorem loadBitstream_spec {sprintf : Option Sprintf}
    (h : loadBitstream sprintf files bitstream_name flag = some (.ok (files', ok))) :
    ∃ library file payload stem ext, sprintf = some library ∧
      files.content bitstream_name = some file ∧
      extractBitstreamPayload file = some (.ok payload) ∧
      getBaseNameFromFile bitstream_name = stem ++ 0x2e :: ext ∧ 0x2e ∉ ext ∧
      0x2f ∉ library.left stem ∧
      Written files files' (library.left stem) payload flag ok := by
  unfold loadBitstream at h
  cases hfile : files.content bitstream_name with
  | none =>
    rw [hfile] at h
    cases Option.some.inj h
  | some file =>
    rw [hfile] at h
    obtain ⟨result, hextract, hresult⟩ := Option.map_eq_some_iff.mp h
    obtain ⟨payload, rfl, hpayload⟩ := bind_ok_iff.mp hresult
    obtain ⟨bin, hbin, hwrites⟩ := bind_ok_iff.mp hpayload
    obtain ⟨library, stem, ext, hlibrary, hbase, hext, rfl⟩ := getBinNameFromBit_ok hbin
    have hslash : 0x2f ∉ stem := fun hmem =>
      slash_notMem_getBaseNameFromFile bitstream_name (hbase ▸ List.mem_append_left _ hmem)
    exact ⟨library, file, payload, stem, ext, hlibrary, rfl, hextract, hbase, hext,
      library.slash_notMem_left hslash, writeFirmware_written (Except.ok.inj hwrites)⟩

/-- The default of the constructor's `bit_file`, and nothing else. -/
def smallFiles : Files where
  content path :=
    if path = ascii "/home/xilinx/bits/full_06/design_1.bit" then some smallBit.bytes else none
  canOpen _ := true

theorem loadBitstream_spec_smallFiles : ∃ files', ∃ library file payload stem ext,
    some Sprintf.truncating = some library ∧
      smallFiles.content (ascii "/home/xilinx/bits/full_06/design_1.bit") = some file ∧
      extractBitstreamPayload file = some (.ok payload) ∧
      getBaseNameFromFile (ascii "/home/xilinx/bits/full_06/design_1.bit") =
        stem ++ 0x2e :: ext ∧ 0x2e ∉ ext ∧ 0x2f ∉ library.left stem ∧
      Written smallFiles files' (library.left stem) payload (ascii "0") true :=
  ⟨_, loadBitstream_spec (loadBitstream_eq .truncating smallBit
    (ascii "/home/xilinx/bits/full_06") (ascii "design_1") (ascii "bit") (by decide) (by decide)
    (by decide) rfl)⟩

/-- **The file that the manager programs.** For a file of the vendor's tools with whole words of
payload and a name `dir/stem.ext`, and files that can be opened, the manager is told what `sprintf`
has left of `stem`, and the file of that name under `/lib/firmware` holds the payload in the other
byte order. -/
theorem loadBitstream_bitFile (sprintf : Sprintf) (bit : BitFile) (dir stem ext : Path)
    (hdata : 4 ∣ bit.data.length) (hslash : 0x2f ∉ stem ++ 0x2e :: ext) (hdot : 0x2e ∉ ext)
    (hfile : files.content (dir ++ 0x2f :: (stem ++ 0x2e :: ext)) = some bit.bytes)
    (hopen : files.canOpen (firmwarePathPrefix ++ sprintf.left stem) = true ∧
      files.canOpen bsFpgaManFlags = true ∧ files.canOpen bsFpgaMan = true) :
    ∃ files', loadBitstream (some sprintf) files (dir ++ 0x2f :: (stem ++ 0x2e :: ext)) flag =
        some (.ok (files', true)) ∧
      files'.content bsFpgaMan = some (sprintf.left stem) ∧
      files'.content (firmwarePathPrefix ++ sprintf.left stem) = some (swapWords bit.data) ∧
      files'.content bsFpgaManFlags = some flag := by
  obtain ⟨⟨files', ok⟩, hwrites⟩ : ∃ r,
      writeFirmware files (sprintf.left stem) (swapWords bit.data) flag = r := ⟨_, rfl⟩
  have hwritten := writeFirmware_written hwrites
  obtain rfl := hwritten.ok_iff.mpr hopen
  refine ⟨files', ?_, by simpa using hwritten.manager, hwritten.firmware rfl, hwritten.flags rfl⟩
  rw [loadBitstream_eq sprintf bit dir stem ext hdata hslash hdot hfile, hwrites]

/-- With a library that appends, the constructor's bitstream is programmed from
`/lib/firmware/design_1.bin`. -/
theorem loadBitstream_bitFile_smallFiles :
    ∃ files', loadBitstream (some .appending) smallFiles
        (ascii "/home/xilinx/bits/full_06/design_1.bit") (ascii "0") = some (.ok (files', true)) ∧
      files'.content bsFpgaMan = some (ascii "design_1.bin") ∧
      files'.content (ascii "/lib/firmware/design_1.bin") = some [4, 3, 2, 1] ∧
      files'.content bsFpgaManFlags = some (ascii "0") := by
  exact loadBitstream_bitFile .appending smallBit (ascii "/home/xilinx/bits/full_06")
    (ascii "design_1") (ascii "bit") (by decide) (by decide) (by decide) rfl ⟨rfl, rfl, rfl⟩

end HardApi
