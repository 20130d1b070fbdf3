import PrefixVM.Text.Utf8
import PrefixVM.Stream

/-!
Program images. An image is a header of 20 bytes (an eight-byte tag and three little-endian sizes),
the code bytes, and the initial contents of memory. Reading checks, in this order, that there is a
header, that memory holds its initial contents, the tag, the code size and the length of the whole.
-/
namespace PrefixVM

inductive ImageError where
  | missingFile (path : String)
  | tooShort (expected found : Nat)
  | badMagic (magic : Vector UInt8 8)
  | invalidDataSize (dataSize initialDataSize : UInt32)
  | codeTooLarge (codeSize limit : UInt32)
  | invalidFileSize (expected found : Nat)
  | io (reason : String)
  deriving DecidableEq, Repr

namespace ImageError

def message : ImageError → String
  | missingFile path => "File " ++ path ++ " does not exist"
  | tooShort expected found =>
    s!"Invalid image format - file is too short: {found} bytes, header needs {expected}"
  | badMagic magic =>
    "Invalid image format - bad magic string [" ++
      String.intercalate ", " (magic.toList.map fun b => toString b.toNat) ++ "]"
  | invalidDataSize dataSize initialDataSize =>
    s!"Invalid image data size: data size {dataSize} is smaller than initial data size " ++
      s!"{initialDataSize}"
  | codeTooLarge codeSize limit =>
    s!"Invalid image code size {codeSize}: at most {limit} bytes are addressable"
  | invalidFileSize expected found => s!"Invalid image size {found}, should be {expected}"
  | io reason => "I/O error: " ++ reason

end ImageError

structure Header where
  magic : Vector UInt8 8
  codeSize : UInt32
  dataSize : UInt32
  initialDataSize : UInt32
  deriving DecidableEq, Repr

namespace Header

def tag : Vector UInt8 8 :=
  #v[69, 83, 69, 84, 45, 86, 77, 50]

def size : Nat := 20

/-- The largest code of which every bit has a 32-bit position. -/
def maxCodeSize : UInt32 := 536870911

def make (codeSize dataSize initialDataSize : UInt32) : Header :=
  { magic := tag, codeSize, dataSize, initialDataSize }

def imageSize (h : Header) : Nat :=
  size + h.codeSize.toNat + h.initialDataSize.toNat

def validate (h : Header) : Except ImageError Unit :=
  if h.dataSize < h.initialDataSize then .error (.invalidDataSize h.dataSize h.initialDataSize)
  else if h.magic ≠ tag then .error (.badMagic h.magic)
  else if h.codeSize > maxCodeSize then .error (.codeTooLarge h.codeSize maxCodeSize)
  else .ok ()

def toBytes (h : Header) : Bytes :=
  h.magic.toList ++ Bytes.ofNatLE 4 h.codeSize.toNat ++ Bytes.ofNatLE 4 h.dataSize.toNat ++
    Bytes.ofNatLE 4 h.initialDataSize.toNat

def word (bytes : Bytes) (offset : Nat) : UInt32 :=
  UInt32.ofNat (Bytes.toNatLE ((bytes.drop offset).take 4))

/-- Reads a header without checking what it says. -/
def ofBytes (bytes : Bytes) : Except ImageError Header :=
  if h : bytes.length < size then .error (.tooShort size bytes.length)
  else
    .ok
      { magic := ⟨(bytes.take 8).toArray, by simp only [size] at h; simp; omega⟩
        codeSize := word bytes 8
        dataSize := word bytes 12
        initialDataSize := word bytes 16 }

def describe (h : Header) : String :=
  "EVM2 Image Header\n" ++
    "  Magic:        " ++ Utf8.decodeLossy h.magic.toList ++ "\n" ++
    s!"  Code:         {h.codeSize} bytes ({h.codeSize.toNat * 8} bits)\n" ++
    s!"  Data:         {h.dataSize} bytes\n" ++
    s!"  Initial data: {h.initialDataSize} bytes"

end Header

structure Image where
  header : Header := Header.make 0 0 0
  code : Bytes := []
  data : Bytes := []
  deriving DecidableEq, Repr

namespace Image

/-- The image of the given code and data; memory is at least as large as its initial contents. -/
def make (code data : Bytes) (dataSize : UInt32) : Image :=
  let used := UInt32.ofNat data.length
  { header := Header.make (UInt32.ofNat code.length) (max dataSize used) used
    code
    data }

def ofBytes (bytes : Bytes) : Except ImageError Image := do
  let header ← Header.ofBytes bytes
  header.validate
  if bytes.length ≠ header.imageSize then
    throw (.invalidFileSize header.imageSize bytes.length)
  let body := bytes.drop Header.size
  return { header, code := body.take header.codeSize.toNat, data := body.drop header.codeSize.toNat }

def toBytes (image : Image) : Bytes :=
  image.header.toBytes ++ image.code ++ image.data

def stream (image : Image) : Stream :=
  Stream.ofCode image.code

def machineCode (image : Image) : Code :=
  { stream := image.stream }

/-- The contents of memory at the start: the initial data, cut or filled with zeros to the size of
memory. -/
def memoryCells (image : Image) : Array UInt8 :=
  let size := image.header.dataSize.toNat
  (image.data.take size).toArray ++ Array.replicate (size - image.data.length) 0

end Image

end PrefixVM
