import Lexicon.Cursor
import Lexicon.Segment
import Lexicon.Stream.Output

/-!
# Headers and footers

Every stream of a segment starts with a header and ends with a footer:

    u32 magic | codec name | u32 version | 16-byte segment id | suffix
    u32 magic, complemented | u32 checksum algorithm | u64 checksum of all bytes before it

`Frame.readHeader` and `Frame.checkFooter` accept what `Frame.header` and `Frame.writeFooter` write,
so a stream can stand for no other kind of stream and for no other segment.
-/

namespace Lexicon.Frame

/-- The number that every stream starts with. -/
def magic : UInt32 := 0x3fd76c17

/-- The number that a footer starts with. -/
def footerMagic : UInt32 := ~~~magic

/-- The number of the one known checksum algorithm. -/
def algorithm : UInt32 := 1

/-- Number of bytes in a footer. -/
def footerLength : Nat := 16

/-- The version that streams are written in, and the only one that is read. -/
def version : UInt32 := 1

def header (codec : String) (version : UInt32) (id : Bytes) (suffix : String) : List Item :=
  [.u32 magic, .text codec, .u32 version, .bytes id, .text suffix]

/-- Ends a stream. -/
def writeFooter {σ : Type} [Sink σ] : Write σ Unit := do
  Output.items [.u32 footerMagic, .u32 algorithm]
  let out ← get
  Output.item (.u64 out.digest.value)

/-- What a reader expects of a header. -/
structure Expectation where
  codec : String
  minVersion : Nat := version.toNat
  maxVersion : Nat := version.toNat
  id : Bytes
  suffix : String

/-- Reads a header and gives its version, if all is as expected. -/
def readHeader (want : Expectation) : Read Nat := do
  let found ← Read.word 4
  if found ≠ magic.toNat then Read.corrupt (.headerMagic magic.toNat found)
  let codec ← Read.block
  if codec ≠ Bytes.ofString want.codec then Read.corrupt (.codecMismatch want.codec codec)
  let version ← Read.word 4
  if version < want.minVersion ∨ want.maxVersion < version then
    Read.corrupt (.unsupportedVersion want.codec version want.minVersion want.maxVersion)
  let id ← Read.bytes 16
  if id ≠ want.id then Read.corrupt (.idMismatch want.codec)
  let suffix ← Read.block
  if suffix ≠ Bytes.ofString want.suffix then
    Read.corrupt (.suffixMismatch want.codec want.suffix suffix)
  return version

/-- Where the footer of a whole stream starts, if there is one and it fits the bytes before it. -/
def checkFooter (data : Bytes) (stream : String) : Except Error Nat := do
  let size := data.length
  if size < footerLength then throw (.corrupt (.footerMissing stream size))
  let start := size - footerLength
  let footer := data.drop start
  let found := Bytes.ofLittleEndian (footer.take 4)
  if found ≠ footerMagic.toNat then throw (.corrupt (.footerMagic stream found))
  let kind := Bytes.ofLittleEndian ((footer.drop 4).take 4)
  if kind ≠ algorithm.toNat then throw (.corrupt (.checksumAlgorithm stream kind))
  let expected := Bytes.ofLittleEndian (footer.drop 8)
  -- the checksum covers the first half of the footer too
  let actual := (checksum (data.take (size - 8))).toNat
  if expected ≠ actual then throw (.checksumMismatch stream expected actual)
  return start

end Lexicon.Frame
