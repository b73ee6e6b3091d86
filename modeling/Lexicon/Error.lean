import Lexicon.Lz4
import Lexicon.Text.Hex
import Lexicon.Text.Quoted
import Lexicon.Text.Utf8

/-!
# Errors

Every way in which writing or reading a dictionary can fail is one constructor that holds what the
message needs. `Error.message` is the one place that words them. Errors fall into kinds: a fault of
the medium, a request that the writer refuses, stored bytes that no writer produces (`Corruption`),
and a call that breaks a condition which its caller has to keep (`Misuse`).
-/

namespace Lexicon

/-- A fault of the medium that holds a stream or a file. -/
inductive MediumFault where
  | full
  | missing
  /-- There is a file where a directory is to be made. -/
  | occupied
  | notDirectory
  | isDirectory
  | nameTooLong
  /-- A file name with a character that no file name has. -/
  | badName
  /-- What cannot be taken into memory. -/
  | noDevice
  /-- A file that should hold text holds other bytes. -/
  | notText
  deriving DecidableEq, Repr

def MediumFault.message : MediumFault → String
  | .full => "disk full"
  | .missing => "No such file or directory (os error 2)"
  | .occupied => "File exists (os error 17)"
  | .notDirectory => "Not a directory (os error 20)"
  | .isDirectory => "Is a directory (os error 21)"
  | .nameTooLong => "File name too long (os error 36)"
  | .badName => "file name contained an unexpected NUL byte"
  | .noDevice => "No such device (os error 19)"
  | .notText => "stream did not contain valid UTF-8"

/-- Why block sizes cannot be used. -/
inductive SizeFault where
  | minTooSmall (min : Nat)
  | maxBelowMin (min max : Nat)
  | maxBelowTwiceMin (min max : Nat)
  | shiftOutOfRange (shift : Nat)
  deriving DecidableEq, Repr

def SizeFault.message : SizeFault → String
  | .minTooSmall min => s!"min_items_in_block must be >= 2; got {min}"
  | .maxBelowMin min max =>
    s!"max_items_in_block must be >= min_items_in_block; got max={max} min={min}"
  | .maxBelowTwiceMin min max =>
    s!"max_items_in_block must be at least 2*(min_items_in_block-1); got max={max} min={min}"
  | .shiftOutOfRange shift => s!"block_shift must be in [2-22], got {shift}"

/-- Why the statistics of a term are refused. -/
inductive StatsFault where
  | noDocuments
  | tooManyDocuments (docFreq : Nat)
  | totalBelowDocuments (totalFreq docFreq : Nat)
  deriving DecidableEq, Repr

def StatsFault.message : StatsFault → String
  | .noDocuments => "doc_freq must be positive"
  | .tooManyDocuments docFreq => s!"doc_freq {docFreq} exceeds the maximum of 2147483647"
  | .totalBelowDocuments totalFreq docFreq =>
    s!"total_term_freq {totalFreq} is below doc_freq {docFreq}"

/-- Why a transducer cannot be extended or read. -/
inductive TransducerFault where
  | keyOutOfOrder (key previous : Bytes)
  | badEmptyMarker (marker : Nat)
  | badRootMarker (marker : Nat)
  | rootBeyondNodes (root size : Nat)
  | badArcCount (address count : Nat)
  | deadEnd
  | siblingWithoutLead
  | noRootOutput
  deriving DecidableEq, Repr

def TransducerFault.message : TransducerFault → String
  | .keyOutOfOrder key previous =>
    "keys must be added in strictly increasing order: " ++ Text.quoted (Text.Utf8.lossy key)
      ++ " after " ++ Text.quoted (Text.Utf8.lossy previous)
  | .badEmptyMarker marker => s!"invalid empty-output marker {marker}"
  | .badRootMarker marker => s!"invalid root marker {marker}"
  | .rootBeyondNodes root size => s!"root address {root} beyond {size} bytes"
  | .badArcCount address count => s!"node at {address} has {count} arcs"
  | .deadEnd => "dead-end arc is not final"
  | .siblingWithoutLead => "floor sibling without a lead byte"
  | .noRootOutput => "root index has no output for the empty prefix"

/-- Why stored bytes are not what a writer produces. -/
inductive Corruption where
  | positionBeyondEnd (position size : Nat)
  | unexpectedEnd (position size : Nat)
  | malformedVint (position : Nat)
  | malformedVlong (position : Nat)
  | packedTruncated
  | badShift (shift : Nat)
  | badWidth (width : Nat)
  | monotonicOverflow (index : Nat)
  | unknownCompression (code : Nat)
  | badLz4 (fault : Lz4.Fault)
  | suffixLength (actual expected : Nat)
  | exceptionBeyond (index size : Nat)
  | headerMagic (expected actual : Nat)
  | codecMismatch (expected : String) (actual : Bytes)
  | unsupportedVersion (codec : String) (version min max : Nat)
  | idMismatch (codec : String)
  | suffixMismatch (codec expected : String) (actual : Bytes)
  | footerMissing (stream : String) (size : Nat)
  | footerMagic (stream : String) (actual : Nat)
  | checksumAlgorithm (stream : String) (algorithm : Nat)
  | tooManySiblings (count : Nat)
  | trailingOutput
  | emptyLengthRun
  | tooManyLongs (count : Nat)
  | unknownFieldNumber (number : Nat)
  | aggregatesWithoutTerms (field : String)
  | noRootBlock (field : String)
  | docFreqBelowDocCount (field : String) (sumDocFreq docCount : Nat)
  | totalFreqBelowDocFreq (field : String) (sumTotalFreq sumDocFreq : Nat)
  | minAfterMax (field : String)
  | tooManyFields (count known : Nat)
  | fieldOrder (number previous : Nat)
  | trailingDirectory (stream : String)
  | streamSize (stream : String) (actual expected : Nat)
  | indexStart (field directory index : Nat)
  | rootCodeMismatch (field : String)
  | noIndexRoot
  | emptyBlock (fp : Nat)
  | badChild (fp delta : Nat)
  | unreadBytes (fp : Nat)
  | endlessWalk
  | badDescriptor (path reason : String)
  deriving DecidableEq, Repr

def Corruption.message : Corruption → String
  | .positionBeyondEnd position size => s!"position {position} beyond end of input ({size} bytes)"
  | .unexpectedEnd position size =>
    s!"unexpected end of input at offset {position} ({size} bytes)"
  | .malformedVint position => s!"malformed vint at offset {position}"
  | .malformedVlong position => s!"malformed vlong at offset {position}"
  | .packedTruncated => "packed values truncated"
  | .badShift shift => s!"invalid block shift {shift}"
  | .badWidth width => s!"invalid packed width {width}"
  | .monotonicOverflow index => s!"monotonic value {index} overflows"
  | .unknownCompression code => s!"unknown compression code {code}"
  | .badLz4 fault => "failed to decompress LZ4 suffixes: " ++ fault.message
  | .suffixLength actual expected => s!"decompressed {actual} suffix bytes, expected {expected}"
  | .exceptionBeyond index size => s!"exception index {index} beyond {size} bytes"
  | .headerMagic expected actual =>
    "codec header mismatch: expected 0x" ++ Text.Hex.ofNat expected ++ ", got 0x"
      ++ Text.Hex.ofNat actual
  | .codecMismatch expected actual =>
    "codec mismatch: expected " ++ expected ++ ", got " ++ Text.Utf8.lossy actual
  | .unsupportedVersion codec version min max =>
    s!"unsupported {codec} version {version} (supported {min}-{max})"
  | .idMismatch codec => s!"segment id mismatch in {codec}"
  | .suffixMismatch codec expected actual =>
    "segment suffix mismatch in " ++ codec ++ ": expected " ++ Text.quoted expected ++ ", got "
      ++ Text.quoted (Text.Utf8.lossy actual)
  | .footerMissing stream size => s!"{stream} is too short for a footer ({size} bytes)"
  | .footerMagic stream actual =>
    stream ++ " has an invalid footer magic 0x" ++ Text.Hex.ofNat actual
  | .checksumAlgorithm stream algorithm =>
    s!"{stream} uses unknown checksum algorithm {algorithm}"
  | .tooManySiblings count => s!"floor output claims {count} siblings"
  | .trailingOutput => "trailing bytes after block output"
  | .emptyLengthRun => "empty suffix-lengths run"
  | .tooManyLongs count => s!"term metadata claims {count} longs"
  | .unknownFieldNumber number => s!"summary for unknown field number {number}"
  | .aggregatesWithoutTerms field => s!"field '{field}' has no terms but non-zero aggregates"
  | .noRootBlock field => s!"field '{field}' has terms but no root block"
  | .docFreqBelowDocCount field sumDocFreq docCount =>
    s!"field '{field}': sum_doc_freq {sumDocFreq} is below doc_count {docCount}"
  | .totalFreqBelowDocFreq field sumTotalFreq sumDocFreq =>
    s!"field '{field}': sum_total_term_freq {sumTotalFreq} is below sum_doc_freq {sumDocFreq}"
  | .minAfterMax field => s!"field '{field}': min term sorts after max term"
  | .tooManyFields count known => s!"directory lists {count} fields but only {known} are known"
  | .fieldOrder number previous => s!"field {number} listed after field {previous}"
  | .trailingDirectory stream => s!"{stream} has trailing bytes before its footer"
  | .streamSize stream actual expected =>
    s!"{stream} is {actual} bytes but the directory expects {expected}"
  | .indexStart field directory index =>
    s!"index start of field {field} is {directory} in the directory but {index} in the index"
  | .rootCodeMismatch field => s!"root code of field '{field}' does not match its index"
  | .noIndexRoot => "index has no root output"
  | .emptyBlock fp => s!"empty block at {fp}"
  | .badChild fp delta => s!"block at {fp} points to a child at -{delta}"
  | .unreadBytes fp => s!"block at {fp} has unread bytes"
  | .endlessWalk => "blocks lead back to themselves"
  | .badDescriptor path reason => s!"{path}: {reason}"

/-- A condition that the caller of an operation has to keep and did not. -/
inductive Misuse where
  | termOutsideBlock
  | subBlockInLeaf
  | subBlockOutsideBlock
  | subBlockNotBefore
  | blockWithoutEntries
  | noBlocks
  | firstBlockNotFloor
  | siblingNotAfter
  | entriesNotPlanned
  | entryBeforeLead
  | entriesLeft
  | positionOutsideStack
  | runWithoutEntries
  | stemOutsideTerm
  | rootNotWhole
  | rootNotAlone
  | rootWithStem
  deriving DecidableEq, Repr

def Misuse.message : Misuse → String
  | .termOutsideBlock => "a term does not start with the prefix of its block"
  | .subBlockInLeaf => "a leaf block cannot hold a sub-block"
  | .subBlockOutsideBlock => "the prefix of a sub-block does not extend that of its block"
  | .subBlockNotBefore => "a sub-block has to be written before its parent"
  | .blockWithoutEntries => "a block holds at least one entry"
  | .noBlocks => "a run holds at least one block"
  | .firstBlockNotFloor => "several blocks of one run have to be floor blocks"
  | .siblingNotAfter => "floor siblings are written after the first block of their run"
  | .entriesNotPlanned => "a block holds as many entries as planned"
  | .entryBeforeLead => "no entry of a floor block sorts before the byte it begins with"
  | .entriesLeft => "the blocks of a run hold all its entries"
  | .positionOutsideStack => "a run starts within the pending entries"
  | .runWithoutEntries => "a run holds at least one entry"
  | .stemOutsideTerm => "the prefix of a run is part of the last term"
  | .rootNotWhole => "the run of all terms holds all pending entries"
  | .rootNotAlone => "nothing but the run of all terms is pending in the end"
  | .rootWithStem => "the run of all terms has no prefix"

/-- What can go wrong. -/
inductive Error where
  | medium (fault : MediumFault)
  | invalidConfig (fault : SizeFault)
  | termOutOfOrder (field : String) (term previous : Bytes)
  | fieldOutOfOrder (current previous : Nat)
  | invalidTermState (fault : StatsFault)
  | closed
  | failed
  | corrupt (cause : Corruption)
  | checksumMismatch (stream : String) (expected actual : Nat)
  | transducer (fault : TransducerFault)
  | notMonotonic (value previous : Nat)
  | unknownField (name : String)
  | misuse (rule : Misuse)
  deriving DecidableEq, Repr

def Error.message : Error → String
  | .medium fault => "I/O error: " ++ fault.message
  | .invalidConfig fault => "Invalid configuration: " ++ fault.message
  | .termOutOfOrder field term previous =>
    "Term out of order in field '" ++ field ++ "': " ++ Text.quoted (Text.Utf8.lossy term)
      ++ " after " ++ Text.quoted (Text.Utf8.lossy previous)
  | .fieldOutOfOrder current previous =>
    s!"Field out of order: field {current} after field {previous}"
  | .invalidTermState fault => "Invalid term state: " ++ fault.message
  | .closed => "Writer is closed"
  | .failed => "Writer failed earlier; its output is incomplete"
  | .corrupt cause => "Corrupt index: " ++ cause.message
  | .checksumMismatch stream expected actual =>
    "Checksum mismatch in " ++ stream ++ ": expected 0x" ++ Text.Hex.padded 16 expected
      ++ ", got 0x" ++ Text.Hex.padded 16 actual
  | .transducer fault => "FST error: " ++ fault.message
  | .notMonotonic value previous => s!"Values are not monotonic: {value} after {previous}"
  | .unknownField name => s!"Unknown field: {name}"
  | .misuse rule => rule.message

end Lexicon
