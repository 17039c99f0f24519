import DoubleArrayTrie.Encoding

/-!
# What can be refused, and why

Each cause of a refusal is a constructor; `Error.message` is the one place that puts it into words.
-/

namespace DoubleArrayTrie

/-- Why options are refused. -/
inductive OptionFault where
  /-- The number of trials is below one. -/
  | noTrials
  /-- Linear growth by no blocks. -/
  | noBlocks
  /-- Linear growth by more blocks than the flags word can hold. -/
  | tooManyBlocks
deriving DecidableEq

/-- Why an image is refused. -/
inductive Corruption where
  | shortHeader
  | capacity
  | size
  | ringHead
  | recordCount
  | sectionLength
  | truncated
  | negativeFlags
  | options
  | root
deriving DecidableEq

/-- The causes for which an operation is refused. -/
inductive Error where
  | emptyKey
  /-- The key has a zero byte, the first one at this offset. -/
  | nulByte (offset : Nat)
  | valueOutOfRange (value : Int32)
  | corrupt (cause : Corruption)
  | encodingMismatch (expected found : Encoding)
  | invalidOptions (fault : OptionFault)
deriving DecidableEq

/-- The rule that the options break. -/
def OptionFault.message : OptionFault → String
  | noTrials => "max_trial must be at least 1"
  | noBlocks => "linear growth needs at least one block"
  | tooManyBlocks => "linear growth step too large"

/-- What is wrong with the image. -/
def Corruption.message : Corruption → String
  | shortHeader => "image shorter than its header"
  | capacity => "capacity is not a positive multiple of 256"
  | size => "size out of range"
  | ringHead => "block list head out of range"
  | recordCount => "section record count mismatch"
  | sectionLength => "section length mismatch"
  | truncated => "image truncated"
  | negativeFlags => "negative flags word"
  | options => "header options out of range"
  | root => "root sentinel missing"

/-- The refusal in words. -/
def Error.message : Error → String
  | emptyKey => "empty keys cannot be stored"
  | nulByte offset => "key contains a NUL byte at offset " ++ toString offset
  | valueOutOfRange value =>
      "value " ++ toString value.toInt ++
        " is outside the range representable by the reduced encoding"
  | corrupt cause => "corrupt image: " ++ cause.message
  | encodingMismatch expected found =>
      "image holds a " ++ found.name ++ " trie, expected " ++ expected.name
  | invalidOptions fault => "invalid options: " ++ fault.message

end DoubleArrayTrie
