import EtcdRaft.Foundation.Decimal
import EtcdRaft.Model.Raftpb

/-! The text form of configuration changes. A string is a sequence of bytes, as in Go. -/

namespace EtcdRaft

-----------------------------------------------------------------------------------------
-- Packages `strings` and `strconv`
-----------------------------------------------------------------------------------------

/-- The UTF-8 encodings of the characters that `unicode.IsSpace` accepts: the ASCII ones,
U+0085, U+00A0, U+1680, U+2000 to U+200A, U+2028, U+2029, U+202F, U+205F and U+3000.
-/
def spaces : List (List UInt8) := [
  [0x09], [0x0a], [0x0b], [0x0c], [0x0d], [0x20],
  [0xc2, 0x85], [0xc2, 0xa0], [0xe1, 0x9a, 0x80],
  [0xe2, 0x80, 0x80], [0xe2, 0x80, 0x81], [0xe2, 0x80, 0x82], [0xe2, 0x80, 0x83],
  [0xe2, 0x80, 0x84], [0xe2, 0x80, 0x85], [0xe2, 0x80, 0x86], [0xe2, 0x80, 0x87],
  [0xe2, 0x80, 0x88], [0xe2, 0x80, 0x89], [0xe2, 0x80, 0x8a],
  [0xe2, 0x80, 0xa8], [0xe2, 0x80, 0xa9], [0xe2, 0x80, 0xaf], [0xe2, 0x81, 0x9f],
  [0xe3, 0x80, 0x80]]

/-- Cuts the encodings `cut` off the front of a string. Each has a byte at least, so the
length of the string is fuel enough.
-/
def trimFront (cut : List (List UInt8)) : (fuel : Nat) → List UInt8 → List UInt8
  | 0, s => s
  | fuel + 1, s =>
      match cut.find? fun w => w.isPrefixOf s with
      | none => s
      | some w => trimFront cut fuel (s.drop w.length)

/-- `strings.TrimSpace`. What is cut off the end is cut off the front of the reversed
string.
-/
def trimSpace (s : List UInt8) : List UInt8 :=
  let s := trimFront spaces s.length s
  (trimFront (spaces.map List.reverse) s.length s.reverse).reverse

/-- The errors of `strconv.ParseUint`. -/
inductive NumError where
  | errSyntax
  | errRange
deriving DecidableEq

/-- The loop of `strconv.ParseUint`, after digits with the value `n`. -/
def parseDigits : (n : Nat) → List UInt8 → Except NumError Nat
  | n, [] => return n
  | n, c :: rest =>
      if !isDigit c then
        throw .errSyntax
      else if n * 10 + (c.toNat - 48) ≥ 2 ^ 64 then
        throw .errRange
      else
        parseDigits (n * 10 + (c.toNat - 48)) rest

/-- `strconv.ParseUint(s, 10, 64)`. -/
def parseUint (s : List UInt8) : Except NumError Nat :=
  if s.length = 0 then throw .errSyntax else parseDigits 0 s

-----------------------------------------------------------------------------------------
-- Parsing and printing
-----------------------------------------------------------------------------------------

/-- The errors of `ConfChangesFromString`. -/
inductive ConfChangesError where
  /-- "unknown token %s" -/
  | unknownToken (tok : List UInt8)
  /-- "unknown input: %s" -/
  | unknownInput (tok : List UInt8)
  | parseUint (digits : List UInt8) (err : NumError)
deriving DecidableEq

/-- The operation that a letter stands for. -/
def operation (c : UInt8) : Option ConfChangeType :=
  if c = 'v'.toUInt8 then some .confChangeAddNode
  else if c = 'l'.toUInt8 then some .confChangeAddLearnerNode
  else if c = 'r'.toUInt8 then some .confChangeRemoveNode
  else if c = 'u'.toUInt8 then some .confChangeUpdateNode
  else none

/-- One round of the loop of `ConfChangesFromString`. -/
def confChangeFromToken (tok : List UInt8) : Except ConfChangesError ConfChangeSingle :=
  match tok with
  | [] => throw (.unknownToken tok)
  | c :: digits =>
      if digits.length = 0 then
        throw (.unknownToken tok)
      else
        match operation c with
        | none => throw (.unknownInput tok)
        | some type =>
            match parseUint digits with
            | .error err => throw (.parseUint digits err)
            | .ok id => return { type := type, nodeId := id }

/-- The tokens of a string. A blank string has none. -/
def confChangeTokens (s : List UInt8) : List (List UInt8) :=
  match List.splitOn ' '.toUInt8 (trimSpace s) with
  | [] :: _ => []
  | toks => toks

def confChangesFromString (s : List UInt8) : Except ConfChangesError (List ConfChangeSingle) :=
  (confChangeTokens s).mapM confChangeFromToken

/-- What is printed for an operation, "unknown" for an unknown one. -/
def operationString : ConfChangeType → List UInt8
  | .confChangeAddNode => ['v'.toUInt8]
  | .confChangeAddLearnerNode => ['l'.toUInt8]
  | .confChangeRemoveNode => ['r'.toUInt8]
  | .confChangeUpdateNode => ['u'.toUInt8]
  | .unknown _ => ['u', 'n', 'k', 'n', 'o', 'w', 'n'].map Char.toUInt8

/-- What one round of the loop of `ConfChangesToString` prints after the blank. -/
def confChangeString (cc : ConfChangeSingle) : List UInt8 :=
  operationString cc.type ++ decimal cc.nodeId

/-- `ConfChangesToString`, with a blank before every change but the first. -/
def confChangesToString : List ConfChangeSingle → List UInt8
  | [] => []
  | cc :: rest =>
      confChangeString cc ++ rest.flatMap fun cc => ' '.toUInt8 :: confChangeString cc

end EtcdRaft
