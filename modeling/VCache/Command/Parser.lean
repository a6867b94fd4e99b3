import VCache.Basic
import VCache.Lib.Decimal

/-!
# The command parser

`CommandParser.cpp`. The scan works on what is left of the line: an index `i` of the
source with `i < end` is a non-empty rest.
-/

namespace VCache

/-- ASCII codes the protocol gives a meaning. -/
abbrev Ascii.tab : UInt8 := 9
abbrev Ascii.lf : UInt8 := 10
abbrev Ascii.cr : UInt8 := 13
abbrev Ascii.space : UInt8 := 32
abbrev Ascii.quote : UInt8 := 34
abbrev Ascii.backslash : UInt8 := 92

inductive CommandType where
  | empty
  | set
  | get
  | del
  | exists
  | keys
  | save
deriving DecidableEq, Repr

structure Command where
  type : CommandType := .empty
  key : Bytes := []
  value : Bytes := []
  expireSeconds : Option Int := none
deriving DecidableEq, Repr

/-- A parsed command or a text for the client. -/
abbrev ParseResult := Except Bytes Command

namespace CommandParser

open Lib

def kMaxEchoedVerbLength : Nat := 32

def kMaxExpireSeconds : Int := 100 * 365 * 24 * 60 * 60

structure CommandSpec where
  name : Bytes
  type : CommandType
  minArgs : Nat
  maxArgs : Nat

def kCommands : List CommandSpec :=
  [⟨bytes "SET", .set, 2, 4⟩,
    ⟨bytes "GET", .get, 1, 1⟩,
    ⟨bytes "DEL", .del, 1, 1⟩,
    ⟨bytes "EXISTS", .exists, 1, 1⟩,
    ⟨bytes "KEYS", .keys, 0, 0⟩,
    ⟨bytes "SAVE", .save, 0, 0⟩]

def isSpace (c : UInt8) : Bool := c == Ascii.space || c == Ascii.tab

def isHexDigit (c : UInt8) : Bool :=
  (48 ≤ c && c ≤ 57) || (97 ≤ c && c ≤ 102) || (65 ≤ c && c ≤ 70)

def hexValue (c : UInt8) : UInt8 :=
  if 48 ≤ c && c ≤ 57 then c - 48
  else if 97 ≤ c && c ≤ 102 then c - 97 + 10
  else c - 65 + 10

def toUpperAscii (text : Bytes) : Bytes :=
  text.map fun c => if 97 ≤ c && c ≤ 122 then c - 97 + 65 else c

def findCommand (verbUpper : Bytes) : Option CommandSpec :=
  kCommands.find? fun spec => verbUpper == spec.name

/-- `std::from_chars` of the whole text into a signed 64-bit number. -/
def parseInt64 (text : Bytes) : Option Int :=
  let negative := text.head? == some 45
  let digits := if negative then text.tail else text
  if digits.isEmpty || !digits.all isDigit then none
  else
    let value : Int := if negative then -decimalValue digits else decimalValue digits
    if -0x8000000000000000 ≤ value ∧ value ≤ 0x7fffffffffffffff then some value else none

def sanitizeForEcho (verb : Bytes) : Bytes :=
  let shown := (verb.take kMaxEchoedVerbLength).map fun byte =>
    if 0x20 ≤ byte && byte < 0x7f then byte else 63
  if verb.length > kMaxEchoedVerbLength then shown ++ bytes "..." else shown

/-! ### Tokens -/

def isLineEnd (c : UInt8) : Bool := c == Ascii.lf || c == Ascii.cr

/-- The line without its trailing run of CR and LF. -/
def stripLineEnd (line : Bytes) : Bytes := (line.reverse.dropWhile isLineEnd).reverse

/-- The byte an escape other than `\x` stands for. -/
def unescape (escaped : UInt8) : UInt8 :=
  if escaped = 110 then 10
  else if escaped = 114 then 13
  else if escaped = 116 then 9
  else if escaped = 98 then 8
  else if escaped = 97 then 7
  else escaped

/-- The token after an opening quote and the rest behind the closing one; `none` when
there is no closing quote. -/
def readQuoted : Bytes → Option (Bytes × Bytes)
  | [] => none
  | [c] => if c = Ascii.quote then some ([], []) else none
  | c :: escaped :: rest =>
    if c = Ascii.backslash then
      if escaped = 120 then
        match rest with
        | high :: low :: rest' =>
          if isHexDigit high && isHexDigit low then
            (readQuoted rest').map fun r => ((hexValue high * 16 + hexValue low) :: r.1, r.2)
          else (readQuoted (high :: low :: rest')).map fun r => (120 :: r.1, r.2)
        | [high] => (readQuoted [high]).map fun r => (120 :: r.1, r.2)
        | [] => (readQuoted []).map fun r => (120 :: r.1, r.2)
      else (readQuoted rest).map fun r => (unescape escaped :: r.1, r.2)
    else if c = Ascii.quote then some ([], escaped :: rest)
    else (readQuoted (escaped :: rest)).map fun r => (c :: r.1, r.2)

def unbalancedQuotes : Bytes := bytes "ERR unbalanced quotes in request"

/-- The loop of `tokenize`. Every round takes a byte at least, so the length of the rest
bounds the number of rounds. -/
def tokenizeLoop : Nat → Bytes → Except Bytes (List Bytes)
  | 0, _ => .error []
  | fuel + 1, rest =>
    match rest.dropWhile isSpace with
    | [] => .ok []
    | c :: tail =>
      if c = Ascii.quote then
        match readQuoted tail with
        | none => .error unbalancedQuotes
        | some (token, after) =>
          if (after.head?.all isSpace) then (tokenizeLoop fuel after).map (token :: ·)
          else .error unbalancedQuotes
      else
        (tokenizeLoop fuel ((c :: tail).dropWhile (!isSpace ·))).map
          ((c :: tail).takeWhile (!isSpace ·) :: ·)

def tokenize (line : Bytes) : Except Bytes (List Bytes) :=
  let content := stripLineEnd line
  tokenizeLoop (content.length + 1) content

/-! ### Commands -/

def name : CommandType → Bytes
  | .set => bytes "SET"
  | .get => bytes "GET"
  | .del => bytes "DEL"
  | .exists => bytes "EXISTS"
  | .keys => bytes "KEYS"
  | .save => bytes "SAVE"
  | .empty => []

/-- The `EX seconds` tail of `SET`. -/
def parseExpiry (arguments : List Bytes) (command : Command) : ParseResult :=
  match arguments with
  | [_, _, option, seconds] =>
    if toUpperAscii option ≠ bytes "EX" then .error (bytes "ERR syntax error")
    else
      match parseInt64 seconds with
      | none => .error (bytes "ERR value is not an integer or out of range")
      | some seconds =>
        if seconds ≤ 0 ∨ seconds > kMaxExpireSeconds then
          .error (bytes "ERR invalid expire time in 'SET' command")
        else .ok { command with expireSeconds := some seconds }
  | _ => .error (bytes "ERR syntax error")

def parseTokens : List Bytes → ParseResult
  | [] => .ok {}
  | verb :: arguments =>
    match findCommand (toUpperAscii verb) with
    | none => .error (bytes "ERR unknown command '" ++ sanitizeForEcho verb ++ bytes "'")
    | some spec =>
      if arguments.length < spec.minArgs ∨ arguments.length > spec.maxArgs then
        .error (bytes "ERR wrong number of arguments for '" ++ spec.name ++ bytes "' command")
      else
        let command : Command :=
          { type := spec.type, key := arguments.getD 0 [], value := arguments.getD 1 [] }
        if command.type = .set ∧ arguments.length > 2 then parseExpiry arguments command
        else .ok command

def parse (line : Bytes) : ParseResult :=
  match tokenize line with
  | .error error => .error error
  | .ok tokens => parseTokens tokens

end CommandParser

end VCache
