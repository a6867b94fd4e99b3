import VCache.Basic
import VCache.Lib.Decimal

/-!
# The reply format

`Protocol.h`: one tag byte, then the payload.
-/

namespace VCache

open Lib

inductive ReplyType where
  | status
  | error
  | value
  | nil
  | integer
  | array
  | unknown
deriving DecidableEq, Repr

def ReplyType.tag : ReplyType → UInt8
  | .status => 43
  | .error => 45
  | .value => 36
  | .nil => 95
  | .integer => 58
  | .array => 42
  | .unknown => 63

def ReplyType.ofTag (tag : UInt8) : ReplyType :=
  ([.status, .error, .value, .nil, .integer, .array].find? fun type => type.tag = tag).getD .unknown

theorem ReplyType.ofTag_tag (type : ReplyType) : ofTag type.tag = type := by
  cases type <;> rfl

namespace Protocol

/-! ### Encoding -/

def status (text : Bytes) : Bytes := ReplyType.status.tag :: text

def error (text : Bytes) : Bytes := ReplyType.error.tag :: text

/-- `escaped` has been through `escapeForWire`. -/
def value (escaped : Bytes) : Bytes := ReplyType.value.tag :: escaped

def nil : Bytes := [ReplyType.nil.tag]

def integer (number : Int) : Bytes :=
  ReplyType.integer.tag ::
    (if number < 0 then 45 :: decimal number.natAbs else decimal number.natAbs)

def arrayHeader (count : Nat) : Bytes := ReplyType.array.tag :: decimal count

/-! ### Decoding -/

structure TaggedLine where
  type : ReplyType := .unknown
  payload : Bytes := []
deriving DecidableEq, Repr

/-- The type a line starts with. -/
def typeOf (tag : UInt8) : ReplyType :=
  if tag = 43 then .status
  else if tag = 45 then .error
  else if tag = 36 then .value
  else if tag = 95 then .nil
  else if tag = 58 then .integer
  else if tag = 42 then .array
  else .unknown

theorem typeOf_tag (type : ReplyType) : typeOf type.tag = type := by
  cases type <;> rfl

def parse : Bytes → TaggedLine
  | [] => {}
  | tag :: payload =>
    if typeOf tag = .unknown then {} else { type := typeOf tag, payload := payload }

theorem parse_tag {type : ReplyType} (h : type ≠ .unknown) (payload : Bytes) :
    parse (type.tag :: payload) = { type, payload } := by
  rw [parse, typeOf_tag, if_neg h]

def countLoop : Nat → Bytes → Option Nat
  | value, [] => some value
  | value, c :: rest =>
    if !isDigit c then none
    else if pushDigit value c > 100000000 then none
    else countLoop (pushDigit value c) rest

/-- `none` is the `false` of the source. -/
def parseCount (payload : Bytes) : Option Nat :=
  if payload.isEmpty then none else countLoop 0 payload

end Protocol

end VCache
