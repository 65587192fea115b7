/-
Pyoneer.Shared.JsonParse — `json_parse_ex` of `shared/json.c`, byte by
byte, with the settings that the API uses (no comments, no memory
limit).

The parser of the source is one loop over the bytes with a word of flags
and a pointer `top` to the value under construction. Here the open
containers are a stack of frames and the flags are the `ParsePc`:
`flag_string` with `flag_escaped` are `string`, `escaped` and `hex`,
`flag_seek_value` is `seek`, its absence in an object is `object`,
`flag_done` is `done`. The source reads the text twice, first to measure
and then to build; the second pass meets only what the first accepted,
so one pass does both.

Two things of the source are not here. Strings and containers may have
any length: the tests against `UINT_MAX - 8` are in `JsonLimits`, which
shows that a text must be longer than that to fail them. And a double is
its literal: which of the many doubles the source computes from it, with
`pow` and with flags that it does not always clear, is not said.

`b` is `0` at the end of the text AND on a NUL byte. Where the root
value is complete that ends the parse, and whatever follows the NUL is
not looked at; anywhere else it is an error.
-/
import Mathlib.Algebra.Group.Nat.Defs
import Pyoneer.Shared.Json

namespace Pyoneer.Shared

/-! ## Bytes -/

/-- The four whitespace characters. -/
def isWhitespace (b : UInt8) : Bool := b == 10 || b == 32 || b == 9 || b == 13

def isDigit (b : UInt8) : Bool := 48 ≤ b && b ≤ 57

def digitValue (b : UInt8) : Nat := b.toNat - 48

/-- `hex_value`, without a value where the source has `0xFF`. -/
def hexValue (b : UInt8) : Option Nat :=
  if isDigit b then some (digitValue b)
  else if 97 ≤ b && b ≤ 102 then some (b.toNat - 87)
  else if 65 ≤ b && b ≤ 70 then some (b.toNat - 55)
  else none

/-- What an escaped character other than `u` stands for. -/
def unescape (b : UInt8) : UInt8 :=
  if b = 98 then 8          -- `\b`
  else if b = 102 then 12   -- `\f`
  else if b = 110 then 10   -- `\n`
  else if b = 114 then 13   -- `\r`
  else if b = 116 then 9    -- `\t`
  else b

/-- The bytes that the source adds for a `\u` escape. -/
def encodeUchar (u : Nat) : Bytes :=
  if u ≤ 0x7F then [u.toUInt8]
  else if u ≤ 0x7FF then [(0xC0 ||| u >>> 6).toUInt8, (0x80 ||| u &&& 0x3F).toUInt8]
  else if u ≤ 0xFFFF then
    [(0xE0 ||| u >>> 12).toUInt8, (0x80 ||| u >>> 6 &&& 0x3F).toUInt8,
      (0x80 ||| u &&& 0x3F).toUInt8]
  else
    [(0xF0 ||| u >>> 18).toUInt8, (0x80 ||| u >>> 12 &&& 0x3F).toUInt8,
      (0x80 ||| u >>> 6 &&& 0x3F).toUInt8, (0x80 ||| u &&& 0x3F).toUInt8]

/-- The first half of a pair of `\u` escapes. -/
def isSurrogate (u : Nat) : Bool := u &&& 0xF800 == 0xD800

/-- The character of a pair of `\u` escapes, as the source puts it
together. -/
def pairUchar (u u' : Nat) : Nat := 0x10000 ||| (u &&& 0x3FF) <<< 10 ||| (u' &&& 0x3FF)

/-! ## Numbers -/

/-- `JSON_INT_MAX`. -/
def jsonIntMax : Nat := 2 ^ 63 - 1

/-- `would_overflow`. -/
def wouldOverflow (value : Nat) (b : UInt8) : Bool := (jsonIntMax - digitValue b) / 10 < value

/-- A number under construction: `top->type`, `top->u.integer`,
`num_digits` and the `flag_num_…`. The text is kept for a double. -/
structure Number where
  isDouble : Bool
  value : Nat
  digits : Nat
  negative : Bool
  zero : Bool
  e : Bool
  gotSign : Bool
  text : Bytes
  deriving DecidableEq, Repr

/-- What a byte does to a number: it belongs to it, ends it, or is an
error. -/
inductive NumberStep where
  | more (n : Number)
  | ends (v : JsonValue)
  | fails

namespace Number

def start (negative : Bool) (text : Bytes) : Number where
  isDouble := false
  value := 0
  digits := 0
  negative := negative
  zero := false
  e := false
  gotSign := false
  text := text

/-- The value, once the number has ended. -/
def close (n : Number) : JsonValue :=
  if n.isDouble then .double n.text
  else .integer (if n.negative then -(n.value : Int) else n.value)

/-- A digit. The first digit that does not fit makes the number a
double. -/
def digit (n : Number) (b : UInt8) : NumberStep :=
  if n.e then .more { n with digits := n.digits + 1, gotSign := true, text := n.text ++ [b] }
  else if n.isDouble then .more { n with digits := n.digits + 1, text := n.text ++ [b] }
  else if n.zero then .fails
  else if wouldOverflow n.value b then
    .more { n with digits := n.digits + 1, isDouble := true, text := n.text ++ [b] }
  else
    .more { n with
      digits := n.digits + 1
      value := n.value * 10 + digitValue b
      zero := n.digits = 0 ∧ b = 48
      text := n.text ++ [b] }

/-- A byte that is no digit and that no sign or decimal point explains:
`e`, or the end. -/
def finish (n : Number) (b : UInt8) : NumberStep :=
  if n.e then (if n.digits = 0 then .fails else .ends n.close)
  else if n.isDouble ∧ n.digits = 0 then .fails
  else if b = 101 ∨ b = 69 then
    .more { n with e := true, isDouble := true, digits := 0, zero := false, text := n.text ++ [b] }
  else .ends n.close

def step (n : Number) (b : UInt8) : NumberStep :=
  if isDigit b then n.digit b
  else if (b = 43 ∨ b = 45) ∧ n.e ∧ n.gotSign = false then
    .more { n with gotSign := true, text := n.text ++ [b] }
  else if b = 46 ∧ n.isDouble = false then
    if n.digits = 0 then .fails
    else .more { n with isDouble := true, digits := 0, text := n.text ++ [b] }
  else n.finish b

end Number

/-! ## The loop -/

/-- A container that is open, with the name of the entry that is being
read. -/
inductive Frame where
  | array (values : List JsonValue)
  | object (entries : List (Bytes × JsonValue)) (name : Bytes)

/-- Where the loop is.

* `seek needComma needColon` — `flag_seek_value`;
* `object needComma` — in an object, before a name or `}`;
* `string name acc`, `escaped name acc` — in a string, which is a name
  or a value, with the bytes so far;
* `hex name acc u k first` — in a `\u` escape, before the `k`th last
  digit, after the first of a pair if there is one;
* `pair name acc u slash` — between the two escapes of a pair;
* `literal rest v` — in `true`, `false` or `null`;
* `number n` — in a number;
* `done v` — after the root value. -/
inductive ParsePc where
  | seek (needComma needColon : Bool)
  | object (needComma : Bool)
  | string (name : Bool) (acc : Bytes)
  | escaped (name : Bool) (acc : Bytes)
  | hex (name : Bool) (acc : Bytes) (u k : Nat) (first : Option Nat)
  | pair (name : Bool) (acc : Bytes) (u : Nat) (slash : Bool)
  | literal (rest : Bytes) (v : JsonValue)
  | number (n : Number)
  | done (v : JsonValue)

structure Parser where
  stack : List Frame
  pc : ParsePc

namespace Parser

/-- `flag_next`: the value goes to its parent. -/
def next (v : JsonValue) : List Frame → Parser
  | [] => { stack := [], pc := .done v }
  | .array values :: rest => { stack := .array (values ++ [v]) :: rest, pc := .seek true false }
  | .object entries name :: rest =>
    { stack := .object (entries ++ [(name, v)]) name :: rest, pc := .object true }

/-- The quote that ends a string. -/
def closeString (stack : List Frame) (name : Bool) (acc : Bytes) : Option Parser :=
  if name then
    match stack with
    | .object entries _ :: rest =>
      some { stack := .object entries acc :: rest, pc := .seek false true }
    | _ => none
  else some (next (.string acc) stack)

/-- `]`. -/
def closeArray : List Frame → Option Parser
  | .array values :: rest => some (next (.array values) rest)
  | _ => none

/-- `}`. -/
def closeObject : List Frame → Option Parser
  | .object entries _ :: rest => some (next (.object entries) rest)
  | _ => none

/-- The first byte of a value. -/
def openValue (stack : List Frame) (b : UInt8) : Option Parser :=
  if b = 123 then some { stack := .object [] [] :: stack, pc := .object false }
  else if b = 91 then some { stack := .array [] :: stack, pc := .seek false false }
  else if b = 34 then some { stack := stack, pc := .string false [] }
  else if b = 116 then some { stack := stack, pc := .literal (ascii "rue") (.boolean true) }
  else if b = 102 then some { stack := stack, pc := .literal (ascii "alse") (.boolean false) }
  else if b = 110 then some { stack := stack, pc := .literal (ascii "ull") .null }
  else if b = 45 then some { stack := stack, pc := .number (.start true [b]) }
  else if isDigit b then
    match (Number.start false []).step b with
    | .more n => some { stack := stack, pc := .number n }
    | _ => none
  else none

/-- `flag_seek_value`. -/
def feedSeek (stack : List Frame) (needComma needColon : Bool) (b : UInt8) : Option Parser :=
  if isWhitespace b then some { stack := stack, pc := .seek needComma needColon }
  else if b = 93 then closeArray stack
  else if needComma then
    if b = 44 then some { stack := stack, pc := .seek false needColon } else none
  else if needColon then
    if b = 58 then some { stack := stack, pc := .seek false false } else none
  else openValue stack b

/-- In an object, before a name. -/
def feedObject (stack : List Frame) (needComma : Bool) (b : UInt8) : Option Parser :=
  if isWhitespace b then some { stack := stack, pc := .object needComma }
  else if b = 34 then
    if needComma then none else some { stack := stack, pc := .string true [] }
  else if b = 125 then closeObject stack
  else if b = 44 ∧ needComma then some { stack := stack, pc := .object false }
  else none

/-- A digit of a `\u` escape. -/
def feedHex (stack : List Frame) (name : Bool) (acc : Bytes) (u k : Nat) (first : Option Nat)
    (b : UInt8) : Option Parser :=
  match hexValue b, k with
  | none, _ => none
  | some d, k + 1 => some { stack := stack, pc := .hex name acc (u * 16 + d) k first }
  | some d, 0 =>
    let u := u * 16 + d
    match first with
    | some v => some { stack := stack, pc := .string name (acc ++ encodeUchar (pairUchar v u)) }
    | none =>
      if isSurrogate u then some { stack := stack, pc := .pair name acc u false }
      else some { stack := stack, pc := .string name (acc ++ encodeUchar u) }

/-- One byte, not NUL, where no number is open. -/
def feedPlain (stack : List Frame) (pc : ParsePc) (b : UInt8) : Option Parser :=
  match pc with
  | .seek needComma needColon => feedSeek stack needComma needColon b
  | .object needComma => feedObject stack needComma b
  | .string name acc =>
    if b = 92 then some { stack := stack, pc := .escaped name acc }
    else if b = 34 then closeString stack name acc
    else some { stack := stack, pc := .string name (acc ++ [b]) }
  | .escaped name acc =>
    if b = 117 then some { stack := stack, pc := .hex name acc 0 3 none }
    else some { stack := stack, pc := .string name (acc ++ [unescape b]) }
  | .hex name acc u k first => feedHex stack name acc u k first b
  | .pair name acc u false =>
    if b = 92 then some { stack := stack, pc := .pair name acc u true } else none
  | .pair name acc u true =>
    if b = 117 then some { stack := stack, pc := .hex name acc 0 3 (some u) } else none
  | .literal [] _ => none
  | .literal [c] v => if b = c then some (next v stack) else none
  | .literal (c :: rest) v =>
    if b = c then some { stack := stack, pc := .literal rest v } else none
  | .number _ => none
  | .done v => if isWhitespace b then some { stack := stack, pc := .done v } else none

/-- One byte, not NUL. The byte that ends a number is looked at again. -/
def feed (p : Parser) (b : UInt8) : Option Parser :=
  match p.pc with
  | .number n =>
    match n.step b with
    | .more n => some { p with pc := .number n }
    | .ends v => feedPlain (next v p.stack).stack (next v p.stack).pc b
    | .fails => none
  | pc => feedPlain p.stack pc b

/-- `b` is `0`: the end of the text, or a NUL in it. -/
def atEnd (p : Parser) : Option JsonValue :=
  match p.pc, p.stack with
  | .done v, _ => some v
  | .number n, [] =>
    match n.step 0 with
    | .ends v => some v
    | _ => none
  | _, _ => none

/-- The loop over the text. -/
def run (p : Parser) : Bytes → Option JsonValue
  | [] => p.atEnd
  | b :: bs =>
    if b = 0 then p.atEnd
    else
      match p.feed b with
      | some p => run p bs
      | none => none

end Parser

/-- The UTF-8 byte order mark that the source skips. -/
def skipBom : Bytes → Bytes
  | 0xEF :: 0xBB :: 0xBF :: rest => rest
  | text => text

/-- `json_parse_ex`, without its limits for lengths. -/
def jsonParse (text : Bytes) : Option JsonValue :=
  Parser.run { stack := [], pc := .seek false false } (skipBom text)

end Pyoneer.Shared
