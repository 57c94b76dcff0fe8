import Redaction.Text.Digits
import Redaction.Text.Printable

/-!
# Quoted texts

The literal forms of texts and byte strings. A text stands between single quotes, or between double
quotes when it holds a single quote and no double quote; the chosen quote, the backslash and every
character that is not printable are escaped. A JSON string stands between double quotes and holds
ASCII only: every other character is written as its UTF-16 code units.
-/

namespace Redaction.Text

/-- The quote that a literal stands between: single, unless only double quotes save escapes. -/
def quoteOf (cs : List Char) : Char :=
  if cs.contains '\x27' && !cs.contains '\x22' then '\x22' else '\x27'

/-- The escapes that texts and byte strings share: the quote, the backslash, tab and line ends. -/
def commonEscape? (quote c : Char) : Option String :=
  if c = quote || c = '\x5c' then some (String.ofList ['\x5c', c])
  else if c = '\t' then some "\\t"
  else if c = '\n' then some "\\n"
  else if c = '\r' then some "\\r"
  else none

/-- One character of a text literal: shown as it is when printable, else by its code point in the
shortest of the two, four and eight digit forms. -/
def literalChar (quote c : Char) : String :=
  match commonEscape? quote c with
  | some escaped => escaped
  | none =>
    if isPrintable c then c.toString
    else if c.toNat ≤ 0xff then "\\x" ++ hexadecimal 2 c.toNat
    else if c.toNat ≤ 0xffff then "\\u" ++ hexadecimal 4 c.toNat
    else "\\U" ++ hexadecimal 8 c.toNat

/-- One byte of a byte string literal: shown as the ASCII character it stands for, else in hex. -/
def literalByte (quote : Char) (b : UInt8) : String :=
  let c := Char.ofNat b.toNat
  match commonEscape? quote c with
  | some escaped => escaped
  | none =>
    if 32 ≤ b.toNat && b.toNat < 127 then c.toString else "\\x" ++ hexadecimal 2 b.toNat

def literal (s : String) : String :=
  let quote := quoteOf s.toList
  quote.toString ++ String.join (s.toList.map (literalChar quote)) ++ quote.toString

/-- The quote that the literal of a byte string stands between. -/
def quoteOfBytes (bytes : List UInt8) : Char := quoteOf (bytes.map fun b => Char.ofNat b.toNat)

/-- Bytes between quotes, with one of the quotes escaped among them. -/
def bytesBetween (quote escaped : Char) (bytes : List UInt8) : String :=
  "b" ++ quote.toString ++ String.join (bytes.map (literalByte escaped)) ++ quote.toString

def bytesLiteral (bytes : List UInt8) : String :=
  bytesBetween (quoteOfBytes bytes) (quoteOfBytes bytes) bytes

/-- The literal of a byte buffer, in which the single quote is escaped between double quotes too. -/
def bufferLiteral (bytes : List UInt8) : String :=
  "bytearray(" ++ bytesBetween (quoteOfBytes bytes) '\x27' bytes ++ ")"

def unitEscape (unit : Nat) : String := "\\u" ++ hexadecimal 4 unit

def jsonChar (c : Char) : String :=
  if c = '\x22' then "\\\""
  else if c = '\x5c' then "\\\\"
  else if c = '\n' then "\\n"
  else if c = '\r' then "\\r"
  else if c = '\t' then "\\t"
  else if c = '\x0c' then "\\f"
  else if c = '\x08' then "\\b"
  else if 32 ≤ c.toNat && c.toNat < 127 then c.toString
  else if c.toNat < 0x10000 then unitEscape c.toNat
  else
    let offset := c.toNat - 0x10000
    unitEscape (0xd800 + offset / 0x400) ++ unitEscape (0xdc00 + offset % 0x400)

def jsonString (s : String) : String :=
  "\"" ++ String.join (s.toList.map jsonChar) ++ "\""

end Redaction.Text
