/-!
# Segments of a path text

A path text is read from left to right. Outside brackets a dot ends a segment; an opening bracket
ends a segment and starts a bracketed one, in which dots are ordinary characters and a closing
bracket ends it. Inside brackets a quote that opens a run and the same quote that closes it are
dropped; the other quote character is kept in between. Every text has segments, well formed or not.
-/

namespace Redaction.Path

/-- The segment that stands for every child of a container. -/
def wildcard : String := "*"

/-- A segment with the half-open range of character positions that it was read from: from its first
kept character to after its last. -/
structure Piece where
  text : List Char
  start : Nat
  stop : Nat
deriving Repr, DecidableEq

def Piece.segment (p : Piece) : String := String.ofList p.text

/-- Where a reader stands: outside brackets, or inside them with the quote that is open. -/
inductive Place where
  | outside
  | inside (quote : Option Char)
deriving Repr, DecidableEq

/-- What a character does to the segment being read: it ends it, is left out of it, or joins it. -/
inductive Effect where
  | cut
  | drop
  | keep
deriving Repr, DecidableEq

def isQuote (c : Char) : Bool := c = '\x27' || c = '\x22'

/-- The effect of a character at a place, and the place after it. An opening bracket inside brackets
ends the segment and leaves the open quote as it was. -/
def Place.read : Place → Char → Effect × Place
  | .outside, c =>
    if c = '.' then (.cut, .outside)
    else if c = '[' then (.cut, .inside none)
    else (.keep, .outside)
  | .inside quote, c =>
    if c = '[' then (.cut, .inside quote)
    else if c = ']' then (.cut, .outside)
    else if isQuote c then
      match quote with
      | none => (.drop, .inside (some c))
      | some opened => if c = opened then (.drop, .inside none) else (.keep, .inside quote)
    else (.keep, .inside quote)

structure Partial where
  reversed : List Char
  start : Nat
  stop : Nat

/-- The character at a position joins the segment under way, or begins one. -/
def Partial.extend (current : Option Partial) (c : Char) (position : Nat) : Partial :=
  match current with
  | none => ⟨[c], position, position + 1⟩
  | some p => ⟨c :: p.reversed, p.start, position + 1⟩

/-- The piece that a segment under way has become. -/
def Partial.close (p : Partial) : Piece := ⟨p.reversed.reverse, p.start, p.stop⟩

/-- Reads on from a place and a position with the segment under way, if there is one. -/
def scanFrom : Place → Option Partial → Nat → List Char → List Piece
  | _, current, _, [] => current.toList.map Partial.close
  | place, current, position, c :: rest =>
    match place.read c with
    | (.cut, after) => current.toList.map Partial.close ++ scanFrom after none (position + 1) rest
    | (.drop, after) => scanFrom after current (position + 1) rest
    | (.keep, after) =>
      scanFrom after (some (Partial.extend current c position)) (position + 1) rest

def pieces (path : String) : List Piece := scanFrom .outside none 0 path.toList

/-- The segments of a path text, in text order. -/
def segments (path : String) : List String := (pieces path).map Piece.segment

/-- The path text with its first wildcard segment replaced by a label, or the text itself when no
segment is a wildcard. Stars that are part of a longer segment stay. -/
def instantiate (path label : String) : String :=
  match (pieces path).find? fun p => p.segment = wildcard with
  | some p =>
    String.ofList (path.toList.take p.start) ++ label ++ String.ofList (path.toList.drop p.stop)
  | none => path

end Redaction.Path
