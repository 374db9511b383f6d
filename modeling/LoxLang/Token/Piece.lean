import LoxLang.Report

namespace LoxLang

inductive Piece where
  | token (kind : Token.Kind) (text : List Char)
  | blank (c : Char)
  | comment (text : List Char)
  | stray (c : Char)
  | openString (text : List Char)
  | openComment (text : List Char) (depth : Nat)
deriving DecidableEq, Repr, Inhabited

namespace Piece

def text : Piece → List Char
  | token _ t => t
  | blank c => [c]
  | comment t => t
  | stray c => [c]
  | openString t => t
  | openComment t _ => t

def isWordChar (c : Char) : Bool := c.isAlphanum || c = '_'

def isBlank (c : Char) : Bool := c = ' ' || c = '\r' || c = '\t' || c = '\n'

def symbol? : Char → Option Token.Kind
  | '(' => some .leftParen | ')' => some .rightParen
  | '{' => some .leftBrace | '}' => some .rightBrace
  | '[' => some .leftBracket | ']' => some .rightBracket
  | ',' => some .comma | '.' => some .dot | '-' => some .minus | '+' => some .plus
  | ';' => some .semicolon | '*' => some .star | '/' => some .slash
  | '!' => some .bang | '=' => some .equal | '<' => some .less | '>' => some .greater
  | ':' => some .colon | '?' => some .question
  | _ => none

/-- The symbols that an equals sign extends. -/
def extended? : Char → Option Token.Kind
  | '!' => some .bangEqual | '=' => some .equalEqual
  | '<' => some .lessEqual | '>' => some .greaterEqual
  | _ => none

/-- Cuts after the end of a block comment that is open to the given depth. What is left of the depth
is not closed by the end of the text. -/
def closeComment : Nat → List Char → List Char × List Char × Nat
  | 0, rest => ([], rest, 0)
  | depth, [] => ([], [], depth)
  | depth + 1, '*' :: '/' :: rest =>
    let (t, rest, left) := closeComment depth rest
    ('*' :: '/' :: t, rest, left)
  | depth + 1, '/' :: '*' :: rest =>
    let (t, rest, left) := closeComment (depth + 2) rest
    ('/' :: '*' :: t, rest, left)
  | depth + 1, c :: rest =>
    let (t, rest, left) := closeComment (depth + 1) rest
    (c :: t, rest, left)

def afterSlash : List Char → Piece × List Char
  | '/' :: rest =>
    (.comment ('/' :: '/' :: rest.takeWhile (· ≠ '\n')), rest.dropWhile (· ≠ '\n'))
  | '*' :: rest =>
    match closeComment 1 rest with
    | (t, rest, 0) => (.comment ('/' :: '*' :: t), rest)
    | (t, rest, depth) => (.openComment ('/' :: '*' :: t) depth, rest)
  | rest => (.token .slash ['/'], rest)

def afterQuote (rest : List Char) : Piece × List Char :=
  let inner := rest.takeWhile (· ≠ '\"')
  match rest.dropWhile (· ≠ '\"') with
  | [] => (.openString ('\"' :: inner), [])
  | quote :: rest => (.token .string ('\"' :: inner ++ [quote]), rest)

/-- A point belongs to a number only if a digit follows it. -/
def fraction : List Char → List Char × List Char
  | '.' :: d :: rest =>
    if d.isDigit then ('.' :: d :: rest.takeWhile Char.isDigit, rest.dropWhile Char.isDigit)
    else ([], '.' :: d :: rest)
  | rest => ([], rest)

def number (lead : Char) (rest : List Char) : Piece × List Char :=
  let (t, after) := fraction (rest.dropWhile Char.isDigit)
  (.token .number (lead :: rest.takeWhile Char.isDigit ++ t), after)

def word (lead : Char) (rest : List Char) : Piece × List Char :=
  let t := lead :: rest.takeWhile isWordChar
  (.token (Token.wordKind (String.ofList t)) t, rest.dropWhile isWordChar)

def symbol (kind : Token.Kind) (lead : Char) : List Char → Piece × List Char
  | '=' :: rest =>
    match extended? lead with
    | some kind => (.token kind [lead, '='], rest)
    | none => (.token kind [lead], '=' :: rest)
  | rest => (.token kind [lead], rest)

def next (c : Char) (rest : List Char) : Piece × List Char :=
  if c = '/' then afterSlash rest
  else if c = '\"' then afterQuote rest
  else
    match symbol? c with
    | some kind => symbol kind c rest
    | none =>
      if c.isDigit then number c rest
      else if isWordChar c then word c rest
      else if isBlank c then (.blank c, rest)
      else (.stray c, rest)

def cutAtMost : Nat → List Char → List Piece
  | 0, _ => []
  | _, [] => []
  | count + 1, c :: rest =>
    let (piece, rest) := next c rest
    piece :: cutAtMost count rest

/-- No text has more pieces than characters. -/
def cut (source : List Char) : List Piece := cutAtMost source.length source

def newlines (t : List Char) : Nat := t.count '\n'

def endLine (line : Int) (p : Piece) : Int := line + newlines p.text

def lastLine (ps : List Piece) : Int := ps.foldl endLine 1

def literal? : Token.Kind → List Char → Option Literal
  | .number, t => some (.number (Number.read t))
  | .string, t => some (.text (String.ofList (t.drop 1).dropLast))
  | _, _ => none

def tokensFrom (line : Int) : List Piece → List Token
  | [] => [⟨.eof, "", line, none⟩]
  | p :: ps =>
    let line := endLine line p
    match p with
    | .token kind t => ⟨kind, String.ofList t, line, literal? kind t⟩ :: tokensFrom line ps
    | _ => tokensFrom line ps

def straysFrom (line : Int) : List Piece → List (Int × Char)
  | [] => []
  | p :: ps =>
    match p with
    | .stray c => (line, c) :: straysFrom line ps
    | _ => straysFrom (endLine line p) ps

def gather : List (Int × Char) → List (Int × List Char)
  | [] => []
  | (line, c) :: rest =>
    match gather rest with
    | (other, cs) :: more =>
      if line = other then (line, c :: cs) :: more else (line, [c]) :: (other, cs) :: more
    | [] => [(line, [c])]

/-- One report for an open string, one for each level of an open comment. -/
def openComplaints : Piece → List Complaint
  | .openString _ => [.unterminatedString]
  | .openComment _ depth => List.replicate depth .unterminatedComment
  | _ => []

/-- What the text leaves open comes first, at the last line, and then the stray characters. -/
def reports (ps : List Piece) : List Report :=
  (ps.flatMap openComplaints).map (⟨.line (lastLine ps), ·⟩) ++
    (gather (straysFrom 1 ps)).map fun (line, cs) => ⟨.line line, .unexpectedCharacters cs⟩

end Piece

/-- The tokens of a program text, with the end of the text last, and what is wrong in between. -/
def Token.scan (source : String) : List Token × List Report :=
  let ps := Piece.cut source.toList
  (Piece.tokensFrom 1 ps, Piece.reports ps)

end LoxLang
