import YaNuget.Data.EventTrees
import YaNuget.Data.Slices
import YaNuget.Packages.EntryNames

/-!
# The content types of a rewritten package

`[Content_Types].xml` gains a type for every part that it does not cover. Its
text is cut into pieces by the tokenizer of an XML library, one event of the
document in each, and the new elements are put where the pieces say the root
ends.
-/
namespace YaNuget.Rewriting

open EventTrees

/-- What can go wrong with a package. -/
inductive Error where
  | invalidPackage (message : String)
  | invalidRewrite (message : String)
  | io (message : String)
  deriving DecidableEq

/-- How the standard library quotes a text and a character in a message. -/
structure DebugFormat where
  text : Text → String
  char : Char → String

structure Attribute where
  key : Text
  /-- The normalized value, or why there is none. -/
  value : Except String Text

structure Tag where
  /-- With its prefix. -/
  name : Text
  attributes : List (Except String Attribute)

/-- What follows the prefix. -/
def localName (name : Text) : Text := ((Text.splitOnce ':' name).map (·.2)).getD name

/-- What stands between tags. -/
inductive Leaf where
  | text (content : Text)
  | decl
  | processingInstruction
  | comment
  | docType
  /-- A CDATA section or a reference. -/
  | other

abbrev XmlEvent := EventTrees.Event Tag Text Leaf

/-- An event, with the text it was read from. -/
structure Piece where
  event : XmlEvent
  source : Text

/-- The tokenizer takes one piece off the front of a text. -/
structure Tokenizer where
  next : Text → Except String (Option (Piece × Text))
  /-- The message for an end tag that is not the innermost open element's. -/
  mismatched : Option Text → Text → String
  at_end : ∀ {t}, next t = .ok none ↔ t = []
  tiles : ∀ {t p rest}, next t = .ok (some (p, rest)) → t = p.source ++ rest ∧ p.source ≠ []
  empty_source : ∀ {t p rest tag}, next t = .ok (some (p, rest)) → p.event = .empty tag →
    ∃ inside, p.source = '<' :: inside ++ ['/', '>']

namespace Tokenizer

variable (tokenizer : Tokenizer)

/-- The pieces up to the end or the first error, with the names of the open elements. -/
def read : ℕ → List Text → Text → List Piece × Option String
  | 0, _, _ => ([], none)
  | fuel + 1, opened, text =>
    match tokenizer.next text with
    | .error e => ([], some e)
    | .ok none => ([], none)
    | .ok (some (piece, rest)) =>
      match openTags Tag.name opened [piece.event] with
      | some opened =>
        let (pieces, failed) := read fuel opened rest
        (piece :: pieces, failed)
      | none =>
        let name := match piece.event with | .close name => name | _ => []
        ([], some (tokenizer.mismatched opened.head? name))

/-- Every piece takes a character at least. -/
def pieces (text : Text) : List Piece × Option String := tokenizer.read (text.length + 1) [] text

end Tokenizer

def contentTypes : Text := "[content_types].xml".toList

/-- What a part of an unknown type is given. -/
def octet : Text := "application/octet".toList

def malformed (e : String) : Error :=
  .invalidPackage ("[Content_Types].xml is malformed: " ++ e)

/-- Where new types go: before the root's end tag, or in place of an empty root. -/
inductive Insert where
  | before (at_ : ℕ)
  | expand (start stop : ℕ)
  deriving DecidableEq

structure Scan where
  /-- How many bytes were read. -/
  position : ℕ := 0
  depth : ℕ := 0
  hasRoot : Bool := false
  insert : Option Insert := none
  extensions : List Text := []
  overrides : List Text := []
  deriving DecidableEq

/-- The values of one attribute, in lower case. -/
def collect (wanted : String) : List Text → List (Except String Attribute) →
    Except Error (List Text)
  | set, [] => .ok set
  | _, .error e :: _ => .error (malformed e)
  | set, .ok item :: rest =>
    if item.key = wanted.toList then
      match item.value with
      | .error e => .error (malformed e)
      | .ok value => collect wanted (Text.lower value :: set) rest
    else collect wanted set rest

/-- A start tag, or the tag of an empty element. -/
def Scan.tag (s : Scan) (tag : Tag) : Except Error Scan :=
  if s.depth = 0 then
    if s.hasRoot then .error (malformed "it has more than one root element")
    else if localName tag.name ≠ "Types".toList then
      .error (malformed "its root element is not Types")
    else .ok { s with hasRoot := true }
  else if s.depth = 1 then
    if localName tag.name = "Default".toList then do
      pure { s with extensions := ← collect "Extension" s.extensions tag.attributes }
    else if localName tag.name = "Override".toList then do
      pure { s with overrides := ← collect "PartName" s.overrides tag.attributes }
    else .ok s
  else .ok s

def isAsciiWhitespace (c : Char) : Bool :=
  c = ' ' || c = '\t' || c = '\n' || c = '\x0c' || c = '\r'

/-- The piece begins where `start` bytes were read and ends where `s` has read to. -/
def Scan.event (start : ℕ) (s : Scan) : XmlEvent → Except Error Scan
  | .start tag => do
    let s ← s.tag tag
    pure { s with depth := s.depth + 1 }
  | .empty tag => do
    let s' ← s.tag tag
    pure (if s.depth = 0 then { s' with insert := some (.expand start s.position) } else s')
  | .close _ =>
    if s.depth = 0 then .error (malformed "it closes an element it never opened")
    else if s.depth = 1 then .ok { s with depth := 0, insert := some (.before start) }
    else .ok { s with depth := s.depth - 1 }
  | .leaf .docType => .error (malformed "it has a DOCTYPE")
  | .leaf (.text content) =>
    if s.depth = 0 && !content.all isAsciiWhitespace then
      .error (malformed "it has text outside the root element")
    else .ok s
  | .leaf .other =>
    if s.depth = 0 then .error (malformed "it has content outside the root element") else .ok s
  | .leaf _ => .ok s

def Scan.step (s : Scan) (piece : Piece) : Except Error Scan :=
  Scan.event s.position { s with position := s.position + Text.byteLen piece.source } piece.event

/-- Neither a control character nor one that XML cannot hold. -/
def isPartNameChar (c : Char) : Bool :=
  let n := c.toNat
  !(n < 0x20 || (0x7f ≤ n && n ≤ 0x9f)) && n ≠ 0xfffe && n ≠ 0xffff

def escapeChar (c : Char) : Text :=
  if c = '&' then "&amp;".toList
  else if c = '<' then "&lt;".toList
  else if c = '>' then "&gt;".toList
  else if c = '"' then "&quot;".toList
  else if c = '\'' then "&apos;".toList
  else [c]

def escape (t : Text) : Text := t.flatMap escapeChar

/-- What follows the last dot of the name's last segment, if anything does. -/
def extensionOf (name : Text) : Option Text :=
  let file := name.reverse.takeWhile (· ≠ '/')
  match Text.splitOnce '.' file with
  | some (ext, _) => if ext.isEmpty then none else some ext.reverse
  | none => none

def defaultElement (ext : Text) : Text :=
  "<Default Extension=\"".toList ++ escape ext ++ "\" ContentType=\"".toList ++ octet ++
    "\" />".toList

def overrideElement (part : Text) : Text :=
  "<Override PartName=\"".toList ++ escape part ++ "\" ContentType=\"".toList ++ octet ++
    "\" />".toList

/-- The elements to insert, with the extensions and parts they are for. -/
structure Missing where
  text : Text := []
  added : List Text := []

section Complete

variable (debug : DebugFormat) (scan : Scan)

/-- One name more. -/
def Missing.add (m : Missing) (name : Text) : Except Error Missing :=
  match name.find? fun c => !isPartNameChar c with
  | some c => .error (.invalidPackage ("the entry name " ++ debug.text name ++ " holds " ++
      debug.char c ++ ", which a part name cannot"))
  | none =>
    if name = contentTypes ∨ name.getLast? = some '/' then .ok m
    else
      match extensionOf name with
      | some ext =>
        if ext ∉ scan.extensions ∧ '.' :: ext ∉ m.added then
          .ok ⟨m.text ++ defaultElement ext, ('.' :: ext) :: m.added⟩
        else .ok m
      | none =>
        let part := '/' :: name
        if part ∉ scan.overrides ∧ part ∉ m.added then
          .ok ⟨m.text ++ overrideElement part, part :: m.added⟩
        else .ok m

/-- The text with the missing elements where they go. -/
def insertMissing (xml missing : Text) : Except Error Text :=
  let failed := .error (malformed "it has no closing </Types>")
  match scan.insert with
  | some (.before at_) =>
    match Text.cut at_ xml with
    | some (pre, post) =>
      if ['<', '/'].isPrefixOf post then .ok (pre ++ missing ++ post) else failed
    | none => failed
  | some (.expand start stop) =>
    match Text.cut start xml with
    | some (pre, rest) =>
      match Text.cut (stop - start) rest with
      | some (element, post) =>
        if ['/', '>'].isSuffixOf element then
          let opening := element.take (element.length - 2)
          let qname := opening.tail.takeWhile fun c => !isAsciiWhitespace c
          .ok (pre ++ opening ++ ['>'] ++ missing ++ ['<', '/'] ++ qname ++ ['>'] ++ post)
        else failed
      | none => failed
    | none => failed
  | none => failed

end Complete

/-- The types cover every part of `names`, which are normalized. -/
def completeContentTypes (tokenizer : Tokenizer) (debug : DebugFormat) (xml : Text)
    (names : List Text) : Except Error Text := do
  let (pieces, failed) := tokenizer.pieces xml
  let scan ← pieces.foldlM Scan.step {}
  match failed with
  | some e => .error (malformed e)
  | none =>
    if scan.depth ≠ 0 then .error (malformed "it ends inside an element")
    else do
      let missing ← names.foldlM (Missing.add debug scan) {}
      if missing.text.isEmpty then pure xml else insertMissing scan xml missing.text

end YaNuget.Rewriting
