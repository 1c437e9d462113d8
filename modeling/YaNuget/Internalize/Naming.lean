import YaNuget.Internalize.Upstream

/-!
# Names of attached files

A downloaded file is attached under the name its URL gives it, as far as the
feed takes such a name and its extension fits the content. Else a name is made
from what the host says, and at last from the package.
-/
namespace YaNuget.Internalize

def rsplitOnce (sep : Char) (t : Text) : Option (Text × Text) :=
  (Text.splitOnce sep t.reverse).map fun parts => (parts.2.reverse, parts.1.reverse)

def trimEndMatches (p : Char → Bool) (t : Text) : Text := (t.reverse.dropWhile p).reverse

def upper (t : Text) : Text := t.map Char.toUpper

/-- The text before the first pair of apostrophes, and the text after it. -/
def splitAtQuotes : Text → Option (Text × Text)
  | '\'' :: '\'' :: rest => some ([], rest)
  | [] => none
  | c :: rest => (splitAtQuotes rest).map fun parts => (c :: parts.1, parts.2)

/-- How many bytes from the first one on are one character, or the part of one that is to be
replaced, and that character. -/
def decodeFirst (first : UInt8) (rest : Bytes) : ℕ × Char :=
  let continues (lo hi : ℕ) (i : ℕ) : Bool :=
    (rest[i]?).any fun b => lo ≤ b.toNat ∧ b.toNat ≤ hi
  let bits (i : ℕ) : ℕ := (rest[i]?.getD 0).toNat % 64
  let n := first.toNat
  let replaced (count : ℕ) : ℕ × Char := (count, Char.ofNat 0xfffd)
  if n < 0x80 then (1, Char.ofNat n)
  else if 0xc2 ≤ n ∧ n ≤ 0xdf then
    if continues 0x80 0xbf 0 then (2, Char.ofNat (n % 32 * 64 + bits 0)) else replaced 1
  else if 0xe0 ≤ n ∧ n ≤ 0xef then
    let lo := if n = 0xe0 then 0xa0 else 0x80
    let hi := if n = 0xed then 0x9f else 0xbf
    if continues lo hi 0 then
      if continues 0x80 0xbf 1 then
        (3, Char.ofNat (n % 16 * 4096 + bits 0 * 64 + bits 1))
      else replaced 2
    else replaced 1
  else if 0xf0 ≤ n ∧ n ≤ 0xf4 then
    let lo := if n = 0xf0 then 0x90 else 0x80
    let hi := if n = 0xf4 then 0x8f else 0xbf
    if continues lo hi 0 then
      if continues 0x80 0xbf 1 then
        if continues 0x80 0xbf 2 then
          (4, Char.ofNat (n % 8 * 262144 + bits 0 * 4096 + bits 1 * 64 + bits 2))
        else replaced 3
      else replaced 2
    else replaced 1
  else replaced 1

/-- Decode UTF-8; what is none is replaced. The first number is how many bytes are to be skipped,
which belong to the character before. -/
def utf8Lossy : ℕ → Bytes → Text
  | _, [] => []
  | skip + 1, _ :: rest => utf8Lossy skip rest
  | 0, first :: rest =>
    let (count, c) := decodeFirst first rest
    c :: utf8Lossy (count - 1) rest

def fromUtf8Lossy (bytes : Bytes) : Text := utf8Lossy 0 bytes

def maxFileNameLength : ℕ := 128

def isWindowsDeviceName (segment : Text) : Bool :=
  let stem := upper (trimEndMatches isWhitespace (segment.takeWhile (· != '.')))
  ["CON", "PRN", "AUX", "NUL"].any (·.toList = stem) ||
    (["COM", "LPT"].any (·.toList = stem.take 3) && Text.byteLen stem = 4 &&
      (stem[3]?).any fun c => '1' ≤ c ∧ c ≤ '9')

def extensionAllowed (allowed : List Text) (ext : Text) : Bool :=
  allowed.any fun a => Text.lower (a.dropWhile (· == '.')) = Text.lower ext

/-- Why the name cannot name an attached file. -/
def fileNameProblem (name : Text) (allowed : List Text) : Option String :=
  if name.isEmpty || maxFileNameLength < Text.byteLen name then some "use 1 to 128 characters"
  else if !name.all fun c => c.isAlphanum || c ∈ ['.', '_', '-'] then
    some "use only letters, digits, '.', '_' and '-'"
  else if !(name.head?.any Char.isAlphanum) || name.getLast?.any (· ∈ ['.', '-']) then
    some "start with a letter or digit, and do not end in '.' or '-'"
  else if isWindowsDeviceName name then some "that is a Windows device name"
  else if Text.lower name = "index.json".toList then some "that name lists a version's files"
  else if (rsplitOnce '.' name).any fun parts => extensionAllowed allowed parts.2 then none
  else some ("the extension must be one of " ++ ", ".intercalate (allowed.map String.ofList))

/-- What a file's first bytes say it is. -/
inductive Kind where
  | executable | ole | zip | sevenZip | cabinet | gzip
  | other
  deriving DecidableEq, Repr

namespace Kind

def sniff (head : Bytes) : Kind :=
  if [0x4d, 0x5a].isPrefixOf head then executable
  else if [0xd0, 0xcf, 0x11, 0xe0, 0xa1, 0xb1, 0x1a, 0xe1].isPrefixOf head then ole
  else if [0x50, 0x4b, 0x03, 0x04].isPrefixOf head then zip
  else if [0x37, 0x7a, 0xbc, 0xaf, 0x27, 0x1c].isPrefixOf head then sevenZip
  else if [0x4d, 0x53, 0x43, 0x46].isPrefixOf head then cabinet
  else if [0x1f, 0x8b].isPrefixOf head then gzip
  else other

def extensions (kind : Kind) : List Text :=
  let names := match kind with
    | executable => ["exe", "dll", "sys", "scr"]
    | ole => ["msi", "msp", "mst"]
    | zip => ["zip", "vsix", "nupkg", "msix", "msixbundle", "appx", "appxbundle", "jar", "xpi"]
    | sevenZip => ["7z"]
    | cabinet => ["cab", "msu"]
    | gzip => ["gz", "tgz"]
    | other => []
  names.map String.toList

def known : List Kind := [executable, ole, zip, sevenZip, cabinet, gzip]

def fits (kind : Kind) (ext : Text) : Bool :=
  let ext := Text.lower ext
  match kind with
  | other => !known.any fun k => k.extensions.any (· = ext)
  | k => k.extensions.any (· = ext)

end Kind

abbrev Url := Text

/-- What is known about one downloaded file. -/
structure Source where
  url : Url
  finalUrl : Option Url
  contentDisposition : Option Text
  fileType : Option Text
  kind : Kind
  sha256 : Text
  /-- The last resort for a name. -/
  fallback : Text

section Pick

variable (pathSegments : Url → Option (List Text))

def isHexByte (b : UInt8) : Bool :=
  (48 ≤ b ∧ b ≤ 57) || (65 ≤ b ∧ b ≤ 70) || (97 ≤ b ∧ b ≤ 102)

def hexValue (b : UInt8) : UInt8 :=
  if b ≤ 57 then b - 48 else if b ≤ 70 then b - 55 else b - 87

def percentBytes : Bytes → Bytes
  | 0x25 :: a :: b :: rest =>
    if isHexByte a && isHexByte b then (hexValue a * 16 + hexValue b) :: percentBytes rest
    else 0x25 :: percentBytes (a :: b :: rest)
  | x :: rest => x :: percentBytes rest
  | [] => []

def percentDecode (t : Text) : Text := fromUtf8Lossy (percentBytes (utf8 t))

def lastSegment (url : Url) : Option Text := do
  let segments ← pathSegments url
  let segment ← segments.reverse.find? fun s => !s.isEmpty
  pure (percentDecode segment)

/-- The file name that a `Content-Disposition` header gives, `filename*` before `filename`. -/
def dispositionName (header : Text) : Option Text :=
  let names := ((header.splitOn ';').drop 1).foldl (fun (names : Option Text × Option Text) part =>
    match Text.splitOnce '=' part with
    | none => names
    | some (key, value) =>
      let quote (c : Char) : Bool := c == '"'
      let value := trimEndMatches quote ((trim value).dropWhile quote)
      let key := Text.lower (trim key)
      if key = "filename*".toList then
        ((splitAtQuotes value).map fun parts => percentDecode parts.2, names.2)
      else if key = "filename".toList then (names.1, some value)
      else names) (none, none)
  (names.1.or names.2).map fun name =>
    (name.reverse.takeWhile fun c => c != '/' && c != '\\').reverse

def isStemEnd (c : Char) : Bool := c ∈ ['.', '-', '_']

def sanitize (t : Text) : Text :=
  let out := t.foldl (fun out c =>
    if c.isAlphanum || c ∈ ['.', '_', '-'] then out ++ [c]
    else if out.getLast? = some '_' then out
    else out ++ ['_']) []
  trimEndMatches isStemEnd (out.dropWhile fun c => !c.isAlphanum)

/-- Cut the stem so that the whole name fits, keeping the extension. -/
def fit (name : Text) : Text :=
  if Text.byteLen name ≤ maxFileNameLength then name
  else
    match rsplitOnce '.' name with
    | some (stem, ext) =>
      let room := maxFileNameLength - (ext.length + 1)
      trimEndMatches isStemEnd (stem.take room) ++ '.' :: ext
    | none => name.take maxFileNameLength

/-- Valid under the feed's rule, the extension aside. -/
def isClean (name : Text) : Bool :=
  (fileNameProblem name [((rsplitOnce '.' name).map (·.2)).getD []]).isNone

/-- The best name the sources give, with an extension that fits the content. -/
def pick (file : Source) : Text :=
  let own := (lastSegment pathSegments file.url).filter fun original =>
    isClean original && (rsplitOnce '.' original).any fun parts => file.kind.fits parts.2
  match own with
  | some original => original
  | none =>
    let candidates := [file.contentDisposition.bind dispositionName,
      file.finalUrl.bind (lastSegment pathSegments), lastSegment pathSegments file.url]
    let stemAndExt := candidates.findSome? fun candidate => candidate.bind fun c =>
      let clean := sanitize c
      let (stem, ext) := match (rsplitOnce '.' clean).filter fun parts => !parts.1.isEmpty with
        | some (stem, ext) => (stem, some ext)
        | none => (clean, none)
      let stem := trimEndMatches isStemEnd stem
      if stem.isEmpty then none else some (stem, ext)
    let (stem, ext) := stemAndExt.getD (sanitize file.fallback, none)
    let ext := (((ext.filter file.kind.fits).or
      ((file.fileType.map Text.lower).filter file.kind.fits)).or
        file.kind.extensions.head?).getD []
    if ext.isEmpty then fit (stem.map fun c => if c = '.' then '_' else c)
    else fit (stem ++ '.' :: ext)

end Pick

/-- The names given within one version so far, in lower case, each with the SHA-256 of the file
that it names. -/
abbrev Names := List (Text × Text)

def Names.insert (names : Names) (name sha256 : Text) : Names :=
  (Text.lower name, sha256) :: names.filter (·.1 ≠ Text.lower name)

/-- The name for the file, or why it cannot be attached. The same content gets the name it already
has. -/
def Names.name (pathSegments : Url → Option (List Text)) (names : Names) (file : Source)
    (allowed : List Text) : Except String Text × Names :=
  match names.find? (·.2 = file.sha256) with
  | some (name, _) => (.ok name, names)
  | none =>
    let picked := pick pathSegments file
    let ext := ((rsplitOnce '.' picked).map (·.2)).getD []
    if !extensionAllowed allowed ext then
      let shown := ", ".intercalate (allowed.map String.ofList)
      (.error (s!"{String.ofList picked}: the feed takes no .{String.ofList ext} files " ++
        s!"(allowed: {shown})"), names)
    else
      let name := if names.any (·.1 = Text.lower picked) then
        fit (file.sha256.take 8 ++ '-' :: picked) else picked
      match fileNameProblem name allowed with
      | some why => (.error s!"{String.ofList name}: {why}", names)
      | none => (.ok name, names.insert name file.sha256)

end YaNuget.Internalize
