import YaNuget.Store.Records
import Mathlib.Tactic.SplitIfs

/-!
# License policy

A feed's offline verdict on the license a package declares. Text is compared
as the source compares it: ASCII case is ignored, and blanks are those of the
Unicode `White_Space` property.
-/
namespace YaNuget.Policy

inductive PolicyAction where
  | warn
  | block
  deriving DecidableEq, Repr

structure LicensePolicyConfig where
  enabled : Bool
  allowed : List String
  blocked : List String
  allowUnlicensed : Bool
  action : PolicyAction
  deriving DecidableEq, Repr

instance : Inhabited LicensePolicyConfig := ⟨⟨false, [], [], true, .warn⟩⟩

/-- Whether the push may proceed, and the violation found, if any. -/
structure PolicyOutcome where
  allowed : Bool
  violation : Option String
  deriving DecidableEq, Repr

def PolicyOutcome.ok : PolicyOutcome := ⟨true, none⟩

def isWhitespace (c : Char) : Bool :=
  let n := c.toNat
  (9 ≤ n && n ≤ 13) || n == 0x20 || n == 0x85 || n == 0xA0 || n == 0x1680 ||
    (0x2000 ≤ n && n ≤ 0x200A) || n == 0x2028 || n == 0x2029 || n == 0x202F ||
    n == 0x205F || n == 0x3000

def trim (s : String) : String :=
  String.ofList (((s.toList.dropWhile isWhitespace).reverse.dropWhile isWhitespace).reverse)

def toAsciiLowercase (s : String) : String := String.ofList (s.toList.map Char.toLower)

def eqIgnoreAsciiCase (a b : String) : Bool := toAsciiLowercase a == toAsciiLowercase b

/-- The non-empty pieces of `s` between the characters that satisfy `sep`. -/
def tokens (sep : Char → Bool) (s : String) : List String :=
  ((s.toList.splitOnP sep).filter fun piece => !piece.isEmpty).map String.ofList

def splitWhitespace (s : String) : List String := tokens isWhitespace s

def stripSuffix (s suffix : String) : Option String :=
  let cs := s.toList.reverse
  let tail := suffix.toList.reverse
  if tail.isPrefixOf cs then some (String.ofList (cs.drop tail.length).reverse) else none

/-- Group tokens at an operator; `current` is the group being read, reversed. -/
def groupAt (op : String) : List String → List String → List String
  | current, [] => [" ".intercalate current.reverse]
  | current, token :: rest =>
    if eqIgnoreAsciiCase token op then
      " ".intercalate current.reverse :: groupAt op [] rest
    else groupAt op (token :: current) rest

/-- Split an expression on a top-level SPDX operator, case-insensitively. -/
def splitOperator (expr op : String) : List String :=
  ((groupAt op [] (splitWhitespace expr)).map trim).filter (· ≠ "")

/-- Deprecated SPDX license ids: the replacement and the exception implied. -/
def deprecated : List (String × String × Option String) := [
  ("AGPL-1.0", "AGPL-1.0-only", none),
  ("AGPL-3.0", "AGPL-3.0-only", none),
  ("GFDL-1.1", "GFDL-1.1-only", none),
  ("GFDL-1.2", "GFDL-1.2-only", none),
  ("GFDL-1.3", "GFDL-1.3-only", none),
  ("GPL-1.0", "GPL-1.0-only", none),
  ("GPL-2.0", "GPL-2.0-only", none),
  ("GPL-3.0", "GPL-3.0-only", none),
  ("LGPL-2.0", "LGPL-2.0-only", none),
  ("LGPL-2.1", "LGPL-2.1-only", none),
  ("LGPL-3.0", "LGPL-3.0-only", none),
  ("GPL-2.0-with-autoconf-exception", "GPL-2.0-only", some "Autoconf-exception-2.0"),
  ("GPL-2.0-with-bison-exception", "GPL-2.0-only", some "Bison-exception-2.2"),
  ("GPL-2.0-with-classpath-exception", "GPL-2.0-only", some "Classpath-exception-2.0"),
  ("GPL-2.0-with-font-exception", "GPL-2.0-only", some "Font-exception-2.0"),
  ("GPL-2.0-with-GCC-exception", "GPL-2.0-only", some "GCC-exception-2.0"),
  ("GPL-3.0-with-autoconf-exception", "GPL-3.0-only", some "Autoconf-exception-3.0"),
  ("GPL-3.0-with-GCC-exception", "GPL-3.0-only", some "GCC-exception-3.1"),
  ("eCos-2.0", "GPL-2.0-or-later", some "eCos-exception-2.0"),
  ("wxWindows", "LGPL-2.0-or-later", some "WxWindows-exception-3.1"),
  ("BSD-2-Clause-FreeBSD", "BSD-2-Clause", none),
  ("BSD-2-Clause-NetBSD", "BSD-2-Clause", none),
  ("bzip2-1.0.5", "bzip2-1.0.6", none),
  ("Nunit", "zlib-acknowledgement", none),
  ("StandardML-NJ", "SMLNJ", none)]

/-- The exception ids of the SPDX License List. -/
def knownExceptions : List String := [
  "389-exception", "Asterisk-exception", "Asterisk-linking-protocols-exception",
  "Autoconf-exception-2.0", "Autoconf-exception-3.0", "Autoconf-exception-generic",
  "Autoconf-exception-generic-3.0", "Autoconf-exception-macro", "Bison-exception-1.24",
  "Bison-exception-2.2", "Bootloader-exception", "CGAL-linking-exception",
  "Classpath-exception-2.0", "Classpath-exception-2.0-short", "CLISP-exception-2.0",
  "cryptsetup-OpenSSL-exception", "Digia-Qt-LGPL-exception-1.1", "DigiRule-FOSS-exception",
  "eCos-exception-2.0", "erlang-otp-linking-exception", "Fawkes-Runtime-exception",
  "FLTK-exception", "fmt-exception", "Font-exception-2.0", "freertos-exception-2.0",
  "GCC-exception-2.0", "GCC-exception-2.0-note", "GCC-exception-3.1", "Gmsh-exception",
  "GNAT-exception", "GNOME-examples-exception", "GNU-compiler-exception",
  "gnu-javamail-exception", "GPL-3.0-389-ds-base-exception", "GPL-3.0-interface-exception",
  "GPL-3.0-linking-exception", "GPL-3.0-linking-source-exception", "GPL-CC-1.0",
  "GStreamer-exception-2005", "GStreamer-exception-2008", "harbour-exception",
  "i2p-gpl-java-exception", "Independent-modules-exception", "KiCad-libraries-exception",
  "LGPL-3.0-linking-exception", "libpri-OpenH323-exception", "Libtool-exception",
  "Linux-syscall-note", "LLGPL", "LLVM-exception", "LZMA-exception", "mif-exception",
  "mxml-exception", "Nokia-Qt-exception-1.1", "OCaml-LGPL-linking-exception",
  "OCCT-exception-1.0", "OpenJDK-assembly-exception-1.0", "openvpn-openssl-exception",
  "PCRE2-exception", "polyparse-exception", "PS-or-PDF-font-exception-20170817",
  "QPL-1.0-INRIA-2004-exception", "Qt-GPL-exception-1.0", "Qt-LGPL-exception-1.1",
  "Qwt-exception-1.0", "romic-exception", "RRDtool-FLOSS-exception-2.0", "SANE-exception",
  "SHL-2.0", "SHL-2.1", "stunnel-exception", "SWI-exception", "Swift-exception",
  "Texinfo-exception", "u-boot-exception-2.0", "UBDL-exception", "Universal-FOSS-exception-1.0",
  "vsftpd-openssl-exception", "WxWindows-exception-3.1", "x11vnc-openssl-exception"]

def family (id : String) : String :=
  ((stripSuffix id "-only").orElse fun _ => stripSuffix id "-or-later").getD id

/-- Normalise one license id; a deprecated id that folded an exception into
its name returns that exception too. -/
def normalizeId (raw : String) : String × Option String :=
  let raw := trim raw
  let (base, orLater) := match stripSuffix raw "+" with
    | some base => (trim base, true)
    | none => (raw, false)
  let (id, exception) := match deprecated.find? fun d => eqIgnoreAsciiCase d.1 base with
    | some d => (toAsciiLowercase d.2.1, d.2.2)
    | none => (toAsciiLowercase base, none)
  (if orLater then family id ++ "-or-later" else id, exception)

/-- One SPDX license term, `id` or `id WITH exception`, normalised. -/
structure Term where
  id : String
  exception : Option String
  malformed : Bool
  deriving DecidableEq, Repr

def Term.parse (raw : String) : Term :=
  let parts := splitOperator raw "WITH"
  let malformed := 2 < parts.length || parts.isEmpty ||
    (parts.length < 2 && (splitWhitespace raw).any fun t => eqIgnoreAsciiCase t "WITH")
  let (id, implied) := normalizeId (parts.headD "")
  { id
    exception := (parts[1]?.map toAsciiLowercase).orElse fun _ => implied.map toAsciiLowercase
    malformed }

def Term.family (t : Term) : String := Policy.family t.id

def Term.exceptionIsKnown (t : Term) : Bool :=
  !t.malformed && t.exception.all fun e => knownExceptions.any fun k => eqIgnoreAsciiCase k e

/-- Whether the allow rule `rule` admits `term`. -/
def Term.allows (rule term : Term) : Bool :=
  if rule.id = "" || !term.exceptionIsKnown then false
  else
    let idOk := rule.id == term.id ||
      ((stripSuffix rule.id "-only").isSome && (stripSuffix term.id "-or-later").isSome &&
        rule.family == term.family)
    idOk && match rule.exception with
      | none => true
      | some e => term.exception == some e

/-- Whether an SPDX expression is satisfied by the allow-list. -/
def expressionIsAllowed (allowed : List String) (license : String) : Bool :=
  if allowed.any fun a => eqIgnoreAsciiCase (trim a) (trim license) then true
  else if license.toList.any fun c => c == '(' || c == ')' then false
  else
    let rules := allowed.map Term.parse
    (splitOperator license "OR").any fun alternative =>
      let conjuncts := splitOperator alternative "AND"
      !conjuncts.isEmpty && conjuncts.all fun term =>
        rules.any fun rule => rule.allows (Term.parse term)

/-- The scan of a license for a rule's family; `afterWith` says that the last
token was `WITH`, so that the next is an exception id. -/
def anyTokenMatches (rule ruleFamily : String) : Bool → List String → Bool
  | _, [] => false
  | afterWith, token :: rest =>
    if eqIgnoreAsciiCase token "WITH" then anyTokenMatches rule ruleFamily true rest
    else if eqIgnoreAsciiCase token "OR" || eqIgnoreAsciiCase token "AND" then
      anyTokenMatches rule ruleFamily afterWith rest
    else if afterWith then
      eqIgnoreAsciiCase token rule || anyTokenMatches rule ruleFamily false rest
    else
      family (normalizeId token).1 == ruleFamily || anyTokenMatches rule ruleFamily false rest

/-- Whether the deny rule `rule` matches `license`, case-insensitively. -/
def matchesLicense (rule license : String) : Bool :=
  let rule := trim rule
  if rule = "" then false
  else if eqIgnoreAsciiCase rule license then true
  else if rule.toList.any isWhitespace then false
  else
    anyTokenMatches rule (family (normalizeId rule).1) false
      (tokens (fun c => isWhitespace c || c == '(' || c == ')') license)

def violation (policy : LicensePolicyConfig) (reason : String) : PolicyOutcome :=
  ⟨policy.action ≠ .block, some reason⟩

def quoted (s : String) : String :=
  let escape (c : Char) : String :=
    if c == '"' then "\\\"" else if c == '\\' then "\\\\"
    else if c == '\n' then "\\n" else if c == '\r' then "\\r"
    else if c == '\t' then "\\t" else if c.toNat == 0 then "\\0" else c.toString
  "\"" ++ String.join (s.toList.map escape) ++ "\""

/-- Evaluate a feed's policy against a package. -/
def evaluateLicense (policy : LicensePolicyConfig) (package : Package) : PolicyOutcome :=
  if !policy.enabled then .ok
  else
    let declared := ((package.licenseExpression.orElse fun _ => package.licenseUrl).map trim).filter
      (· ≠ "")
    match declared with
    | none =>
      if policy.allowUnlicensed then .ok else violation policy "package declares no license"
    | some license =>
      if policy.blocked.any fun b => matchesLicense b license then
        violation policy s!"license {quoted license} is blocked"
      else if !policy.allowed.isEmpty && !expressionIsAllowed policy.allowed license then
        violation policy s!"license {quoted license} is not allowed"
      else .ok

end YaNuget.Policy
