import Mathlib.Data.List.Basic

namespace Plaza.Build

-- The FNV-1a offset basis, and where a fresh hash starts.
def basis : UInt32 := 2166136261

def prime : UInt32 := 16777619

def fnv1a (bytes : List UInt8) (hash : UInt32) : UInt32 :=
  bytes.foldl (fun hash byte => (hash ^^^ byte.toUInt32) * prime) hash

-- The characters with the property `White_Space`.
def isWhitespace (c : Char) : Bool :=
  let n := c.toNat
  9 ≤ n && n ≤ 13 || n = 0x20 || n = 0x85 || n = 0xA0 || n = 0x1680 || 0x2000 ≤ n && n ≤ 0x200A ||
    n = 0x2028 || n = 0x2029 || n = 0x202F || n = 0x205F || n = 0x3000

def trim (line : List Char) : List Char :=
  line.dropWhile isWhitespace |>.reverse.dropWhile isWhitespace |>.reverse

-- The lines of a text without their ends, of which a carriage return may be a part. A text that ends with a line
-- end has no empty line after it.
def lines (text : List Char) : List (List Char) :=
  let split := text.splitOn '\n'
  let split := if split.getLast? = some [] then split.dropLast else split
  split.map fun line => if line.getLast? = some '\r' then line.dropLast else line

def splitWhitespace (line : List Char) : List (List Char) :=
  line.splitOnP isWhitespace |>.filter (· ≠ [])

-- A line up to its first `//`.
def uncommented : List Char → List Char
  | '/' :: '/' :: _ => []
  | []              => []
  | c :: line       => c :: uncommented line

-- A line with every run of whitespace removed.
def pushNormalised (out line : List Char) : List Char :=
  out ++ (splitWhitespace line).flatten

def declaresType (line : List Char) : Bool :=
  match (splitWhitespace line).dropWhile fun w => w = "pub".toList || "pub(".toList.isPrefixOf w with
  | word :: rest => (word = "struct".toList || word = "enum".toList || word = "union".toList) && rest ≠ []
  | []           => false

structure Extraction where
  kept         : List Char
  pendingAttrs : List Char
  depth        : Nat
  capturing    : Bool
  deriving DecidableEq, Repr

namespace Extraction

def new : Extraction where
  kept         := []
  pendingAttrs := []
  depth        := 0
  capturing    := false

def line (e : Extraction) (rawLine : List Char) : Extraction :=
  let line := trim (uncommented rawLine)
  if line = [] && !e.capturing then
    e
  else if e.capturing then
    let depth := e.depth + line.count '\x7b' - line.count '\x7d'
    -- A tuple or unit struct ends at a semicolon rather than a brace.
    let ends := depth = 0 && (line.getLast? = some '\x7d' || line.getLast? = some ';')
    { e with kept := pushNormalised e.kept line, depth, capturing := !ends }
  else if "#[".toList.isPrefixOf line || "#!".toList.isPrefixOf line then
    { e with pendingAttrs := pushNormalised e.pendingAttrs line }
  else if declaresType line then
    let depth := line.count '\x7b' - line.count '\x7d'
    { kept := pushNormalised (e.kept ++ e.pendingAttrs) line, pendingAttrs := [], depth, capturing := 0 < depth }
  else
    -- Anything else drops the attributes it had gathered.
    { e with pendingAttrs := [] }

end Extraction

-- The type definitions of a source, and nothing else of it.
def typeDefinitions (source : List Char) : List Char :=
  (lines source).foldl Extraction.line .new |>.kept

-- Replaces a comma and a bracket by the bracket, from left to right.
def replaceComma (bracket : Char) : List Char → List Char
  | ',' :: c :: text => if c = bracket then c :: replaceComma bracket text else ',' :: replaceComma bracket (c :: text)
  | c :: text        => c :: replaceComma bracket text
  | []               => []

def stripTrailingCommas (text : List Char) : List Char :=
  replaceComma ')' (replaceComma '\x7d' text)

def utf8 (text : List Char) : List UInt8 :=
  (String.ofList text).toUTF8.toList

-- Carriage returns never count. Zero is reserved for "unknown".
def versionOfSources (sources : List (List Char)) : UInt32 :=
  max 1 <| sources.foldl (fun hash source =>
    fnv1a (utf8 <| stripTrailingCommas <| typeDefinitions <| source.filter (· ≠ '\r')) hash) basis

end Plaza.Build
