import P4LS.Library.Json

/-!
# Protocol data

The values that travel in the messages, with the `set` functions and
constructors that read them from JSON and the `get_json` functions that write
them.  A `set` that reports success gives a value; one that reports `false`
fails.
-/

namespace P4LS

open Bytes

/-! ## Enumerations -/

/-- The codes that the server answers with. -/
inductive ErrorCode where
  | methodNotFound
  deriving DecidableEq

def ErrorCode.toInt : ErrorCode → Int
  | .methodNotFound => -32601

inductive CompletionItemKind where
  | text | method | function | constructor | field | variable_ | class_ | interface | module_
  | property | unit | value | enum | keyword | snippet | color | file | reference | folder
  | enumMember | constant | struct | event | operator | typeParameter
  deriving DecidableEq

inductive SymbolKind where
  | file | module_ | namespace_ | package | class_ | method | property | field | constructor
  | enum | interface | function | variable_ | constant | string | number | boolean | array
  | object | key | null | enumMember | struct | event | operator | typeParameter
  deriving DecidableEq

/-- The enumerators are numbered from one in the order they are declared. -/
def CompletionItemKind.toInt (kind : CompletionItemKind) : Int := kind.ctorIdx + 1

def SymbolKind.toInt (kind : SymbolKind) : Int := kind.ctorIdx + 1

inductive DocumentHighlightKind where
  | text | read | write
  deriving DecidableEq

def DocumentHighlightKind.toInt (kind : DocumentHighlightKind) : Int := kind.ctorIdx + 1

inductive MarkupKind where
  | plaintext | markdown
  deriving DecidableEq

inductive TraceLevel where
  | off | messages | verbose
  deriving DecidableEq

inductive TextDocumentSyncKind where
  | none_ | full | incremental
  deriving DecidableEq

def TextDocumentSyncKind.toInt (kind : TextDocumentSyncKind) : Int := kind.ctorIdx

/-- A number that names no kind is logged and read as `Text`. -/
def convertIntToCompletionItemKind : Int → CompletionItemKind
  | 1 => .text
  | 2 => .method
  | 3 => .function
  | 4 => .constructor
  | 5 => .field
  | 6 => .variable_
  | 7 => .class_
  | 8 => .interface
  | 9 => .module_
  | 10 => .property
  | 11 => .unit
  | 12 => .value
  | 13 => .enum
  | 14 => .keyword
  | 15 => .snippet
  | 16 => .color
  | 17 => .file
  | 18 => .reference
  | 19 => .folder
  | 20 => .enumMember
  | 21 => .constant
  | 22 => .struct
  | 23 => .event
  | 24 => .operator
  | 25 => .typeParameter
  | _ => .text

/-- A number that names no kind is logged and read as `File`. -/
def convertIntToSymbolKind : Int → SymbolKind
  | 1 => .file
  | 2 => .module_
  | 3 => .namespace_
  | 4 => .package
  | 5 => .class_
  | 6 => .method
  | 7 => .property
  | 8 => .field
  | 9 => .constructor
  | 10 => .enum
  | 11 => .interface
  | 12 => .function
  | 13 => .variable_
  | 14 => .constant
  | 15 => .string
  | 16 => .number
  | 17 => .boolean
  | 18 => .array
  | 19 => .object
  | 20 => .key
  | 21 => .null
  | 22 => .enumMember
  | 23 => .struct
  | 24 => .event
  | 25 => .operator
  | 26 => .typeParameter
  | _ => .file

/-- A string that names no kind is logged and read as `plaintext`. -/
def convertStringToMarkupKind (v : Bytes) : MarkupKind :=
  if v = str "plaintext" then .plaintext
  else if v = str "markdown" then .markdown
  else .plaintext

def convertMarkupKindToString : MarkupKind → Bytes
  | .plaintext => str "plaintext"
  | .markdown => str "markdown"

/-! ## Positions and ranges -/

/-- Line and character are zero-based and `unsigned int`. -/
structure Position where
  line : UInt32
  character : UInt32
  deriving DecidableEq

/-- The constructor from JSON.  A negative number wraps around. -/
def Position.ofJson (json : Json) : Except Json.Fault Position := do
  let line ← json.requiredMember (str "line") Json.getInt
  let character ← json.requiredMember (str "character") Json.getInt
  return { line := UInt32.ofInt line, character := UInt32.ofInt character }

/-- The members are read as the constructor reads them. -/
def Position.set (json : Json) : Json.Decoder Position :=
  json.whenMembers [str "line", str "character"] (.read (Position.ofJson json))

def Position.getJson (p : Position) : Json :=
  .object [(str "line", .int p.line.toNat), (str "character", .int p.character.toNat)]

/-- The fields are `_start` and `_end`. -/
structure Range where
  start : Position
  stop : Position
  deriving DecidableEq

def Range.ofJson (json : Json) : Except Json.Fault Range := do
  let start ← json.requiredMember (str "start") Position.ofJson
  let stop ← json.requiredMember (str "end") Position.ofJson
  return { start := start, stop := stop }

def Range.getJson (r : Range) : Json :=
  .object [(str "start", r.start.getJson), (str "end", r.stop.getJson)]

/-- `operator<`. -/
def Range.lt (lhs rhs : Range) : Bool :=
  lhs.start.line < rhs.start.line ||
    (lhs.start.line == rhs.start.line && lhs.start.character < rhs.start.character)

/-- `operator&`. -/
def Range.and (lhs rhs : Range) : Bool :=
  lhs.start.line == rhs.start.line
    && lhs.start.character ≤ rhs.start.character
    && lhs.stop.line ≥ rhs.stop.line
    && lhs.stop.character ≥ rhs.start.character

/-! ## Documents -/

structure URI where
  path : Bytes
  deriving DecidableEq

def URI.setFromPath (path : Bytes) : URI := { path := path }

def URI.setFromUri (uri : Bytes) : URI :=
  match find (str "://") uri with
  | none => { path := uri }
  | some pos => { path := uri.drop (pos + 3) }

structure Location where
  uri : Bytes
  range : Range
  deriving DecidableEq

/-- `operator==`. -/
def Location.eq (lhs rhs : Location) : Bool :=
  lhs.uri == rhs.uri
    && lhs.range.start.line == rhs.range.start.line
    && lhs.range.start.character == rhs.range.start.character
    && lhs.range.stop.line == rhs.range.stop.line
    && lhs.range.stop.character == rhs.range.stop.character

/-- `operator<`. -/
def Location.lt (lhs rhs : Location) : Bool :=
  lhs.uri < rhs.uri ||
    (lhs.uri == rhs.uri &&
      (lhs.range.start.line < rhs.range.start.line ||
        (lhs.range.start.line == rhs.range.start.line &&
          lhs.range.start.character < rhs.range.start.character)))

def Location.getJson (location : Location) : Json :=
  .object [(str "uri", .string (cstr location.uri)), (str "range", location.range.getJson)]

structure SymbolInformation where
  name : Bytes
  kind : SymbolKind
  deprecated : Bool
  location : Location
  containerName : Option Bytes

def SymbolInformation.getJson (s : SymbolInformation) : Json :=
  .object ([(str "name", .string (cstr s.name)), (str "kind", .int s.kind.toInt),
    (str "deprecated", .bool s.deprecated), (str "location", s.location.getJson)]
    ++ (s.containerName.map fun name => (str "containerName", .string (cstr name))).toList)

structure TextDocumentHighlight where
  range : Range
  kind : DocumentHighlightKind

def TextDocumentHighlight.getJson (h : TextDocumentHighlight) : Json :=
  .object [(str "range", h.range.getJson), (str "kind", .int h.kind.toInt)]

structure MarkupContent where
  kind : MarkupKind
  value : Bytes

def MarkupContent.getJson (c : MarkupContent) : Json :=
  .object [(str "kind", .string (convertMarkupKindToString c.kind)),
    (str "value", .string (cstr c.value))]

structure TextDocumentItem where
  uri : URI
  languageId : Bytes
  version : Int
  text : Bytes

def TextDocumentItem.set (json : Json) : Json.Decoder TextDocumentItem :=
  json.whenMembers [str "uri", str "languageId", str "version", str "text"] <| .read do
    let uri ← json.requiredMember (str "uri") Json.getString
    let languageId ← json.requiredMember (str "languageId") Json.getString
    let version ← json.requiredMember (str "version") Json.getInt
    let text ← json.requiredMember (str "text") Json.getString
    return { uri := URI.setFromUri uri, languageId := languageId, version := version,
             text := text }

structure TextDocumentIdentifier where
  uri : URI

def TextDocumentIdentifier.set (json : Json) : Json.Decoder TextDocumentIdentifier := do
  let it ← json.memberOf (str "uri")
  let uri ← .read it.getString
  return { uri := URI.setFromUri uri }

structure VersionedTextDocumentIdentifier extends TextDocumentIdentifier where
  version : Option Int

def VersionedTextDocumentIdentifier.set (json : Json) :
    Json.Decoder VersionedTextDocumentIdentifier := do
  let identifier ← TextDocumentIdentifier.set json
  let version ← json.optionalMember (str "version") Json.getInt
  return { identifier with version := version }

structure TextDocumentContentChangeEvent where
  range : Option Range
  rangeLength : Option UInt32
  text : Bytes
  deriving DecidableEq

def TextDocumentContentChangeEvent.set (json : Json) :
    Json.Decoder TextDocumentContentChangeEvent := do
  let it ← json.memberOf (str "text")
  let text ← .read it.getString
  let range ← json.optionalMember (str "range") Range.ofJson
  let rangeLength ← json.optionalMember (str "rangeLength") fun it =>
    UInt32.ofInt <$> it.getInt
  return { range := range, rangeLength := rangeLength, text := text }

end P4LS
