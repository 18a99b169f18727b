import P4LS.Library.Backtracking
import P4LS.Protocol.Types

/-!
# Snippets of the Eclipse client

The completion of snippets.  A Java string is the list of its UTF-16 code units, and an `int` an
integer: offsets and lengths are bounded by the length of a document.  What the platform says of
a document is a field of `IDocument`, with `none` for a `BadLocationException`.
-/

namespace P4LS.Client

open Backtracking

abbrev JString := List UInt16

/-- The code unit of an ASCII character. -/
def unit (c : Char) : UInt16 := UInt16.ofNat c.toNat

/-- The code units of an ASCII literal. -/
def literal (s : String) : JString := s.toList.map unit

inductive JavaException where
  | stringIndexOutOfBounds
  | illegalState
  | noSuchElement
  deriving DecidableEq

def substring (s : JString) (beginIndex endIndex : Int) : Except JavaException JString :=
  if 0 ≤ beginIndex ∧ beginIndex ≤ endIndex ∧ endIndex ≤ s.length then
    .ok ((s.take endIndex.toNat).drop beginIndex.toNat)
  else
    .error .stringIndexOutOfBounds

/-- `lastIndexOf`: -1 where the string has no such character. -/
def lastIndexOf (s : JString) (c : UInt16) : Int :=
  match s.reverse.findIdx? (· == c) with
  | some i => s.length - 1 - i
  | none => -1

/-! ## The documents and the proposals of the platform -/

structure IDocument where
  get : JString
  getLineOfOffset : Int → Option Int
  getLineOffset : Int → Option Int

structure LSPDocumentInfo where
  document : IDocument

structure Position where
  line : Int
  character : Int
  deriving DecidableEq

structure Range where
  start : Position
  stop : Position
  deriving DecidableEq

structure TextEdit where
  range : Range
  newText : JString
  deriving DecidableEq

inductive InsertTextFormat where
  | plainText
  | snippet
  deriving DecidableEq

structure CompletionItem where
  label : JString
  kind : CompletionItemKind
  insertTextFormat : InsertTextFormat
  textEdit : TextEdit
  deriving DecidableEq

structure LSCompletionProposal where
  document : IDocument
  offset : Int
  item : CompletionItem

/-! ## `Snippet` -/

structure Snippet where
  display : JString
  kind : CompletionItemKind
  replacementLines : List JString
  deriving DecidableEq

namespace Snippet

def matchesPrefix (snippet : Snippet) (typed : JString) : Bool :=
  typed.isPrefixOf snippet.display

/-- One round of the loop over the lines. -/
def appendLine (lineIndentation responseBuilder line : JString) : JString :=
  if responseBuilder.length = 0 then responseBuilder ++ line
  else responseBuilder ++ [unit '\n'] ++ lineIndentation ++ line

def createReplacement (snippet : Snippet) (lineIndentation : JString) : JString :=
  match snippet.replacementLines with
  | [line] => line
  | lines => if lines.length > 1 then lines.foldl (appendLine lineIndentation) [] else []

/-- `null` where the document does not have the offset. -/
def convertToCompletionProposal (snippet : Snippet) (offset : Int) (info : LSPDocumentInfo)
    (typed lineIndentation : JString) : Option LSCompletionProposal := do
  let line ← info.document.getLineOfOffset offset
  let lineOffset := offset - (← info.document.getLineOffset line)
  let r : Range := ⟨⟨line, lineOffset - typed.length⟩, ⟨line, lineOffset⟩⟩
  return {
    document := info.document
    offset := offset
    item := {
      label := snippet.display
      kind := snippet.kind
      insertTextFormat := .snippet
      textEdit := ⟨r, snippet.createReplacement lineIndentation⟩ } }

end Snippet

/-! ## `SnippetContentAssistProcessor` -/

/-- `\s` -/
def isWhitespace (c : UInt16) : Bool :=
  [unit ' ', unit '\t', unit '\n', 0x0B, 0x0C, unit '\r'].contains c

/-- `\w` -/
def isWord (c : UInt16) : Bool :=
  (unit 'a' ≤ c && c ≤ unit 'z') || (unit 'A' ≤ c && c ≤ unit 'Z')
    || (unit '0' ≤ c && c ≤ unit '9') || c == unit '_'

/-- `.` -/
def isDot (c : UInt16) : Bool :=
  ! [unit '\n', unit '\r', 0x85, 0x2028, 0x2029].contains c

/-- `(?<indent>\s*).*?(?<prefix>\w*)` -/
def endsWithWord : List (Repetition UInt16) := [.greedy isWhitespace, .lazy isDot, .greedy isWord]

/-- The snippets are those the class has registered, and `getLSPDocumentInfosFor` is the call of
the language service accessor. -/
def computeCompletionProposals (snippets : List Snippet)
    (getLSPDocumentInfosFor : IDocument → List LSPDocumentInfo) (document : IDocument)
    (offset : Int) : Except JavaException (List (Option LSCompletionProposal)) := do
  let textToOffset ← substring document.get 0 offset
  let line ← substring textToOffset (lastIndexOf textToOffset (unit '\n') + 1) textToOffset.length
  match fullMatch endsWithWord line with
  | some [indent, _, typed] =>
    (snippets.filter (·.matchesPrefix typed)).mapM fun snippet =>
      match getLSPDocumentInfosFor document with
      | [] => .error .noSuchElement
      | info :: _ => .ok (snippet.convertToCompletionProposal offset info typed indent)
  | _ => .error .illegalState

end P4LS.Client
