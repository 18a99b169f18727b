import P4LS.Library.Bytes
import P4LS.Slex.InitLexer

/-!
# The token stream of the preprocessor

`slex_functor` gives the preprocessor one token after another.  A line continuation is skipped
unless the language keeps it, and the values of some tokens are checked or converted.  Where no
expression is matched the functor gives the token of the end of the file, and after it the token
of the end of the input, again and again.

The expressions of the preprocessor have no callbacks, so what a call leaves is a suffix of the
text, and the position moves over the characters before it.
-/

namespace P4LS.Slex

open Bytes

/-- The token ids that the functor treats in a way of their own. -/
structure TokenIds where
  eof : ℤ
  eoi : ℤ
  contline : ℤ
  identifier : ℤ
  charlit : ℤ
  stringlit : ℤ
  rawstringlit : ℤ
  longintlit : ℤ
  ppHheader : ℤ
  ppQheader : ℤ
  ppInclude : ℤ
  trigraphs : List ℤ
  withAltTokenType : ℤ → ℤ
  eof_ne_contline : eof ≠ contline

/-- What the functor uses of the preprocessor's library.  The position moves over the first
character of a text, and the iterator may look at what comes behind it.  A validation that fails
throws. -/
structure Wave (Position : Type) where
  advance : Position → Text → Position
  validateIdentifierName : Text → Position → Bool
  validateLiteral : Text → Position → Bool
  convertTrigraphs : Text → Text
  convertTrigraph : Text → Text

/-- The position behind some characters of a text. -/
def Wave.moved {Position : Type} (wave : Wave Position) : ℕ → Position → Text → Position
  | 0, pos, _ => pos
  | n + 1, pos, text => wave.moved n (wave.advance pos text) text.tail

/-- A `p4lex_token`; the position is `none` in one that is default-constructed. -/
structure P4lexToken (Position : Type) where
  id : ℤ
  value : Text
  position : Option Position

inductive LexingError where
  | lexer (failure : Failure)
  | invalidIdentifier
  | invalidLiteral
  | invalidLongLongLiteral
  | outOfRange

structure SlexFunctor (Position : Type) where
  first : Text
  position : Position
  atEof : Bool

section

variable {Position : Type} (wave : Wave Position) (ids : TokenIds) (language : LanguageSupport)

/-- The cases on the token id: the id and the value of the token. -/
def checkToken (id : ℤ) (value tokenVal : Text) (pos : Position) : Except LexingError (ℤ × Text) :=
  if id = ids.eof then
    .ok (id, [])
  else if id = ids.identifier then
    if !language.noCharacterValidation && !wave.validateIdentifierName tokenVal pos then
      .error .invalidIdentifier
    else
      .ok (id, tokenVal)
  else if id = ids.charlit ∨ id = ids.stringlit ∨ id = ids.rawstringlit then
    let tokenVal := if language.convertTrigraphs then wave.convertTrigraphs tokenVal else tokenVal
    if !language.noCharacterValidation && !wave.validateLiteral tokenVal pos then
      .error .invalidLiteral
    else
      .ok (id, tokenVal)
  else if id = ids.longintlit then
    if language.longLong then .ok (id, tokenVal) else .error .invalidLongLongLiteral
  else if id = ids.ppHheader ∨ id = ids.ppQheader ∨ id = ids.ppInclude then
    match find (str "include") value with
    | none => .error .outOfRange
    | some start =>
      if (value.drop start).take 12 = str "include_next" then
        .ok (ids.withAltTokenType id, tokenVal)
      else
        .ok (id, tokenVal)
  else if id ∈ ids.trigraphs then
    .ok (id, if language.convertTrigraphs then wave.convertTrigraph tokenVal else tokenVal)
  else
    .ok (id, tokenVal)

/-- The token of a value that was matched at a position. -/
def tokenAt (id : ℤ) (value : Text) (pos : Position) :
    Except LexingError (P4lexToken Position) :=
  match checkToken wave ids language id value (cstr value) pos with
  | .error error => .error error
  | .ok (id, tokenVal) => .ok ⟨id, tokenVal, some pos⟩

/-- `get`.  The fuel bounds the line continuations skipped. -/
def SlexFunctor.get (grammar : Text → Option Node) :
    ℕ → SlexFunctor Position → Lexer →
      Except LexingError (P4lexToken Position) × SlexFunctor Position × Lexer
  | fuel, functor, lexer =>
    if functor.atEof then
      (.ok ⟨ids.eoi, [], none⟩, functor, lexer)
    else
      match lexer.nextToken grammar fuel functor.first [] with
      | (.error failure, lexer) => (.error (.lexer failure), functor, lexer)
      | (.ok (id, rest, value), lexer) =>
        let pos := functor.position
        let passed := functor.first.length - rest.length
        let id := if id = -1 then ids.eof else id
        let functor := { functor with
          first := rest, position := wave.moved passed pos functor.first }
        if language.emitContnewlines || id != ids.contline then
          (tokenAt wave ids language id value pos, { functor with atEof := id == ids.eof }, lexer)
        else
          match fuel with
          | 0 => (.error (.lexer .fuel), functor, lexer)
          | fuel + 1 => SlexFunctor.get grammar fuel functor lexer

/-- The results of some calls, one after another. -/
def SlexFunctor.gets (grammar : Text → Option Node) (fuel : ℕ) :
    ℕ → SlexFunctor Position → Lexer →
      List (Except LexingError (P4lexToken Position)) × SlexFunctor Position × Lexer
  | 0, functor, lexer => ([], functor, lexer)
  | n + 1, functor, lexer =>
    let (result, functor, lexer) := functor.get wave ids language grammar fuel lexer
    let (results, functor, lexer) := SlexFunctor.gets grammar fuel n functor lexer
    (result :: results, functor, lexer)

end

end P4LS.Slex
