import P4LS.Library.Bytes
import P4LS.Library.Scanner
import P4LS.Slex.Dfa

/-!
# The parsers of Spirit

The grammar of the regular expressions is written with the parsers of a library.  Its combinators
are the rules that act while they read; its numbers, its escapes and the classes of its characters
are parameters here, with what is documented of them.
-/

namespace P4LS.Slex

open Bytes

/-- The names of the classes of characters in `ccl_expr`. -/
inductive CclExpr where
  | alnum | alpha | blank | cntrl | digit | graph | lower | print | punct | space | upper | xdigit
  deriving DecidableEq

namespace CclExpr

def text : CclExpr → Text
  | alnum => str "[:alnum:]"
  | alpha => str "[:alpha:]"
  | blank => str "[:blank:]"
  | cntrl => str "[:cntrl:]"
  | digit => str "[:digit:]"
  | graph => str "[:graph:]"
  | lower => str "[:lower:]"
  | print => str "[:print:]"
  | punct => str "[:punct:]"
  | space => str "[:space:]"
  | upper => str "[:upper:]"
  | xdigit => str "[:xdigit:]"

/-- The names in the order in which they are compared. -/
def all : List CclExpr :=
  [alnum, alpha, blank, cntrl, digit, graph, lower, print, punct, space, upper, xdigit]

/-- The class whose name is at the front of the text. -/
def find (x : Text) : Option CclExpr := all.find? fun name => name.text.isPrefixOf x

end CclExpr

/-- The readers of the library: an octal and a hexadecimal number of a character, an unsigned
number, a character or an escape, and the tests of the classes. -/
structure Spirit where
  octParser : Text → Option Text
  hexParser : Text → Option Text
  uintParser : Text → Option (ℕ × Text)
  lexEscapeCh : Text → Option (UInt8 × Text)
  test : CclExpr → UInt8 → Bool

def isOctal (c : UInt8) : Bool := ch '0' ≤ c && c ≤ ch '7'

/-- The escapes that are neither numbers nor the letters themselves. -/
def lexEscape (c : UInt8) : UInt8 :=
  if c = ch 'b' then 8
  else if c = ch 't' then 9
  else if c = ch 'n' then 10
  else if c = ch 'f' then 12
  else if c = ch 'r' then 13
  else c

/-- An escape of one letter. -/
def IsEscape (c : UInt8) : Prop :=
  isOctal c = false ∧ c ≠ ch 'x' ∧ c ≠ ch 'X' ∧ c ≠ ch '\n'

/-- What is documented of the library. -/
structure Spirit.Documented (spirit : Spirit) : Prop where
  octParser_reads : ∀ x rest, spirit.octParser x = some rest → rest <:+ x
  hexParser_reads : ∀ x rest, spirit.hexParser x = some rest → rest <:+ x
  octParser_none : ∀ c x, isOctal c = false → spirit.octParser (c :: x) = none
  uintParser_eq : ∀ x, spirit.uintParser x =
    if x.takeWhile isdigit = [] ∨ 2 ^ 32 ≤ digitsValue 10 (x.takeWhile isdigit) 0 then none
    else some (digitsValue 10 (x.takeWhile isdigit) 0, x.dropWhile isdigit)
  lexEscapeCh_plain : ∀ c x, c ≠ ch '\\' → spirit.lexEscapeCh (c :: x) = some (c, x)
  lexEscapeCh_escape : ∀ c x, IsEscape c →
    spirit.lexEscapeCh (ch '\\' :: c :: x) = some (lexEscape c, x)

/-- Readers of one octal digit, of no hexadecimal number and of the escapes of one letter. -/
def plainSpirit : Spirit where
  octParser
    | c :: x => if isOctal c then some x else none
    | [] => none
  hexParser _ := none
  uintParser x :=
    if x.takeWhile isdigit = [] ∨ 2 ^ 32 ≤ digitsValue 10 (x.takeWhile isdigit) 0 then none
    else some (digitsValue 10 (x.takeWhile isdigit) 0, x.dropWhile isdigit)
  lexEscapeCh
    | c :: d :: x => if c = ch '\\' then some (lexEscape d, x) else some (c, d :: x)
    | [c] => some (c, [])
    | [] => none
  test _ c := isdigit c

theorem plainSpirit_documented : plainSpirit.Documented where
  octParser_reads x rest hread := by
    match x with
    | [] => cases hread
    | c :: x =>
      obtain ⟨_, hrest⟩ := Option.ite_none_right_eq_some.mp hread
      exact Option.some.inj hrest ▸ List.suffix_cons c x
  hexParser_reads x rest hread := by cases hread
  octParser_none c x hc := if_neg (by rw [hc]; exact Bool.false_ne_true)
  uintParser_eq _ := rfl
  lexEscapeCh_plain c x hc := by
    match x with
    | [] => rfl
    | d :: x => exact if_neg hc
  lexEscapeCh_escape _ _ _ := rfl

end P4LS.Slex
