import P4LS.Slex.Actions

/-!
# The grammar of the regular expressions

The rules of `lexer_grammar` with their actions on the stack of nodes.  Every rule that calls itself
takes fuel, which the length of the text bounds.

The combinators of Boost.Spirit are taken to do what is documented of them: `>>` is `andThen`, `|`
is `orElse`, `*` is `many`, `!` is `optional`, and a semantic action runs as soon as its rule has
matched.  `chset<>` and `anychar_p` read one character.
-/

namespace P4LS.Slex

open Bytes Rule

abbrev LexerRule := Rule UInt8 NodeStack Failure

def chP (c : Char) : LexerRule := one (· == ch c)

/-- `anychar_p - chset<>(excluded)` -/
def anycharExcept (excluded : List Char) : LexerRule := one fun c => !(excluded.map ch).contains c

/-- The characters that stand for themselves in no expression. -/
def operators : List Char := ['/', '|', '*', '+', '?', '.', '(', ')', '{', '}', '\\']

namespace Spirit

variable (spirit : Spirit)

/-- `uint_p` -/
def uintP : LexerRule := ofReader fun x => (spirit.uintParser x).map Prod.snd

def escseq : LexerRule :=
  andThen (chP '\\')
    (orElse (ofReader spirit.octParser)
      (orElse (andThen (one fun c => c == ch 'x' || c == ch 'X') (ofReader spirit.hexParser))
        (anycharExcept ['\n'])))

def stringChar : LexerRule := orElse (anycharExcept ['"', '\\']) spirit.escseq

def string (n : ℕ) : LexerRule := andThen spirit.stringChar (many .fuel spirit.stringChar n)

/-- `symbols<>` reads the name that is at the front of the text. -/
def cclExpr : LexerRule := ofReader fun x =>
  (CclExpr.find x).map fun name => x.drop name.text.length

def cclChar : LexerRule := orElse (anycharExcept ['\\', '\n', ']']) spirit.escseq

def cclItem : LexerRule :=
  orElse cclExpr (andThen spirit.cclChar (optional (andThen (chP '-') spirit.cclChar)))

def ccl (n : ℕ) : LexerRule := many .fuel spirit.cclItem n

/-- The brackets with what is between them. -/
def bracketed (n : ℕ) : LexerRule :=
  andThen (chP '[') (andThen (optional (chP '^')) (andThen (spirit.ccl n) (chP ']')))

def fullccl (n : ℕ) : LexerRule := action (makeCcl spirit) (spirit.bracketed n)

/-- The number of repetitions, exact, from a number on or between two. -/
def repeat1 : LexerRule := andThen (chP '{') (andThen spirit.uintP (chP '}'))

def repeat2 : LexerRule :=
  andThen (chP '{') (andThen spirit.uintP (andThen (chP ',') (chP '}')))

def repeat3 : LexerRule :=
  andThen (chP '{') (andThen spirit.uintP
    (andThen (chP ',') (andThen spirit.uintP (chP '}'))))

def singleton2 : ℕ → LexerRule
  | 0 => fun _ _ => .error .fuel
  | n + 1 =>
    orElse (andThen (action makeStar (chP '*')) (singleton2 n))
      (orElse (andThen (action makePlus (chP '+')) (singleton2 n))
        (orElse (andThen (action makeOptional (chP '?')) (singleton2 n))
          (orElse (andThen (action (makeRep1 spirit) spirit.repeat1) (singleton2 n))
            (orElse (andThen (action (makeRep2 spirit) spirit.repeat2) (singleton2 n))
              (orElse (andThen (action (makeRep3 spirit) spirit.repeat3) (singleton2 n))
                nothing)))))

/-- The quotes with what is between them. -/
def quoted (n : ℕ) : LexerRule := andThen (chP '"') (andThen (spirit.string n) (chP '"'))

def plainChar : LexerRule := orElse (anycharExcept operators) spirit.escseq

def singleton (re : LexerRule) (n : ℕ) : LexerRule :=
  orElse (andThen (action makeAnyChar (chP '.')) (spirit.singleton2 n))
    (orElse (andThen (spirit.fullccl n) (spirit.singleton2 n))
      (orElse (andThen (action (makeString spirit) (spirit.quoted n)) (spirit.singleton2 n))
        (orElse
          (andThen (chP '(') (andThen re (andThen (chP ')') (spirit.singleton2 n))))
          (andThen (action (makeChar spirit) spirit.plainChar) (spirit.singleton2 n)))))

def series (re : LexerRule) (n : ℕ) : LexerRule :=
  andThen (spirit.singleton re n) (many .fuel (action makeConcat (spirit.singleton re n)) n)

def re : ℕ → LexerRule
  | 0 => fun _ _ => .error .fuel
  | n + 1 =>
    andThen (spirit.series (re n) n)
      (many .fuel (action makeOr (andThen (chP '|') (spirit.series (re n) n))) n)

def regex (n : ℕ) : LexerRule :=
  andThen (spirit.re n)
    (andThen (optional (andThen (chP '/') (spirit.re n))) (optional (chP '$')))

/-- What `parse` does with the grammar: the tree on the stack, if the whole text is matched. -/
def lexerGrammar (str : Text) : Except Failure (Option Node) :=
  match spirit.regex (str.length + 1) str [] with
  | .error failure => .error failure
  | .ok (some [], [tree]) => .ok (some tree)
  | .ok (some [], _) => .error .assertion
  | .ok _ => .ok none

/-- The grammar as the construction uses it. -/
def grammar (str : Text) : Option Node := (spirit.lexerGrammar str).toOption.join

end Spirit

end P4LS.Slex
