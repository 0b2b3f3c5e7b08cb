import ChainGuard.Text

/-!
# Shell words

A command line is split into words by the quoting rules of a POSIX shell. Blanks separate words.
Single quotes keep everything, double quotes keep everything but an escaped quote or escape, and
outside quotes an escape keeps the next character. A pair of quotes makes a word even if it is
empty.
-/

namespace ChainGuard

/-- Why a command line has no words. -/
inductive WordsError where
  | unclosedQuotation
  | danglingEscape
  deriving DecidableEq

namespace WordsError

def message : WordsError → String
  | unclosedQuotation => "No closing quotation"
  | danglingEscape => "No escaped character"

end WordsError

namespace Text.Words

/-- Where the splitter stands. -/
inductive State where
  /-- Between words. -/
  | between
  /-- In a word, outside quotes. -/
  | inWord
  /-- In single quotes. -/
  | single
  /-- In double quotes. -/
  | double
  /-- After an escape outside quotes. -/
  | escaped
  /-- After an escape in double quotes. -/
  | escapedDouble
  deriving DecidableEq

def isSeparator (c : Char) : Bool :=
  c == ' ' || c == '\t' || c == '\r' || c == '\n'

def split : State → (word : Text) → Text → Except WordsError (List Text)
  | .between, _, [] => .ok []
  | .inWord, word, [] => .ok [word]
  | .single, _, [] | .double, _, [] => .error .unclosedQuotation
  | .escaped, _, [] | .escapedDouble, _, [] => .error .danglingEscape
  | .between, _, c :: rest =>
    if isSeparator c then split .between [] rest
    else if c = '\\' then split .escaped [] rest
    else if c = '\'' then split .single [] rest
    else if c = '"' then split .double [] rest
    else split .inWord [c] rest
  | .inWord, word, c :: rest =>
    if isSeparator c then (split .between [] rest).map (word :: ·)
    else if c = '\\' then split .escaped word rest
    else if c = '\'' then split .single word rest
    else if c = '"' then split .double word rest
    else split .inWord (word ++ [c]) rest
  | .single, word, c :: rest =>
    if c = '\'' then split .inWord word rest else split .single (word ++ [c]) rest
  | .double, word, c :: rest =>
    if c = '"' then split .inWord word rest
    else if c = '\\' then split .escapedDouble word rest
    else split .double (word ++ [c]) rest
  | .escaped, word, c :: rest => split .inWord (word ++ [c]) rest
  | .escapedDouble, word, c :: rest =>
    split .double (if c = '"' || c = '\\' then word ++ [c] else word ++ ['\\', c]) rest

end Text.Words

namespace Text

def words (t : Text) : Except WordsError (List Text) :=
  Words.split .between [] t

end Text

end ChainGuard
