/-
**JSON tokens.**

The text of a JSON value is first cut into tokens: punctuation, string literals and words.  Words
are the three names and the numbers.  A string literal ends at the first quote that no backslash
escapes; what it contains is decoded afterwards.

Main definitions:

* `Json.Token` — the tokens;
* `Json.decode?` — the text that a string literal stands for;
* `Json.ofWord?` — the names and the grammar of numbers;
* `Json.tokens?` — the tokens of a text.
-/

import LogicBlock.Json

set_option relaxedAutoImplicit false
set_option autoImplicit false

namespace LogicBlock

namespace Json

/-- A token.  The names, the numbers and the strings are values already. -/
inductive Token where
  | openArray
  | closeArray
  | openObject
  | closeObject
  | comma
  | colon
  | string (text : Option String)
  | scalar (v : Json)

/-! ### String literals -/

/-- What a part of a string literal stands for: a character, or half of a surrogate pair. -/
inductive Piece where
  | char (c : Char)
  | half (code : Nat)

/-- The value of a hexadecimal digit. -/
def hexDigit? (c : Char) : Option Nat :=
  if '0' ≤ c && c ≤ '9' then some (c.toNat - '0'.toNat)
  else if 'a' ≤ c && c ≤ 'f' then some (c.toNat - 'a'.toNat + 10)
  else if 'A' ≤ c && c ≤ 'F' then some (c.toNat - 'A'.toNat + 10)
  else none

/-- The value of four hexadecimal digits. -/
def hexCode? (a b c d : Char) : Option Nat := do
  return (((← hexDigit? a) * 16 + (← hexDigit? b)) * 16 + (← hexDigit? c)) * 16 + (← hexDigit? d)

/-- What a UTF-16 code unit stands for on its own. -/
def Piece.ofCode (code : Nat) : Piece :=
  if 0xD800 ≤ code && code ≤ 0xDFFF then .half code else .char (Char.ofNat code)

/-- The character that a backslash and another character stand for. -/
def escape? : Char → Option Char
  | '"' => some '"'
  | '\\' => some '\\'
  | '/' => some '/'
  | 'b' => some '\x08'
  | 'f' => some '\x0c'
  | 'n' => some '\n'
  | 'r' => some '\r'
  | 't' => some '\t'
  | _ => none

/-- The pieces of a string literal.  Control characters have to be escaped. -/
def pieces? : List Char → Option (List Piece)
  | [] => some []
  | '\\' :: 'u' :: a :: b :: c :: d :: rest => do
    let code ← hexCode? a b c d
    return .ofCode code :: (← pieces? rest)
  | '\\' :: c :: rest => do
    let escaped ← escape? c
    return .char escaped :: (← pieces? rest)
  | c :: rest =>
    if c = '\\' || c < ' ' then none
    else do return .char c :: (← pieces? rest)

/-- Joins a high half and the low half right after it into one character.  There is no text if a
half is left over. -/
def joinHalves : List Piece → Option (List Char)
  | [] => some []
  | .char c :: rest => do return c :: (← joinHalves rest)
  | .half high :: .half low :: rest =>
    if high < 0xDC00 && 0xDC00 ≤ low then do
      let code := 0x10000 + (high - 0xD800) * 0x400 + (low - 0xDC00)
      return Char.ofNat code :: (← joinHalves rest)
    else none
  | .half _ :: _ => none

/-- What a string literal stands for, given the characters between its quotes.  The outer `none`
means that it is no literal, the inner one that it is a literal without text. -/
def decode? (body : List Char) : Option (Option String) := do
  let pieces ← pieces? body
  return (joinHalves pieces).map String.ofList

/-! ### Words -/

/-- Digits that write a whole number: not none, and no zero in front of others. -/
def isWhole (digits : List Char) : Bool :=
  match digits with
  | [] => false
  | c :: rest => digits.all Char.isDigit && (c != '0' || rest.isEmpty)

/-- One digit or more. -/
def isDigits (digits : List Char) : Bool :=
  !digits.isEmpty && digits.all Char.isDigit

/-- What may stand between the whole part and the exponent: nothing, or a point and digits. -/
def isFraction : List Char → Bool
  | [] => true
  | c :: digits => c == '.' && isDigits digits

/-- What may stand at the end of a number: nothing, or the letter e, perhaps a sign, and digits. -/
def isExponent : List Char → Bool
  | [] => true
  | e :: '+' :: digits => (e == 'e' || e == 'E') && isDigits digits
  | e :: '-' :: digits => (e == 'e' || e == 'E') && isDigits digits
  | e :: digits => (e == 'e' || e == 'E') && isDigits digits

/-- The number that digits write. -/
def digitsValue (digits : List Char) : Nat :=
  digits.foldl (fun n c => 10 * n + (c.toNat - '0'.toNat)) 0

/-- The number that a word spells. -/
def ofNumeral? (word : List Char) : Option Json :=
  let unsigned := if word.head? = some '-' then word.tail else word
  let whole := unsigned.takeWhile Char.isDigit
  let afterWhole := unsigned.dropWhile Char.isDigit
  let fraction := afterWhole.takeWhile fun c => c != 'e' && c != 'E'
  let exponent := afterWhole.dropWhile fun c => c != 'e' && c != 'E'
  if isWhole whole && isFraction fraction && isExponent exponent then
    if word.all Char.isDigit then some (.natural (digitsValue word))
    else some (.number (String.ofList word))
  else none

/-- The value that a word names or spells. -/
def ofWord? (word : List Char) : Option Json :=
  if word = ['n', 'u', 'l', 'l'] then some .null
  else if word = ['t', 'r', 'u', 'e'] then some (.bool true)
  else if word = ['f', 'a', 'l', 's', 'e'] then some (.bool false)
  else ofNumeral? word

/-- The characters that words are made of. -/
def isWordChar (c : Char) : Bool :=
  c.isAlphanum || c == '-' || c == '+' || c == '.'

/-- The characters that may stand between tokens. -/
def isSpace (c : Char) : Bool :=
  c == ' ' || c == '\t' || c == '\n' || c == '\r'

/-! ### Cutting a text into tokens -/

/-- Where the cutting stands: between tokens, in a word, or in a string literal, with the characters
taken so far in reverse. -/
inductive Cut where
  | between
  | word (taken : List Char)
  | string (taken : List Char) (escaped : Bool)

/-- The token of a character that stands on its own. -/
def punctuation? : Char → Option Token
  | '[' => some .openArray
  | ']' => some .closeArray
  | '{' => some .openObject
  | '}' => some .closeObject
  | ',' => some .comma
  | ':' => some .colon
  | _ => none

/-- Takes a character that follows a complete token.  The tokens so far are in reverse. -/
def cutBetween (tokens : List Token) (c : Char) : Option (Cut × List Token) :=
  if isSpace c then some (.between, tokens)
  else if c = '"' then some (.string [] false, tokens)
  else if isWordChar c then some (.word [c], tokens)
  else (punctuation? c).map fun t => (.between, t :: tokens)

/-- Takes one character. -/
def cutChar (s : Cut × List Token) (c : Char) : Option (Cut × List Token) :=
  match s with
  | (.between, tokens) => cutBetween tokens c
  | (.word taken, tokens) =>
    if isWordChar c then some (.word (c :: taken), tokens)
    else do cutBetween (.scalar (← ofWord? taken.reverse) :: tokens) c
  | (.string taken true, tokens) => some (.string (c :: taken) false, tokens)
  | (.string taken false, tokens) =>
    if c = '"' then do return (.between, .string (← decode? taken.reverse) :: tokens)
    else some (.string (c :: taken) (c == '\\'), tokens)

/-- The tokens of a text, unless something in it is no token. -/
def tokens? (text : String) : Option (List Token) := do
  match ← text.toList.foldlM cutChar (.between, []) with
  | (.between, tokens) => return tokens.reverse
  | (.word taken, tokens) => return (.scalar (← ofWord? taken.reverse) :: tokens).reverse
  | (.string _ _, _) => none

end Json

end LogicBlock
