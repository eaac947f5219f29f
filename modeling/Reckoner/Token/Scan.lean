import Reckoner.Token.Basic
import Reckoner.Diagnostic.Basic

/-!
# From text to tokens

A text is split into lexemes, each as long as it can be, with blanks (spaces and tabs) between them:

* a numeral, which is digits and, if a point follows them, the point and the digits after it;
* a word, which is a letter and the letters, digits and underscores after it;
* any other character by itself.

`munch` splits off the first lexeme and `Token.Kind.ofLexeme` says what it is, or why it is nothing. `Token.scan` does
this along the text. Letters and digits are those of ASCII. A line feed is not a blank.
-/

namespace Reckoner

def isBlank (c : Char) : Bool :=
  c = ' ' || c = '\t'

/-- A character that continues a word. -/
def isWordChar (c : Char) : Bool :=
  c.isAlphanum || c = '_'

/-- The longest lexeme that begins with `c` in the text `c :: cs`, and what is left behind it. -/
def munch (c : Char) (cs : List Char) : List Char × List Char :=
  if c.isDigit then
    match cs.dropWhile Char.isDigit with
    | '.' :: rest =>
      (c :: (cs.takeWhile Char.isDigit ++ '.' :: rest.takeWhile Char.isDigit), rest.dropWhile Char.isDigit)
    | rest => (c :: cs.takeWhile Char.isDigit, rest)
  else if c.isAlpha then
    (c :: cs.takeWhile isWordChar, cs.dropWhile isWordChar)
  else
    ([c], cs)

theorem append_munch (c : Char) (cs : List Char) : (munch c cs).1 ++ (munch c cs).2 = c :: cs := by
  unfold munch
  split
  · have h := List.takeWhile_append_dropWhile (p := Char.isDigit) (l := cs)
    split
    · next rest hrest =>
      rw [hrest] at h
      simpa [List.takeWhile_append_dropWhile] using h
    · next rest _ => simp
  · split <;> simp [List.takeWhile_append_dropWhile]

/-- A lexeme has at least one character. -/
theorem length_munch_le (c : Char) (cs : List Char) : (munch c cs).2.length ≤ cs.length := by
  have h := congrArg List.length (append_munch c cs)
  have hpos : 0 < (munch c cs).1.length := by
    unfold munch
    split
    · split <;> simp
    · split <;> simp
  simp only [List.length_append, List.length_cons] at h
  omega

namespace Token

namespace Kind

/-- What a character stands for that is a lexeme by itself. -/
def ofSymbol? : Char → Option Kind
  | '+' => some plus
  | '-' => some minus
  | '*' => some star
  | '/' => some slash
  | '^' => some caret
  | '(' => some leftParen
  | ')' => some rightParen
  | '=' => some equal
  | _ => none

/-- What a numeral stands for: an integer, or with a point the double nearest to it. Of a double too large for the
format that is an infinity, but an integer has to fit. -/
def ofNumeral (lexeme : List Char) : Except Problem Kind :=
  let whole := lexeme.takeWhile Char.isDigit
  match lexeme.dropWhile Char.isDigit with
  | '.' :: fraction =>
    .ok (number (.float (Float.ofScientific (Nat.ofDigitChars 10 (whole ++ fraction) 0) true fraction.length)))
  | _ =>
    let n := Nat.ofDigitChars 10 whole 0
    if n ≤ Int64.maxValue.toInt then .ok (number (.int (Int64.ofNat n)))
    else .error (.invalidSyntax (.numberOutOfRange (String.ofList lexeme)))

/-- What a word stands for. -/
def ofWord (word : String) : Kind :=
  match Keyword.ofWord? word with
  | some k => keyword k
  | none => identifier word

/-- What a lexeme stands for, whose first character is `c`. -/
def ofLexeme (c : Char) (lexeme : List Char) : Except Problem Kind :=
  if c.isDigit then ofNumeral lexeme
  else if c.isAlpha then .ok (ofWord (String.ofList lexeme))
  else match ofSymbol? c with
    | some kind => .ok kind
    | none => .error (.illegalCharacter c)

end Kind

/-- The tokens of the text that stands at `p`, up to the token of its end. -/
def scanAt (p : Position) : List Char → Outcome (List Token)
  | [] => .ok [⟨.eof, .atEnd p⟩]
  | c :: cs =>
    if isBlank c then
      scanAt (p.advance c) cs
    else
      let lexeme := (munch c cs).1
      let rest := (munch c cs).2
      let stop := p.advanceAll lexeme
      match Kind.ofLexeme c lexeme with
      | .error problem => .error ⟨problem, ⟨p, stop⟩, none⟩
      | .ok kind => (scanAt stop rest).map (⟨kind, ⟨p, stop⟩⟩ :: ·)
termination_by cs => cs.length
decreasing_by
  · exact Nat.lt_succ_self _
  · exact Nat.lt_succ_of_le (length_munch_le c cs)

/-- The tokens of a source. The last one, and no other, is the end. -/
def scan (source : Source) : Outcome (List Token) :=
  scanAt source.start source.text.toList

end Token

end Reckoner
