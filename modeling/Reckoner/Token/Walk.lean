import Reckoner.Source.Slice
import Reckoner.Token.Scan
import Reckoner.Walk

/-!
# Scanning with a position

The scanner as a program that walks over one text. It has a position and no other state: the character that comes next
is looked up at the byte that the position counts, and the text of a lexeme is cut out between two positions. Nothing in
this form says that a position falls between two characters. A lexeme that cannot be cut out is a fault.
-/

namespace Reckoner

/-- The character behind the position, if the position falls in front of one. -/
def Position.peek? (p : Position) : Option Char :=
  (splitBytes p.index p.source.text.toList).bind fun (_, rest) => rest.head?

namespace Token

/-- Steps over the next character, if there is one. -/
def advance : Walk Position Unit := do
  let p ← Walk.now
  match p.peek? with
  | some c => Walk.goTo (p.advance c)
  | none => return ()

/-- Steps over the next character, if `goesOn` has a next state for it. -/
def lexemeRound {β : Type} (goesOn : β → Char → Option β) (b : β) : Walk Position (β ⊕ Unit) := do
  let p ← Walk.now
  match p.peek?.bind (goesOn b) with
  | some b =>
    advance
    return .inl b
  | none => return .inr ()

/-- A numeral goes on with digits, and with a point if it has none. -/
def numeralGoesOn (seenPoint : Bool) (c : Char) : Option Bool :=
  if c.isDigit then some seenPoint
  else if c = '.' ∧ seenPoint = false then some true
  else none

def wordGoesOn (_ : Unit) (c : Char) : Option Unit :=
  if isWordChar c then some () else none

/-- What lies between `start` and here, and its text. -/
def cutFrom (start : Position) : Walk Position (Span × String) := do
  let p ← Walk.now
  let span : Span := ⟨start, p⟩
  match span.text with
  | some text => return (span, text)
  | none => Walk.fault

def walkNumeral (rounds : Nat) : Walk Position Token := do
  let start ← Walk.now
  Walk.loop (lexemeRound numeralGoesOn) rounds false
  let (span, text) ← cutFrom start
  match Kind.ofNumeral text.toList with
  | .ok kind => return ⟨kind, span⟩
  | .error problem => Walk.refuse ⟨problem, span, none⟩

def walkWord (rounds : Nat) : Walk Position Token := do
  let start ← Walk.now
  Walk.loop (lexemeRound wordGoesOn) rounds ()
  let (span, text) ← cutFrom start
  return ⟨Kind.ofWord text, span⟩

/-- Reads the next token, or steps over a blank, behind the tokens `ts`. -/
def textRound (rounds : Nat) (ts : List Token) : Walk Position (List Token ⊕ List Token) := do
  let p ← Walk.now
  match p.peek? with
  | none => return .inr (ts ++ [⟨.eof, .atEnd p⟩])
  | some c =>
    if isBlank c then
      advance
      return .inl ts
    else if c.isDigit then
      let t ← walkNumeral rounds
      return .inl (ts ++ [t])
    else if c.isAlpha then
      let t ← walkWord rounds
      return .inl (ts ++ [t])
    else
      match Kind.ofSymbol? c with
      | some kind =>
        advance
        return .inl (ts ++ [⟨kind, .single p c⟩])
      | none => Walk.refuse ⟨.illegalCharacter c, .single p c, none⟩

/-- The tokens of the text from here on, when no loop makes more than so many rounds. -/
def walkText (rounds : Nat) : Walk Position (List Token) :=
  Walk.loop (textRound rounds) rounds []

end Token

end Reckoner
