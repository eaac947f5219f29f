import Reckoner.Source.Basic

/-!
# The text of a span

`slice i j cs` cuts the bytes `i` up to `j` out of the UTF-8 form of `cs`. There is no such text if a bound falls
inside a character or behind the end, or if the bounds are reversed; `Span.text` is then `none`.
-/

namespace Reckoner

/-- The bytes of UTF-8 that the characters take. -/
def utf8Length : List Char → Nat
  | [] => 0
  | c :: cs => c.utf8Size + utf8Length cs

/-- Splits `cs` behind its first `n` bytes. -/
def splitBytes : Nat → List Char → Option (List Char × List Char)
  | 0, cs => some ([], cs)
  | _ + 1, [] => none
  | n + 1, c :: cs =>
    if c.utf8Size ≤ n + 1 then
      (splitBytes (n + 1 - c.utf8Size) cs).map fun (front, rest) => (c :: front, rest)
    else
      none

/-- The characters whose bytes are those from `i` up to `j`. -/
def slice (i j : Nat) (cs : List Char) : Option (List Char) :=
  if i ≤ j then do
    let (_, rest) ← splitBytes i cs
    let (front, _) ← splitBytes (j - i) rest
    return front
  else
    none

/-- The text that the span covers in the source it starts in. -/
def Span.text (s : Span) : Option String :=
  (slice s.start.index s.stop.index s.start.source.text.toList).map String.ofList

@[simp] theorem utf8Length_nil : utf8Length [] = 0 := rfl

@[simp] theorem utf8Length_cons (c : Char) (cs : List Char) :
    utf8Length (c :: cs) = c.utf8Size + utf8Length cs := rfl

@[simp] theorem utf8Length_append (as bs : List Char) : utf8Length (as ++ bs) = utf8Length as + utf8Length bs := by
  induction as with
  | nil => simp
  | cons a as ih => simp [ih, Nat.add_assoc]

theorem splitBytes_append (as bs : List Char) : splitBytes (utf8Length as) (as ++ bs) = some (as, bs) := by
  induction as with
  | nil => simp [splitBytes]
  | cons a as ih =>
    have hpos : 0 < a.utf8Size := a.utf8Size_pos
    obtain ⟨n, hn⟩ : ∃ n, a.utf8Size + utf8Length as = n + 1 := ⟨a.utf8Size + utf8Length as - 1, by omega⟩
    rw [utf8Length_cons, hn, List.cons_append, splitBytes, if_pos (by omega), ← hn, Nat.add_sub_cancel_left, ih]
    rfl

/-- What stands between `as` and `cs` is cut out by the byte lengths. -/
theorem slice_append (as bs cs : List Char) :
    slice (utf8Length as) (utf8Length as + utf8Length bs) (as ++ (bs ++ cs)) = some bs := by
  simp [slice, splitBytes_append]

theorem Position.index_advanceAll (p : Position) (cs : List Char) :
    (p.advanceAll cs).index = p.index + utf8Length cs := by
  induction cs generalizing p with
  | nil => rfl
  | cons c cs ih => simp only [advanceAll_cons, ih, index_advance, utf8Length_cons]; omega

theorem Source.index_start_advanceAll (source : Source) (cs : List Char) :
    (source.start.advanceAll cs).index = utf8Length cs :=
  (source.start.index_advanceAll cs).trans (Nat.zero_add _)

end Reckoner
