import Reckoner.Expr.Printer
import Reckoner.Proofs.Token.Split

/-!
# The lexemes of a printed expression

The printer sets no two lexemes side by side that would run into one. So the text of a tree, if its literals and names
can be written at all (`Expr.Legible`), is scanned to the tokens that the printer meant (`Expr.Legible.exists_scan`).
The induction is on the tree, for whatever text stands behind it, as long as that goes on with no lexeme.
-/

namespace Reckoner

open Token (Kind)

/-- The text consists of lexemes of these kinds, each with blanks behind it. -/
def Spells (cs : List Char) (kinds : List Kind) : Prop :=
  ∃ pieces, Pieces cs pieces ∧ pieces.map Piece.kind = kinds

/-- The text goes on with no lexeme. -/
def EndsAll (cs : List Char) : Prop :=
  ∀ kind : Kind, kind.Ends cs

/-! ## Lexemes one behind the other -/

section

variable {blanks rest : List Char} {kinds : List Kind} {c : Char}

theorem spells_nil : Spells [] [] :=
  ⟨[], .nil, rfl⟩

theorem Spells.lexeme {lexeme : List Char} {kind : Kind} (h : Lexeme lexeme kind) (hblanks : Blanks blanks)
    (hends : kind.Ends (blanks ++ rest)) (hrest : Spells rest kinds) :
    Spells (lexeme ++ (blanks ++ rest)) (kind :: kinds) := by
  obtain ⟨pieces, hpieces, rfl⟩ := hrest
  exact ⟨_, .cons h hblanks hends hpieces, rfl⟩

/-- Nothing goes on with a symbol. -/
theorem ends_of_symbol {kind : Kind} (h : (c, kind) ∈ symbols) (cs : List Char) : kind.Ends cs := by
  have hall : ∀ s ∈ symbols, ∀ x, s.2.extends x = false := by simp [symbols, Kind.extends]
  exact fun x _ => hall _ h x

theorem Spells.symbol {kind : Kind} (h : (c, kind) ∈ symbols) (hblanks : Blanks blanks) (hrest : Spells rest kinds) :
    Spells (c :: (blanks ++ rest)) (kind :: kinds) :=
  Spells.lexeme (.symbol h) hblanks (ends_of_symbol h _) hrest

theorem endsAll_cons (hc : isWordChar c = false) (hpoint : c ≠ '.') (cs : List Char) : EndsAll (c :: cs) := by
  have hdigit : c.isDigit = false := by
    simp only [isWordChar, Char.isAlphanum, Bool.or_eq_false_iff] at hc
    exact hc.1.2
  rintro kind x ⟨rfl⟩
  unfold Kind.extends
  split <;> simp [hc, hdigit, hpoint]

theorem endsAll_nil : EndsAll [] :=
  fun _ _ hx => nomatch hx

end

theorem Source.map_kind_tokensAt (source : Source) (i : Nat) (pieces : List Piece) :
    (source.tokensAt i pieces).map Token.kind = pieces.map Piece.kind := by
  induction pieces generalizing i with
  | nil => rfl
  | cons p ps ih => simp [Source.tokensAt, ih]

theorem Spells.exists_scan {source : Source} {kinds : List Kind} (h : Spells source.text.toList kinds) :
    ∃ ts, Token.scan source = .ok ts ∧ ts.map Token.kind = kinds ++ [.eof] := by
  obtain ⟨pieces, hpieces, rfl⟩ := h
  refine ⟨source.tokens [] pieces, Token.scan_eq_ok_iff.mpr ⟨[], pieces, ⟨by decide, _, rfl, hpieces⟩, rfl⟩, ?_⟩
  rw [Source.tokens, List.map_append, source.map_kind_tokensAt]
  rfl

/-! ## The lexemes of a tree -/

def Sign.kind : Sign → Kind
  | plus => .plus
  | minus => .minus

def Op.kind : Op → Kind
  | add => .plus
  | sub => .minus
  | mul => .star
  | div => .slash
  | pow => .caret

theorem Sign.exists_symbol (op : Sign) : ∃ c, op.symbol.toList = [c] ∧ (c, op.kind) ∈ symbols := by
  cases op with
  | plus => exact ⟨'+', rfl, by simp [symbols, kind]⟩
  | minus => exact ⟨'-', rfl, by simp [symbols, kind]⟩

theorem Op.exists_symbol (op : Op) : ∃ c, op.symbol.toList = [c] ∧ (c, op.kind) ∈ symbols := by
  cases op with
  | add => exact ⟨'+', rfl, by simp [symbols, kind]⟩
  | sub => exact ⟨'-', rfl, by simp [symbols, kind]⟩
  | mul => exact ⟨'*', rfl, by simp [symbols, kind]⟩
  | div => exact ⟨'/', rfl, by simp [symbols, kind]⟩
  | pow => exact ⟨'^', rfl, by simp [symbols, kind]⟩

namespace Expr

/-- The kinds of the tokens that the tree is printed with. -/
def kinds : Expr → List Kind
  | literal value _ => [.number value]
  | access name _ => [.identifier name]
  | unary op operand _ => .leftParen :: (op.kind :: operand.kinds ++ [.rightParen])
  | binary left op right _ => .leftParen :: (left.kinds ++ op.kind :: right.kinds ++ [.rightParen])
  | assign k name value _ => .leftParen :: (.keyword k :: .identifier name :: .equal :: value.kinds ++ [.rightParen])

/-- The trees whose literals are integers that are not negative, and whose names are words that are no keywords. -/
inductive Legible : Expr → Prop
  | literal {n : Int64} (span : Span) : 0 ≤ n.toInt → Legible (literal (.int n) span)
  | access {name : String} (span : Span) : Lexeme name.toList (.identifier name) → Legible (access name span)
  | unary {operand : Expr} (op : Sign) (span : Span) : Legible operand → Legible (unary op operand span)
  | binary {left right : Expr} (op : Op) (span : Span) :
      Legible left → Legible right → Legible (binary left op right span)
  | assign {name : String} {value : Expr} (k : Keyword) (span : Span) :
      Lexeme name.toList (.identifier name) → Legible value → Legible (assign k name value span)

/-- The decimal digits of an integer are its lexeme. -/
theorem lexeme_repr {n : Int64} (hn : 0 ≤ n.toInt) : Lexeme n.toInt.repr.toList (.number (.int n)) := by
  obtain ⟨m, hm⟩ := Int.eq_ofNat_of_zero_le hn
  have hrepr : n.toInt.repr.toList = Nat.toDigits 10 m := by
    rw [hm]
    exact String.toList_ofList
  rw [hrepr]
  refine .integer Nat.toDigits_ne_nil (fun c hc => Nat.isDigit_of_mem_toDigits (by decide) (by decide) hc) ?_
  rw [hm, Nat.ofDigitChars_toDigits (by decide) (by decide)]

variable {e : Expr} {blanks rest : List Char} {kinds : List Kind}

/-- A legible tree is spelled in front of whatever goes on with no lexeme. -/
theorem Legible.spells_append (he : e.Legible) (hblanks : Blanks blanks) (hends : EndsAll (blanks ++ rest))
    (hrest : Spells rest kinds) : Spells (e.render.toList ++ (blanks ++ rest)) (e.kinds ++ kinds) := by
  have hnone : Blanks [] := by decide
  have hspace : Blanks [' '] := by decide
  have hopen : ('(', Kind.leftParen) ∈ symbols := by simp [symbols]
  have hclose : (')', Kind.rightParen) ∈ symbols := by simp [symbols]
  have hequal : ('=', Kind.equal) ∈ symbols := by simp [symbols]
  have hends_close (cs : List Char) : EndsAll (')' :: cs) := endsAll_cons rfl (by decide) cs
  have hends_space (cs : List Char) : EndsAll (' ' :: cs) := endsAll_cons rfl (by decide) cs
  induction he generalizing blanks rest kinds with
  | literal span hn => exact .lexeme (lexeme_repr hn) hblanks (hends _) hrest
  | access span hname => exact .lexeme hname hblanks (hends _) hrest
  | @unary operand op span _ ih =>
    obtain ⟨c, hc, hmem⟩ := op.exists_symbol
    have hoperand := ih hnone (hends_close _) (.symbol hclose hblanks hrest)
    have hunary := Spells.symbol hopen hnone (.symbol hmem hnone hoperand)
    simpa [render, Expr.kinds, hc] using hunary
  | @binary left right op span _ _ ihl ihr =>
    obtain ⟨c, hc, hmem⟩ := op.exists_symbol
    have hright := ihr hnone (hends_close _) (.symbol hclose hblanks hrest)
    have hleft := ihl hspace (hends_space _) (.symbol hmem hspace hright)
    have hbinary := Spells.symbol hopen hnone hleft
    simpa [render, Expr.kinds, hc] using hbinary
  | @assign name value k span hname _ ih =>
    have hvalue := ih hnone (hends_close _) (.symbol hclose hblanks hrest)
    have hnamed := Spells.lexeme hname hspace (hends_space _ _) (.symbol hequal hspace hvalue)
    have hassign := Spells.symbol hopen hnone (.lexeme (.keyword k) hspace (hends_space _ _) hnamed)
    simpa [render, Expr.kinds] using hassign

/-- The text of a legible tree is scanned to the tokens that it is printed with. -/
theorem Legible.exists_scan (he : e.Legible) (name : String) :
    ∃ ts, Token.scan ⟨name, e.render⟩ = .ok ts ∧ ts.map Token.kind = e.kinds ++ [.eof] := by
  have hspells : Spells (e.render.toList ++ ([] ++ [])) (e.kinds ++ []) :=
    he.spells_append (by decide) endsAll_nil spells_nil
  rw [List.append_nil, List.append_nil, List.append_nil] at hspells
  exact hspells.exists_scan

end Expr

end Reckoner
