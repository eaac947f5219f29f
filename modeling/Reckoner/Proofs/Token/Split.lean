import Reckoner.Proofs.Token.Lexeme
import Reckoner.Source.Slice

/-!
# The lexical grammar

A text that has tokens splits into lexemes with blanks around them, and no lexeme stands directly in front of a
character that would go on with it (`Split`). A text is scanned if and only if it splits, its split is unique, and its
tokens are those of the split, at places that count bytes along the first line (`scan_iff_split`).
-/

namespace Reckoner

open Token (Kind)

/-! ## Splits and their tokens -/

/-- A lexeme of a text, what it stands for, and the blanks behind it. -/
structure Piece where
  lexeme : List Char
  kind : Kind
  blanks : List Char

/-- The text consists of the pieces. -/
inductive Pieces : List Char → List Piece → Prop
  | nil : Pieces [] []
  | cons {lexeme blanks rest : List Char} {kind : Kind} {pieces : List Piece} : Lexeme lexeme kind → Blanks blanks →
      kind.Ends (blanks ++ rest) → Pieces rest pieces →
      Pieces (lexeme ++ (blanks ++ rest)) (⟨lexeme, kind, blanks⟩ :: pieces)

/-- The text consists of the blanks `lead` and the pieces. -/
def Split (text lead : List Char) (pieces : List Piece) : Prop :=
  Blanks lead ∧ ∃ rest, text = lead ++ rest ∧ Pieces rest pieces

/-- The tokens of pieces that stand at byte `i`. -/
def Source.tokensAt (source : Source) : Nat → List Piece → List Token
  | _, [] => []
  | i, p :: ps =>
    let stop := i + utf8Length p.lexeme
    ⟨p.kind, source.bytes i stop⟩ :: source.tokensAt (stop + utf8Length p.blanks) ps

/-- The end of a text of `n` bytes. -/
def Source.eofAt (source : Source) (n : Nat) : Token :=
  ⟨.eof, source.bytes n (n + 1)⟩

/-- The tokens of a source that splits into the pieces behind the blanks `lead`, and the end. -/
def Source.tokens (source : Source) (lead : List Char) (pieces : List Piece) : List Token :=
  source.tokensAt (utf8Length lead) pieces ++ [source.eofAt (utf8Length source.text.toList)]

/-! ## Where tokens stand -/

/-- A character of one byte that begins no line. -/
def Plain (c : Char) : Prop :=
  c ≠ '\n' ∧ c.utf8Size = 1

theorem plain_of_toNat {c : Char} (h : c.toNat ≤ 127) (hne : c.toNat ≠ 10) : Plain c := by
  refine ⟨?_, Char.utf8Size_eq_one_iff.mpr (UInt32.le_iff_toNat_le.mpr h)⟩
  rintro rfl
  exact hne rfl

theorem plain_of_isDigit {c : Char} (h : c.isDigit = true) : Plain c := by
  obtain ⟨hlow, hhigh⟩ := Char.isDigit_iff_toNat.mp h
  change 48 ≤ c.toNat at hlow
  change c.toNat ≤ 57 at hhigh
  exact plain_of_toNat (by omega) (by omega)

theorem plain_of_isAlpha {c : Char} (h : c.isAlpha = true) : Plain c := by
  rw [isAlpha_iff_toNat] at h
  exact plain_of_toNat (by omega) (by omega)

theorem plain_of_isWordChar {c : Char} (h : isWordChar c = true) : Plain c := by
  simp only [isWordChar, Char.isAlphanum, Bool.or_eq_true, decide_eq_true_eq] at h
  rcases h with (h | h) | rfl
  · exact plain_of_isAlpha h
  · exact plain_of_isDigit h
  · exact plain_of_toNat (by decide) (by decide)

theorem plain_of_isBlank {c : Char} (h : isBlank c = true) : Plain c := by
  simp only [isBlank, Bool.or_eq_true, decide_eq_true_eq] at h
  rcases h with rfl | rfl <;> exact plain_of_toNat (by decide) (by decide)

theorem Blanks.plain {cs : List Char} (h : Blanks cs) : ∀ c ∈ cs, Plain c :=
  fun c hc => plain_of_isBlank (h c hc)

theorem Lexeme.plain {lexeme : List Char} {kind : Kind} (h : Lexeme lexeme kind) : ∀ c ∈ lexeme, Plain c := by
  cases h with
  | integer _ hds _ => exact fun c hc => plain_of_isDigit (hds c hc)
  | decimal _ hds hfs =>
    refine List.forall_mem_append.mpr ⟨fun c hc => plain_of_isDigit (hds c hc), List.forall_mem_cons.mpr ⟨?_, ?_⟩⟩
    · exact plain_of_toNat (by decide) (by decide)
    · exact fun c hc => plain_of_isDigit (hfs c hc)
  | keyword k =>
    have hword : ∀ k : Keyword, ∀ c ∈ k.word.toList, isWordChar c = true := by
      rintro (_ | _) <;> exact List.all_eq_true.mp rfl
    exact fun c hc => plain_of_isWordChar (hword k c hc)
  | identifier hc hcs _ =>
    exact List.forall_mem_cons.mpr ⟨plain_of_isAlpha hc, fun x hx => plain_of_isWordChar (hcs x hx)⟩
  | @symbol c _ hmem =>
    have hall : ∀ s ∈ symbols, s.1.toNat ≤ 127 ∧ s.1.toNat ≠ 10 := by decide
    exact List.forall_mem_singleton.mpr (plain_of_toNat (hall _ hmem).1 (hall _ hmem).2)

section

variable {source : Source} {i : Nat} {cs : List Char}

theorem Source.advance_byte {c : Char} (h : Plain c) : (source.byte i).advance c = source.byte (i + c.utf8Size) := by
  rw [Position.advance, if_neg h.1, h.2]
  rfl

theorem Source.advanceAll_byte (h : ∀ c ∈ cs, Plain c) :
    (source.byte i).advanceAll cs = source.byte (i + utf8Length cs) := by
  induction cs generalizing i with
  | nil => rfl
  | cons c cs ih =>
    obtain ⟨hc, hcs⟩ := List.forall_mem_cons.mp h
    rw [Position.advanceAll_cons, Source.advance_byte hc, ih hcs, utf8Length_cons, Nat.add_assoc]

/-! ## Texts are scanned along their split -/

namespace Token

theorem scanAt_blanks_append {p : Position} {blanks : List Char} (h : Blanks blanks) :
    scanAt p (blanks ++ cs) = scanAt (p.advanceAll blanks) cs := by
  induction blanks generalizing p with
  | nil => rfl
  | cons b bs ih =>
    obtain ⟨hb, hbs⟩ := List.forall_mem_cons.mp h
    rw [List.cons_append, scanAt_blank hb, ih hbs, Position.advanceAll_cons]

theorem scanAt_lexeme_append {p : Position} {lexeme rest : List Char} {kind : Kind} (h : Lexeme lexeme kind)
    (hrest : kind.Ends rest) : scanAt p (lexeme ++ rest) =
      (scanAt (p.advanceAll lexeme) rest).map (⟨kind, ⟨p, p.advanceAll lexeme⟩⟩ :: ·) := by
  obtain ⟨c, cs, rfl, hb, hkind⟩ := h.exists_cons
  rw [List.cons_append, scanAt_lexeme (by simp [hb]) (h.munch_append hrest) hkind]

/-- The pieces of a text are found by the scanner. -/
theorem scanAt_of_pieces {pieces : List Piece} (h : Pieces cs pieces) :
    scanAt (source.byte i) cs = .ok (source.tokensAt i pieces ++ [source.eofAt (i + utf8Length cs)]) := by
  induction h generalizing i with
  | nil => exact scanAt_nil
  | @cons lexeme blanks rest kind pieces hlexeme hblanks hends _ ih =>
    rw [scanAt_lexeme_append hlexeme hends, Source.advanceAll_byte hlexeme.plain, scanAt_blanks_append hblanks,
      Source.advanceAll_byte hblanks.plain, ih]
    simp only [Except.map, Source.tokensAt, Source.bytes, utf8Length_append, List.cons_append, Nat.add_assoc]

/-- What the scanner finds are pieces of the text. -/
theorem exists_pieces_of_scanAt {p : Position} {ts : List Token} (hp : p = source.byte i)
    (h : scanAt p cs = .ok ts) : ∃ lead rest pieces, cs = lead ++ rest ∧ Blanks lead ∧ Pieces rest pieces ∧
      ts = source.tokensAt (i + utf8Length lead) pieces ++ [source.eofAt (i + utf8Length cs)] := by
  induction p, cs using scanAt.induct generalizing i ts with
  | case1 p =>
    rw [scanAt_nil] at h
    cases h
    subst hp
    exact ⟨[], [], [], rfl, fun _ hc => absurd hc List.not_mem_nil, .nil, rfl⟩
  | case2 p c cs hb ih =>
    rw [scanAt_blank hb] at h
    subst hp
    obtain ⟨lead, rest, pieces, rfl, hlead, hpieces, rfl⟩ := ih (Source.advance_byte (plain_of_isBlank hb)) h
    refine ⟨c :: lead, rest, pieces, rfl, List.forall_mem_cons.mpr ⟨hb, hlead⟩, hpieces, ?_⟩
    simp only [utf8Length_cons, Nat.add_assoc]
  | case3 p c cs hb lexeme problem =>
    rename_i hl
    rw [scanAt_problem hb rfl hl] at h
    cases h
  | case4 p c cs hb lexeme rest stop kind =>
    rename_i hl ih
    have hmunch : munch c cs = (lexeme, rest) := rfl
    rw [scanAt_lexeme hb hmunch hl] at h
    obtain ⟨us, hus, rfl⟩ := Except.map_eq_ok_iff.mp h
    obtain ⟨hlexeme, hends⟩ : Lexeme lexeme kind ∧ kind.Ends rest := lexeme_of_munch hl
    subst hp
    have hstop : stop = source.byte (i + utf8Length lexeme) := Source.advanceAll_byte hlexeme.plain
    obtain ⟨blanks, rest', pieces, hrest, hblanks, hpieces, rfl⟩ := ih hstop hus
    have htext : c :: cs = lexeme ++ (blanks ++ rest') := by rw [← hrest, ← append_munch c cs]
    refine ⟨[], c :: cs, ⟨lexeme, kind, blanks⟩ :: pieces, rfl, fun _ hx => absurd hx List.not_mem_nil, ?_, ?_⟩
    · rw [htext]
      exact .cons hlexeme hblanks (hrest ▸ hends) hpieces
    · rw [htext, hrest, Source.advanceAll_byte hlexeme.plain]
      simp only [Source.tokensAt, Source.bytes, utf8Length_nil, utf8Length_append, List.cons_append, Nat.add_assoc,
        Nat.add_zero]

/-- A text is scanned if and only if it splits, to the tokens of a split. -/
theorem scan_eq_ok_iff {source : Source} {ts : List Token} :
    scan source = .ok ts ↔ ∃ lead pieces, Split source.text.toList lead pieces ∧ ts = source.tokens lead pieces := by
  constructor
  · intro h
    obtain ⟨lead, rest, pieces, htext, hlead, hpieces, rfl⟩ := exists_pieces_of_scanAt (i := 0) rfl h
    exact ⟨lead, pieces, ⟨hlead, rest, htext, hpieces⟩, by simp only [Source.tokens, Nat.zero_add]⟩
  · rintro ⟨lead, pieces, ⟨hlead, rest, htext, hpieces⟩, rfl⟩
    change scanAt (source.byte 0) source.text.toList = _
    rw [htext, scanAt_blanks_append hlead, Source.advanceAll_byte hlead.plain, scanAt_of_pieces hpieces, Source.tokens,
      htext, utf8Length_append, Nat.zero_add]

end Token

end

/-! ## A text has one split -/

/-- Pieces do not begin with a blank. -/
theorem Pieces.head_not_blank {cs : List Char} {pieces : List Piece} (h : Pieces cs pieces) :
    ∀ c ∈ cs.head?, isBlank c = false := by
  cases h with
  | nil => simp
  | cons hlexeme _ _ _ =>
    obtain ⟨c, cs, rfl, hb, _⟩ := hlexeme.exists_cons
    simpa using hb

/-- The blanks in front of pieces are told from them. -/
theorem blanks_unique {blanks blanks' rest rest' : List Char} {ps qs : List Piece} (hblanks : Blanks blanks)
    (hblanks' : Blanks blanks') (h : Pieces rest ps) (h' : Pieces rest' qs)
    (htext : blanks ++ rest = blanks' ++ rest') : blanks = blanks' ∧ rest = rest' := by
  obtain ⟨htake, hdrop⟩ := span_append rest hblanks h.head_not_blank
  obtain ⟨htake', hdrop'⟩ := span_append rest' hblanks' h'.head_not_blank
  rw [htext] at htake hdrop
  exact ⟨htake.symm.trans htake', hdrop.symm.trans hdrop'⟩

theorem Pieces.unique {cs : List Char} {ps qs : List Piece} (h : Pieces cs ps) (h' : Pieces cs qs) : ps = qs := by
  induction h generalizing qs with
  | nil =>
    generalize hcs : ([] : List Char) = cs at h'
    cases h' with
    | nil => rfl
    | cons hlexeme _ _ _ =>
      obtain ⟨c, cs, rfl, _⟩ := hlexeme.exists_cons
      cases hcs
  | @cons lexeme blanks rest kind pieces hlexeme hblanks hends hpieces ih =>
    generalize hcs : lexeme ++ (blanks ++ rest) = cs at h'
    cases h' with
    | nil =>
      obtain ⟨c, cs, rfl, _⟩ := hlexeme.exists_cons
      cases hcs
    | cons hlexeme' hblanks' hends' hpieces' =>
      obtain ⟨rfl, rfl, hbehind⟩ := hlexeme.unique hlexeme' hends hends' hcs
      obtain ⟨rfl, rfl⟩ := blanks_unique hblanks hblanks' hpieces hpieces' hbehind
      rw [ih hpieces']

theorem Split.unique {text lead lead' : List Char} {ps qs : List Piece} (h : Split text lead ps)
    (h' : Split text lead' qs) : lead = lead' ∧ ps = qs := by
  obtain ⟨hlead, rest, rfl, hpieces⟩ := h
  obtain ⟨hlead', rest', htext, hpieces'⟩ := h'
  obtain ⟨rfl, rfl⟩ := blanks_unique hlead hlead' hpieces hpieces' htext
  exact ⟨rfl, hpieces.unique hpieces'⟩

/-- **The lexical grammar is exact**: a source has the tokens `ts` if and only if its text splits and they are the
tokens of the split, with their places, and the end; no text has two splits. -/
theorem scan_iff_split :
    (∀ (source : Source) (ts : List Token), Token.scan source = .ok ts ↔
      ∃ lead pieces, Split source.text.toList lead pieces ∧ ts = source.tokens lead pieces) ∧
    ∀ (text lead lead' : List Char) (ps qs : List Piece), Split text lead ps → Split text lead' qs →
      lead = lead' ∧ ps = qs := by
  refine ⟨?_, ?_⟩
  · intro source ts
    exact Token.scan_eq_ok_iff
  · intro text lead lead' ps qs h h'
    exact h.unique h'

/-- The pieces of `let x_1=007*2.` behind a tab. -/
def samplePieces : List Piece :=
  [⟨['l', 'e', 't'], .keyword .letKeyword, [' ']⟩, ⟨['x', '_', '1'], .identifier "x_1", []⟩, ⟨['='], .equal, []⟩,
    ⟨['0', '0', '7'], .number (.int 7), []⟩, ⟨['*'], .star, []⟩,
    ⟨['2', '.'], .number (.float (Float.ofScientific 2 true 0)), []⟩]

theorem scan_iff_split_sample :
    let source : Source := ⟨"<stdin>", "\tlet x_1=007*2."⟩
    Split source.text.toList ['\t'] samplePieces ∧
    Token.scan source = .ok (source.tokens ['\t'] samplePieces) ∧
    ∀ lead pieces, Split source.text.toList lead pieces → lead = ['\t'] ∧ pieces = samplePieces := by
  have htwo : Lexeme ['2', '.'] (.number (.float (Float.ofScientific 2 true 0))) :=
    .decimal (List.cons_ne_nil '2' []) (by decide) (by decide)
  have hstar : Lexeme ['*'] .star := .symbol (by simp [symbols])
  have hseven : Lexeme ['0', '0', '7'] (.number (.int 7)) := .integer (by decide) (by decide) rfl
  have hequal : Lexeme ['='] .equal := .symbol (by simp [symbols])
  have hname : Lexeme ['x', '_', '1'] (.identifier "x_1") :=
    .identifier rfl (List.all_eq_true.mp rfl) (by rintro (_ | _) <;> decide)
  have hlet : Lexeme ['l', 'e', 't'] (.keyword .letKeyword) := .keyword .letKeyword
  have hnone : Blanks [] := by decide
  have hone : Blanks [' '] := by decide
  have hfactor := (Pieces.nil.cons htwo hnone (by decide)).cons hstar hnone (by decide)
  have hvalue := (hfactor.cons hseven hnone (by decide)).cons hequal hnone (by decide)
  have hpieces := (hvalue.cons hname hnone (by decide)).cons hlet hone (by decide)
  have hsplit : Split "\tlet x_1=007*2.".toList ['\t'] samplePieces := ⟨by decide, _, rfl, hpieces⟩
  refine ⟨hsplit, (scan_iff_split.1 _ _).mpr ⟨_, _, hsplit, rfl⟩, ?_⟩
  intro lead pieces h
  exact scan_iff_split.2 _ _ _ _ _ h hsplit

end Reckoner
