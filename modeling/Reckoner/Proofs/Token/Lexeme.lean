import Mathlib.Data.List.TakeWhile
import Reckoner.Proofs.Token.Scanning

/-!
# Lexemes

The words of the language, and the characters that would go on with one. The definitions know nothing of how a text is
scanned. A lexeme that ends where it may is what the scanner munches (`Lexeme.munch_append`), and what it munches and
finds a meaning for is such a lexeme (`lexeme_of_munch`); so a text begins with at most one (`Lexeme.unique`).
-/

namespace Reckoner

open Token (Kind)

/-! ## The words of the language -/

def Digits (cs : List Char) : Prop :=
  ∀ c ∈ cs, c.isDigit = true

def Blanks (cs : List Char) : Prop :=
  ∀ c ∈ cs, isBlank c = true

instance (cs : List Char) : Decidable (Digits cs) :=
  decidable_of_iff (cs.all Char.isDigit = true) List.all_eq_true

instance (cs : List Char) : Decidable (Blanks cs) :=
  decidable_of_iff (cs.all isBlank = true) List.all_eq_true

/-- The lexemes of a single character. -/
def symbols : List (Char × Kind) :=
  [('+', .plus), ('-', .minus), ('*', .star), ('/', .slash), ('^', .caret), ('(', .leftParen), (')', .rightParen),
    ('=', .equal)]

/-- A lexeme and what it stands for. A number without a point has to be one of 64 bits. -/
inductive Lexeme : List Char → Kind → Prop
  | integer {digits : List Char} {n : Int64} : digits ≠ [] → Digits digits → n.toInt = Nat.ofDigitChars 10 digits 0 →
      Lexeme digits (.number (.int n))
  | decimal {whole fraction : List Char} : whole ≠ [] → Digits whole → Digits fraction →
      Lexeme (whole ++ '.' :: fraction) (.number (.float
        (Float.ofScientific (Nat.ofDigitChars 10 (whole ++ fraction) 0) true fraction.length)))
  | keyword (k : Keyword) : Lexeme k.word.toList (.keyword k)
  | identifier {c : Char} {cs : List Char} : c.isAlpha = true → (∀ x ∈ cs, isWordChar x = true) →
      (∀ k : Keyword, String.ofList (c :: cs) ≠ k.word) →
      Lexeme (c :: cs) (.identifier (String.ofList (c :: cs)))
  | symbol {c : Char} {kind : Kind} : (c, kind) ∈ symbols → Lexeme [c] kind

/-- The characters that would go on with a lexeme of the kind. -/
def Token.Kind.extends : Kind → Char → Bool
  | .number (.int _), c => c.isDigit || c = '.'
  | .number _, c => c.isDigit
  | .keyword _, c | .identifier _, c => isWordChar c
  | _, _ => false

/-- What follows does not go on with a lexeme of the kind. -/
def Token.Kind.Ends (kind : Kind) (rest : List Char) : Prop :=
  ∀ c ∈ rest.head?, kind.extends c = false

instance (kind : Kind) (rest : List Char) : Decidable (kind.Ends rest) :=
  decidable_of_iff (rest.head?.all (!kind.extends ·) = true) (by cases rest <;> simp [Token.Kind.Ends])

/-! ## What is munched -/

section Munch

variable {c : Char} {cs ds fs rest : List Char}

theorem span_append {p : Char → Bool} (rest : List Char) (hcs : ∀ c ∈ cs, p c = true)
    (hrest : ∀ c ∈ rest.head?, p c = false) :
    (cs ++ rest).takeWhile p = cs ∧ (cs ++ rest).dropWhile p = rest := by
  rw [List.takeWhile_append_of_pos hcs, List.dropWhile_append_of_pos hcs]
  cases rest with
  | nil => simp
  | cons r rest => simp [hrest r rfl]

theorem head?_dropWhile_eq_false (p : Char → Bool) (cs : List Char) : ∀ c ∈ (cs.dropWhile p).head?, p c = false := by
  intro c hc
  have h := List.head?_dropWhile_not p cs
  rw [hc] at h
  exact h

theorem digits_takeWhile (cs : List Char) : Digits (cs.takeWhile Char.isDigit) :=
  fun _ => List.mem_takeWhile_imp

theorem isAlpha_iff_toNat :
    c.isAlpha = true ↔ (65 ≤ c.toNat ∧ c.toNat ≤ 90) ∨ (97 ≤ c.toNat ∧ c.toNat ≤ 122) := by
  change (decide (c.val ≥ 'A'.val ∧ c.val ≤ 'Z'.val) ||
    (decide (c.val ≥ 'a'.val) && decide (c.val ≤ 'z'.val))) = true ↔ _
  simp only [Bool.or_eq_true, Bool.and_eq_true, decide_eq_true_eq, ge_iff_le, UInt32.le_iff_toNat_le]
  exact Iff.rfl

theorem isDigit_eq_false_of_isAlpha (h : c.isAlpha = true) : c.isDigit = false := by
  rw [Bool.eq_false_iff, ne_eq, Char.isDigit_iff_toNat]
  rw [isAlpha_iff_toNat] at h
  change ¬ (48 ≤ c.toNat ∧ c.toNat ≤ 57)
  omega

theorem munch_integer (hc : c.isDigit = true) (hds : Digits ds)
    (hrest : ∀ x ∈ rest.head?, x.isDigit = false ∧ x ≠ '.') : munch c (ds ++ rest) = (c :: ds, rest) := by
  obtain ⟨htake, hdrop⟩ := span_append rest hds fun x hx => (hrest x hx).1
  rw [munch, if_pos hc, htake, hdrop]
  split
  · exact absurd rfl (hrest '.' rfl).2
  · rfl

theorem munch_decimal (hc : c.isDigit = true) (hds : Digits ds) (hfs : Digits fs)
    (hrest : ∀ x ∈ rest.head?, x.isDigit = false) :
    munch c (ds ++ '.' :: (fs ++ rest)) = (c :: (ds ++ '.' :: fs), rest) := by
  obtain ⟨htake, hdrop⟩ := span_append ('.' :: (fs ++ rest)) hds (by simp)
  obtain ⟨htake', hdrop'⟩ := span_append rest hfs hrest
  simp only [munch, if_pos hc, htake, hdrop, htake', hdrop']

theorem munch_word (hc : c.isAlpha = true) (hcs : ∀ x ∈ cs, isWordChar x = true)
    (hrest : ∀ x ∈ rest.head?, isWordChar x = false) : munch c (cs ++ rest) = (c :: cs, rest) := by
  obtain ⟨htake, hdrop⟩ := span_append rest hcs hrest
  rw [munch, if_neg (by simp [isDigit_eq_false_of_isAlpha hc]), if_pos hc, htake, hdrop]

theorem munch_single (hd : c.isDigit = false) (ha : c.isAlpha = false) : munch c cs = ([c], cs) := by
  rw [munch, if_neg (by simp [hd]), if_neg (by simp [ha])]

end Munch

/-! ## What lexemes stand for -/

section Meaning

variable {c : Char} {cs ds fs : List Char} {kind : Kind}

/-- A numeral without a point is the integer with its value, if there is one. -/
theorem ofNumeral_integer (hds : Digits ds) : Kind.ofNumeral ds =
    if (Nat.ofDigitChars 10 ds 0 : Int) ≤ Int64.maxValue.toInt then
      .ok (.number (.int (Int64.ofNat (Nat.ofDigitChars 10 ds 0))))
    else .error (.invalidSyntax (.numberOutOfRange (String.ofList ds))) := by
  obtain ⟨htake, hdrop⟩ := span_append [] hds (by simp)
  rw [List.append_nil] at htake hdrop
  simp only [Kind.ofNumeral, htake, hdrop]

theorem ofNumeral_decimal (hds : Digits ds) (fs : List Char) : Kind.ofNumeral (ds ++ '.' :: fs) =
    .ok (.number (.float (Float.ofScientific (Nat.ofDigitChars 10 (ds ++ fs) 0) true fs.length))) := by
  obtain ⟨htake, hdrop⟩ := span_append ('.' :: fs) hds (by simp)
  simp only [Kind.ofNumeral, htake, hdrop]

theorem toInt_ofNat {n : Nat} (h : (n : Int) ≤ Int64.maxValue.toInt) : (Int64.ofNat n).toInt = n := by
  have hlt : n < 2 ^ 63 := by
    have hmax : Int64.maxValue.toInt = 2 ^ 63 - 1 := rfl
    omega
  exact Int64.toInt_ofNat_of_lt hlt

/-- The number of 64 bits that a numeral stands for is found from its value. -/
theorem ofNumeral_eq_int {n : Int64} (hds : Digits ds) (h : n.toInt = Nat.ofDigitChars 10 ds 0) :
    Kind.ofNumeral ds = .ok (.number (.int n)) := by
  have hle : (Nat.ofDigitChars 10 ds 0 : Int) ≤ Int64.maxValue.toInt := h ▸ Int64.toInt_le n
  have hn : Int64.ofNat (Nat.ofDigitChars 10 ds 0) = n := Int64.toInt_inj.mp ((toInt_ofNat hle).trans h.symm)
  rw [ofNumeral_integer hds, if_pos hle, hn]

theorem ofWord_word (k : Keyword) : Kind.ofWord k.word = .keyword k := by
  cases k <;> rfl

theorem ofWord_of_ne_word {word : String} (h : ∀ k : Keyword, word ≠ k.word) : Kind.ofWord word = .identifier word := by
  have hvar : word ≠ "var" := h .varKeyword
  have hlet : word ≠ "let" := h .letKeyword
  simp [Kind.ofWord, Keyword.ofWord?, hvar, hlet]

theorem ofSymbol?_eq_some_iff : Kind.ofSymbol? c = some kind ↔ (c, kind) ∈ symbols := by
  unfold Kind.ofSymbol? symbols
  split <;> simp_all [eq_comm]

theorem not_alnum_of_symbol (h : (c, kind) ∈ symbols) : c.isDigit = false ∧ c.isAlpha = false ∧ isBlank c = false := by
  have hall : ∀ s ∈ symbols, s.1.isDigit = false ∧ s.1.isAlpha = false ∧ isBlank s.1 = false := by decide
  exact hall _ h

theorem isBlank_eq_false_of_alnum (h : c.isDigit = true ∨ c.isAlpha = true) : isBlank c = false := by
  rw [Bool.eq_false_iff]
  intro hb
  simp only [isBlank, Bool.or_eq_true, decide_eq_true_eq] at hb
  rcases hb with rfl | rfl <;> simp at h

/-- The first character of a lexeme is no blank, and the scanner finds what the lexeme stands for. -/
theorem Lexeme.exists_cons {lexeme : List Char} (h : Lexeme lexeme kind) :
    ∃ c cs, lexeme = c :: cs ∧ isBlank c = false ∧ Kind.ofLexeme c lexeme = .ok kind := by
  cases h with
  | @integer digits n hne hds hn =>
    obtain ⟨c, cs, rfl⟩ := List.exists_cons_of_ne_nil hne
    have hc : c.isDigit = true := hds c List.mem_cons_self
    refine ⟨c, cs, rfl, isBlank_eq_false_of_alnum (Or.inl hc), ?_⟩
    rw [Kind.ofLexeme, if_pos hc, ofNumeral_eq_int hds hn]
  | @decimal whole fraction hne hds _ =>
    obtain ⟨c, cs, rfl⟩ := List.exists_cons_of_ne_nil hne
    have hc : c.isDigit = true := hds c List.mem_cons_self
    refine ⟨c, cs ++ '.' :: fraction, rfl, isBlank_eq_false_of_alnum (Or.inl hc), ?_⟩
    rw [Kind.ofLexeme, if_pos hc, ofNumeral_decimal hds]
  | keyword k =>
    cases k with
    | varKeyword => exact ⟨'v', ['a', 'r'], rfl, rfl, rfl⟩
    | letKeyword => exact ⟨'l', ['e', 't'], rfl, rfl, rfl⟩
  | @identifier c cs hc _ hk =>
    refine ⟨c, cs, rfl, isBlank_eq_false_of_alnum (Or.inr hc), ?_⟩
    rw [Kind.ofLexeme, if_neg (by simp [isDigit_eq_false_of_isAlpha hc]), if_pos hc, ofWord_of_ne_word hk]
  | @symbol c _ hmem =>
    obtain ⟨hd, ha, hb⟩ := not_alnum_of_symbol hmem
    refine ⟨c, [], rfl, hb, ?_⟩
    rw [Kind.ofLexeme, if_neg (by simp [hd]), if_neg (by simp [ha]), ofSymbol?_eq_some_iff.mpr hmem]

end Meaning

/-! ## Lexemes are what is munched -/

section

variable {c : Char} {cs rest : List Char} {kind : Kind}

/-- A lexeme that ends where it may is munched. -/
theorem Lexeme.munch_append (h : Lexeme (c :: cs) kind) (hrest : kind.Ends rest) :
    munch c (cs ++ rest) = (c :: cs, rest) := by
  generalize hl : c :: cs = lexeme at h
  cases h with
  | integer _ hds _ =>
    subst hl
    refine munch_integer (hds c List.mem_cons_self) (fun x hx => hds x (List.mem_cons_of_mem c hx)) ?_
    intro x hx
    simpa [Kind.extends] using hrest x hx
  | @decimal whole fraction hne hds hfs =>
    obtain ⟨d, ds, rfl⟩ := List.exists_cons_of_ne_nil hne
    obtain ⟨rfl, rfl⟩ := List.cons.inj hl
    simpa using munch_decimal (hds c List.mem_cons_self) (fun x hx => hds x (List.mem_cons_of_mem c hx)) hfs hrest
  | keyword k => cases k <;> cases hl <;> exact munch_word (by decide) (List.all_eq_true.mp rfl) hrest
  | @identifier c cs hc hcs _ =>
    cases hl
    exact munch_word hc hcs hrest
  | @symbol c _ hmem =>
    cases hl
    obtain ⟨hd, ha, _⟩ := not_alnum_of_symbol hmem
    exact munch_single hd ha

/-- Behind a digit, digits are munched, and if a point follows them, the point and the digits behind it. -/
theorem munch_digit (hc : c.isDigit = true) (cs : List Char) :
    (∃ ds fs rest, munch c cs = (c :: ds ++ '.' :: fs, rest) ∧ Digits (c :: ds) ∧ Digits fs ∧
      ∀ x ∈ rest.head?, x.isDigit = false) ∨
    ∃ ds rest, munch c cs = (c :: ds, rest) ∧ Digits (c :: ds) ∧ ∀ x ∈ rest.head?, x.isDigit = false ∧ x ≠ '.' := by
  have hds := digits_takeWhile cs
  have hrest := head?_dropWhile_eq_false Char.isDigit cs
  rw [← List.takeWhile_append_dropWhile (p := Char.isDigit) (l := cs)]
  generalize cs.takeWhile Char.isDigit = ds at *
  generalize cs.dropWhile Char.isDigit = rest at *
  have hwhole : Digits (c :: ds) := List.forall_mem_cons.mpr ⟨hc, hds⟩
  by_cases hpoint : rest.head? = some '.'
  · obtain ⟨fraction, rfl⟩ := List.head?_eq_some_iff.mp hpoint
    have hfs := digits_takeWhile fraction
    have hrest' := head?_dropWhile_eq_false Char.isDigit fraction
    rw [← List.takeWhile_append_dropWhile (p := Char.isDigit) (l := fraction)]
    exact Or.inl ⟨ds, _, _, munch_decimal hc hds hfs hrest', hwhole, hfs, hrest'⟩
  · have hends : ∀ x ∈ rest.head?, x.isDigit = false ∧ x ≠ '.' := by
      intro x hx
      refine ⟨hrest x hx, ?_⟩
      rintro rfl
      exact hpoint hx
    exact Or.inr ⟨ds, rest, munch_integer hc hds hends, hwhole, hends⟩

theorem lexeme_of_munch_digit (hc : c.isDigit = true) (h : Kind.ofLexeme c (munch c cs).1 = .ok kind) :
    Lexeme (munch c cs).1 kind ∧ kind.Ends (munch c cs).2 := by
  rw [Kind.ofLexeme, if_pos hc] at h
  rcases munch_digit hc cs with ⟨ds, fs, rest, hmunch, hwhole, hfs, hends⟩ | ⟨ds, rest, hmunch, hwhole, hends⟩ <;>
    rw [hmunch] at h ⊢
  · rw [ofNumeral_decimal hwhole] at h
    cases h
    exact ⟨.decimal (List.cons_ne_nil c ds) hwhole hfs, hends⟩
  · rw [ofNumeral_integer hwhole] at h
    split at h
    · next hle =>
      cases h
      refine ⟨.integer (List.cons_ne_nil c ds) hwhole (toInt_ofNat hle), ?_⟩
      intro x hx
      simpa [Kind.extends] using hends x hx
    · cases h

theorem lexeme_of_munch_alpha (hc : c.isAlpha = true) (h : Kind.ofLexeme c (munch c cs).1 = .ok kind) :
    Lexeme (munch c cs).1 kind ∧ kind.Ends (munch c cs).2 := by
  have hcs : ∀ x ∈ cs.takeWhile isWordChar, isWordChar x = true := fun _ => List.mem_takeWhile_imp
  have hrest := head?_dropWhile_eq_false isWordChar cs
  rw [Kind.ofLexeme, if_neg (by simp [isDigit_eq_false_of_isAlpha hc]), if_pos hc] at h
  rw [← List.takeWhile_append_dropWhile (p := isWordChar) (l := cs), munch_word hc hcs hrest] at h ⊢
  cases h
  by_cases hk : ∃ k : Keyword, String.ofList (c :: cs.takeWhile isWordChar) = k.word
  · obtain ⟨k, hk⟩ := hk
    have hlist : c :: cs.takeWhile isWordChar = k.word.toList := by rw [← hk, String.toList_ofList]
    rw [hk, ofWord_word]
    exact ⟨hlist ▸ .keyword k, hrest⟩
  · rw [ofWord_of_ne_word fun k e => hk ⟨k, e⟩]
    exact ⟨.identifier hc hcs fun k e => hk ⟨k, e⟩, hrest⟩

/-- What is munched is a lexeme that ends where it may, if it stands for something. -/
theorem lexeme_of_munch (h : Kind.ofLexeme c (munch c cs).1 = .ok kind) :
    Lexeme (munch c cs).1 kind ∧ kind.Ends (munch c cs).2 := by
  by_cases hd : c.isDigit = true
  · exact lexeme_of_munch_digit hd h
  by_cases ha : c.isAlpha = true
  · exact lexeme_of_munch_alpha ha h
  rw [Kind.ofLexeme, if_neg hd, if_neg ha] at h
  rw [munch_single (by simpa using hd) (by simpa using ha)]
  split at h
  · next k hk =>
    cases h
    have hmem := ofSymbol?_eq_some_iff.mp hk
    have hall : ∀ s ∈ symbols, ∀ x, s.2.extends x = false := by simp [symbols, Kind.extends]
    exact ⟨.symbol hmem, fun x _ => hall _ hmem x⟩
  · cases h

end

/-- A text begins with at most one lexeme that ends where it may. -/
theorem Lexeme.unique {lexeme lexeme' rest rest' : List Char} {kind kind' : Kind} (h : Lexeme lexeme kind)
    (h' : Lexeme lexeme' kind') (hends : kind.Ends rest) (hends' : kind'.Ends rest')
    (htext : lexeme ++ rest = lexeme' ++ rest') : lexeme = lexeme' ∧ kind = kind' ∧ rest = rest' := by
  obtain ⟨c, cs, rfl, _, hkind⟩ := h.exists_cons
  obtain ⟨c', cs', rfl, _, hkind'⟩ := h'.exists_cons
  obtain ⟨rfl, hcs⟩ : c = c' ∧ cs ++ rest = cs' ++ rest' := List.cons.inj htext
  have hmunch := h.munch_append hends
  rw [hcs, h'.munch_append hends'] at hmunch
  obtain ⟨hlexeme, rfl⟩ := Prod.mk.inj hmunch
  rw [hlexeme] at hkind'
  exact ⟨hlexeme.symm, Except.ok.inj (hkind.symm.trans hkind'), rfl⟩

end Reckoner
