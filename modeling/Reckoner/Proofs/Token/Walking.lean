import Reckoner.Proofs.Source.Positions
import Reckoner.Proofs.Token.Lexeme
import Reckoner.Token.Walk

/-!
# The scanner with a position

The scanner that walks over a text comes to no positions but those behind its characters. Each round of its loops goes
on by a character at least, or is the last one, so there is an end of them. A numeral and a word go on as far as they
are munched, and a round of the text leaves the outcome that `Token.scan` has for it (`Token.ends_textRound`), so this
is what the walk comes to (`Token.ends_walkText`).
-/

namespace Reckoner

open Walk (Ends)

/-! ## What a lexeme goes on with -/

/-- The characters that a lexeme goes on with, from the state `b` on. -/
def goingOn {β : Type} (goesOn : β → Char → Option β) : β → List Char → List Char
  | _, [] => []
  | b, c :: cs =>
    match goesOn b c with
    | some b => c :: goingOn goesOn b cs
    | none => []

section

open Token (numeralGoesOn wordGoesOn)

variable {β : Type} {goesOn : β → Char → Option β} {b b' : β} {c : Char} {cs ds rest : List Char}

theorem goingOn_cons_of_some (h : goesOn b c = some b') : goingOn goesOn b (c :: cs) = c :: goingOn goesOn b' cs := by
  rw [goingOn, h]

theorem goingOn_cons_of_none (h : goesOn b c = none) : goingOn goesOn b (c :: cs) = [] := by
  rw [goingOn, h]

theorem goingOn_digits (seenPoint : Bool) (hds : Digits ds) :
    goingOn numeralGoesOn seenPoint (ds ++ rest) = ds ++ goingOn numeralGoesOn seenPoint rest := by
  induction ds with
  | nil => rfl
  | cons d ds ih =>
    obtain ⟨hd, hds⟩ := List.forall_mem_cons.mp hds
    have hgoes : numeralGoesOn seenPoint d = some seenPoint := if_pos hd
    rw [List.cons_append, goingOn_cons_of_some hgoes, ih hds]
    rfl

theorem goingOn_numeral_eq_nil {seenPoint : Bool} (hdigit : ∀ x ∈ rest.head?, x.isDigit = false)
    (hpoint : ∀ x ∈ rest.head?, x = '.' → seenPoint = true) : goingOn numeralGoesOn seenPoint rest = [] := by
  rcases rest with _ | ⟨x, rest⟩
  · rfl
  have hx : x.isDigit = false := hdigit x rfl
  refine goingOn_cons_of_none ?_
  rw [numeralGoesOn, if_neg (by simp [hx]), if_neg]
  rintro ⟨rfl, hseen⟩
  rw [hpoint '.' rfl rfl] at hseen
  cases hseen

/-- A numeral goes on as far as it is munched. -/
theorem goingOn_numeral (hc : c.isDigit = true) (cs : List Char) :
    goingOn numeralGoesOn false (c :: cs) = (munch c cs).1 := by
  have htext := append_munch c cs
  rcases munch_digit hc cs with ⟨ds, fs, rest, hmunch, hds, hfs, hends⟩ | ⟨ds, rest, hmunch, hds, hends⟩ <;>
    rw [hmunch] at htext ⊢ <;> rw [← htext]
  · have hpoint : goingOn numeralGoesOn false ('.' :: (fs ++ rest)) = '.' :: goingOn numeralGoesOn true (fs ++ rest) :=
      goingOn_cons_of_some rfl
    have hsplit : c :: ds ++ '.' :: fs ++ rest = c :: ds ++ '.' :: (fs ++ rest) := List.append_assoc _ _ _
    change goingOn numeralGoesOn false (c :: ds ++ '.' :: fs ++ rest) = c :: ds ++ '.' :: fs
    rw [hsplit, goingOn_digits false hds, hpoint, goingOn_digits true hfs,
      goingOn_numeral_eq_nil hends fun _ _ _ => rfl, List.append_nil]
  · change goingOn numeralGoesOn false (c :: ds ++ rest) = c :: ds
    rw [goingOn_digits false hds, goingOn_numeral_eq_nil (fun x hx => (hends x hx).1)
      fun x hx hpoint => absurd hpoint (hends x hx).2, List.append_nil]

theorem goingOn_word_eq_takeWhile (cs : List Char) : goingOn wordGoesOn () cs = cs.takeWhile isWordChar := by
  induction cs with
  | nil => rfl
  | cons c cs ih =>
    by_cases hc : isWordChar c = true
    · rw [goingOn_cons_of_some (if_pos hc), List.takeWhile_cons_of_pos hc, ih]
    · rw [goingOn_cons_of_none (if_neg hc), List.takeWhile_cons_of_neg hc]

/-- A word goes on as far as it is munched. -/
theorem goingOn_word (hc : c.isAlpha = true) (cs : List Char) : goingOn wordGoesOn () (c :: cs) = (munch c cs).1 := by
  have hword : isWordChar c = true := by simp [isWordChar, Char.isAlphanum, hc]
  have hcs : ∀ x ∈ cs.takeWhile isWordChar, isWordChar x = true := fun _ => List.mem_takeWhile_imp
  have hmunch := munch_word hc hcs (head?_dropWhile_eq_false isWordChar cs)
  rw [List.takeWhile_append_dropWhile] at hmunch
  rw [goingOn_word_eq_takeWhile, List.takeWhile_cons_of_pos hword, hmunch]

theorem length_goingOn_drop {k : Nat} (h : cs[k]?.bind (goesOn b) = some b') :
    (goingOn goesOn b (cs.drop k)).length = (goingOn goesOn b' (cs.drop (k + 1))).length + 1 := by
  obtain ⟨c, hc, hgoes⟩ := Option.bind_eq_some_iff.mp h
  obtain ⟨hk, rfl⟩ := List.getElem?_eq_some_iff.mp hc
  rw [List.drop_eq_getElem_cons hk, goingOn_cons_of_some hgoes, List.length_cons]

theorem goingOn_drop_eq_nil {k : Nat} (h : cs[k]?.bind (goesOn b) = none) : goingOn goesOn b (cs.drop k) = [] := by
  rcases hdrop : cs.drop k with _ | ⟨c, rest⟩
  · rfl
  · have hc : cs[k]? = some c := by rw [← List.head?_drop, hdrop, List.head?_cons]
    rw [hc] at h
    exact goingOn_cons_of_none h

end

/-! ## The rounds of a lexeme -/

/-- The walk that begins behind `i` characters ends as `post` tells, and comes to no other positions than those of the
text, and never back. -/
abbrev Source.EndsFrom {ρ : Type} (source : Source) (i : Nat) (w : Walk.Steps Position ρ) (post : ρ → Position → Prop) :
    Prop :=
  Ends source.HasPosition Position.index (source.position i) w post

/-- The next character is found at a position. -/
theorem Source.peek?_position (source : Source) (i : Nat) : (source.position i).peek? = source.text.toList[i]? := by
  have hsource : (source.position i).source = source := Position.source_advanceAll _ _
  have hsplit := splitBytes_append (source.text.toList.take i) (source.text.toList.drop i)
  rw [List.take_append_drop] at hsplit
  rw [Position.peek?, index_position, hsource, hsplit]
  exact List.head?_drop

namespace Token

section

variable {source : Source} {i j rounds : Nat} {α β γ : Type}

theorem hasPosition (hi : i ≤ source.text.toList.length) : source.HasPosition (source.position i) :=
  ⟨i, hi, rfl⟩

theorem index_le_of_hasPosition {p : Position} (hp : source.HasPosition p) :
    p.index ≤ utf8Length source.text.toList := by
  obtain ⟨i, -, rfl⟩ := hp
  exact source.index_position_le_utf8Length i

theorem ends_advance_bind {c : Char} {f : Unit → Walk Position α} {post : Except Walk.Stop α → Position → Prop}
    (h : source.text.toList[i]? = some c) (hf : source.EndsFrom (i + 1) (f ()) post) :
    source.EndsFrom i (advance >>= f : Walk Position α) post := by
  have hi : i < source.text.toList.length := (List.getElem?_eq_some_iff.mp h).1
  have hle : (source.position i).index ≤ (source.position (i + 1)).index := Source.index_position_le (Nat.le_succ i)
  refine Ends.bind_ok (a := ()) (y := source.position (i + 1)) ?_ hf
  refine Walk.ends_now_bind ?_
  rw [source.peek?_position, h]
  simp only [Source.advance_position h]
  exact Walk.ends_goTo (hasPosition (Nat.le_of_lt hi)) (hasPosition hi) hle ⟨rfl, rfl⟩

/-- A round of a lexeme goes on by one character, or is the last one. -/
theorem ends_lexemeRound (goesOn : β → Char → Option β) (b : β) (hi : i ≤ source.text.toList.length) :
    source.EndsFrom i (lexemeRound goesOn b) fun r q =>
      match source.text.toList[i]?.bind (goesOn b) with
      | some b' => r = .ok (.inl b') ∧ q = source.position (i + 1) ∧ i < source.text.toList.length
      | none => r = .ok (.inr ()) ∧ q = source.position i := by
  refine Walk.ends_now_bind ?_
  rw [source.peek?_position]
  cases hnext : source.text.toList[i]?.bind (goesOn b) with
  | none => exact Walk.ends_pure (hasPosition hi) ⟨rfl, rfl⟩
  | some b' =>
    obtain ⟨c, hc, -⟩ := Option.bind_eq_some_iff.mp hnext
    have hlt : i < source.text.toList.length := (List.getElem?_eq_some_iff.mp hc).1
    exact ends_advance_bind hc (Walk.ends_pure (hasPosition hlt) ⟨rfl, rfl, hlt⟩)

theorem index_lt (hij : i < j) (hj : j ≤ source.text.toList.length) :
    (source.position i).index < (source.position j).index := by
  refine Nat.lt_of_lt_of_le ?_ (Source.index_position_le hij)
  rw [Source.index_position_succ (List.getElem?_eq_getElem (Nat.lt_of_lt_of_le hij hj))]
  exact Nat.lt_add_of_pos_right (Char.utf8Size_pos _)

/-- From the position on, in the state `b`, the lexeme goes on up to character `stop`. -/
def GoesTo (source : Source) (goesOn : β → Char → Option β) (stop : Nat) (b : β) (p : Position) : Prop :=
  ∃ k, k ≤ source.text.toList.length ∧ p = source.position k ∧
    k + (goingOn goesOn b (source.text.toList.drop k)).length = stop

/-- All rounds of a lexeme take the walk behind the characters that it goes on with. -/
theorem ends_lexeme (goesOn : β → Char → Option β) (b : β) (hi : i ≤ source.text.toList.length)
    (hrounds : utf8Length source.text.toList < rounds) :
    source.EndsFrom i (Walk.loop (lexemeRound goesOn) rounds b) fun r q =>
      r = .ok () ∧ q = source.position (i + (goingOn goesOn b (source.text.toList.drop i)).length) := by
  refine Walk.ends_loop (GoesTo source goesOn _) ?_ (fun _ => index_le_of_hasPosition) (hasPosition hi)
    ⟨i, hi, rfl, rfl⟩ (Nat.lt_of_lt_of_le hrounds (Nat.le_add_left _ _))
  rintro b _ - ⟨k, hk, rfl, hstop⟩
  refine (ends_lexemeRound goesOn b hk).mono (fun _ h => h) fun r q _ _ hpost => ?_
  cases hnext : source.text.toList[k]?.bind (goesOn b) with
  | none =>
    rw [hnext] at hpost
    obtain ⟨rfl, rfl⟩ := hpost
    rw [← hstop, goingOn_drop_eq_nil hnext]
    exact ⟨rfl, rfl⟩
  | some b' =>
    rw [hnext] at hpost
    obtain ⟨rfl, rfl, hlt⟩ := hpost
    rw [length_goingOn_drop hnext] at hstop
    exact ⟨⟨k + 1, hlt, rfl, by omega⟩, index_lt (Nat.lt_succ_self k) hlt⟩

end

/-! ## The rounds of a text -/

/-- What the scanner comes to from character `i` on, when `ts` are the tokens of the characters before. -/
def outcomeFrom (source : Source) (ts : List Token) (i : Nat) : Outcome (List Token) :=
  (scanAt (source.position i) (source.text.toList.drop i)).map (ts ++ ·)

/-- The characters of the text from `i` up to `j` are a lexeme that is munched, whose first character is `c`. -/
structure Munched (source : Source) (c : Char) (i j : Nat) : Prop where
  lt : i < j
  le : j ≤ source.text.toList.length
  munch_eq : ∃ cs, source.text.toList.drop i = c :: cs ∧
    munch c cs = ((source.text.toList.take j).drop i, source.text.toList.drop j)

section

variable {source : Source} {i j rounds : Nat} {c : Char}

theorem outcomeFrom_zero (source : Source) : outcomeFrom source [] 0 = scan source := by
  have hid (o : Outcome (List Token)) : o.map ([] ++ ·) = o := by cases o <;> rfl
  exact hid (scan source)

theorem outcomeFrom_of_none (ts : List Token) (h : source.text.toList[i]? = none) :
    outcomeFrom source ts i = .ok (ts ++ [⟨.eof, .atEnd (source.position i)⟩]) := by
  have hdrop : source.text.toList.drop i = [] := List.drop_eq_nil_of_le (List.getElem?_eq_none_iff.mp h)
  rw [outcomeFrom, hdrop, scanAt_nil]
  rfl

theorem outcomeFrom_of_isBlank (ts : List Token) (h : source.text.toList[i]? = some c) (hb : isBlank c = true) :
    outcomeFrom source ts i = outcomeFrom source ts (i + 1) := by
  rw [outcomeFrom, drop_eq_cons h, scanAt_blank hb, Source.advance_position h]
  rfl

/-- At a character that is no blank, something is munched. -/
theorem munched (h : source.text.toList[i]? = some c) :
    Munched source c i (i + (munch c (source.text.toList.drop (i + 1))).1.length) := by
  have hdrop := drop_eq_cons h
  have htext := append_munch c (source.text.toList.drop (i + 1))
  have hrest := length_munch_le c (source.text.toList.drop (i + 1))
  have hi : i < source.text.toList.length := (List.getElem?_eq_some_iff.mp h).1
  rcases hmunch : munch c (source.text.toList.drop (i + 1)) with ⟨lexeme, rest⟩
  rw [hmunch, ← hdrop] at htext
  rw [hmunch, List.length_drop] at hrest
  have hlength := congrArg List.length htext
  simp only [List.length_append, List.length_drop] at hlength hrest
  refine ⟨by simp only; omega, by simp only; omega, _, hdrop, ?_⟩
  have hlexeme : (source.text.toList.take (i + lexeme.length)).drop i = lexeme := by
    rw [List.drop_take, Nat.add_sub_cancel_left, ← htext]
    exact List.take_left
  have hleft : source.text.toList.drop (i + lexeme.length) = rest := by
    rw [← List.drop_drop, ← htext]
    exact List.drop_left
  rw [hmunch, hlexeme, hleft]

theorem Munched.position_eq (h : Munched source c i j) :
    (source.position i).advanceAll ((source.text.toList.take j).drop i) = source.position j := by
  have hadd := source.position_add i (j - i)
  rw [Nat.add_sub_cancel' (Nat.le_of_lt h.lt)] at hadd
  rw [hadd, List.drop_take]

theorem outcomeFrom_of_lexeme (ts : List Token) {kind : Kind} (h : Munched source c i j) (hb : ¬ isBlank c = true)
    (hkind : Kind.ofLexeme c ((source.text.toList.take j).drop i) = .ok kind) :
    outcomeFrom source ts i = outcomeFrom source (ts ++ [⟨kind, source.between i j⟩]) j := by
  obtain ⟨cs, hdrop, hmunch⟩ := h.munch_eq
  rw [outcomeFrom, hdrop, scanAt_lexeme hb hmunch hkind, h.position_eq, outcomeFrom]
  cases scanAt (source.position j) (source.text.toList.drop j) with
  | error d => rfl
  | ok us => exact congrArg Except.ok (List.append_assoc ts [_] us).symm

theorem outcomeFrom_of_problem (ts : List Token) {problem : Problem} (h : Munched source c i j)
    (hb : ¬ isBlank c = true) (hkind : Kind.ofLexeme c ((source.text.toList.take j).drop i) = .error problem) :
    outcomeFrom source ts i = .error ⟨problem, source.between i j, none⟩ := by
  obtain ⟨cs, hdrop, hmunch⟩ := h.munch_eq
  rw [outcomeFrom, hdrop, scanAt_problem hb hmunch hkind, h.position_eq]
  rfl

/-- What lies between two positions can be cut out. -/
theorem ends_cutFrom_bind {α : Type} {f : Span × String → Walk Position α} {post : Except Walk.Stop α → Position → Prop}
    (hij : i ≤ j) (hj : j ≤ source.text.toList.length)
    (h : source.EndsFrom j (f (source.between i j, String.ofList ((source.text.toList.take j).drop i))) post) :
    source.EndsFrom j (cutFrom (source.position i) >>= f : Walk Position α) post := by
  refine Ends.bind_ok (a := (source.between i j, String.ofList ((source.text.toList.take j).drop i)))
    (y := source.position j) ?_ h
  refine Walk.ends_now_bind ?_
  have htext : (⟨source.position i, source.position j⟩ : Span).text =
      some (String.ofList ((source.text.toList.take j).drop i)) := source.text_between hij
  simp only [htext]
  exact Walk.ends_pure (hasPosition hj) ⟨rfl, rfl⟩

/-- How reading the lexeme from `i` up to `j` stops, whose first character is `c`. -/
def lexemeStop (source : Source) (c : Char) (i j : Nat) : Except Walk.Stop Token :=
  match Kind.ofLexeme c ((source.text.toList.take j).drop i) with
  | .ok kind => .ok ⟨kind, source.between i j⟩
  | .error problem => .error (.refused ⟨problem, source.between i j, none⟩)

/-- The rounds of a lexeme end where it is munched up to. -/
theorem Munched.ends_loop {β : Type} {goesOn : β → Char → Option β} {b : β} (h : Munched source c i j)
    (hgoes : ∀ cs, goingOn goesOn b (c :: cs) = (munch c cs).1) (hrounds : utf8Length source.text.toList < rounds) :
    source.EndsFrom i (Walk.loop (lexemeRound goesOn) rounds b) fun r q => r = .ok () ∧ q = source.position j := by
  obtain ⟨cs, hdrop, hmunch⟩ := h.munch_eq
  have hlength : (goingOn goesOn b (source.text.toList.drop i)).length = j - i := by
    rw [hdrop, hgoes, hmunch, List.length_drop, List.length_take_of_le h.le]
  have hends := ends_lexeme goesOn b (Nat.le_trans (Nat.le_of_lt h.lt) h.le) hrounds
  rw [hlength, Nat.add_sub_cancel' (Nat.le_of_lt h.lt)] at hends
  exact hends

theorem ends_walkNumeral (h : Munched source c i j) (hc : c.isDigit = true)
    (hrounds : utf8Length source.text.toList < rounds) :
    source.EndsFrom i (walkNumeral rounds) fun r q => r = lexemeStop source c i j ∧ q = source.position j := by
  refine Walk.ends_now_bind ?_
  refine (h.ends_loop (fun cs => goingOn_numeral hc cs) hrounds).bind_ok ?_
  refine ends_cutFrom_bind (Nat.le_of_lt h.lt) h.le ?_
  rw [lexemeStop, Kind.ofLexeme, if_pos hc]
  simp only [String.toList_ofList]
  cases Kind.ofNumeral ((source.text.toList.take j).drop i) with
  | ok kind => exact Walk.ends_pure (hasPosition h.le) ⟨rfl, rfl⟩
  | error problem => exact Walk.ends_refuse (hasPosition h.le) ⟨rfl, rfl⟩

theorem ends_walkWord (h : Munched source c i j) (hc : c.isAlpha = true)
    (hrounds : utf8Length source.text.toList < rounds) :
    source.EndsFrom i (walkWord rounds) fun r q => r = lexemeStop source c i j ∧ q = source.position j := by
  refine Walk.ends_now_bind ?_
  refine (h.ends_loop (fun cs => goingOn_word hc cs) hrounds).bind_ok ?_
  refine ends_cutFrom_bind (Nat.le_of_lt h.lt) h.le ?_
  rw [lexemeStop, Kind.ofLexeme, if_neg (by simp [isDigit_eq_false_of_isAlpha hc]), if_pos hc]
  exact Walk.ends_pure (hasPosition h.le) ⟨rfl, rfl⟩

/-- How a round of the text ends that begins at character `i`, behind the tokens `ts`. It goes on by a character at
least, and what is to come to stays the same, or it comes to that. -/
def RoundStops (source : Source) (ts : List Token) (i : Nat) :
    Except Walk.Stop (List Token ⊕ List Token) → Position → Prop
  | .ok (.inl us), q => ∃ j, i < j ∧ j ≤ source.text.toList.length ∧ q = source.position j ∧
      outcomeFrom source ts i = outcomeFrom source us j
  | .ok (.inr us), q => outcomeFrom source ts i = .ok us ∧ q = source.position source.text.toList.length
  | .error (.refused d), _ => outcomeFrom source ts i = .error d
  | .error .fault, _ => False

/-- A round that reads a lexeme. -/
theorem ends_lexeme_bind (ts : List Token) {w : Walk Position Token} (h : Munched source c i j)
    (hb : ¬ isBlank c = true)
    (hw : source.EndsFrom i w fun r q => r = lexemeStop source c i j ∧ q = source.position j) :
    source.EndsFrom i (do return .inl (ts ++ [← w]) : Walk Position (List Token ⊕ List Token))
      (RoundStops source ts i) := by
  unfold lexemeStop at hw
  cases hkind : Kind.ofLexeme c ((source.text.toList.take j).drop i) with
  | ok kind =>
    rw [hkind] at hw
    refine hw.bind_ok ?_
    exact Walk.ends_pure (hasPosition h.le) ⟨j, h.lt, h.le, rfl, outcomeFrom_of_lexeme ts h hb hkind⟩
  | error problem =>
    rw [hkind] at hw
    refine hw.bind ?_ ?_
    · rintro t q - - ⟨ht, -⟩
      cases ht
    · rintro e q - - ⟨he, -⟩
      cases he
      exact outcomeFrom_of_problem ts h hb hkind

/-- A round that reads a symbol, or a character that is nothing. -/
theorem ends_symbol (ts : List Token) (hchar : source.text.toList[i]? = some c) (hb : ¬ isBlank c = true)
    (hd : ¬ c.isDigit = true) (ha : ¬ c.isAlpha = true) :
    source.EndsFrom i
      (match Kind.ofSymbol? c with
        | some kind => do
          advance
          return .inl (ts ++ [⟨kind, .single (source.position i) c⟩])
        | none => Walk.refuse ⟨.illegalCharacter c, .single (source.position i) c, none⟩ :
        Walk Position (List Token ⊕ List Token))
      (RoundStops source ts i) := by
  have hlt : i < source.text.toList.length := (List.getElem?_eq_some_iff.mp hchar).1
  have hmunched := munched hchar
  rw [munch_single (by simpa using hd) (by simpa using ha)] at hmunched
  have hspan : Span.single (source.position i) c = source.between i (i + 1) := by
    rw [Span.single, Source.advance_position hchar]
    rfl
  rw [hspan]
  cases hsymbol : Kind.ofSymbol? c with
  | some kind =>
    refine ends_advance_bind hchar (Walk.ends_pure (hasPosition hlt) ⟨i + 1, hmunched.lt, hlt, rfl, ?_⟩)
    exact outcomeFrom_of_lexeme ts hmunched hb (by rw [Kind.ofLexeme, if_neg hd, if_neg ha, hsymbol])
  | none =>
    refine Walk.ends_refuse (hasPosition (Nat.le_of_lt hlt)) ?_
    exact outcomeFrom_of_problem ts hmunched hb (by rw [Kind.ofLexeme, if_neg hd, if_neg ha, hsymbol])

/-- **A round of the text** goes on by a character at least, or is the last one. -/
theorem ends_textRound (ts : List Token) (hi : i ≤ source.text.toList.length)
    (hrounds : utf8Length source.text.toList < rounds) :
    source.EndsFrom i (textRound rounds ts) (RoundStops source ts i) := by
  refine Walk.ends_now_bind ?_
  rw [source.peek?_position]
  cases hchar : source.text.toList[i]? with
  | none =>
    have hlength : i = source.text.toList.length := Nat.le_antisymm hi (List.getElem?_eq_none_iff.mp hchar)
    exact Walk.ends_pure (hasPosition hi) ⟨outcomeFrom_of_none ts hchar, by rw [← hlength]⟩
  | some c =>
    have hlt : i < source.text.toList.length := (List.getElem?_eq_some_iff.mp hchar).1
    have hmunched := munched hchar
    by_cases hb : isBlank c = true
    · simp only [if_pos hb]
      refine ends_advance_bind hchar (Walk.ends_pure (hasPosition hlt) ?_)
      exact ⟨i + 1, Nat.lt_succ_self i, hlt, rfl, outcomeFrom_of_isBlank ts hchar hb⟩
    by_cases hd : c.isDigit = true
    · simp only [if_neg hb, if_pos hd]
      exact ends_lexeme_bind ts hmunched hb (ends_walkNumeral hmunched hd hrounds)
    by_cases ha : c.isAlpha = true
    · simp only [if_neg hb, if_neg hd, if_pos ha]
      exact ends_lexeme_bind ts hmunched hb (ends_walkWord hmunched ha hrounds)
    simp only [if_neg hb, if_neg hd, if_neg ha]
    exact ends_symbol ts hchar hb hd ha

/-- The tokens that a walk has passed begin the outcome of the whole text. -/
def Continues (source : Source) (ts : List Token) (p : Position) : Prop :=
  ∃ i, i ≤ source.text.toList.length ∧ p = source.position i ∧ outcomeFrom source ts i = scan source

theorem ends_walkText (source : Source) (hrounds : utf8Length source.text.toList < rounds) :
    Ends source.HasPosition Position.index source.start (walkText rounds) fun r q =>
      r = Walk.ofOutcome (scan source) ∧ ∀ ts, r = .ok ts → q = source.position source.text.toList.length := by
  have hstart : source.start = source.position 0 := rfl
  rw [hstart]
  refine Walk.ends_loop (Continues source) ?_ (fun _ => index_le_of_hasPosition) (hasPosition (Nat.zero_le _))
    ⟨0, Nat.zero_le _, rfl, outcomeFrom_zero source⟩ (Nat.lt_of_lt_of_le hrounds (Nat.le_add_left _ _))
  rintro ts _ - ⟨i, hi, rfl, hscan⟩
  refine (ends_textRound ts hi hrounds).mono (fun _ h => h) ?_
  rintro ((d | -) | (us | us)) q - - hround
  · refine ⟨?_, nofun⟩
    rw [← hscan]
    exact congrArg Walk.ofOutcome hround.symm
  · exact hround.elim
  · obtain ⟨j, hij, hj, rfl, hus⟩ := hround
    exact ⟨⟨j, hj, rfl, hus.symm.trans hscan⟩, index_lt hij hj⟩
  · obtain ⟨hus, rfl⟩ := hround
    refine ⟨?_, fun _ _ => rfl⟩
    rw [← hscan]
    exact congrArg Walk.ofOutcome hus.symm

/-- A round that begins at character `i` goes on by a character at least, or stops. -/
def GoesOn {β γ : Type} (source : Source) (i : Nat) : Except Walk.Stop (β ⊕ γ) → Position → Prop
  | .ok (.inl _), q => ∃ j, i < j ∧ j ≤ source.text.toList.length ∧ q = source.position j
  | .error .fault, _ => False
  | _, _ => True

theorem ends_lexemeRound_goesOn {β : Type} (goesOn : β → Char → Option β) (b : β) (hi : i ≤ source.text.toList.length) :
    source.EndsFrom i (lexemeRound goesOn b) (GoesOn source i) := by
  refine (ends_lexemeRound goesOn b hi).mono (fun _ h => h) fun r q _ _ hround => ?_
  cases hnext : source.text.toList[i]?.bind (goesOn b) with
  | none =>
    rw [hnext] at hround
    obtain ⟨rfl, -⟩ := hround
    exact trivial
  | some b' =>
    rw [hnext] at hround
    obtain ⟨rfl, hq, hlt⟩ := hround
    exact ⟨i + 1, Nat.lt_succ_self i, hlt, hq⟩

theorem ends_textRound_goesOn (ts : List Token) (hi : i ≤ source.text.toList.length)
    (hrounds : utf8Length source.text.toList < rounds) :
    source.EndsFrom i (textRound rounds ts) (GoesOn source i) := by
  refine (ends_textRound ts hi hrounds).mono (fun _ h => h) ?_
  rintro ((d | -) | (us | us)) q - - hround
  · exact trivial
  · exact hround
  · obtain ⟨j, hij, hj, hq, -⟩ := hround
    exact ⟨j, hij, hj, hq⟩
  · exact trivial

end

end Token

/-- **Positions keep to the characters.** The position behind the first `i` characters counts their bytes, their line
feeds, and the characters behind the last of these, and the character behind it is the next one; what lies between two
positions is cut out of the text exactly. The scanner comes to no other positions. Each round of its loops goes on by a
character at least, or stops, and none asks for a text that cannot be cut out. So it comes to an end, and to the outcome
of the text. -/
theorem Source.position_counts (source : Source) :
    (∀ i, let p := source.position i
      let passed := source.text.toList.take i
      p.index = (String.ofList passed).utf8ByteSize ∧ p.line = passed.count '\n' ∧
        p.column = (passed.rtakeWhile (· ≠ '\n')).length ∧ p.peek? = source.text.toList[i]?) ∧
    (∀ i j, i ≤ j → (⟨source.position i, source.position j⟩ : Span).text =
      some (String.ofList ((source.text.toList.take j).drop i))) ∧
    ∀ rounds, source.text.utf8ByteSize < rounds →
      (∀ i, i ≤ source.text.toList.length →
        (∀ seenPoint, source.EndsFrom i (Token.lexemeRound Token.numeralGoesOn seenPoint) (Token.GoesOn source i)) ∧
          source.EndsFrom i (Token.lexemeRound Token.wordGoesOn ()) (Token.GoesOn source i) ∧
          ∀ ts, source.EndsFrom i (Token.textRound rounds ts) (Token.GoesOn source i)) ∧
      Ends source.HasPosition Position.index source.start (Token.walkText rounds) fun r p =>
        r = Walk.ofOutcome (Token.scan source) ∧
          ∀ ts, r = .ok ts → p = source.position source.text.toList.length := by
  have hsize : source.text.utf8ByteSize = utf8Length source.text.toList := by
    rw [utf8Length_eq_utf8ByteSize, String.ofList_toList]
  refine ⟨?_, fun i j => source.text_between, ?_⟩
  · intro i p passed
    refine ⟨?_, ?_, source.column_start_advanceAll passed, source.peek?_position i⟩
    · rw [← utf8Length_eq_utf8ByteSize]
      exact source.index_position i
    · exact (source.start.line_advanceAll passed).trans (Nat.zero_add _)
  · intro rounds hrounds
    rw [hsize] at hrounds
    refine ⟨fun i hi => ⟨?_, ?_, ?_⟩, Token.ends_walkText source hrounds⟩
    · exact fun seenPoint => Token.ends_lexemeRound_goesOn _ seenPoint hi
    · exact Token.ends_lexemeRound_goesOn _ () hi
    · exact fun ts => Token.ends_textRound_goesOn ts hi hrounds

/-- A text of two lines, with a character of two bytes. -/
def accented : Source :=
  ⟨"<stdin>", "1.5é\nz"⟩

/-- Five characters are six bytes here, and the scanner stops behind the numeral. -/
theorem Source.position_counts_accented :
    (accented.position 5).index = (String.ofList ['1', '.', '5', 'é', '\n']).utf8ByteSize ∧
    (accented.position 5).line = 1 ∧
    (⟨accented.position 3, accented.position 5⟩ : Span).text = some "é\n" ∧
    (∃ r p trail, Token.walkText 8 ⟨accented.start, []⟩ = some (r, ⟨p, trail ++ []⟩) ∧
      r = .error (.refused ⟨.illegalCharacter 'é', accented.between 3 4, none⟩) ∧
      ∀ q ∈ p :: trail, accented.HasPosition q) := by
  obtain ⟨hcounts, htext, hwalk⟩ := Source.position_counts accented
  have hscan : Token.scan accented = .error ⟨.illegalCharacter 'é', accented.between 3 4, none⟩ := by decide +kernel
  obtain ⟨-, r, p, trail, hrun, ⟨hr, -⟩, hall, -⟩ := hwalk 8 (by decide +kernel)
  rw [hscan] at hr
  exact ⟨(hcounts 5).1, (hcounts 5).2.1, htext 3 5 (by decide), r, p, trail, hrun [], hr, fun q hq => (hall q hq).1⟩

end Reckoner
