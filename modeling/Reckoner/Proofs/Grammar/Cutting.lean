import Reckoner.Proofs.Grammar.Frontier
import Reckoner.Proofs.Grammar.Relocation
import Reckoner.Proofs.Token.Blanks

/-!
# Cut texts

A text that is cut off behind one of its tokens has the tokens up to there, and its end directly behind the last of them
(`Token.exists_scanAt_cut`). The tokens themselves, cut off at the same place, have no end, and it is reported behind
the last of them too. So it makes no difference whether a text is cut before it is scanned or its tokens after that:
both are read to the same tree, or are refused for the same problem at the same place (`ofTokens_cut`). Only the source
that the places belong to is another, for its text is shorter.
-/

namespace Reckoner

/-! ## The same places in another source -/

/-- The same place in another source. -/
def Position.inSource (source : Source) (p : Position) : Position :=
  { p with source }

def Span.inSource (source : Source) (s : Span) : Span :=
  ⟨s.start.inSource source, s.stop.inSource source⟩

/-- Not to move along is to be in another source only. -/
theorem Position.moved_zero (source : Source) (p : Position) : p.moved source 0 = p.inSource source := by
  simp [moved, inSource]

theorem Token.moved_zero (source : Source) : Token.moved source 0 = Token.mapSpan (Span.inSource source) := by
  funext t
  simp only [Token.moved, Token.mapSpan, Span.moved, Span.inSource, Position.moved_zero]

theorem Span.distributes_inSource (source : Source) : Span.Distributes (Span.inSource source) :=
  fun _ _ => rfl

namespace Token

/-! ## The tokens of a cut text -/

variable {p : Position} {cs : List Char} {ts : List Token} {k : Nat}

/-- A text has a beginning with just its first `k + 1` tokens, which ends where the last of them does. -/
theorem exists_scanAt_cut (h : scanAt p cs = .ok ts) (hk : k + 1 < ts.length) :
    ∃ front rest last, cs = front ++ rest ∧ ts[k]? = some last ∧ last.span.stop = p.advanceAll front ∧
      scanAt p front = .ok (ts.take (k + 1) ++ [⟨.eof, .atEnd last.span.stop⟩]) := by
  induction p, cs using scanAt.induct generalizing ts k with
  | case1 p =>
    rw [scanAt_nil] at h
    cases h
    simp at hk
  | case2 p c cs hb ih =>
    rw [scanAt_blank hb] at h
    obtain ⟨front, rest, last, rfl, hlast, hstop, hfront⟩ := ih h hk
    exact ⟨c :: front, rest, last, rfl, hlast, hstop, (scanAt_blank hb).trans hfront⟩
  | case3 p c cs hb lexeme problem =>
    rename_i hl
    rw [scanAt_problem hb rfl hl] at h
    cases h
  | case4 p c cs hb lexeme rest stop kind =>
    rename_i hl ih
    have hmunch : munch c cs = (lexeme, rest) := rfl
    have htext : c :: cs = lexeme ++ rest := (append_munch c cs).symm
    rw [scanAt_lexeme hb hmunch hl] at h
    obtain ⟨us, hus, rfl⟩ := Except.map_eq_ok_iff.mp h
    obtain ⟨hlexeme, hends⟩ : Lexeme lexeme kind ∧ kind.Ends rest := lexeme_of_munch hl
    cases k with
    | zero =>
      refine ⟨lexeme, rest, ⟨kind, ⟨p, stop⟩⟩, htext, rfl, rfl, ?_⟩
      have halone := scanAt_lexeme_append (p := p) hlexeme (hends.replace (replaces_nil rest))
      rwa [List.append_nil, scanAt_nil] at halone
    | succ k =>
      obtain ⟨front, rest', last, hrest, hlast, hstop, hfront⟩ := ih hus (by simpa using hk)
      -- the lexeme ends in front of the shorter text as well, which begins alike or is empty
      have hshorter : Replaces front rest := by
        rw [hrest]
        simpa using (replaces_nil rest').append front
      refine ⟨lexeme ++ front, rest', last, ?_, hlast, ?_, ?_⟩
      · rw [htext, hrest, List.append_assoc]
      · rw [hstop, Position.advanceAll_append]
      · have hplace : scanAt (p.advanceAll lexeme) front = scanAt stop front := rfl
        rw [scanAt_lexeme_append hlexeme (hends.replace hshorter), hplace, hfront]
        rfl

/-- The text in front of the end of token `k` has the tokens up to there. -/
theorem exists_scan_cut {source : Source} (h : scan source = .ok ts) (hk : k + 1 < ts.length) :
    ∃ last text, ts[k]? = some last ∧ slice 0 last.span.stop.index source.text.toList = some text ∧
      let cut : Source := ⟨source.name, String.ofList text⟩
      scan cut = .ok ((ts.take (k + 1)).map (mapSpan (.inSource cut)) ++
        [⟨.eof, .atEnd (last.span.stop.inSource cut)⟩]) := by
  obtain ⟨front, rest, last, htext, hlast, hstop, hfront⟩ := exists_scanAt_cut h hk
  refine ⟨last, front, hlast, ?_, ?_⟩
  · have hslice := slice_append [] front rest
    rw [hstop, source.index_start_advanceAll, htext]
    simpa using hslice
  · intro cut
    have hmoved := scanAt_moved cut 0 source.start front
    rw [Position.moved_start, hfront, moved_zero] at hmoved
    have hstart : cut.byte 0 = cut.start := rfl
    rw [scan, String.toList_ofList, ← hstart, hmoved, Except.map, List.map_append]
    rfl

end Token

namespace Expr

/-- **Cutting the tokens of a text is cutting the text.** The text that ends with the `k`-th token has the first `k`
tokens, with the same kinds and at the same places, and its end directly behind. And it makes no difference to what is
read, whether it is these tokens or the first `k` of the whole text, which have no end: the tree is the same, or the
diagnostic, at the same places, in the text that is cut. -/
theorem ofTokens_cut {source : Source} {ts : List Token} {k : Nat} (hscan : Token.scan source = .ok ts) (hpos : 1 ≤ k)
    (hk : k < ts.length) :
    ∃ last text, ts[k - 1]? = some last ∧ slice 0 last.span.stop.index source.text.toList = some text ∧
      let cut : Source := ⟨source.name, String.ofList text⟩
      let tokens := (ts.take k).map (Token.mapSpan (.inSource cut)) ++
        [⟨.eof, .atEnd (last.span.stop.inSource cut)⟩]
      Token.scan cut = .ok tokens ∧
      ofTokens tokens =
        ((ofTokens (ts.take k)).map (mapSpan (.inSource cut))).mapError (Diagnostic.mapSpan (.inSource cut)) := by
  obtain ⟨k, rfl⟩ : ∃ n, k = n + 1 := ⟨k - 1, by omega⟩
  obtain ⟨last, text, hlast, htext, hcut⟩ := Token.exists_scan_cut hscan hk
  obtain ⟨us, stop, rfl, -, hus⟩ := Token.terminated_of_scan hscan
  have hle : k + 1 ≤ us.length := by simpa [Nat.succ_le_iff] using hk
  have htake : (us ++ [stop]).take (k + 1) = us.take (k + 1) := List.take_append_of_le_length hle
  have hus' : ∀ t ∈ us.take (k + 1), t.isEof = false := fun t ht => hus t (List.mem_of_mem_take ht)
  have hgetLast : (us.take (k + 1)).getLast? = some last := by
    rw [List.getElem?_append_left hle] at hlast
    rw [List.getLast?_eq_getElem?, List.length_take, Nat.min_eq_left hle, Nat.add_sub_cancel,
      List.getElem?_take_of_lt (Nat.lt_succ_self k), hlast]
  rw [htake] at hcut ⊢
  refine ⟨last, text, hlast, htext, hcut, ?_⟩
  · have hmapped (g : Span → Span) : ∀ t ∈ (us.take (k + 1)).map (Token.mapSpan g), t.isEof = false :=
      List.forall_mem_map.mpr hus'
    rw [ofTokens_append_stop (hmapped _) rfl, ofTokens_of_getLast? hgetLast hus',
      ← ofBody_mapSpan (Span.distributes_inSource _)]
    rfl

/-- Where `(2 *) x` is cut in front of its closing parenthesis, an operand is missing. -/
theorem ofTokens_cut_unfinished :
    let source : Source := ⟨"<stdin>", "(2 *) x"⟩
    let cut : Source := ⟨"<stdin>", "(2 *"⟩
    ∃ ts, Token.scan source = .ok ts ∧ 3 < ts.length ∧
      ofTokens (ts.take 3) = .error (.ofSyntax .expectedOperand (.atEnd (source.byte 4))) ∧
      ∃ us, Token.scan cut = .ok us ∧ ofTokens us = .error (.ofSyntax .expectedOperand (.atEnd (cut.byte 4))) := by
  intro source cut
  let ts : List Token :=
    [⟨.leftParen, source.bytes 0 1⟩, ⟨.number (.int 2), source.bytes 1 2⟩, ⟨.star, source.bytes 3 4⟩,
      ⟨.rightParen, source.bytes 4 5⟩, ⟨.identifier "x", source.bytes 6 7⟩, source.eofAt 7]
  have hscan : Token.scan source = .ok ts := by decide +kernel
  have hread : ofTokens (ts.take 3) = .error (.ofSyntax .expectedOperand (.atEnd (source.byte 4))) := by
    decide +kernel
  obtain ⟨last, text, hlast, htext, hcut, hof⟩ := ofTokens_cut hscan (show 1 ≤ 3 by decide) (by decide)
  obtain rfl : _ = last := Option.some.inj hlast
  have htext' : slice 0 4 source.text.toList = some "(2 *".toList := by decide +kernel
  obtain rfl : _ = text := Option.some.inj (htext'.symm.trans htext)
  rw [String.ofList_toList] at hcut hof
  rw [hread] at hof
  exact ⟨ts, hscan, by decide, hread, _, hcut, hof⟩

end Expr

end Reckoner
