import Reckoner.Proofs.Token.Split

/-!
# Where the tokens of a text stand

The tokens of a text stand one behind the other, and none is empty. A text that has tokens is of plain characters all
through, so the places of its tokens count its characters (`Token.exists_inOrder_of_scan`), and what lies between two of
them can be cut out of it (`Source.covers_byte`).
-/

namespace Reckoner

/-- No token is empty, and each ends in front of all that follow. -/
structure Token.InOrder (ts : List Token) : Prop where
  nonempty : ∀ t ∈ ts, t.span.start.index < t.span.stop.index
  ordered : ts.Pairwise fun t u => t.span.stop.index ≤ u.span.start.index

/-- The span begins and ends where a walk over the text comes by, and the characters between are its text. There is at
least one. -/
def Span.Covers (s : Span) (source : Source) : Prop :=
  ∃ before text after : List Char, source.text.toList = before ++ (text ++ after) ∧ text ≠ [] ∧
    s.start = source.start.advanceAll before ∧ s.stop = s.start.advanceAll text ∧ s.text = some (String.ofList text)

theorem Token.InOrder.sublist {ts us : List Token} (h : InOrder ts) (hus : us.Sublist ts) : InOrder us :=
  ⟨fun t ht => h.nonempty t (hus.subset ht), h.ordered.sublist hus⟩

theorem Token.InOrder.stop_le_start {us vs : List Token} (h : InOrder (us ++ vs)) {t u : Token} (ht : t ∈ us)
    (hu : u ∈ vs) : t.span.stop.index ≤ u.span.start.index :=
  (List.pairwise_append.mp h.ordered).2.2 t ht u hu

/-! ## Plain texts -/

theorem utf8Length_of_plain {cs : List Char} (h : ∀ c ∈ cs, Plain c) : utf8Length cs = cs.length := by
  induction cs with
  | nil => rfl
  | cons c cs ih =>
    obtain ⟨hc, hcs⟩ := List.forall_mem_cons.mp h
    rw [utf8Length_cons, ih hcs, hc.2, List.length_cons, Nat.add_comm]

theorem Pieces.plain {cs : List Char} {pieces : List Piece} (h : Pieces cs pieces) : ∀ c ∈ cs, Plain c := by
  induction h with
  | nil => exact fun _ hc => absurd hc List.not_mem_nil
  | cons hlexeme hblanks _ _ ih =>
    exact List.forall_mem_append.mpr ⟨hlexeme.plain, List.forall_mem_append.mpr ⟨hblanks.plain, ih⟩⟩

theorem Split.plain {text lead : List Char} {pieces : List Piece} (h : Split text lead pieces) :
    ∀ c ∈ text, Plain c := by
  obtain ⟨hlead, rest, rfl, hpieces⟩ := h
  exact List.forall_mem_append.mpr ⟨hlead.plain, hpieces.plain⟩

/-- In a plain text, what lies between two places is covered. -/
theorem Source.covers_byte {source : Source} (hplain : ∀ c ∈ source.text.toList, Plain c) {i j : Nat} (hij : i < j)
    (hj : j ≤ utf8Length source.text.toList) : (source.bytes i j).Covers source := by
  let cs := source.text.toList
  rw [utf8Length_of_plain hplain] at hj
  let before := cs.take i
  let text := (cs.drop i).take (j - i)
  let after := (cs.drop i).drop (j - i)
  have hcs : cs = before ++ (text ++ after) := by
    rw [List.take_append_drop, List.take_append_drop]
  have hbefore : utf8Length before = i := by
    rw [utf8Length_of_plain fun c hc => hplain c (List.mem_of_mem_take hc), List.length_take]
    omega
  have htext : utf8Length text = j - i := by
    rw [utf8Length_of_plain fun c hc => hplain c (List.mem_of_mem_drop (List.mem_of_mem_take hc)), List.length_take,
      List.length_drop]
    omega
  have hstop : i + utf8Length text = j := by omega
  refine ⟨before, text, after, hcs, ?_, ?_, ?_, ?_⟩
  · intro hnil
    rw [hnil, utf8Length_nil] at htext
    omega
  · change source.byte i = (source.byte 0).advanceAll before
    rw [Source.advanceAll_byte fun c hc => hplain c (List.mem_of_mem_take hc), hbefore, Nat.zero_add]
  · change source.byte j = (source.byte i).advanceAll text
    rw [Source.advanceAll_byte fun c hc => hplain c (List.mem_of_mem_drop (List.mem_of_mem_take hc)), hstop]
  · have hslice := slice_append before text after
    rw [← hcs, hbefore, hstop] at hslice
    exact congrArg (Option.map String.ofList) hslice

/-! ## The places of tokens -/

theorem Lexeme.utf8Length_pos {lexeme : List Char} {kind : Token.Kind} (h : Lexeme lexeme kind) :
    0 < utf8Length lexeme := by
  obtain ⟨c, cs, rfl, -⟩ := h.exists_cons
  rw [utf8Length_cons]
  exact Nat.add_pos_left c.utf8Size_pos _

namespace Token

variable {source : Source} {ts : List Token} {cs : List Char} {pieces : List Piece} {i : Nat}

/-- The tokens of pieces stand among the characters of the pieces. -/
theorem exists_byte_of_mem_tokensAt (h : Pieces cs pieces) : ∀ t ∈ source.tokensAt i pieces, ∃ a b,
    t.span = source.bytes a b ∧ i ≤ a ∧ a < b ∧ b ≤ i + utf8Length cs := by
  induction h generalizing i with
  | nil => exact fun _ ht => absurd ht List.not_mem_nil
  | @cons lexeme blanks rest kind pieces hlexeme _ _ _ ih =>
    have hpos := hlexeme.utf8Length_pos
    simp only [utf8Length_append]
    refine List.forall_mem_cons.mpr ⟨?_, fun t ht => ?_⟩
    · exact ⟨i, i + utf8Length lexeme, rfl, Nat.le_refl _, by omega, by omega⟩
    · obtain ⟨a, b, hspan, ha, hab, hb⟩ := ih t ht
      dsimp only at ha hb
      exact ⟨a, b, hspan, by omega, hab, by omega⟩

theorem inOrder_tokensAt (h : Pieces cs pieces) : InOrder (source.tokensAt i pieces) := by
  refine ⟨?_, ?_⟩
  · intro t ht
    obtain ⟨a, b, hspan, -, hab, -⟩ := exists_byte_of_mem_tokensAt h t ht
    rw [hspan]
    exact hab
  · induction h generalizing i with
    | nil => exact .nil
    | cons _ _ _ hpieces ih =>
      refine List.pairwise_cons.mpr ⟨fun t ht => ?_, ih⟩
      obtain ⟨a, b, hspan, ha, -⟩ := exists_byte_of_mem_tokensAt hpieces t ht
      rw [hspan]
      exact Nat.le_trans (Nat.le_add_right _ _) ha

/-- A text that has tokens has no other characters than those of its lexemes and blanks. -/
theorem plain_of_scan (h : scan source = .ok ts) : ∀ c ∈ source.text.toList, Plain c := by
  obtain ⟨lead, pieces, hsplit, -⟩ := scan_eq_ok_iff.mp h
  exact hsplit.plain

/-- The tokens of a text are the end, and in front of it tokens in order. -/
theorem exists_inOrder_of_scan (h : scan source = .ok ts) : ∃ us,
    ts = us ++ [source.eofAt (utf8Length source.text.toList)] ∧ (∀ t ∈ us, t.isEof = false) ∧ InOrder us ∧
    ∀ t ∈ us, ∃ a b, t.span = source.bytes a b ∧ a < b ∧ b ≤ utf8Length source.text.toList := by
  obtain ⟨lead, pieces, ⟨-, rest, htext, hpieces⟩, rfl⟩ := scan_eq_ok_iff.mp h
  obtain ⟨us, stop, hus, -, hends⟩ := terminated_of_scan h
  obtain ⟨rfl, -⟩ := List.append_inj' hus rfl
  refine ⟨_, rfl, hends, inOrder_tokensAt hpieces, fun t ht => ?_⟩
  obtain ⟨a, b, hspan, -, hab, hb⟩ := exists_byte_of_mem_tokensAt hpieces t ht
  rw [htext, utf8Length_append]
  exact ⟨a, b, hspan, hab, hb⟩

end Token

end Reckoner
