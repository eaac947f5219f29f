import Reckoner.Proofs.Grammar.Unplaced

/-!
# What stands behind an end

To the reader an end is like the end of the list. No rule reads one, and in front of it each comes to the same tree, or
stops for the same problem, as if nothing followed (`read_append_end`). That is seen from how rules fail: none of the
ways to fail tells an end from no token at all (`Fails.replace_none`).

So it makes no difference whether the tokens from the first end on are cut off, or are handed to the reader as well
(`ofTokens_eq_ofWhole`), and nothing that stands behind an end is looked at (`ofTokens_take_end`).
-/

namespace Reckoner.Expr

/-! ## The reader in front of an end -/

/-- A reading that leaves `more` behind what it leaves. -/
def leaving (more : List Token) : Except Stuck (Expr × List Token) → Except Stuck (Expr × List Token)
  | .ok (tree, rest) => .ok (tree, rest ++ more)
  | .error stuck => .error ⟨stuck.problem, stuck.rest ++ more⟩

section

variable {rule : Rule} {d : Nat} {us : List Token} {stop : Token} {problem : SyntaxProblem}

theorem Rule.starts_eof (rule : Rule) : rule.starts .eof = false := by
  cases rule <;> rfl

theorem Rule.continues_eof (rule : Rule) : rule.continues .eof = false := by
  cases rule with
  | chain c => cases c <;> rfl
  | _ => rfl

theorem Rule.stops_end (rule : Rule) (hstop : stop.isEof = true) (rest : List Token) : rule.Stops (stop :: rest) := by
  rw [stops_cons, Token.kind_of_isEof hstop]
  exact rule.continues_eof

/-- What fails where there are no more tokens fails in the same way in front of an end. -/
theorem Fails.replace_none (h : Fails rule d us none problem) (hstop : stop.isEof = true) :
    Fails rule d us (some stop) problem := by
  have hkind : stop.kind = .eof := Token.kind_of_isEof hstop
  generalize hnext : (none : Option Token) = next at h
  induction h with
  | expression _ =>
    refine .expression ?_
    rintro _ ⟨rfl⟩
    rw [hkind]
    exact Rule.starts_eof _
  | name k s _ =>
    refine .name k s ?_
    rintro _ ⟨rfl⟩ name
    rw [hkind]
    exact nofun
  | equals k name s nameSpan _ =>
    refine .equals k name s nameSpan ?_
    rintro _ ⟨rfl⟩
    rw [hkind]
    exact nofun
  | declaration k name s nameSpan s' _ ih => exact .declaration k name s nameSpan s' (ih hnext)
  | @sum _ us _ _ _ hstart ih =>
    subst hnext
    obtain ⟨t, ht, hkind⟩ := hstart
    rw [Option.or_none] at ht
    exact .sum (ih rfl) ⟨t, by rw [ht]; rfl, hkind⟩
  | firstOperand _ ih => exact .firstOperand (ih hnext)
  | chainTooDeep _ _ _ => cases hnext
  | nextOperand hleft hop hd _ ih => exact .nextOperand hleft hop hd (ih hnext)
  | signTooDeep _ _ => cases hnext
  | signed hop hd _ ih => exact .signed hop hd (ih hnext)
  | @unsigned _ us _ _ _ hsign ih =>
    subst hnext
    refine .unsigned (ih rfl) fun t ht => ?_
    rcases us with _ | ⟨u, us⟩
    · cases ht
      rw [hkind]
      rfl
    · exact hsign t ht
  | base _ ih => exact .base (ih hnext)
  | caretTooDeep _ _ _ => cases hnext
  | exponent s hbase hd _ ih => exact .exponent s hbase hd (ih hnext)
  | leftParenTooDeep _ _ => cases hnext
  | group s hd _ ih => exact .group s hd (ih hnext)
  | rightParen s hd hinner _ _ =>
    refine .rightParen s hd hinner ?_ ?_ <;> rintro _ ⟨rfl⟩ <;> rw [hkind]
    · exact Rule.continues_eof _
    · exact nofun
  | atom _ =>
    refine .atom ?_
    rintro _ ⟨rfl⟩
    rw [hkind]
    exact Rule.starts_eof _

/-- **No rule reads an end.** What stands behind one makes no difference, and neither does the end itself: all of it is
left behind what a rule leaves of the tokens in front, be it that the rule has read them or that it fails. -/
theorem read_append_end {room : Nat} (hroom : room ≤ maxDepth) (hstop : stop.isEof = true) (us rest : List Token) :
    read rule room (us ++ stop :: rest) = leaving (stop :: rest) (read rule room us) := by
  have hd : room + (maxDepth - room) = maxDepth := Nat.add_sub_cancel' hroom
  have hlevel : room = maxDepth - (maxDepth - room) := by omega
  cases hread : read rule room us with
  | error stuck =>
    obtain ⟨problem, left⟩ := stuck
    obtain ⟨vs, rfl, hfails⟩ := exists_fails_of_read hd hread
    rw [hlevel, List.append_assoc]
    cases left with
    | nil => exact (hfails.replace_none hstop).blocks.stuck (stop :: rest) rfl
    | cons t left => exact hfails.blocks.stuck (t :: left ++ stop :: rest) rfl
  | ok p =>
    obtain ⟨tree, left⟩ := p
    obtain ⟨vs, rfl, hderives, hstops⟩ := exists_derives_of_read hd hread
    rw [hlevel, List.append_assoc]
    cases left with
    | nil => exact hderives.read_eq (stop :: rest) (rule.stops_end hstop rest)
    | cons t left => exact hderives.read_eq (t :: left ++ stop :: rest) hstops

end

/-! ## Whole lists of tokens -/

/-- The expression that the tokens up to the first end make up, when all tokens are handed to the reader. -/
def ofWhole (ts : List Token) : Outcome Expr :=
  match read .expression maxDepth ts with
  | .error stuck => .error (.ofSyntax stuck.problem (stopSpan stuck.rest (endSpan ts)))
  | .ok (tree, rest) =>
    if rest.head?.all Token.isEof then .ok tree
    else .error (.ofSyntax .expectedOperator (stopSpan rest (endSpan ts)))

section

variable {ts us : List Token} {stop : Token}

/-- A list with an end has a first one. -/
theorem exists_first_end {i : Nat} (h : ts[i]? = some stop) (hstop : stop.isEof = true) :
    ∃ us first rest, ts = us ++ first :: rest ∧ us.length ≤ i ∧ first.isEof = true ∧ ∀ t ∈ us, t.isEof = false := by
  cases hfind : ts.find? Token.isEof with
  | none =>
    have hnone := List.find?_eq_none.mp hfind stop (List.mem_of_getElem? h)
    exact absurd hstop hnone
  | some first =>
    obtain ⟨hfirst, us, rest, rfl, hus⟩ := List.find?_eq_some_iff_append.mp hfind
    have hus : ∀ t ∈ us, t.isEof = false := fun t ht => by simpa using hus t ht
    refine ⟨us, first, rest, rfl, ?_, hfirst, hus⟩
    by_contra hlt
    rw [List.getElem?_append_left (by omega)] at h
    rw [hus stop (List.mem_of_getElem? h)] at hstop
    cases hstop

theorem stopSpan_append_cons (left rest : List Token) (s : Span) :
    stopSpan (left ++ stop :: rest) s = stopSpan left stop.span := by
  cases left <;> rfl

/-- Cutting off what the reader leaves unread anyway makes no difference. -/
theorem ofTokens_eq_ofWhole (ts : List Token) : ofTokens ts = ofWhole ts := by
  by_cases hends : ∀ t ∈ ts, t.isEof = false
  · rw [ofTokens, body_eq_self hends, ofWhole]
    rcases hread : read .expression maxDepth ts with ⟨problem, rest⟩ | ⟨tree, rest⟩
    · exact ofBody_of_read_eq_error _ hread
    obtain ⟨us, rfl, -⟩ := exists_derives_of_read (d := 0) rfl hread
    cases rest with
    | nil => exact ofBody_eq_ok_iff.mpr hread
    | cons t rest =>
      rw [ofBody_of_read_eq_ok_cons _ hread]
      simp [hends t (List.mem_append_right us List.mem_cons_self)]
  · simp only [not_forall, Bool.not_eq_false] at hends
    obtain ⟨stop, hmem, hstop⟩ := hends
    obtain ⟨i, hi⟩ := List.mem_iff_getElem?.mp hmem
    obtain ⟨us, first, rest, rfl, -, hfirst, hus⟩ := exists_first_end hi hstop
    rw [ofTokens_append_cons_stop hus hfirst, ofWhole, endSpan_append_cons_stop hus hfirst,
      read_append_end (Nat.le_refl _) hfirst]
    rcases hread : read .expression maxDepth us with ⟨problem, left⟩ | ⟨tree, left⟩
    · rw [ofBody_of_read_eq_error _ hread]
      simp only [leaving, stopSpan_append_cons]
    obtain ⟨vs, rfl, -⟩ := exists_derives_of_read (d := 0) rfl hread
    cases left with
    | nil =>
      rw [ofBody_eq_ok_iff.mpr hread]
      simp [leaving, hfirst]
    | cons t left =>
      rw [ofBody_of_read_eq_ok_cons _ hread]
      simp [leaving, hus t (List.mem_append_right vs List.mem_cons_self), stopSpan]

end

/-- **Nothing behind an end counts.** A list of tokens comes to what its tokens up to any of its ends come to, be it a
tree or a diagnostic. A list without an end comes to what it does with an end behind its last token. And it makes no
difference if all tokens are handed to the reader: it leaves those unread that stand behind the first end. -/
theorem ofTokens_take_end (ts : List Token) :
    (∀ i stop, ts[i]? = some stop → stop.isEof = true → ofTokens ts = ofTokens (ts.take (i + 1))) ∧
    (∀ last, ts.getLast? = some last → (∀ t ∈ ts, t.isEof = false) →
      ofTokens ts = ofTokens (ts ++ [⟨.eof, .atEnd last.span.stop⟩])) ∧
    ofTokens ts = ofWhole ts := by
  refine ⟨fun i stop hi hstop => ?_, fun last hlast hts => ?_, ofTokens_eq_ofWhole ts⟩
  · obtain ⟨us, first, rest, rfl, hle, hfirst, hus⟩ := exists_first_end hi hstop
    have htake : (us ++ first :: rest).take (i + 1) = us ++ first :: rest.take (i - us.length) := by
      rw [List.take_append, List.take_of_length_le (by omega), Nat.sub_add_comm hle, List.take_succ_cons]
    rw [htake, ofTokens_append_cons_stop hus hfirst, ofTokens_append_cons_stop hus hfirst]
  · rw [ofTokens_of_getLast? hlast hts, ofTokens_append_stop hts rfl]

/-- The tokens of `(1)`, with an end in front of the closing parenthesis and one behind it. -/
def severed (source : Source) : List Token :=
  [⟨.leftParen, source.bytes 0 1⟩, ⟨.number (.int 1), source.bytes 1 2⟩, ⟨.eof, source.bytes 2 3⟩,
    ⟨.rightParen, source.bytes 3 4⟩, ⟨.eof, source.bytes 4 5⟩]

/-- The parenthesis behind the first end closes nothing. -/
theorem ofTokens_take_end_severed :
    let source : Source := ⟨"<stdin>", "(1 )"⟩
    let ts := severed source
    ofTokens ts = .error (.ofSyntax .expectedRightParen (source.bytes 2 3)) ∧
      ofTokens ts = ofTokens (ts.take 3) ∧ ofTokens ts = ofTokens (ts.take 5) ∧
      ofTokens (ts.take 2) = ofTokens (ts.take 3) := by
  intro source ts
  obtain ⟨hends, -, -⟩ := ofTokens_take_end ts
  obtain ⟨-, hopen, -⟩ := ofTokens_take_end (ts.take 2)
  exact ⟨by decide +kernel, hends 2 _ rfl rfl, hends 4 _ rfl rfl, hopen _ rfl (by decide)⟩

end Reckoner.Expr
