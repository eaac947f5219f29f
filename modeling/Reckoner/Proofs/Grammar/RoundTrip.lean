import Reckoner.Proofs.Grammar.Unplaced
import Reckoner.Proofs.Token.Spelling

/-!
# Printed expressions are read back

The parentheses of the printer make every operation an atom, so what a tree is printed with is derived as an atom, with
that tree, at each level that leaves room for what it holds (`exists_derives_of_map_kind`). Where there is less room,
the first parenthesis, sign or operator beyond the last level blocks the reader (`exceeds_of_map_kind`).

So the text of a legible tree always has tokens, and they are read to the tree, up to its spans, if and only if the
levels that it needs do not exceed `maxDepth`; else it is nested too deeply (`ofTokens_render`).
-/

namespace Reckoner.Expr

/-- The levels of nesting that the printed tree takes: one for its parenthesis, and one more for what stands behind a
sign or an operator. -/
def need : Expr → Nat
  | literal _ _ | access _ _ => 0
  | unary _ operand _ => 2 + operand.need
  | binary left _ right _ => max (1 + left.need) (2 + right.need)
  | assign _ _ value _ => 1 + value.need

end Expr

theorem Sign.sign?_kind (op : Sign) : op.kind.sign? = some op := by
  cases op <;> rfl

/-- An operator belongs to a chain, or makes a power. -/
theorem Op.exists_chain_or_eq_pow (op : Op) : (∃ c : Expr.Chain, c.op? op.kind = some op) ∨ op = .pow := by
  cases op with
  | add | sub => exact Or.inl ⟨.sum, rfl⟩
  | mul | div => exact Or.inl ⟨.product, rfl⟩
  | pow => exact Or.inr rfl

namespace Expr

variable {d : Nat} {rule : Rule} {ts us vs : List Token} {tree : Expr}

/-! ## Atoms in every place -/

theorem Derives.factor (h : Derives .atom d ts tree) : Derives .factor d ts tree :=
  .unsigned (.base h)

theorem Derives.operand (h : Derives .atom d ts tree) (c : Chain) : Derives c.operand d ts tree :=
  match c with
  | .sum => .chain (.first h.factor)
  | .product => h.factor

theorem Derives.expression (h : Derives rule d ts tree) : Derives .expression d ts tree :=
  match rule with
  | .expression => h
  | .chain .sum => .sum h
  | .chain .product => .sum (.chain (.first h))
  | .factor => .sum (.chain (.first (.chain (.first h))))
  | .power => .sum (.chain (.first (.chain (.first (.unsigned h)))))
  | .atom => .sum (.chain (.first (h.operand .sum)))

/-! ## The tokens of a tree -/

/-- Tokens in parentheses. -/
theorem exists_group_of_map_kind_eq {kinds : List Token.Kind}
    (h : ts.map Token.kind = .leftParen :: (kinds ++ [.rightParen])) :
    ∃ s us s', ts = ⟨.leftParen, s⟩ :: (us ++ [⟨.rightParen, s'⟩]) ∧ us.map Token.kind = kinds := by
  obtain ⟨⟨_, s⟩, ts, rfl, rfl, hts⟩ := List.map_eq_cons_iff.mp h
  obtain ⟨us, vs, rfl, hus, hvs⟩ := List.map_eq_append_iff.mp hts
  obtain ⟨⟨_, s'⟩, rfl, rfl⟩ := List.map_eq_singleton_iff.mp hvs
  exact ⟨s, us, s', rfl, hus⟩

/-- An operator between tokens. -/
theorem exists_operator_of_map_kind_eq {kinds kinds' : List Token.Kind} {kind : Token.Kind}
    (h : ts.map Token.kind = kinds ++ kind :: kinds') :
    ∃ us s vs, ts = us ++ ⟨kind, s⟩ :: vs ∧ us.map Token.kind = kinds ∧ vs.map Token.kind = kinds' := by
  obtain ⟨us, ws, rfl, hus, hws⟩ := List.map_eq_append_iff.mp h
  obtain ⟨⟨_, s⟩, vs, rfl, rfl, hvs⟩ := List.map_eq_cons_iff.mp hws
  exact ⟨us, s, vs, rfl, hus, hvs⟩

/-- The keyword, the name and the equals sign in front of tokens. -/
theorem exists_declaration_of_map_kind_eq {k : Keyword} {name : String} {kinds : List Token.Kind}
    (h : ts.map Token.kind = .keyword k :: .identifier name :: .equal :: kinds) :
    ∃ s nameSpan s' us, ts = ⟨.keyword k, s⟩ :: ⟨.identifier name, nameSpan⟩ :: ⟨.equal, s'⟩ :: us ∧
      us.map Token.kind = kinds := by
  obtain ⟨⟨_, s⟩, vs, rfl, rfl, hvs⟩ := List.map_eq_cons_iff.mp h
  obtain ⟨⟨_, nameSpan⟩, ws, rfl, rfl, hws⟩ := List.map_eq_cons_iff.mp hvs
  obtain ⟨⟨_, s'⟩, us, rfl, rfl, hus⟩ := List.map_eq_cons_iff.mp hws
  exact ⟨s, nameSpan, s', us, rfl, hus⟩

/-- With enough room, the tokens of a tree are derived as an atom with the tree. -/
theorem exists_derives_of_map_kind {e : Expr} (hts : ts.map Token.kind = e.kinds) (hd : d + e.need ≤ maxDepth) :
    ∃ tree, Derives .atom d ts tree ∧ tree.unplaced = e.unplaced := by
  induction e generalizing d ts with
  | literal value span =>
    obtain ⟨⟨_, s⟩, rfl, rfl⟩ := List.map_eq_singleton_iff.mp hts
    exact ⟨_, .number value s, rfl⟩
  | access name span =>
    obtain ⟨⟨_, s⟩, rfl, rfl⟩ := List.map_eq_singleton_iff.mp hts
    exact ⟨_, .identifier name s, rfl⟩
  | unary op operand span ih =>
    rw [need] at hd
    obtain ⟨s, vs, s', rfl, hvs⟩ := exists_group_of_map_kind_eq hts
    obtain ⟨t, us, rfl, ht, hus⟩ := List.map_eq_cons_iff.mp hvs
    obtain ⟨x, hx, hxe⟩ := ih (d := d + 2) hus (by omega)
    have hsign : t.kind.sign? = some op := by rw [ht, op.sign?_kind]
    refine ⟨_, .group s s' (by omega) (Derives.signed hsign (by omega) hx.factor).expression, ?_⟩
    simp only [sign, unplaced, hxe]
  | binary left op right span ihl ihr =>
    rw [need] at hd
    obtain ⟨s, us, s', rfl, hus⟩ := exists_group_of_map_kind_eq hts
    obtain ⟨ls, opSpan, rs, rfl, hls, hrs⟩ := exists_operator_of_map_kind_eq hus
    obtain ⟨l, hl, hle⟩ := ihl (d := d + 1) hls (by omega)
    obtain ⟨r, hr, hre⟩ := ihr (d := d + 2) hrs (by omega)
    have hinner : Derives .expression (d + 1) (ls ++ ⟨op.kind, opSpan⟩ :: rs) (operate l op r) := by
      rcases op.exists_chain_or_eq_pow with ⟨c, hc⟩ | rfl
      · exact (Derives.chain (.next (.first (hl.operand c)) hc (by omega) (hr.operand c))).expression
      · exact (Derives.raised opSpan hl (by omega) hr.factor).expression
    refine ⟨_, .group s s' (by omega) hinner, ?_⟩
    simp only [operate, unplaced, hle, hre]
  | assign k name value span ih =>
    rw [need] at hd
    obtain ⟨s, vs, s', rfl, hvs⟩ := exists_group_of_map_kind_eq hts
    obtain ⟨s₁, nameSpan, s₂, us, rfl, hus⟩ := exists_declaration_of_map_kind_eq hvs
    obtain ⟨v, hv, hve⟩ := ih (d := d + 1) hus (by omega)
    refine ⟨_, .group s s' (by omega) (.declaration k name s₁ nameSpan s₂ hv.expression), ?_⟩
    simp only [declare, unplaced, hve]

/-! ## Too deeply nested tokens -/

/-- The rule can start with the first token. -/
def Rule.Starts (rule : Rule) (ts : List Token) : Prop :=
  ∃ t ∈ ts.head?, rule.starts t.kind = true

theorem Rule.Starts.append (h : rule.Starts ts) (us : List Token) : rule.Starts (ts ++ us) := by
  obtain ⟨t, ht, hkind⟩ := h
  obtain ⟨vs, rfl⟩ := List.head?_eq_some_iff.mp ht
  exact ⟨t, rfl, hkind⟩

theorem Derives.starts (h : Derives rule d ts tree) : rule.Starts ts := by
  obtain ⟨t, us, rfl, hkind⟩ := h.exists_cons
  exact ⟨t, rfl, hkind⟩

section Blocks

variable {next : Option Token} {problem : SyntaxProblem}

theorem Blocks.factor (h : Blocks .power d us next problem)
    (hstart : ∃ t ∈ us.head?.or next, Rule.power.starts t.kind = true) : Blocks .factor d us next problem := by
  refine h.unsigned fun t ht => ?_
  obtain ⟨t', ht', hkind⟩ := hstart
  rw [Option.mem_unique ht ht']
  exact Rule.sign?_of_starts_power hkind

theorem Blocks.operand (h : Blocks .atom d us next problem)
    (hstart : ∃ t ∈ us.head?.or next, Rule.atom.starts t.kind = true) (c : Chain) :
    Blocks c.operand d us next problem :=
  match c with
  | .sum => .firstOperand (c := .product) (h.base.factor hstart)
  | .product => h.base.factor hstart

/-- An expression is blocked where the rule is that it begins with. -/
theorem Blocks.expression (h : Blocks rule d us next problem)
    (hstart : ∃ t ∈ us.head?.or next, rule.starts t.kind = true) : Blocks .expression d us next problem := by
  have hoperand : Blocks .factor d us next problem → (∃ t ∈ us.head?.or next, startsOperand t.kind = true) →
      Blocks .expression d us next problem :=
    fun hfactor => Blocks.sum (.firstOperand (c := .sum) (.firstOperand (c := .product) hfactor))
  cases rule with
  | expression => exact h
  | chain c =>
    cases c with
    | sum => exact h.sum hstart
    | product => exact (Blocks.firstOperand (c := .sum) h).sum hstart
  | factor => exact hoperand h hstart
  | power => exact hoperand (h.factor hstart) (hstart.imp fun t ht => ⟨ht.1, (Bool.and_eq_true_iff.mp ht.2).1⟩)
  | atom => exact hoperand (h.base.factor hstart) (hstart.imp fun t ht => ⟨ht.1, (Bool.and_eq_true_iff.mp ht.2).1⟩)

end Blocks

/-- Somewhere in the tokens the rule is blocked, since there is no level left. -/
def Exceeds (rule : Rule) (d : Nat) (ts : List Token) : Prop :=
  ∃ us t rest, ts = us ++ t :: rest ∧ Blocks rule d us (some t) .tooDeep

section Exceeds

variable {s : Span}

theorem Exceeds.append (h : Exceeds rule d ts) (vs : List Token) : Exceeds rule d (ts ++ vs) := by
  obtain ⟨us, t, rest, rfl, hblocks⟩ := h
  exact ⟨us, t, rest ++ vs, by simp, hblocks⟩

theorem Exceeds.operand (h : Exceeds .atom d ts) (hstart : Rule.atom.Starts ts)
    (c : Chain) : Exceeds c.operand d ts := by
  obtain ⟨us, t, rest, rfl, hblocks⟩ := h
  rw [Rule.Starts, List.head?_append] at hstart
  exact ⟨us, t, rest, rfl, hblocks.operand hstart c⟩

theorem Exceeds.expression (h : Exceeds rule d ts) (hstart : rule.Starts ts) :
    Exceeds .expression d ts := by
  obtain ⟨us, t, rest, rfl, hblocks⟩ := h
  rw [Rule.Starts, List.head?_append] at hstart
  exact ⟨us, t, rest, rfl, hblocks.expression hstart⟩

/-- A parenthesis for which there is no level, or inside of which there are not enough. -/
theorem exceeds_group (h : d < maxDepth → Exceeds .expression (d + 1) ts) (hd : d ≤ maxDepth) :
    Exceeds .atom d (⟨.leftParen, s⟩ :: ts) := by
  rcases Nat.lt_or_eq_of_le hd with hlt | rfl
  · obtain ⟨us, t, rest, rfl, hblocks⟩ := h hlt
    exact ⟨⟨.leftParen, s⟩ :: us, t, rest, rfl, hblocks.group s hlt⟩
  · exact ⟨[], ⟨.leftParen, s⟩, ts, rfl, blocks_leftParen_tooDeep s (Nat.le_refl _)⟩

/-- A sign for which there is no level, or behind which there are not enough. -/
theorem exceeds_signed {t : Token} {op : Sign} (hop : t.kind.sign? = some op)
    (h : d < maxDepth → Exceeds .factor (d + 1) ts) (hd : d ≤ maxDepth) : Exceeds .factor d (t :: ts) := by
  rcases Nat.lt_or_eq_of_le hd with hlt | rfl
  · obtain ⟨us, t', rest, rfl, hblocks⟩ := h hlt
    exact ⟨t :: us, t', rest, rfl, hblocks.signed hop hlt⟩
  · exact ⟨[], t, ts, rfl, blocks_sign_tooDeep hop (Nat.le_refl _)⟩

/-- An operator for which there is no level, or behind which there are not enough. -/
theorem exceeds_operator {left : Expr} (op : Op) (hleft : Derives .atom d us left)
    (h : d < maxDepth → Exceeds .atom (d + 1) vs) (hstart : Rule.atom.Starts vs)
    (hd : d ≤ maxDepth) : Exceeds .expression d (us ++ ⟨op.kind, s⟩ :: vs) := by
  rcases op.exists_chain_or_eq_pow with ⟨c, hc⟩ | rfl
  · have hfirst : Folded c d 0 us left := .first (hleft.operand c)
    have hchain : Exceeds (.chain c) d (us ++ ⟨op.kind, s⟩ :: vs) := by
      rcases Nat.lt_or_eq_of_le hd with hlt | rfl
      · obtain ⟨ws, t, rest, rfl, hblocks⟩ := (h hlt).operand hstart c
        exact ⟨us ++ ⟨op.kind, s⟩ :: ws, t, rest, by simp, .nextOperand hfirst hc hlt hblocks⟩
      · exact ⟨us, ⟨op.kind, s⟩, vs, rfl, blocks_chain_tooDeep hfirst hc (Nat.le_refl _)⟩
    exact hchain.expression ((Derives.chain hfirst).starts.append _)
  · have hpower : Exceeds .power d (us ++ ⟨.caret, s⟩ :: vs) := by
      rcases Nat.lt_or_eq_of_le hd with hlt | rfl
      · obtain ⟨ws, t, rest, rfl, hblocks⟩ := (h hlt).operand hstart .product
        exact ⟨us ++ ⟨.caret, s⟩ :: ws, t, rest, by simp, hblocks.exponent s hleft hlt⟩
      · exact ⟨us, ⟨.caret, s⟩, vs, rfl, blocks_caret_tooDeep s hleft (Nat.le_refl _)⟩
    exact hpower.expression ((Derives.base hleft).starts.append _)

theorem Exceeds.declaration {nameSpan s' : Span} (h : Exceeds .expression d ts) (k : Keyword) (name : String) :
    Exceeds .expression d (⟨.keyword k, s⟩ :: ⟨.identifier name, nameSpan⟩ :: ⟨.equal, s'⟩ :: ts) := by
  obtain ⟨us, t, rest, rfl, hblocks⟩ := h
  exact ⟨_, t, rest, rfl, hblocks.declaration k name s nameSpan s'⟩

end Exceeds

/-- The first token of a tree starts an atom. -/
theorem starts_of_map_kind {e : Expr} (h : ts.map Token.kind = e.kinds) : Rule.atom.Starts ts := by
  obtain ⟨kind, kinds, he, hkind⟩ : ∃ kind kinds, e.kinds = kind :: kinds ∧ Rule.atom.starts kind = true := by
    cases e <;> exact ⟨_, _, rfl, rfl⟩
  rw [he] at h
  obtain ⟨t, us, rfl, rfl, -⟩ := List.map_eq_cons_iff.mp h
  exact ⟨t, rfl, hkind⟩

/-- With less room than the tree needs, its tokens block the reader where the levels end. -/
theorem exceeds_of_map_kind {e : Expr} (hts : ts.map Token.kind = e.kinds) (hd : d ≤ maxDepth)
    (hneed : maxDepth < d + e.need) : Exceeds .atom d ts := by
  induction e generalizing d ts with
  | literal value span => exact absurd hneed (Nat.not_lt.mpr hd)
  | access name span => exact absurd hneed (Nat.not_lt.mpr hd)
  | unary op operand span ih =>
    rw [need] at hneed
    obtain ⟨s, vs, s', rfl, hvs⟩ := exists_group_of_map_kind_eq hts
    obtain ⟨t, us, rfl, ht, hus⟩ := List.map_eq_cons_iff.mp hvs
    have hsign : t.kind.sign? = some op := by rw [ht, op.sign?_kind]
    have hstart := starts_of_map_kind hus
    refine exceeds_group (fun hlt => ?_) hd
    have hfactor : Exceeds .factor (d + 1) (t :: us) :=
      exceeds_signed hsign (fun hlt' => (ih (d := d + 2) hus hlt' (by omega)).operand hstart .product) hlt
    exact (hfactor.append _).expression ⟨t, rfl, starts_of_sign? hsign⟩
  | binary left op right span ihl ihr =>
    rw [need] at hneed
    obtain ⟨s, us, s', rfl, hus⟩ := exists_group_of_map_kind_eq hts
    obtain ⟨ls, opSpan, rs, rfl, hls, hrs⟩ := exists_operator_of_map_kind_eq hus
    refine exceeds_group (fun hlt => .append ?_ _) hd
    rcases Nat.lt_or_ge maxDepth (d + 1 + left.need) with hl | hl
    · exact ((ihl hls hlt hl).expression (starts_of_map_kind hls)).append _
    · obtain ⟨l, hl, -⟩ := exists_derives_of_map_kind hls hl
      exact exceeds_operator op hl (fun hlt' => ihr (d := d + 2) hrs hlt' (by omega)) (starts_of_map_kind hrs) hlt
  | assign k name value span ih =>
    rw [need] at hneed
    obtain ⟨s, vs, s', rfl, hvs⟩ := exists_group_of_map_kind_eq hts
    obtain ⟨s₁, nameSpan, s₂, us, rfl, hus⟩ := exists_declaration_of_map_kind_eq hvs
    refine exceeds_group (fun hlt => .append (.declaration ?_ k name) _) hd
    exact (ih hus hlt (by omega)).expression (starts_of_map_kind hus)

/-! ## Whole texts -/

/-- **Printed expressions are read back**: the text of a legible tree has tokens, which are read to the tree, up to its
spans, if the tree needs no more levels than there are, and are too deeply nested if it needs more. -/
theorem ofTokens_render {e : Expr} (he : e.Legible) (name : String) :
    ∃ ts, Token.scan ⟨name, e.render⟩ = .ok ts ∧
      (e.need ≤ maxDepth → ∃ tree, ofTokens ts = .ok tree ∧ tree.unplaced = e.unplaced) ∧
      (maxDepth < e.need → ∃ span, ofTokens ts = .error (.ofSyntax .tooDeep span)) := by
  obtain ⟨ts, hscan, hkinds⟩ := he.exists_scan name
  obtain ⟨us, stop, rfl, hstop, hnoEnd⟩ := Token.terminated_of_scan hscan
  have hus : us.map Token.kind = e.kinds := by
    rw [List.map_append] at hkinds
    exact List.append_inj_left' hkinds rfl
  refine ⟨_, hscan, fun hneed => ?_, fun hneed => ?_⟩
  · obtain ⟨tree, htree, hunplaced⟩ := exists_derives_of_map_kind (d := 0) hus (by omega)
    exact ⟨tree, ofTokens_of_derives hstop [] htree.expression, hunplaced⟩
  · obtain ⟨vs, t, rest, rfl, hblocks⟩ : Exceeds .expression 0 us :=
      (exceeds_of_map_kind hus (Nat.zero_le _) (by omega)).expression (starts_of_map_kind hus)
    have hread := hblocks.stuck (t :: rest) rfl
    rw [ofTokens_append_stop hnoEnd hstop]
    exact ⟨_, ofBody_of_read_eq_error _ hread⟩

/-- The number 1 behind `n` minus signs. -/
def negated : Nat → Expr
  | 0 => literal (.int 1) nowhere
  | n + 1 => unary .minus (negated n) nowhere

theorem legible_negated (n : Nat) : (negated n).Legible := by
  induction n with
  | zero => exact .literal _ (by decide)
  | succ n ih => exact .unary _ _ ih

theorem need_negated (n : Nat) : (negated n).need = 2 * n := by
  induction n with
  | zero => rfl
  | succ n ih => rw [negated, need, ih]; omega

/-- A letter is a name. -/
theorem lexeme_letter {c : Char} (hc : c.isAlpha = true) : Lexeme [c] (.identifier (String.ofList [c])) := by
  refine .identifier hc (fun x hx => nomatch hx) fun k hk => ?_
  have hletters : [c] = k.word.toList := by rw [← hk, String.toList_ofList]
  cases k <;> cases hletters

/-- The tree of `(var x = (2 ^ (-y)))`. -/
def declaredPower : Expr :=
  let power := binary (literal (.int 2) nowhere) .pow (unary .minus (access "y" nowhere) nowhere) nowhere
  assign .varKeyword "x" power nowhere

/-- A declaration is read back, but one sign more than there are levels for is nested too deeply. -/
theorem ofTokens_render_declaredPower :
    (∃ ts tree, Token.scan ⟨"<stdin>", "(var x = (2 ^ (-y)))"⟩ = .ok ts ∧ ofTokens ts = .ok tree ∧
      tree.unplaced = declaredPower) ∧
    ∃ ts span, Token.scan ⟨"<stdin>", (negated 65).render⟩ = .ok ts ∧
      ofTokens ts = .error (.ofSyntax .tooDeep span) := by
  have hx : Lexeme "x".toList (.identifier "x") := lexeme_letter (c := 'x') rfl
  have hy : Lexeme "y".toList (.identifier "y") := lexeme_letter (c := 'y') rfl
  have hlegible : declaredPower.Legible :=
    .assign _ _ hx (.binary _ _ (.literal _ (by decide)) (.unary _ _ (.access _ hy)))
  have hrender : declaredPower.render = "(var x = (2 ^ (-y)))" := by decide +kernel
  obtain ⟨ts, hts, hread, -⟩ := ofTokens_render hlegible "<stdin>"
  obtain ⟨tree, htree, hunplaced⟩ := hread (by decide)
  obtain ⟨us, hus, -, hdeep⟩ := ofTokens_render (legible_negated 65) "<stdin>"
  obtain ⟨span, hspan⟩ := hdeep (by rw [need_negated]; decide)
  exact ⟨⟨ts, tree, hrender ▸ hts, htree, hunplaced⟩, us, span, hus, hspan⟩

end Reckoner.Expr
