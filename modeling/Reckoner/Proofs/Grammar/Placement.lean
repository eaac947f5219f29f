import Reckoner.Proofs.Grammar.Reading
import Reckoner.Proofs.Token.Order

/-!
# Where the nodes of a tree stand

Parentheses and keywords leave no trace in a tree. What is left of a text that is read stands in order: each node
begins where a token begins and ends where one ends, its operands lie inside of it, one behind the other, and behind its
sign or its name (`Placed`). A derivation from tokens in order keeps to this rule by rule (`Derives.placed`).

The root begins at the first token that is neither a parenthesis nor a keyword, and ends with the last one that is no
parenthesis (`Derives.start_eq`, `Derives.stop_eq`).
-/

namespace Reckoner

/-- The bytes of `s` are among those of `t`. -/
def Span.Within (s t : Span) : Prop :=
  t.start.index ≤ s.start.index ∧ s.stop.index ≤ t.stop.index

/-- The kinds of tokens that leave no trace in front of a tree. -/
def Token.Kind.opens : Token.Kind → Bool
  | .leftParen | .keyword _ => true
  | _ => false

namespace Expr

/-- The operands of a node lie inside of it, one behind the other, and behind its sign or name. -/
def Arranged (ts : List Token) : Expr → Prop
  | literal _ _ | access _ _ => True
  | unary op operand span => operand.span.Within span ∧
      ∃ t ∈ ts, t.kind.sign? = some op ∧ t.span.start = span.start ∧ t.span.stop.index ≤ operand.span.start.index
  | binary left _ right span => left.span.Within span ∧ right.span.Within span ∧
      left.span.stop.index ≤ right.span.start.index
  | assign _ name value span => value.span.Within span ∧
      ∃ t ∈ ts, t.kind = .identifier name ∧ t.span.start = span.start ∧ t.span.stop.index < value.span.start.index

/-- The node stands among the tokens as it should. -/
structure Placed (ts : List Token) (node : Expr) : Prop where
  start : ∃ t ∈ ts, node.span.start = t.span.start
  stop : ∃ t ∈ ts, node.span.stop = t.span.stop
  nonempty : node.span.start.index < node.span.stop.index
  arranged : node.Arranged ts

section

variable {ts us vs : List Token} {t : Token} {node left right operand : Expr}

theorem Placed.mono (h : Placed us node) (hus : us ⊆ ts) : Placed ts node := by
  obtain ⟨⟨t, ht, hstart⟩, ⟨u, hu, hstop⟩, hne, harranged⟩ := h
  refine ⟨⟨t, hus ht, hstart⟩, ⟨u, hus hu, hstop⟩, hne, ?_⟩
  cases node with
  | literal _ _ | access _ _ | binary _ _ _ _ => exact harranged
  | unary op operand span =>
    obtain ⟨hwithin, t, ht, hsign⟩ := harranged
    exact ⟨hwithin, t, hus ht, hsign⟩
  | assign k name value span =>
    obtain ⟨hwithin, t, ht, hname⟩ := harranged
    exact ⟨hwithin, t, hus ht, hname⟩

theorem Placed.le_start (h : Placed vs node) (hts : Token.InOrder (us ++ vs)) (ht : t ∈ us) :
    t.span.stop.index ≤ node.span.start.index := by
  obtain ⟨u, hu, hstart⟩ := h.start
  rw [hstart]
  exact hts.stop_le_start ht hu

/-- A node that begins at a token and goes through its operand, which stands behind that token. -/
theorem placed_through {root : Expr} (us : List Token) (hts : Token.InOrder (us ++ vs)) (ht : t ∈ us)
    (hoperand : ∀ node ∈ operand.nodes, Placed vs node) (hnodes : root.nodes = root :: operand.nodes)
    (hspan : root.span = t.span.through operand.span)
    (harranged : operand.span.Within root.span → root.Arranged (us ++ vs)) :
    ∀ node ∈ root.nodes, Placed (us ++ vs) node := by
  have hoperand' : ∀ node ∈ operand.nodes, Placed (us ++ vs) node :=
    fun node hnode => (hoperand node hnode).mono (List.subset_append_right us vs)
  have hbehind := (hoperand operand operand.mem_nodes_self).le_start hts ht
  have hwidth := hts.nonempty t (List.mem_append_left vs ht)
  obtain ⟨-, hstop, hoperandWidth, -⟩ := hoperand' operand operand.mem_nodes_self
  rw [hnodes]
  refine List.forall_mem_cons.mpr ⟨⟨?_, ?_, ?_, harranged ?_⟩, hoperand'⟩ <;> rw [hspan]
  · exact ⟨t, List.mem_append_left vs ht, rfl⟩
  · exact hstop
  · exact hwidth.trans_le (hbehind.trans hoperandWidth.le)
  · exact ⟨hwidth.le.trans hbehind, Nat.le_refl _⟩

/-- An operator between operands. -/
theorem placed_operate (op : Op) (hts : Token.InOrder (us ++ t :: vs))
    (hl : Token.InOrder us → ∀ node ∈ left.nodes, Placed us node)
    (hr : Token.InOrder vs → ∀ node ∈ right.nodes, Placed vs node) :
    ∀ node ∈ (operate left op right).nodes, Placed (us ++ t :: vs) node := by
  have hvs : vs.Sublist (us ++ t :: vs) := (List.sublist_cons_self t vs).trans (List.sublist_append_right us _)
  have hleft := hl (hts.sublist (List.sublist_append_left us _))
  have hright := hr (hts.sublist hvs)
  have hbetween : left.span.stop.index ≤ right.span.start.index := by
    obtain ⟨u, hu, hstop⟩ := (hleft left left.mem_nodes_self).stop
    rw [hstop]
    exact ((hright right right.mem_nodes_self).mono (List.subset_cons_self t vs)).le_start hts hu
  have hleft' : ∀ node ∈ left.nodes, Placed (us ++ t :: vs) node :=
    fun node hnode => (hleft node hnode).mono (List.subset_append_left us _)
  have hright' : ∀ node ∈ right.nodes, Placed (us ++ t :: vs) node :=
    fun node hnode => (hright node hnode).mono hvs.subset
  refine List.forall_mem_cons.mpr ⟨?_, List.forall_mem_append.mpr ⟨hleft', hright'⟩⟩
  obtain ⟨hstart, -, hleftWidth, -⟩ := hleft' left left.mem_nodes_self
  obtain ⟨-, hstop, hrightWidth, -⟩ := hright' right right.mem_nodes_self
  exact ⟨hstart, hstop, hleftWidth.trans_le (hbetween.trans hrightWidth.le),
    ⟨Nat.le_refl _, hbetween.trans hrightWidth.le⟩, ⟨hleftWidth.le.trans hbetween, Nat.le_refl _⟩, hbetween⟩

theorem placed_leaf (hts : Token.InOrder [t]) (hspan : node.span = t.span) (hnodes : node.nodes = [node])
    (harranged : node.Arranged [t]) : ∀ e ∈ node.nodes, Placed [t] e := by
  have ht : t ∈ [t] := List.mem_singleton_self t
  have hwidth := hts.nonempty t ht
  rw [← hspan] at hwidth
  rw [hnodes]
  exact List.forall_mem_singleton.mpr
    ⟨⟨t, ht, congrArg Span.start hspan⟩, ⟨t, ht, congrArg Span.stop hspan⟩, hwidth, harranged⟩

end

/-- From tokens in order, each node of what is derived is placed. -/
theorem Derives.placed {rule : Rule} {d : Nat} {ts : List Token} {tree : Expr} (h : Derives rule d ts tree) :
    Token.InOrder ts → ∀ node ∈ tree.nodes, Placed ts node := by
  induction h using Derives.rec (motive_2 := fun _ _ _ ts tree _ =>
    Token.InOrder ts → ∀ node ∈ tree.nodes, Placed ts node) with
  | @declaration _ us value k name s nameSpan s' _ ih =>
    intro hts
    let front : List Token := [⟨.keyword k, s⟩, ⟨.identifier name, nameSpan⟩, ⟨.equal, s'⟩]
    have hvalue := ih (hts.sublist (List.sublist_append_right front us))
    have hfront : Token.InOrder (front ++ us) := hts
    have hbefore : Token.InOrder (front.take 2 ++ ⟨.equal, s'⟩ :: us) := hts
    refine placed_through front (t := ⟨.identifier name, nameSpan⟩) hts (by simp [front]) hvalue rfl rfl ?_
    -- the equals sign keeps the value away from the name
    have hequal := hts.nonempty ⟨.equal, s'⟩ (by simp)
    have hname := hbefore.stop_le_start (t := ⟨.identifier name, nameSpan⟩) (u := ⟨.equal, s'⟩) (by simp [front])
      (by simp)
    have hbehind := (hvalue value value.mem_nodes_self).le_start (t := ⟨.equal, s'⟩) hfront (by simp [front])
    exact fun hwithin => ⟨hwithin, ⟨.identifier name, nameSpan⟩, by simp [front], rfl, rfl,
      (hname.trans_lt hequal).trans_le hbehind⟩
  | sum _ ih | chain _ ih | unsigned _ ih | base _ ih => exact ih
  | @signed _ us operand t op hop _ _ ih =>
    intro hts
    have hoperand := ih (hts.sublist (List.sublist_cons_self t us))
    have ht : t ∈ [t] := List.mem_singleton_self t
    have hfront : Token.InOrder ([t] ++ us) := hts
    refine placed_through [t] hts ht hoperand rfl rfl fun hwithin => ⟨hwithin, t, by simp, hop, rfl, ?_⟩
    exact (hoperand operand operand.mem_nodes_self).le_start hfront ht
  | raised s _ _ _ ih₁ ih₂ => exact fun hts => placed_operate .pow hts ih₁ ih₂
  | number n s => exact fun hts => placed_leaf hts rfl rfl trivial
  | identifier name s => exact fun hts => placed_leaf hts rfl rfl trivial
  | @group _ us _ s s' _ _ ih =>
    intro hts node hnode
    have hus : us.Sublist (⟨.leftParen, s⟩ :: (us ++ [⟨.rightParen, s'⟩])) :=
      (List.sublist_append_left us _).cons _
    exact (ih (hts.sublist hus) node hnode).mono hus.subset
  | first _ ih hts node hnode => exact ih hts node hnode
  | @next _ _ _ _ _ _ _ _ op _ _ _ _ ih₁ ih₂ hts node hnode => exact placed_operate op hts ih₁ ih₂ node hnode

/-! ## Where the root stands -/

/-- What is found in front stays the first that is found. -/
theorem map_find?_append {α β : Type} {p : α → Bool} {f : α → β} {xs : List α} {y : β}
    (h : (xs.find? p).map f = some y) (ys : List α) : ((xs ++ ys).find? p).map f = some y := by
  obtain ⟨x, hx, rfl⟩ := Option.map_eq_some_iff.mp h
  rw [List.find?_append, hx]
  rfl

/-- The root begins at the first token that is neither a parenthesis nor a keyword. -/
theorem Derives.start_eq {rule : Rule} {d : Nat} {ts : List Token} {tree : Expr} (h : Derives rule d ts tree) :
    (ts.find? (!·.kind.opens)).map (·.span.start) = some tree.span.start := by
  induction h using Derives.rec (motive_2 := fun _ _ _ ts tree _ =>
    (ts.find? (!·.kind.opens)).map (·.span.start) = some tree.span.start) with
  | declaration k name s nameSpan s' _ _ => rfl
  | sum _ ih | chain _ ih | unsigned _ ih | base _ ih | first _ ih => exact ih
  | @signed _ us operand t op hop _ _ _ =>
    have ht : t.kind.opens = false := by
      rcases t with ⟨kind, s⟩
      cases kind <;> first | rfl | cases hop
    rw [List.find?_cons_of_pos (by simp [ht])]
    rfl
  | raised s _ _ _ ih₁ _ => exact map_find?_append ih₁ _
  | number n s | identifier name s => rfl
  | group s s' _ _ ih =>
    rw [List.find?_cons_of_neg (by simp [Token.Kind.opens])]
    exact map_find?_append ih _
  | next _ _ _ _ ih₁ _ => exact map_find?_append ih₁ _

/-- The root ends with the last token that is no parenthesis. -/
theorem Derives.stop_eq {rule : Rule} {d : Nat} {ts : List Token} {tree : Expr} (h : Derives rule d ts tree) :
    (ts.reverse.find? (·.kind ≠ .rightParen)).map (·.span.stop) = some tree.span.stop := by
  induction h using Derives.rec (motive_2 := fun _ _ _ ts tree _ =>
    (ts.reverse.find? (·.kind ≠ .rightParen)).map (·.span.stop) = some tree.span.stop) with
  | declaration k name s nameSpan s' _ ih =>
    simp only [List.reverse_cons, List.append_assoc]
    exact map_find?_append ih _
  | sum _ ih | chain _ ih | unsigned _ ih | base _ ih | first _ ih => exact ih
  | signed _ _ _ ih =>
    rw [List.reverse_cons]
    exact map_find?_append ih _
  | raised s _ _ _ _ ih₂ =>
    rw [List.reverse_append, List.reverse_cons, List.append_assoc]
    exact map_find?_append ih₂ _
  | number n s | identifier name s => rfl
  | group s s' _ _ ih =>
    rw [List.reverse_cons, List.reverse_append, List.reverse_singleton, List.append_assoc, List.singleton_append,
      List.find?_cons_of_neg (by simp)]
    exact map_find?_append ih _
  | next _ _ _ _ _ ih₂ =>
    rw [List.reverse_append, List.reverse_cons, List.append_assoc]
    exact map_find?_append ih₂ _

/-! ## The trees of texts -/

/-- The nodes of the tree of a text cover some of the text, in the columns of its first line. -/
theorem exists_byte_of_mem_nodes {source : Source} {ts : List Token} {tree : Expr} (hscan : Token.scan source = .ok ts)
    (h : ofTokens ts = .ok tree) : ∀ node ∈ tree.nodes, Placed (body ts) node ∧ ∃ i j,
      node.span = source.bytes i j ∧ i < j ∧ j ≤ utf8Length source.text.toList := by
  obtain ⟨us, rfl, hus, horder, hbyte⟩ := Token.exists_inOrder_of_scan hscan
  rw [ofTokens_eq_ok_iff, body_append_stop hus rfl] at h
  rw [body_append_stop hus rfl]
  intro node hnode
  have hplaced := h.placed horder node hnode
  refine ⟨hplaced, ?_⟩
  obtain ⟨⟨t, ht, hstart⟩, ⟨u, hu, hstop⟩, hwidth, -⟩ := hplaced
  obtain ⟨i, i', hi, -, -⟩ := hbyte t ht
  obtain ⟨j', j, hj, -, hle⟩ := hbyte u hu
  rw [hi] at hstart
  rw [hj] at hstop
  refine ⟨i, j, ?_, ?_, hle⟩
  · calc node.span = ⟨node.span.start, node.span.stop⟩ := rfl
      _ = ⟨(source.bytes i i').start, (source.bytes j' j).stop⟩ := by rw [hstart, hstop]
      _ = source.bytes i j := rfl
  · rwa [hstart, hstop] at hwidth

/-- **Spans are well nested**: in the tree of a text, each node begins where a token begins and ends where one ends,
covers some of the text, and has its operands inside, in order, and behind its sign or name. The root begins at the
first token that is neither a parenthesis nor a keyword, and ends with the last one that is no parenthesis. -/
theorem nodes_placed {source : Source} {ts : List Token} {tree : Expr} (hscan : Token.scan source = .ok ts)
    (h : ofTokens ts = .ok tree) :
    (∀ node ∈ tree.nodes, Placed (body ts) node ∧ node.span.Covers source) ∧
    ((body ts).find? (!·.kind.opens)).map (·.span.start) = some tree.span.start ∧
    ((body ts).reverse.find? (·.kind ≠ .rightParen)).map (·.span.stop) = some tree.span.stop := by
  have hder := ofTokens_eq_ok_iff.mp h
  refine ⟨fun node hnode => ?_, hder.start_eq, hder.stop_eq⟩
  obtain ⟨hplaced, i, j, hspan, hij, hj⟩ := exists_byte_of_mem_nodes hscan h node hnode
  rw [hspan]
  exact ⟨hplaced, Source.covers_byte (Token.plain_of_scan hscan) hij hj⟩

/-- In `(let x = -(2))` the tree is that of `x = -(2`. -/
theorem nodes_placed_declaredGroup :
    let source : Source := ⟨"<stdin>", "(let x = -(2))"⟩
    ∃ ts tree, Token.scan source = .ok ts ∧ ofTokens ts = .ok tree ∧
      (∀ node ∈ tree.nodes, Placed (body ts) node ∧ node.span.Covers source) ∧
      ((body ts).find? (!·.kind.opens)).map (·.span.start) = some (source.byte 5) ∧
      ((body ts).reverse.find? (·.kind ≠ .rightParen)).map (·.span.stop) = some (source.byte 12) ∧
      tree.span.text = some "x = -(2" := by
  intro source
  have h : ((Token.scan source).bind ofTokens).map span = .ok (source.bytes 5 12) := by decide +kernel
  obtain ⟨tree, htree, hspan⟩ := Except.map_eq_ok_iff.mp h
  obtain ⟨ts, hscan, hread⟩ := Except.bind_eq_ok_iff.mp htree
  obtain ⟨hnodes, hstart, hstop⟩ := nodes_placed hscan hread
  rw [hspan] at hstart hstop
  refine ⟨ts, tree, hscan, hread, hnodes, hstart, hstop, ?_⟩
  rw [hspan]
  decide +kernel

end Expr

end Reckoner
