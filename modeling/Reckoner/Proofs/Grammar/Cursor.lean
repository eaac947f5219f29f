import Reckoner.Proofs.Grammar.Ending
import Reckoner.Proofs.Grammar.Folding

/-!
# The reader with a cursor

`Expr.reading` works on a list of tokens in place. Where it begins with the cursor not behind the first end, and not too
deep, this is so at every moment of it. It comes to an end, never asks for a token that is not there and leaves no more
levels than it has entered. It stops as `Expr.read` does on the tokens from the cursor on, and the cursor has moved if
and only if the first of them is one that the rule can start with (`Reads`, `reads`).

The induction is on the number of calls that may be made one inside the other. What each step of the cursor does is said
once, in front of whatever is done behind it (`ends_current_bind` and those beside it).
-/

namespace Reckoner.Expr

open Walk (Ends)
open Cursor

/-! ## Steps of the cursor -/

/-- The number of the first end. -/
def firstEnd (ts : List Token) : Nat :=
  ts.findIdx Token.isEof

/-- The cursor is not behind the first end, and the level is at least `floor` and not too deep. -/
structure Cursor.Within (ts : List Token) (floor : Nat) (c : Cursor) : Prop where
  pos_le : c.pos ≤ firstEnd ts
  floor_le : floor ≤ c.depth
  depth_le : c.depth ≤ maxDepth

section Steps

variable {ts : List Token} {floor : Nat} {c : Cursor} {t : Token} {α β : Type}
variable {post : Except Walk.Stop β → Cursor → Prop}

theorem Cursor.Within.mono {floor' : Nat} (h : Within ts floor c) (hfloor : floor' ≤ floor) : Within ts floor' c :=
  ⟨h.pos_le, Nat.le_trans hfloor h.floor_le, h.depth_le⟩

/-- In front of the first end, and only there, a token is none. -/
theorem isEof_eq_false_iff_lt {i : Nat} (hi : i ≤ firstEnd ts) (h : ts[i]? = some t) :
    t.isEof = false ↔ i < firstEnd ts := by
  obtain ⟨hlength, rfl⟩ := List.getElem?_eq_some_iff.mp h
  constructor
  · intro hkind
    refine Nat.lt_of_le_of_ne hi ?_
    rintro rfl
    have hstop : (ts[firstEnd ts]).isEof = true := List.findIdx_getElem
    rw [hstop] at hkind
    cases hkind
  · intro hlt
    simpa using List.not_of_lt_findIdx hlt

variable (hend : firstEnd ts < ts.length)
include hend

theorem exists_token (hc : Within ts floor c) : ∃ t, ts[c.pos]? = some t :=
  ⟨_, List.getElem?_eq_getElem (Nat.lt_of_le_of_lt hc.pos_le hend)⟩

theorem ends_current_bind {f : Token → Walk Cursor β} (hc : Within ts floor c) (ht : ts[c.pos]? = some t)
    (h : Ends (Within ts floor) pos c (f t) post) :
    Ends (Within ts floor) pos c (current ts >>= f : Walk Cursor β) post := by
  have hmin : min c.pos (ts.length - 1) = c.pos := by
    have hle := hc.pos_le
    omega
  refine Ends.bind_ok (a := t) (y := c) ?_ h
  refine Walk.ends_now_bind ?_
  rw [hmin, ht]
  exact Walk.ends_pure hc ⟨rfl, rfl⟩

/-- Whatever is done behind an advance, the cursor has moved. -/
theorem ends_advance_bind (post : Except Walk.Stop β → Cursor → Prop) {f : Unit → Walk Cursor β}
    {post' : Except Walk.Stop β → Cursor → Prop} (hc : Within ts floor c) (hlt : c.pos < firstEnd ts)
    (h : Within ts floor { c with pos := c.pos + 1 } →
      Ends (Within ts floor) pos { c with pos := c.pos + 1 } (f ()) post)
    (hpost : ∀ r d, post r d → c.pos < d.pos → post' r d) :
    Ends (Within ts floor) pos c (advance ts >>= f : Walk Cursor β) post' := by
  have hnext : Within ts floor { c with pos := c.pos + 1 } := ⟨hlt, hc.floor_le, hc.depth_le⟩
  refine Ends.bind_ok (a := ()) (y := { c with pos := c.pos + 1 }) ?_
    ((h hnext).mono (fun _ hz => hz) fun r d _ hle hd => hpost r d hd hle)
  refine Walk.ends_now_bind ?_
  rw [if_pos (Nat.lt_trans hlt hend)]
  exact Walk.ends_goTo hc hnext (Nat.le_succ _) ⟨rfl, rfl⟩

omit hend in
/-- There is a level to go to, or the nesting is too deep. -/
theorem ends_enter_bind {span : Span} {f : Unit → Walk Cursor β} (hc : Within ts floor c)
    (hdeep : c.depth = maxDepth → post (.error (.refused (.ofSyntax .tooDeep span))) c)
    (h : c.depth + 1 ≤ maxDepth → Within ts floor { c with depth := c.depth + 1 } →
      Ends (Within ts floor) pos { c with depth := c.depth + 1 } (f ()) post) :
    Ends (Within ts floor) pos c (enter span >>= f : Walk Cursor β) post := by
  have hle := hc.depth_le
  by_cases hroom : maxDepth ≤ c.depth
  · have hrefused : Ends (Within ts floor) pos c (enter span) fun r d =>
        r = .error (.refused (.ofSyntax .tooDeep span)) ∧ d = c := by
      refine Walk.ends_now_bind ?_
      rw [if_pos hroom]
      exact Walk.ends_refuse hc ⟨rfl, rfl⟩
    refine hrefused.bind ?_ ?_
    · rintro _ _ - - ⟨hr, -⟩
      cases hr
    · rintro _ _ - - ⟨hr, rfl⟩
      cases hr
      exact hdeep (Nat.le_antisymm hle hroom)
  · have hroom : c.depth + 1 ≤ maxDepth := Nat.lt_of_not_le hroom
    have hnext : Within ts floor { c with depth := c.depth + 1 } := ⟨hc.pos_le, Nat.le_succ_of_le hc.floor_le, hroom⟩
    refine Ends.bind_ok (a := ()) (y := { c with depth := c.depth + 1 }) ?_ (h hroom hnext)
    refine Walk.ends_now_bind ?_
    rw [if_neg (Nat.not_le_of_lt hroom)]
    exact Walk.ends_goTo hc hnext (Nat.le_refl _) ⟨rfl, rfl⟩

omit hend in
theorem ends_leave_bind {levels : Nat} {f : Unit → Walk Cursor β} (hc : Within ts floor c)
    (hlevels : floor + levels ≤ c.depth)
    (h : Within ts floor { c with depth := c.depth - levels } →
      Ends (Within ts floor) pos { c with depth := c.depth - levels } (f ()) post) :
    Ends (Within ts floor) pos c (leave levels >>= f : Walk Cursor β) post := by
  have hle := hc.depth_le
  have hnext : Within ts floor { c with depth := c.depth - levels } :=
    ⟨hc.pos_le, Nat.le_sub_of_add_le hlevels, Nat.le_trans (Nat.sub_le _ _) hle⟩
  refine Ends.bind_ok (a := ()) (y := { c with depth := c.depth - levels }) ?_ (h hnext)
  refine Walk.ends_now_bind ?_
  rw [if_neg (by omega)]
  exact Walk.ends_goTo hc hnext (Nat.le_refl _) ⟨rfl, rfl⟩

end Steps

/-! ## What a reading comes to -/

/-- A walk that began at level `depth` stops at `d` as the reader does that came to `expected`. -/
def StopsAs (ts : List Token) (depth : Nat) (expected : Except Stuck (Expr × List Token)) :
    Except Walk.Stop Expr → Cursor → Prop
  | .ok tree, d => expected = .ok (tree, ts.drop d.pos) ∧ d.depth = depth
  | .error (.refused d), _ => ∃ problem t rest, expected = .error ⟨problem, t :: rest⟩ ∧ d = .ofSyntax problem t.span
  | .error .fault, _ => False

section

variable {ts : List Token} {depth : Nat} {c : Cursor} {expected : Except Stuck (Expr × List Token)}

theorem StopsAs.bind_error {e : Walk.Stop} (g : Expr × List Token → Except Stuck (Expr × List Token))
    {depth' : Nat} (h : StopsAs ts depth expected (.error e) c) :
    StopsAs ts depth' (expected.bind g) (.error e) c := by
  cases e with
  | fault => exact h
  | refused d =>
    obtain ⟨problem, t, rest, rfl, hd⟩ := h
    exact ⟨problem, t, rest, rfl, hd⟩

/-- A walk that goes on behind a reading. -/
theorem ends_bind_of_stopsAs {floor : Nat} {w : Walk Cursor Expr} {f : Expr → Walk Cursor Expr}
    {g : Expr × List Token → Except Stuck (Expr × List Token)} {depth' : Nat}
    (hw : Ends (Within ts floor) pos c w (StopsAs ts depth expected))
    (hf : ∀ tree d, Within ts floor d → c.pos ≤ d.pos → expected = .ok (tree, ts.drop d.pos) → d.depth = depth →
      Ends (Within ts floor) pos d (f tree) (StopsAs ts depth' (g (tree, ts.drop d.pos)))) :
    Ends (Within ts floor) pos c (w >>= f : Walk Cursor Expr) (StopsAs ts depth' (expected.bind g)) := by
  refine hw.bind ?_ fun e d _ _ h => h.bind_error g
  rintro tree d hd hle ⟨hexpected, hdepth⟩
  rw [hexpected]
  exact hf tree d hd hle hexpected hdepth

theorem StopsAs.ne_fault {r : Except Walk.Stop Expr} (h : StopsAs ts depth expected r c) : r ≠ .error .fault := by
  rintro rfl
  exact h

theorem StopsAs.depth_eq {r : Except Walk.Stop Expr} (h : StopsAs ts depth expected r c) {tree : Expr}
    (hr : r = .ok tree) : c.depth = depth := by
  subst hr
  exact h.2

theorem map_eq_bind (f : Expr → Expr) (expected : Except Stuck (Expr × List Token)) :
    (expected.map fun p => (f p.1, p.2)) = expected.bind fun p => .ok (f p.1, p.2) := by
  cases expected <;> rfl

/-- A walk that makes another tree of the one that is read. -/
theorem ends_map_of_stopsAs {floor : Nat} {w : Walk Cursor Expr} (f : Expr → Expr)
    (hw : Ends (Within ts floor) pos c w (StopsAs ts depth expected)) :
    Ends (Within ts floor) pos c (do return f (← w) : Walk Cursor Expr)
      (StopsAs ts depth (expected.map fun p => (f p.1, p.2))) := by
  rw [map_eq_bind]
  exact ends_bind_of_stopsAs hw fun tree d hd _ _ hdepth => Walk.ends_pure hd ⟨rfl, hdepth⟩

theorem pos_lt_of_read {rule : Rule} {room i j : Nat} {tree : Expr}
    (h : read rule room (ts.drop i) = .ok (tree, ts.drop j)) : i < j := by
  have hlt := length_lt_of_read h
  rw [List.length_drop, List.length_drop] at hlt
  omega

end

/-! ## The rules -/

/-- Reading with so many nested calls does what is expected of it, wherever they are enough. -/
def Reads (ts : List Token) (calls : Nat) : Prop :=
  ∀ rule c t, Within ts c.depth c → ts[c.pos]? = some t →
    2 * (6 * (firstEnd ts - c.pos) + rule.rank) + 1 ≤ calls →
      Ends (Within ts c.depth) pos c (reading ts calls rule) fun r d =>
        StopsAs ts c.depth (read rule (maxDepth - c.depth) (ts.drop c.pos)) r d ∧
          (c.pos < d.pos ↔ rule.starts t.kind = true)

theorem Rule.rank_le (rule : Rule) : rule.rank ≤ 5 := by
  rcases rule with _ | (_ | _) | _ | _ | _ <;> decide

theorem isEof_eq_false_of_opAmong? {ops : List Op} {t : Token} {op : Op} (h : opAmong? ops t.kind = some op) :
    t.isEof = false := by
  rcases t with ⟨kind, s⟩
  cases kind <;> first | rfl | cases h

section Rules

variable {ts : List Token} {floor calls : Nat} {c : Cursor}
variable (hend : firstEnd ts < ts.length)
include hend

theorem Reads.ends (rule : Rule) (h : Reads ts calls) (hc : Within ts floor c)
    (hcalls : 2 * (6 * (firstEnd ts - c.pos) + rule.rank) + 1 ≤ calls) :
    Ends (Within ts floor) pos c (reading ts calls rule)
      (StopsAs ts c.depth (read rule (maxDepth - c.depth) (ts.drop c.pos))) := by
  obtain ⟨t, ht⟩ := exists_token hend hc
  refine (h rule c t ⟨hc.pos_le, Nat.le_refl _, hc.depth_le⟩ ht hcalls).mono ?_ fun _ _ _ _ hpost => hpost.1
  exact fun _ hz => hz.mono hc.floor_le

/-- A chain goes on, with `folded` of its levels entered, and leaves them in the end. -/
theorem ends_folding (ops : List Op) (next : Rule) (left : Expr) {depth folded : Nat}
    (hread : ∀ m < calls, Reads ts m) (hc : Within ts floor c) (hfloor : floor ≤ depth)
    (hdepth : c.depth = depth + folded) (hcalls : 12 * (firstEnd ts - c.pos) + 1 ≤ calls) :
    Ends (Within ts floor) pos c (folding ts calls ops next left folded)
      (StopsAs ts depth (readFolding ops next (maxDepth - c.depth) left (ts.drop c.pos))) := by
  induction calls generalizing c left folded with
  | zero => omega
  | succ calls ih =>
    obtain ⟨t, ht⟩ := exists_token hend hc
    unfold folding
    refine ends_current_bind hend hc ht ?_
    rw [drop_eq_cons ht]
    cases hop : opAmong? ops t.kind with
    | none =>
      refine ends_leave_bind hc (by omega) fun hleft => ?_
      rw [readFolding_of_none left hop]
      exact Walk.ends_pure hleft ⟨by rw [drop_eq_cons ht], by simp only; omega⟩
    | some op =>
      have hlt := (isEof_eq_false_iff_lt hc.pos_le ht).mp (isEof_eq_false_of_opAmong? hop)
      refine ends_advance_bind hend _ hc hlt (fun hnext => ?_) fun _ _ h _ => h
      refine ends_enter_bind hnext ?_ fun hroom hentered => ?_
      · intro hfull
        simp only at hfull
        rw [hfull, Nat.sub_self, readFolding_zero left hop]
        exact ⟨_, t, _, rfl, rfl⟩
      · rw [room_eq_succ hroom, readFolding_succ left hop]
        have hrank := next.rank_le
        have hnext := (hread calls (Nat.lt_succ_self _)).ends hend next hentered (by simp only; omega)
        refine ends_bind_of_stopsAs hnext ?_
        intro right d hd hle _ hdepth'
        simp only at hle hdepth'
        have hroom' : maxDepth - (c.depth + 1) = maxDepth - d.depth := by rw [hdepth']
        rw [hroom']
        exact ih _ (fun m hm => hread m (Nat.lt_succ_of_lt hm)) hd (by omega) (by omega)

theorem ends_chaining (ops : List Op) {first : Rule} (next : Rule) {t : Token} (hread : ∀ m < calls, Reads ts m)
    (hc : Within ts c.depth c) (ht : ts[c.pos]? = some t)
    (hcalls : 2 * (6 * (firstEnd ts - c.pos) + first.rank) + 2 ≤ calls) :
    Ends (Within ts c.depth) pos c (chaining ts calls ops first next) fun r d =>
      StopsAs ts c.depth (readChaining ops first next (maxDepth - c.depth) (ts.drop c.pos)) r d ∧
        (c.pos < d.pos ↔ first.starts t.kind = true) ∧ ∀ tree, r = .ok tree → c.pos < d.pos := by
  cases calls with
  | zero => omega
  | succ calls =>
    unfold chaining readChaining
    refine (hread calls (Nat.lt_succ_self _) first c t hc ht (by omega)).bind ?_ ?_
    · rintro left d hd - ⟨⟨hleft, hdepth⟩, hmoved⟩
      have hlt := pos_lt_of_read hleft
      have hbelow : ∀ m < calls, Reads ts m := fun m hm => hread m (Nat.lt_succ_of_lt hm)
      have hfolding : Ends (Within ts c.depth) pos d (folding ts calls ops next left 0)
          (StopsAs ts c.depth (readFolding ops next (maxDepth - d.depth) left (ts.drop d.pos))) :=
        ends_folding hend ops next left hbelow hd (Nat.le_refl _) hdepth (by omega)
      rw [hdepth] at hfolding
      refine hfolding.mono (fun _ hz => hz) fun r e _ hle hstops => ?_
      have hlt' := Nat.lt_of_lt_of_le hlt hle
      rw [hleft]
      exact ⟨hstops, iff_of_true hlt' (hmoved.mp hlt), fun _ _ => hlt'⟩
    · rintro e d - - ⟨hstops, hmoved⟩
      exact ⟨hstops.bind_error _, hmoved, nofun⟩

/-- A declaration is read from the keyword on, whatever keyword it is. -/
theorem ends_declaring {k : Keyword} (span : Span) (hread : ∀ m < calls, Reads ts m) (hc : Within ts c.depth c)
    (hlt : c.pos < firstEnd ts) (hcalls : 12 * (firstEnd ts - c.pos) ≤ calls) :
    Ends (Within ts c.depth) pos c (declaring ts calls k) fun r d =>
      StopsAs ts c.depth (read .expression (maxDepth - c.depth) (⟨.keyword k, span⟩ :: ts.drop (c.pos + 1))) r d ∧
        c.pos < d.pos := by
  cases calls with
  | zero => omega
  | succ calls =>
    unfold declaring
    refine ends_advance_bind hend (StopsAs ts c.depth _) hc hlt (fun hname => ?_) fun _ _ h h' => ⟨h, h'⟩
    obtain ⟨⟨kind, nameSpan⟩, ht⟩ := exists_token hend hname
    refine ends_current_bind hend hname ht ?_
    simp only at ht
    rw [drop_eq_cons ht]
    cases kind with
    | identifier name =>
      have hlt' : c.pos + 1 < firstEnd ts := (isEof_eq_false_iff_lt hname.pos_le ht).mp rfl
      refine ends_advance_bind hend _ hname hlt' (fun hequal => ?_) fun _ _ h _ => h
      obtain ⟨⟨kind, s'⟩, ht'⟩ := exists_token hend hequal
      refine ends_current_bind hend hequal ht' ?_
      simp only at ht'
      rw [drop_eq_cons ht']
      by_cases hkind : kind = .equal
      · subst hkind
        have hlt'' : c.pos + 1 + 1 < firstEnd ts := (isEof_eq_false_iff_lt hequal.pos_le ht').mp rfl
        rw [if_pos rfl, read_declaration]
        refine ends_advance_bind hend _ hequal hlt'' (fun hvalue => ?_) fun _ _ h _ => h
        exact ends_map_of_stopsAs (declare k name nameSpan) ((hread calls (Nat.lt_succ_self _)).ends hend _ hvalue
          (by simp only [Rule.rank]; omega))
      · rw [if_neg hkind, read_expression_of_noEquals k name span nameSpan (by simpa using hkind)]
        exact Walk.ends_refuse hequal ⟨_, _, _, rfl, rfl⟩
    | _ =>
      rw [read_expression_of_noName k span (by simp)]
      exact Walk.ends_refuse hname ⟨_, _, _, rfl, rfl⟩

/-- An expression that is no declaration. -/
theorem ends_rescue_sum {t : Token} (hread : Reads ts calls) (hc : Within ts c.depth c) (ht : ts[c.pos]? = some t)
    (hkind : ∀ k, t.kind ≠ .keyword k) (hcalls : 12 * (firstEnd ts - c.pos) + 9 ≤ calls) :
    Ends (Within ts c.depth) pos c ((reading ts calls (.chain .sum)).rescue (refuseExpression ts c.pos)) fun r d =>
      StopsAs ts c.depth (read .expression (maxDepth - c.depth) (ts.drop c.pos)) r d ∧
        (c.pos < d.pos ↔ Rule.expression.starts t.kind = true) := by
  have hstarts : Rule.expression.starts t.kind = startsOperand t.kind := by
    rcases t with ⟨kind, s⟩
    cases kind <;> first | rfl | exact absurd rfl (hkind _)
  rw [hstarts]
  refine (hread (.chain .sum) c t hc ht (by simp only [Rule.rank]; omega)).rescue ?_ ?_ ?_
  · rintro tree d hd - ⟨⟨hsum, hdepth⟩, hmoved⟩
    have hoperand : startsOperand t.kind = true := hmoved.mp (pos_lt_of_read hsum)
    rw [drop_eq_cons ht] at hsum ⊢
    rw [read_expression_of_startsOperand hoperand]
    exact ⟨⟨hsum, hdepth⟩, hmoved⟩
  · rintro _ d hd hle ⟨⟨problem, t', rest, hsum, rfl⟩, hmoved⟩
    refine Walk.ends_now_bind ?_
    by_cases hpos : d.pos = c.pos
    · have hnone : startsOperand t.kind = false := by
        rw [Bool.eq_false_iff]
        intro hoperand
        have hlt := hmoved.mpr hoperand
        omega
      rw [if_pos hpos, drop_eq_cons ht, read_expression_of_not_startsOperand hnone hkind]
      exact ends_current_bind hend hd (hpos ▸ ht) (Walk.ends_refuse hd ⟨⟨_, _, _, rfl, rfl⟩, hmoved⟩)
    · have hoperand : startsOperand t.kind = true := hmoved.mp (by omega)
      rw [if_neg hpos]
      rw [drop_eq_cons ht] at hsum ⊢
      rw [read_expression_of_startsOperand hoperand]
      exact Walk.ends_refuse hd ⟨⟨_, _, _, hsum, rfl⟩, hmoved⟩
  · rintro d ⟨⟨⟩, -⟩

theorem ends_factor {t : Token} (hread : Reads ts calls) (hc : Within ts c.depth c) (ht : ts[c.pos]? = some t)
    (hcalls : 12 * (firstEnd ts - c.pos) + 4 ≤ calls) :
    Ends (Within ts c.depth) pos c (reading ts (calls + 1) .factor) fun r d =>
      StopsAs ts c.depth (read .factor (maxDepth - c.depth) (ts.drop c.pos)) r d ∧
        (c.pos < d.pos ↔ Rule.factor.starts t.kind = true) := by
  unfold reading
  refine ends_current_bind hend hc ht ?_
  cases hop : t.kind.sign? with
  | none =>
    have hstarts : Rule.power.starts t.kind = Rule.factor.starts t.kind := by simp [Rule.starts, hop]
    rw [← hstarts, drop_eq_cons ht, read_factor_of_sign?_eq_none hop, ← drop_eq_cons ht]
    exact hread .power c t hc ht (by simp only [Rule.rank]; omega)
  | some op =>
    have hlt := (isEof_eq_false_iff_lt hc.pos_le ht).mp (isEof_of_sign? hop)
    rw [drop_eq_cons ht]
    refine ends_advance_bind hend (StopsAs ts c.depth _) hc hlt (fun hnext => ?_)
      fun _ _ h h' => ⟨h, iff_of_true h' (starts_of_sign? hop)⟩
    refine ends_enter_bind hnext ?_ fun hroom hentered => ?_
    · intro hfull
      simp only at hfull
      rw [hfull, Nat.sub_self, read_factor_zero hop]
      exact ⟨_, t, _, rfl, rfl⟩
    · rw [room_eq_succ hroom, read_factor_succ hop, map_eq_bind]
      refine ends_bind_of_stopsAs (hread.ends hend _ hentered (by simp only [Rule.rank]; omega)) ?_
      intro operand d hd _ _ hdepth
      simp only at hdepth
      refine ends_leave_bind hd (by omega) fun hleft => ?_
      exact Walk.ends_pure hleft ⟨rfl, by simp only; omega⟩

theorem ends_group {s : Span} (hread : Reads ts calls) (hc : Within ts c.depth c)
    (ht : ts[c.pos]? = some ⟨.leftParen, s⟩) (hcalls : 12 * (firstEnd ts - c.pos) ≤ calls) :
    Ends (Within ts c.depth) pos c (reading ts (calls + 1) .atom) fun r d =>
      StopsAs ts c.depth (read .atom (maxDepth - c.depth) (ts.drop c.pos)) r d ∧ c.pos < d.pos := by
  have hlt := (isEof_eq_false_iff_lt hc.pos_le ht).mp rfl
  unfold reading
  refine ends_current_bind hend hc ht ?_
  rw [drop_eq_cons ht]
  refine ends_advance_bind hend (StopsAs ts c.depth _) hc hlt (fun hnext => ?_) fun _ _ h h' => ⟨h, h'⟩
  refine ends_enter_bind hnext ?_ fun hroom hentered => ?_
  · intro hfull
    simp only at hfull
    rw [hfull, Nat.sub_self, read_leftParen_zero]
    exact ⟨_, _, _, rfl, rfl⟩
  rw [room_eq_succ hroom, read_leftParen_succ]
  refine ends_bind_of_stopsAs (hread.ends hend _ hentered (by simp only [Rule.rank]; omega)) ?_
  intro inner d hd _ _ hdepth
  simp only at hdepth
  refine ends_leave_bind hd (by omega) fun hleft => ?_
  obtain ⟨⟨kind, s'⟩, ht'⟩ := exists_token hend hleft
  refine ends_current_bind hend hleft ht' ?_
  simp only at ht'
  rw [drop_eq_cons ht']
  by_cases hkind : kind = .rightParen
  · subst hkind
    have hlt' : d.pos < firstEnd ts := (isEof_eq_false_iff_lt hleft.pos_le ht').mp rfl
    rw [if_pos rfl]
    refine ends_advance_bind hend _ hleft hlt' (fun hclosed => ?_) fun _ _ h _ => h
    exact Walk.ends_pure hclosed ⟨rfl, by simp only; omega⟩
  · rw [if_neg hkind]
    refine Walk.ends_refuse hleft ?_
    cases kind <;> first | exact ⟨_, _, _, rfl, rfl⟩ | exact absurd rfl hkind

/-- A token that is a tree by itself. -/
theorem ends_advance_pure {tree : Expr} {expected : Except Stuck (Expr × List Token)} (hc : Within ts c.depth c)
    (hlt : c.pos < firstEnd ts) (hexpected : expected = .ok (tree, ts.drop (c.pos + 1))) :
    Ends (Within ts c.depth) pos c (do advance ts; return tree : Walk Cursor Expr) fun r d =>
      StopsAs ts c.depth expected r d ∧ c.pos < d.pos := by
  refine ends_advance_bind hend (StopsAs ts c.depth _) hc hlt (fun hnext => ?_) fun _ _ h h' => ⟨h, h'⟩
  exact Walk.ends_pure hnext ⟨hexpected, rfl⟩

theorem ends_atom {t : Token} (hread : Reads ts calls) (hc : Within ts c.depth c) (ht : ts[c.pos]? = some t)
    (hcalls : 12 * (firstEnd ts - c.pos) ≤ calls) :
    Ends (Within ts c.depth) pos c (reading ts (calls + 1) .atom) fun r d =>
      StopsAs ts c.depth (read .atom (maxDepth - c.depth) (ts.drop c.pos)) r d ∧
        (c.pos < d.pos ↔ Rule.atom.starts t.kind = true) := by
  obtain ⟨kind, s⟩ := t
  cases kind with
  | leftParen =>
    exact (ends_group hend hread hc ht hcalls).mono (fun _ h => h) fun _ _ _ _ h => ⟨h.1, iff_of_true h.2 rfl⟩
  | number n =>
    have hlt := (isEof_eq_false_iff_lt hc.pos_le ht).mp rfl
    unfold reading
    refine ends_current_bind hend hc ht ?_
    rw [drop_eq_cons ht]
    exact (ends_advance_pure hend hc hlt (read_number ..)).mono (fun _ h => h)
      fun _ _ _ _ h => ⟨h.1, iff_of_true h.2 rfl⟩
  | identifier name =>
    have hlt := (isEof_eq_false_iff_lt hc.pos_le ht).mp rfl
    unfold reading
    refine ends_current_bind hend hc ht ?_
    rw [drop_eq_cons ht]
    exact (ends_advance_pure hend hc hlt (read_identifier ..)).mono (fun _ h => h)
      fun _ _ _ _ h => ⟨h.1, iff_of_true h.2 rfl⟩
  | _ =>
    unfold reading
    refine ends_current_bind hend hc ht ?_
    rw [drop_eq_cons ht, read_atom_of_nothing (by simp [Rule.starts, startsOperand, Token.Kind.sign?])]
    exact Walk.ends_refuse hc ⟨⟨_, _, _, rfl, rfl⟩,
      iff_of_false (Nat.lt_irrefl _) (by simp [Rule.starts, startsOperand, Token.Kind.sign?])⟩

/-- Every rule reads as it should, when the calls are enough for the tokens that are left. -/
theorem reads (calls : Nat) : Reads ts calls := by
  induction calls using Nat.strongRecOn with
  | ind calls ih =>
  cases calls with
  | zero =>
    intro rule c t _ _ hcalls
    omega
  | succ calls =>
    have hread : Reads ts calls := ih calls (Nat.lt_succ_self _)
    have hbelow : ∀ m < calls, Reads ts m := fun m hm => ih m (Nat.lt_succ_of_lt hm)
    intro rule c t hc ht hcalls
    cases rule with
    | expression =>
      simp only [Rule.rank] at hcalls
      unfold reading
      refine ends_current_bind hend hc ht ?_
      obtain ⟨kind, s⟩ := t
      cases kind with
      | keyword k =>
        have hlt := (isEof_eq_false_iff_lt hc.pos_le ht).mp rfl
        rw [drop_eq_cons ht]
        exact (ends_declaring hend s hbelow hc hlt (by omega)).mono (fun _ h => h)
          fun _ _ _ _ h => ⟨h.1, iff_of_true h.2 rfl⟩
      | _ => exact Walk.ends_now_bind (ends_rescue_sum hend hread hc ht (by simp) (by omega))
    | chain chain =>
      have hrank := chain.rank_operand_lt
      have hstarts : chain.operand.starts t.kind = (Rule.chain chain).starts t.kind := by cases chain <;> rfl
      unfold reading
      rw [← hstarts, read_chain_eq_readChaining]
      exact (ends_chaining hend _ _ hbelow hc ht (by omega)).mono (fun _ h => h) fun _ _ _ _ h => ⟨h.1, h.2.1⟩
    | factor => exact ends_factor hend hread hc ht (by simp only [Rule.rank] at hcalls; omega)
    | power =>
      unfold reading
      rw [read_power_eq_readChaining (Nat.sub_le _ _)]
      simp only [Rule.rank] at hcalls
      exact (ends_chaining hend _ _ hbelow hc ht (by simp only [Rule.rank]; omega)).mono (fun _ h => h)
        fun _ _ _ _ h => ⟨h.1, h.2.1⟩
    | atom => exact ends_atom hend hread hc ht (by simp only [Rule.rank] at hcalls; omega)

end Rules

/-! ## Whole lists of tokens -/

section Whole

variable {ts : List Token} {last : Token}

theorem firstEnd_lt_of_getLast? (hlast : ts.getLast? = some last) (hkind : last.kind = .eof) :
    firstEnd ts < ts.length := by
  refine List.findIdx_lt_length_of_exists ⟨last, List.mem_of_getLast? hlast, ?_⟩
  rw [Token.isEof, hkind]

theorem getLast?_withEnd (hlast : ts.getLast? = some last) :
    ∃ stop, (withEnd ts last).getLast? = some stop ∧ stop.kind = .eof := by
  unfold withEnd
  split
  · next hkind => exact ⟨last, hlast, hkind⟩
  · exact ⟨_, List.getLast?_concat, rfl⟩

theorem firstEnd_withEnd_le (hlast : ts.getLast? = some last) : firstEnd (withEnd ts last) ≤ ts.length := by
  obtain ⟨stop, hstop, hkind⟩ := getLast?_withEnd hlast
  have hlt := firstEnd_lt_of_getLast? hstop hkind
  revert hlt
  unfold withEnd
  split
  · exact Nat.le_of_lt
  · rw [List.length_append, List.length_singleton]
    exact Nat.le_of_lt_succ

theorem ofTokens_withEnd (hlast : ts.getLast? = some last) : ofTokens (withEnd ts last) = ofTokens ts := by
  unfold withEnd
  split
  · rfl
  by_cases hends : ∀ t ∈ ts, t.isEof = false
  · rw [ofTokens_of_getLast? hlast hends, ofTokens_append_stop hends rfl]
  · simp only [not_forall, Bool.not_eq_false] at hends
    obtain ⟨stop, hmem, hstop⟩ := hends
    obtain ⟨i, hi⟩ := List.mem_iff_getElem?.mp hmem
    obtain ⟨us, first, rest, rfl, -, hfirst, hus⟩ := exists_first_end hi hstop
    rw [List.append_assoc, List.cons_append, ofTokens_append_cons_stop hus hfirst, ofTokens_append_cons_stop hus hfirst]

/-- Reading all tokens comes to what the whole list comes to. -/
theorem ends_readingAll (hend : firstEnd ts < ts.length) (calls : Nat) (hcalls : 12 * firstEnd ts + 11 ≤ calls) :
    Ends (Within ts 0) pos ⟨0, 0⟩ (readingAll ts calls) fun r _ => r = Walk.ofOutcome (ofWhole ts) := by
  have hstart : Within ts 0 ⟨0, 0⟩ := ⟨Nat.zero_le _, Nat.le_refl _, Nat.zero_le _⟩
  refine ((reads hend calls).ends hend .expression hstart (by simp only [Rule.rank]; omega)).bind ?_ ?_
  · rintro tree d hd - ⟨hread, -⟩
    obtain ⟨t, ht⟩ := exists_token hend hd
    refine ends_current_bind hend hd ht ?_
    replace hread : read .expression maxDepth ts = .ok (tree, t :: ts.drop (d.pos + 1)) := by
      rw [← drop_eq_cons ht]
      exact hread
    by_cases hkind : t.kind = .eof
    · have hstop : t.isEof = true := by rw [Token.isEof, hkind]
      rw [if_pos hkind]
      refine Walk.ends_pure hd ?_
      simp [ofWhole, hread, hstop, Walk.ofOutcome]
    · have hstop : t.isEof = false := Token.isEof_eq_false_iff.mpr hkind
      rw [if_neg hkind]
      refine Walk.ends_refuse hd ?_
      simp [ofWhole, hread, hstop, Walk.ofOutcome, stopSpan]
  · rintro (d | -) y - - hstops
    · obtain ⟨problem, t, rest, hread, rfl⟩ := hstops
      replace hread : read .expression maxDepth ts = .error ⟨problem, t :: rest⟩ := hread
      simp [ofWhole, hread, Walk.ofOutcome, stopSpan]
    · exact hstops.elim

theorem walkTokens_eq (ts : List Token) {calls : Nat} (hcalls : 12 * ts.length + 11 ≤ calls) :
    walkTokens ts calls = some (Walk.ofOutcome (ofTokens ts)) := by
  cases hlast : ts.getLast? with
  | none =>
    obtain rfl := List.getLast?_eq_none_iff.mp hlast
    simp [walkTokens, ofTokens, ofBody, body, endSpan, read_expression_nil, Walk.ofOutcome]
  | some last =>
    obtain ⟨stop, hstop, hkind⟩ := getLast?_withEnd hlast
    have hle := firstEnd_withEnd_le hlast
    obtain ⟨r, d, trail, hrun, hr, -⟩ :=
      ends_readingAll (firstEnd_lt_of_getLast? hstop hkind) calls (by omega)
    simp only [walkTokens, hlast, hrun []]
    rw [← ofTokens_withEnd hlast, ofTokens_eq_ofWhole]
    exact congrArg some hr

end Whole

/-! ## The calls of the reader -/

/-- The functions of the reader, each with what it is called with. -/
inductive Call where
  | reading (rule : Rule)
  | declaring (k : Keyword)
  | chaining (ops : List Op) (first next : Rule)

namespace Call

def walk (ts : List Token) (calls : Nat) : Call → Walk Cursor Expr
  | reading rule => Expr.reading ts calls rule
  | declaring k => Expr.declaring ts calls k
  | chaining ops first next => Expr.chaining ts calls ops first next

/-- The number of calls, one inside the other, that is enough when `left` tokens are left in front of the end. -/
def nesting (left : Nat) : Call → Nat
  | reading rule => 12 * left + 2 * rule.rank + 1
  | declaring _ => 12 * left
  | chaining _ first _ => 12 * left + 2 * first.rank + 2

/-- The cursor is not behind the first end, and in front of it where a declaration begins. That passes the token under
the cursor without looking at it, for its caller has seen its keyword there. -/
def Begins (ts : List Token) (c : Cursor) : Call → Prop
  | declaring _ => c.pos < firstEnd ts
  | _ => c.pos ≤ firstEnd ts

end Call

/-- **The cursor keeps to the text.** On tokens with an end behind them, each function of the reader that begins with
the cursor not behind the first end, or in front of it if it reads a declaration, and not too deep, comes to an
end without a fault. At every moment the cursor is not behind the first end, and not in front of where it was
before, and the level is not too deep, and not below the one it began at: no more levels are left than were
entered. When it succeeds, the cursor has moved, and the level is the one it began at. The calls it makes, one
inside the other, are bounded by the number of tokens. So reading any tokens ends without a fault, and comes to
what they make up. -/
theorem Call.ends_within (ts : List Token) :
    (∀ last, ts.getLast? = some last → last.kind = .eof →
      ∀ (call : Call) (c : Cursor) (calls : Nat), call.Begins ts c → c.depth ≤ maxDepth →
        call.nesting (firstEnd ts - c.pos) ≤ calls →
          Ends (Within ts c.depth) Cursor.pos c (call.walk ts calls) fun r d =>
            r ≠ .error .fault ∧ ∀ tree, r = .ok tree → c.pos < d.pos ∧ d.depth = c.depth) ∧
    ∀ calls, 12 * ts.length + 11 ≤ calls → walkTokens ts calls = some (Walk.ofOutcome (ofTokens ts)) := by
  refine ⟨?_, fun calls hcalls => walkTokens_eq ts hcalls⟩
  intro last hlast hkind call c calls hbegins hdepth hcalls
  have hend := firstEnd_lt_of_getLast? hlast hkind
  have hpos : c.pos ≤ firstEnd ts := by
    cases call with
    | declaring k => exact Nat.le_of_lt hbegins
    | _ => exact hbegins
  have hc : Within ts c.depth c := ⟨hpos, Nat.le_refl _, hdepth⟩
  obtain ⟨t, ht⟩ := exists_token hend hc
  cases call with
  | reading rule =>
    simp only [nesting] at hcalls
    refine (reads hend calls rule c t hc ht (by omega)).mono (fun _ h => h) ?_
    rintro r d - - ⟨hstops, -⟩
    refine ⟨hstops.ne_fault, fun tree hr => ⟨?_, hstops.depth_eq hr⟩⟩
    subst hr
    exact pos_lt_of_read hstops.1
  | declaring k =>
    refine (ends_declaring hend t.span (fun m _ => reads hend m) hc hbegins hcalls).mono (fun _ h => h) ?_
    rintro r d - - ⟨hstops, hmoved⟩
    exact ⟨hstops.ne_fault, fun tree hr => ⟨hmoved, hstops.depth_eq hr⟩⟩
  | chaining ops first next =>
    simp only [nesting] at hcalls
    refine (ends_chaining hend ops next (fun m _ => reads hend m) hc ht (by omega)).mono
      (fun _ h => h) ?_
    rintro r d - - ⟨hstops, -, hmoved⟩
    exact ⟨hstops.ne_fault, fun tree hr => ⟨hmoved tree hr, hstops.depth_eq hr⟩⟩

/-- The tokens of `1+2`, an end, and a token behind it. -/
def endedSum : List Token :=
  [⟨.number (.int 1), nowhere⟩, ⟨.plus, nowhere⟩, ⟨.number (.int 2), nowhere⟩, ⟨.eof, nowhere⟩, ⟨.rightParen, nowhere⟩,
    ⟨.eof, nowhere⟩]

/-- The chain of atoms begins one level above the deepest one. It enters that and leaves it again, and it comes to the
first end and no further. -/
theorem Call.ends_within_endedSum :
    let call := Call.chaining [.add] .atom .atom
    endedSum.getLast? = some ⟨.eof, nowhere⟩ ∧ call.Begins endedSum ⟨0, 127⟩ ∧
      Ends (Within endedSum 127) Cursor.pos ⟨0, 127⟩ (call.walk endedSum 38) (fun r d =>
        r ≠ .error .fault ∧ ∀ tree, r = .ok tree → 0 < d.pos ∧ d.depth = 127) ∧
      ((call.walk endedSum 38) ⟨⟨0, 127⟩, []⟩).map Prod.snd =
        some ⟨⟨3, 127⟩, [⟨3, 128⟩, ⟨2, 128⟩, ⟨2, 127⟩, ⟨1, 127⟩, ⟨0, 127⟩]⟩ := by
  intro call
  have hbegins : call.Begins endedSum ⟨0, 127⟩ := Nat.zero_le _
  refine ⟨rfl, hbegins, ?_, by decide +kernel⟩
  exact (Call.ends_within endedSum).1 _ rfl rfl call ⟨0, 127⟩ 38 hbegins (by decide) (by decide)

/-- A declaration that begins at the first end passes it, whatever number of calls it may make. So it does not keep to
the text as all else does, and `Call.Begins` asks for more there. -/
theorem Call.not_ends_within_atEnd :
    let ts : List Token := [⟨.eof, nowhere⟩, ⟨.eof, nowhere⟩]
    let c : Cursor := ⟨0, 0⟩
    let call := Call.declaring .varKeyword
    ts.getLast? = some ⟨.eof, nowhere⟩ ∧ c.pos ≤ firstEnd ts ∧ c.depth ≤ maxDepth ∧
      (∀ calls past, call.walk ts (calls + 1) ⟨c, past⟩ =
        some (.error (.refused (.ofSyntax .expectedIdentifier nowhere)), ⟨⟨1, 0⟩, c :: past⟩)) ∧
      firstEnd ts < 1 ∧ ∀ calls post, ¬ Ends (Within ts c.depth) Cursor.pos c (call.walk ts calls) post := by
  intro ts c call
  have hrun : ∀ calls past, call.walk ts (calls + 1) ⟨c, past⟩ =
      some (.error (.refused (.ofSyntax .expectedIdentifier nowhere)), ⟨⟨1, 0⟩, c :: past⟩) := by
    intro calls past
    simp only [call, walk, Expr.declaring]
    rfl
  have hend : firstEnd ts < 1 := by decide
  refine ⟨rfl, Nat.zero_le _, Nat.zero_le _, hrun, hend, ?_⟩
  rintro (_ | calls) post ⟨r, d, trail, hends, -, hall, -⟩
  · cases hends []
  · have hd : (⟨1, 0⟩ : Cursor) = d :=
      congrArg (·.2.now) (Option.some.inj ((hrun calls []).symm.trans (hends [])))
    have hpos := (hall d List.mem_cons_self).1.pos_le
    rw [← hd] at hpos
    exact Nat.not_le_of_lt hend hpos

end Reckoner.Expr
