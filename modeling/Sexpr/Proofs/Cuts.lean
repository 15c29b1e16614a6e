/-
Cutting spans.

A key is cut off its colon by cutting the span of its token in three. A text of one line
can be cut anywhere, and the pieces give the text again.

* `Span.exists_slice` — cuts that succeed;
* `Span.raw_of_slice` — the text of a cut;
* `Span.raw_append_cuts` — the texts of a key, of nothing and of its colon.
-/
import Mathlib.Tactic.SplitIfs
import Sexpr.Source.Span

namespace Sexpr

theorem Span.offset_le (n : Nat) (b : Int) : offset n b ≤ n := Nat.min_le_right _ _

theorem Span.offset_length (n : Nat) : offset n n = n := by
  unfold offset
  dsimp only
  omega

/-! ### Positions -/

theorem Pos.index_forwardOver (p : Pos) (cs : List Char) :
    (p.forwardOver cs).index = p.index + cs.length := by
  induction cs generalizing p with
  | nil => simp
  | cons c cs ih =>
    rw [forwardOver_cons, ih, forward, List.length_cons]
    split_ifs
    · dsimp only
      omega
    · dsimp only
      omega

theorem Pos.exists_backwardOver {cs : List Char} (h : '\n' ∉ cs) (p : Pos) :
    ∃ q, p.backwardOver cs = .ok q ∧ q.index = p.index - cs.length := by
  induction cs generalizing p with
  | nil => exact ⟨p, rfl, by simp⟩
  | cons c cs ih =>
    rw [List.mem_cons, not_or] at h
    obtain ⟨q, hq, hindex⟩ := ih h.2 ⟨p.line, p.col - 1, p.index - 1⟩
    refine ⟨q, ?_, ?_⟩
    · rw [backwardOver, backward, if_neg (Ne.symm h.1)]
      exact hq
    · rw [hindex, List.length_cons]
      dsimp only
      omega

/-! ### Cuts -/

/-- The span of a text of one line can be cut anywhere. -/
theorem Span.exists_slice {p : Pos} {cs : List Char} (hline : '\n' ∉ cs) {a b : Option Int}
    (hle : offset cs.length (a.getD 0) ≤ offset cs.length (b.getD cs.length)) :
    ∃ t, Span.slice ⟨p, p.forwardOver cs, String.ofList cs⟩ a b = .ok t := by
  unfold slice
  dsimp only
  rw [String.toList_ofList]
  generalize hi : offset cs.length (a.getD 0) = i at hle
  generalize hj : offset cs.length (b.getD cs.length) = j at hle
  have hjle : j ≤ cs.length := by
    rw [← hj]
    exact Nat.min_le_right _ _
  have hdrop : '\n' ∉ (cs.drop j).reverse := by
    rw [List.mem_reverse]
    exact fun hmem => hline (List.mem_of_mem_drop hmem)
  obtain ⟨q, hq, hindex⟩ := Pos.exists_backwardOver hdrop (p.forwardOver cs)
  refine ⟨⟨p.forwardOver (cs.take i), q, String.ofList ((cs.take j).drop i)⟩, ?_⟩
  rw [hq]
  refine if_pos ?_
  rw [hindex, Pos.index_forwardOver, Pos.index_forwardOver, String.toList_ofList]
  simp only [List.length_drop, List.length_take, List.length_reverse]
  omega

/-- The text of a cut is the part of the text between the two bounds. -/
theorem Span.raw_of_slice {s t : Span} {a b : Option Int} (h : s.slice a b = .ok t) :
    t.raw.toList =
      (s.raw.toList.take (offset s.raw.toList.length (b.getD s.raw.toList.length))).drop
        (offset s.raw.toList.length (a.getD 0)) := by
  unfold Span.slice at h
  cases hstop : s.stop.backwardOver
      (s.raw.toList.drop (offset s.raw.toList.length (b.getD s.raw.toList.length))).reverse with
  | error e =>
    simp only [hstop, bind, Except.bind] at h
    exact absurd h (by simp)
  | ok stop =>
    simp only [hstop, bind, Except.bind, Span.make] at h
    split_ifs at h
    · cases h
      simp

/-- The three cuts of a key token are the whole token. -/
theorem Span.raw_append_cuts {token key gap colon : Span}
    (hkey : token.slice none (some (-1)) = .ok key)
    (hgap : token.slice (some (-1)) (some (-1)) = .ok gap)
    (hcolon : token.slice (some (-1)) none = .ok colon) :
    key.raw ++ gap.raw ++ colon.raw = token.raw := by
  rw [← String.toList_inj]
  simp only [String.toList_append, raw_of_slice hkey, raw_of_slice hgap, raw_of_slice hcolon,
    Option.getD_none, Option.getD_some]
  generalize hn : offset token.raw.toList.length (-1) = n
  have hzero : offset token.raw.toList.length 0 = 0 := by simp [offset]
  rw [hzero, offset_length, List.drop_zero, List.take_length,
    List.drop_eq_nil_of_le (by rw [List.length_take]; omega), List.append_nil,
    List.take_append_drop]

end Sexpr
