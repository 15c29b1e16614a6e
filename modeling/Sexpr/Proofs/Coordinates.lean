/-
Positions and spans count from the start of the text.

The line of a position is one more than the newlines before it, and its column one more
than the characters since the last of them. The productions count as they go and the key
of a field is cut out of its token by going back, but every position that they leave or
give is the one that the text has there.

* `Pos.ofIndex` — the position of a character in a text, by its number;
* `Cursor.StandsIn`, `Span.PartOf` — cursors and spans whose positions are counted right;
* `Span.PartOf.slice` — a part of a span on one line;
* `Expr.spans` — all spans inside an expression;
* `Cursor.StandsIn.isAt`, `Span.PartOf.isAt` — what this says about lines and columns.
-/
import Mathlib.Data.List.Induction
import Sexpr.Proofs.Cuts
import Sexpr.Proofs.Parts
import Sexpr.Source.Cursor

namespace Sexpr

/-! ### Positions -/

/-- The position of a character of a text, by the number of characters before it. -/
def Pos.ofIndex (text : List Char) (i : Nat) : Pos :=
  ⟨1 + ((text.take i).count '\n' : Nat),
    1 + ((text.take i).reverse.takeWhile (· ≠ '\n')).length, i⟩

theorem Pos.forwardOver_origin (cs : List Char) :
    Pos.origin.forwardOver cs = Pos.ofIndex cs cs.length := by
  induction cs using List.reverseRecOn with
  | nil => rfl
  | append_singleton cs c ih =>
    rw [forwardOver_append, ih, forwardOver_cons, forwardOver_nil, ofIndex, ofIndex,
      List.take_length, List.take_length, List.reverse_append, List.count_append]
    by_cases hc : c = '\n'
    · subst hc
      simp [forward]
      omega
    · simp [forward, hc]
      omega

/-- The position in front of the rest of a text. -/
theorem Pos.ofIndex_append (a r : List Char) :
    Pos.ofIndex (a ++ r) a.length = Pos.origin.forwardOver a := by
  rw [forwardOver_origin, ofIndex, ofIndex, List.take_left, List.take_length]

theorem Pos.index_forwardOver_origin (cs : List Char) :
    (Pos.origin.forwardOver cs).index = cs.length := by
  rw [forwardOver_origin, ofIndex]

/-- Going back over a text without newlines leads to where it started. -/
theorem Pos.backwardOver_forwardOver {b : List Char} (h : '\n' ∉ b) (p : Pos) :
    (p.forwardOver b).backwardOver b.reverse = .ok p := by
  induction b using List.reverseRecOn with
  | nil => rfl
  | append_singleton b c ih =>
    rw [List.mem_append, List.mem_singleton, not_or] at h
    have hback : ((p.forwardOver b).forward c).backward c = .ok (p.forwardOver b) := by
      rw [forward, backward, if_neg (Ne.symm h.2), if_neg (Ne.symm h.2)]
      simp
    rw [forwardOver_append, forwardOver_cons, forwardOver_nil, List.reverse_append,
      List.reverse_singleton, List.singleton_append, backwardOver, hback]
    exact ih h.1

/-! ### Spans -/

/-- The span is a part of the text, with the positions of its ends counted from the start. -/
def Span.PartOf (text : List Char) (s : Span) : Prop :=
  ∃ a b r, text = a ++ (b ++ r) ∧
    s = ⟨Pos.origin.forwardOver a, Pos.origin.forwardOver (a ++ b), String.ofList b⟩

/-- A part of a span that lies on one line. -/
theorem Span.PartOf.slice {text : List Char} {s t : Span} (hs : s.PartOf text)
    (hline : '\n' ∉ s.raw.toList) {i j : Option Int} (h : s.slice i j = .ok t) :
    t.PartOf text := by
  obtain ⟨a, b, r, rfl, rfl⟩ := hs
  unfold Span.slice at h
  dsimp only at h hline
  rw [String.toList_ofList] at h hline
  generalize offset b.length (i.getD 0) = m at h
  generalize offset b.length (j.getD b.length) = n at h
  have hstop : (Pos.origin.forwardOver (a ++ b)).backwardOver (b.drop n).reverse =
      .ok (Pos.origin.forwardOver (a ++ b.take n)) := by
    have hback := Pos.backwardOver_forwardOver
      (fun hmem => hline (List.mem_of_mem_drop hmem) : '\n' ∉ b.drop n)
      (Pos.origin.forwardOver (a ++ b.take n))
    rwa [← Pos.forwardOver_append, List.append_assoc, List.take_append_drop] at hback
  rw [hstop, ← Pos.forwardOver_append] at h
  change Span.make _ _ _ = _ at h
  rw [make, String.toList_ofList, Pos.index_forwardOver_origin, Pos.index_forwardOver_origin] at h
  split_ifs at h with hlen
  · cases h
    -- the lengths fit, so that the part does not end before it starts
    have hmn : b.take m = (b.take n).take m := by
      simp only [List.length_append, List.length_drop, List.length_take] at hlen
      rw [List.take_take]
      by_cases hle : m ≤ n
      · rw [Nat.min_eq_left hle]
      · rw [Nat.min_eq_right (by omega), List.take_of_length_le (by omega),
          List.take_of_length_le (by omega)]
    refine ⟨a ++ b.take m, (b.take n).drop m, b.drop n ++ r, ?_, ?_⟩
    · rw [hmn, List.append_assoc, ← List.append_assoc (List.take m _), List.take_append_drop,
        ← List.append_assoc (List.take n b), List.take_append_drop]
    · rw [hmn, List.append_assoc, List.take_append_drop]

/-- A span of a text: its own text is the part between its ends, which are the positions
that the text has there. -/
structure Span.IsAt (text : List Char) (s : Span) : Prop where
  start_nonneg : 0 ≤ s.start.index
  start_le : s.start.index ≤ s.stop.index
  stop_le : s.stop.index ≤ text.length
  raw : s.raw.toList = (text.take s.stop.index.toNat).drop s.start.index.toNat
  start : s.start = Pos.ofIndex text s.start.index.toNat
  stop : s.stop = Pos.ofIndex text s.stop.index.toNat

theorem Span.PartOf.isAt {text : List Char} {s : Span} (h : s.PartOf text) : s.IsAt text := by
  obtain ⟨a, b, r, rfl, rfl⟩ := h
  constructor
  · rw [Pos.index_forwardOver_origin]
    omega
  · rw [Pos.index_forwardOver_origin, Pos.index_forwardOver_origin, List.length_append]
    omega
  · rw [Pos.index_forwardOver_origin, List.length_append, List.length_append, List.length_append]
    omega
  · rw [Pos.index_forwardOver_origin, Pos.index_forwardOver_origin, Int.toNat_natCast,
      Int.toNat_natCast, ← List.append_assoc, List.take_left, List.drop_left,
      String.toList_ofList]
  · rw [Pos.index_forwardOver_origin, Int.toNat_natCast, Pos.ofIndex_append]
  · rw [Pos.index_forwardOver_origin, Int.toNat_natCast, ← List.append_assoc, Pos.ofIndex_append]

/-! ### The spans inside an expression -/

/-- The spans of a token and of the white space after it. -/
def TokenSpans.spans (t : TokenSpans) : List Span := t.token.toList ++ t.space.toList

/-- The spans of brackets and separators. -/
def BracketSpans.spans (b : BracketSpans) : List Span :=
  (b.opening.toList ++ b.separators.getD [] ++ b.closing.toList).flatMap TokenSpans.spans

mutual

/-- All spans inside an expression. -/
def Expr.spans : Expr → List Span
  | .leaf _ span => span.toList.flatMap TokenSpans.spans
  | .items _ values spans => spans.spans ++ Expr.spansAll values
  | .map fields spans => spans.spans ++ Field.spansAll fields
  | .bare _ => []

/-- All spans inside expressions. -/
def Expr.spansAll : List Expr → List Span
  | [] => []
  | e :: es => e.spans ++ Expr.spansAll es

/-- All spans inside fields. -/
def Field.spansAll : List (FieldOf Expr) → List Span
  | [] => []
  | ⟨k, v, separator⟩ :: fs =>
    k.spans ++ separator.toList.flatMap TokenSpans.spans ++ v.spans ++ Field.spansAll fs

end

/-- All spans inside a field. -/
def Field.spans (f : Field) : List Span :=
  f.key.spans ++ f.separator.toList.flatMap TokenSpans.spans ++ f.value.spans

theorem Expr.spansAll_eq_flatMap (es : List Expr) : Expr.spansAll es = es.flatMap Expr.spans := by
  induction es with
  | nil => rfl
  | cons e es ih => rw [Expr.spansAll, ih, List.flatMap_cons]

theorem Field.spansAll_eq_flatMap (fs : List Field) :
    Field.spansAll fs = fs.flatMap Field.spans := by
  induction fs with
  | nil => rfl
  | cons f fs ih => rw [Field.spansAll, ih, List.flatMap_cons, Field.spans]

/-! ### Cursors -/

/-- The cursor stands in the text, and the positions of its mark and of itself are counted
from the start. -/
structure Cursor.StandsIn (text : List Char) (c : Cursor) : Prop where
  text_eq : c.text = text
  mark_eq : c.mark = Pos.origin.forwardOver c.before.reverse
  pos_eq : c.pos = c.mark.forwardOver c.token.reverse

namespace Cursor

theorem standsIn_ofText (cs : List Char) : (ofText cs).StandsIn cs := ⟨rfl, rfl, rfl⟩

theorem StandsIn.next {text : List Char} {c : Cursor} (h : c.StandsIn text) :
    c.next.StandsIn text := by
  obtain ⟨b, t, r, m, p⟩ := c
  cases r with
  | nil => exact h
  | cons x r =>
    refine ⟨(text_next _).trans h.text_eq, h.mark_eq, ?_⟩
    show p.forward x = m.forwardOver (x :: t).reverse
    rw [List.reverse_cons, Pos.forwardOver_append, ← show p = m.forwardOver t.reverse from h.pos_eq]
    rfl

theorem StandsIn.advance {text : List Char} {c : Cursor} (h : c.StandsIn text) (n : Nat) :
    (c.advance n).StandsIn text := by
  induction n generalizing c with
  | zero => exact h
  | succ n ih => exact ih h.next

/-- The text since the mark is a part of the text. -/
theorem StandsIn.capture {text : List Char} {c : Cursor} (h : c.StandsIn text) :
    c.capture.1.PartOf text ∧ c.capture.2.StandsIn text := by
  obtain ⟨b, t, r, m, p⟩ := c
  have hmark : m = Pos.origin.forwardOver b.reverse := h.mark_eq
  have hpos : p = Pos.origin.forwardOver (b.reverse ++ t.reverse) := by
    rw [Pos.forwardOver_append, ← hmark]
    exact h.pos_eq
  refine ⟨⟨b.reverse, t.reverse, r, ?_, ?_⟩, (text_capture _).trans h.text_eq, ?_, rfl⟩
  · rw [← h.text_eq, ← List.append_assoc]
    rfl
  · rw [← hmark, ← hpos]
    rfl
  · show p = Pos.origin.forwardOver (t ++ b).reverse
    rw [List.reverse_append, ← hpos]

@[simp]
theorem rest_next (c : Cursor) : c.next.rest = c.rest.drop 1 := by
  obtain ⟨b, t, r, m, p⟩ := c
  cases r with
  | nil => rfl
  | cons x r => rfl

@[simp]
theorem rest_advance (n : Nat) (c : Cursor) : (c.advance n).rest = c.rest.drop n := by
  induction n generalizing c with
  | zero => rfl
  | succ n ih => rw [advance, ih, rest_next, List.drop_drop, Nat.add_comm]

/-- What the state of a cursor says about the text: the mark is not after the cursor, both
have the positions that the text has there, and the character at the cursor is that of the
text, U+0000 at the end. -/
structure IsAt (text : List Char) (c : Cursor) : Prop where
  mark_nonneg : 0 ≤ c.mark.index
  mark_le : c.mark.index ≤ c.pos.index
  pos_le : c.pos.index ≤ text.length
  current : c.current = text.getD c.pos.index.toNat endMark
  mark : c.mark = Pos.ofIndex text c.mark.index.toNat
  pos : c.pos = Pos.ofIndex text c.pos.index.toNat

theorem StandsIn.isAt {text : List Char} {c : Cursor} (h : c.StandsIn text) : c.IsAt text := by
  have hspan := h.capture.1.isAt
  refine ⟨hspan.start_nonneg, hspan.start_le, hspan.stop_le, ?_, hspan.start, hspan.stop⟩
  obtain ⟨b, t, r, m, p⟩ := c
  have hindex : p.index = (b.reverse ++ t.reverse).length := by
    have hpos : p = m.forwardOver t.reverse := h.pos_eq
    rw [hpos, show m = Pos.origin.forwardOver b.reverse from h.mark_eq, ← Pos.forwardOver_append,
      Pos.index_forwardOver_origin]
  show r.headD endMark = text.getD p.index.toNat endMark
  rw [hindex, Int.toNat_natCast, ← h.text_eq]
  show _ = (b.reverse ++ t.reverse ++ r).getD _ endMark
  cases r with
  | nil => simp
  | cons x r => simp

end Cursor
end Sexpr
