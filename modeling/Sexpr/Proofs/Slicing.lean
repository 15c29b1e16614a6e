/-
Parts of a span, by any bounds.

A span whose stop lies behind its start by its own text can be cut wherever no newline follows: the
stop goes back from the end of the span, and no way leads back over a newline. What is cut off keeps
its places in the text, so that pieces fit together again, and a part of a part is a part.

* `Span.clamp` — bounds that are absent, count from the end, or lie outside the text;
* `Span.part` — the part between two places of the text;
* `Span.slice_eq` — a cut is such a part, or fails;
* `Span.part_append_part`, `Span.part_part` — parts of one span, side by side and one in the other;
* `Span.slice_exact` — all of this for any bounds.
-/
import Sexpr.Proofs.Coordinates

namespace Sexpr

/-- Going back over a newline fails, wherever it stands. -/
theorem Pos.backwardOver_of_mem {cs : List Char} (h : '\n' ∈ cs) (p : Pos) :
    p.backwardOver cs = .error .newlineBackwards := by
  induction cs generalizing p with
  | nil => cases h
  | cons c cs ih =>
    by_cases hc : c = '\n'
    · rw [backwardOver, backward, if_pos hc]
      rfl
    · rw [backwardOver, backward, if_neg hc]
      exact ih ((List.mem_cons.1 h).resolve_left (Ne.symm hc)) _

/-- The way over a text leads through each of its places. -/
theorem Pos.forwardOver_take (p : Pos) (cs : List Char) {a b : Nat} (h : a ≤ b) :
    (p.forwardOver (cs.take a)).forwardOver ((cs.take b).drop a) = p.forwardOver (cs.take b) := by
  have htake : cs.take a = (cs.take b).take a := by rw [List.take_take, Nat.min_eq_left h]
  rw [← forwardOver_append, htake, List.take_append_drop]

namespace Span

/-! ### Bounds -/

/-- A bound in a text of `n` characters as a place of the text. An absent bound stands for a
default, a negative one counts from the end, and one outside the text is its nearer end. -/
def clamp (n : Nat) (default : Int) (bound : Option Int) : Nat :=
  let i := bound.getD default
  (max 0 (min (n : Int) (if i < 0 then n + i else i))).toNat

theorem offset_eq_clamp (n : Nat) (default : Int) (bound : Option Int) :
    offset n (bound.getD default) = clamp n default bound := by
  unfold offset clamp
  dsimp only
  omega

theorem clamp_le (n : Nat) (default : Int) (bound : Option Int) : clamp n default bound ≤ n := by
  unfold clamp
  dsimp only
  omega

/-- A place of the text is itself. -/
theorem clamp_of_le {n i : Nat} (h : i ≤ n) (default : Int) : clamp n default (some i) = i := by
  unfold clamp
  dsimp only [Option.getD_some]
  omega

/-! ### Parts -/

/-- The stop of the span is where its text leads from its start. -/
def Counted (s : Span) : Prop := s.stop = s.start.forwardOver s.raw.toList

/-- The part of a span between two places of its text. -/
def part (s : Span) (a b : Nat) : Span :=
  ⟨s.start.forwardOver (s.raw.toList.take a), s.start.forwardOver (s.raw.toList.take b),
    String.ofList ((s.raw.toList.take b).drop a)⟩

theorem toList_raw_part (s : Span) (a b : Nat) :
    (s.part a b).raw.toList = (s.raw.toList.take b).drop a := String.toList_ofList

/-- A part is counted like the whole. -/
theorem counted_part (s : Span) {a b : Nat} (h : a ≤ b) : (s.part a b).Counted := by
  rw [Counted, toList_raw_part]
  exact (Pos.forwardOver_take s.start s.raw.toList h).symm

/-- The whole span is the part of all its text. -/
theorem part_length {s : Span} (hs : s.Counted) : s.part 0 s.raw.toList.length = s := by
  obtain ⟨start, stop, raw⟩ := s
  have hstop : stop = start.forwardOver raw.toList := hs
  simp [part, hstop]

/-- A part of a part is a part of the whole. -/
theorem part_part (s : Span) {a b c d : Nat} (hcd : c ≤ d) (hd : a + d ≤ b) :
    (s.part a b).part c d = s.part (a + c) (a + d) := by
  have htake : ∀ k ≤ d,
      ((s.raw.toList.take b).drop a).take k = (s.raw.toList.take (a + k)).drop a := by
    intro k hk
    rw [List.take_drop, List.take_take, Nat.min_eq_left (by omega)]
  have hplace : ∀ k ≤ d, (s.part a b).start.forwardOver (((s.raw.toList.take b).drop a).take k) =
      s.start.forwardOver (s.raw.toList.take (a + k)) := by
    intro k hk
    rw [htake k hk]
    exact Pos.forwardOver_take s.start s.raw.toList (Nat.le_add_right a k)
  rw [part, toList_raw_part, hplace c hcd, hplace d (Nat.le_refl d), htake d (Nat.le_refl d),
    List.drop_drop, part]

/-- The text of a part is as long as its ends are apart, unless these are the wrong way round. -/
theorem make_part (s : Span) {a b : Nat} (ha : a ≤ s.raw.toList.length)
    (hb : b ≤ s.raw.toList.length) :
    make (s.part a b).start (s.part a b).stop (s.part a b).raw =
      if b < a then .error .lengthMismatch else .ok (s.part a b) := by
  have hlength : ((s.part a b).raw.toList.length : Int) = (b - a : Nat) := by
    rw [toList_raw_part, List.length_drop, List.length_take, Nat.min_eq_left hb]
  have hindex : (s.part a b).stop.index - (s.part a b).start.index = b - a := by
    show (s.start.forwardOver _).index - (s.start.forwardOver _).index = _
    rw [Pos.index_forwardOver, Pos.index_forwardOver, List.length_take_of_le ha,
      List.length_take_of_le hb]
    omega
  rw [make, hlength, hindex]
  by_cases hab : b < a
  · rw [if_pos hab, if_neg (by omega)]
  · rw [if_neg hab, if_pos (by omega)]

/-- Two parts that meet are one part. -/
theorem part_append_part (s : Span) {a b c : Nat} (hab : a ≤ b) (hbc : b ≤ c)
    (hc : c ≤ s.raw.toList.length) : (s.part a b).append (s.part b c) = .ok (s.part a c) := by
  have hraw : (s.part a b).raw ++ (s.part b c).raw = (s.part a c).raw := by
    rw [← String.toList_inj, String.toList_append, toList_raw_part, toList_raw_part,
      toList_raw_part]
    have htake : s.raw.toList.take b = (s.raw.toList.take c).take b := by
      rw [List.take_take, Nat.min_eq_left hbc]
    rw [htake, ← List.drop_append_of_le_length, List.take_append_drop]
    rw [List.length_take, List.length_take]
    omega
  have hmeet : (s.part a b).stop = (s.part b c).start := rfl
  rw [append, if_pos (congrArg Pos.index hmeet), hraw]
  have hmake := s.make_part (Nat.le_trans hab (Nat.le_trans hbc hc)) hc (a := a)
  rw [if_neg (by omega)] at hmake
  exact hmake

/-! ### Cuts -/

/-- The stop of a cut, which goes back from the stop of the span. -/
theorem backwardOver_stop {s : Span} (hs : s.Counted) (j : Nat) :
    s.stop.backwardOver (s.raw.toList.drop j).reverse =
      if '\n' ∈ s.raw.toList.drop j then .error .newlineBackwards
      else .ok (s.start.forwardOver (s.raw.toList.take j)) := by
  split_ifs with hline
  · exact Pos.backwardOver_of_mem (List.mem_reverse.2 hline) s.stop
  · have hback := Pos.backwardOver_forwardOver hline (s.start.forwardOver (s.raw.toList.take j))
    rwa [← Pos.forwardOver_append, List.take_append_drop, ← hs] at hback

/-- A cut fails if a newline follows it, or else if it ends before it starts; otherwise it is the
part between its bounds. -/
theorem slice_eq {s : Span} (hs : s.Counted) (x y : Option Int) :
    s.slice x y =
      if '\n' ∈ s.raw.toList.drop (clamp s.raw.toList.length s.raw.toList.length y) then
        .error .newlineBackwards
      else if clamp s.raw.toList.length s.raw.toList.length y < clamp s.raw.toList.length 0 x then
        .error .lengthMismatch
      else .ok (s.part (clamp s.raw.toList.length 0 x)
        (clamp s.raw.toList.length s.raw.toList.length y)) := by
  unfold slice
  dsimp only
  rw [offset_eq_clamp, offset_eq_clamp, backwardOver_stop hs]
  split_ifs with hline hback
  · rfl
  · exact (s.make_part (clamp_le _ _ _) (clamp_le _ _ _)).trans (if_pos hback)
  · exact (s.make_part (clamp_le _ _ _) (clamp_le _ _ _)).trans (if_neg hback)

/-- Bounds that are places of the text. -/
theorem slice_places {s : Span} (hs : s.Counted) {a b : Nat} (hab : a ≤ b)
    (hb : b ≤ s.raw.toList.length) :
    s.slice (some a) (some b) =
      if '\n' ∈ s.raw.toList.drop b then .error .newlineBackwards else .ok (s.part a b) := by
  rw [slice_eq hs, clamp_of_le hb, clamp_of_le (Nat.le_trans hab hb)]
  simp only [Nat.not_lt.2 hab, if_false]

/-- A part of a cut is a cut of the whole, with the same newlines after it. -/
theorem slice_part {s : Span} (hs : s.Counted) {a b c d : Nat} (hab : a ≤ b)
    (hb : b ≤ s.raw.toList.length) (hline : '\n' ∉ s.raw.toList.drop b) (hcd : c ≤ d)
    (hd : d ≤ b - a) :
    (s.part a b).slice (some c) (some d) = s.slice (some (a + c : Nat)) (some (a + d : Nat)) := by
  have hlength : (s.part a b).raw.toList.length = b - a := by
    rw [toList_raw_part, List.length_drop, List.length_take_of_le hb]
  have hdrop : s.raw.toList.drop (a + d) =
      (s.part a b).raw.toList.drop d ++ s.raw.toList.drop b := by
    rw [toList_raw_part, List.drop_drop, ← List.drop_append_of_le_length, List.take_append_drop]
    rw [List.length_take_of_le hb]
    omega
  have hmem : '\n' ∈ s.raw.toList.drop (a + d) ↔ '\n' ∈ (s.part a b).raw.toList.drop d := by
    rw [hdrop, List.mem_append, or_iff_left hline]
  rw [slice_places (s.counted_part hab) hcd (hlength ▸ hd), slice_places hs (by omega) (by omega),
    s.part_part hcd (by omega)]
  simp only [hmem]

/-- The two parts at a place are the span. -/
theorem append_of_slice {s : Span} (hs : s.Counted) {k : Int} {u : Span}
    (hu : s.slice none (some k) = .ok u) :
    ∃ v, s.slice (some k) none = .ok v ∧ u.append v = .ok s := by
  have hzero : clamp s.raw.toList.length 0 none = 0 := clamp_of_le (Nat.zero_le _) 0
  have hlength : clamp s.raw.toList.length s.raw.toList.length none = s.raw.toList.length :=
    clamp_of_le (Nat.le_refl _) 0
  have hplace : clamp s.raw.toList.length s.raw.toList.length (some k) =
      clamp s.raw.toList.length 0 (some k) := rfl
  have hle := clamp_le s.raw.toList.length 0 (some k)
  rw [slice_eq hs, hzero, hplace] at hu
  rw [slice_eq hs, hlength]
  -- one place for both: the end of the first part and the start of the second
  generalize clamp s.raw.toList.length 0 (some k) = i at hu hle
  split_ifs at hu
  cases hu
  refine ⟨s.part i s.raw.toList.length, by simp [hle], ?_⟩
  rw [s.part_append_part (Nat.zero_le i) hle (Nat.le_refl _), part_length hs]

/-- A cut of a span by any bounds: the part between them, unless a newline follows or the bounds
are the wrong way round. The two parts at a place are the span again, and a cut of a cut is a cut
of the span. -/
theorem slice_exact {s : Span} (hs : s.Counted) {x y : Option Int} {a b : Nat}
    (ha : a = clamp s.raw.toList.length 0 x)
    (hb : b = clamp s.raw.toList.length s.raw.toList.length y) :
    (s.slice x y =
      if '\n' ∈ s.raw.toList.drop b then .error .newlineBackwards
      else if b < a then .error .lengthMismatch
      else .ok ⟨s.start.forwardOver (s.raw.toList.take a),
        s.start.forwardOver (s.raw.toList.take b),
        String.ofList ((s.raw.toList.take b).drop a)⟩) ∧
    (∀ k u, s.slice none (some k) = .ok u →
      ∃ v, s.slice (some k) none = .ok v ∧ u.append v = .ok s) ∧
    ∀ t, s.slice x y = .ok t → ∀ c d : Nat, c ≤ d → d ≤ b - a →
      t.slice (some c) (some d) = s.slice (some (a + c : Nat)) (some (a + d : Nat)) := by
  have hcut := slice_eq hs x y
  rw [← ha, ← hb] at hcut
  refine ⟨hcut, fun k u hu => append_of_slice hs hu, ?_⟩
  intro t ht c d hcd hd
  rw [hcut] at ht
  split_ifs at ht with hline hback
  cases ht
  exact slice_part hs (Nat.not_lt.1 hback) (hb ▸ clamp_le _ _ _) hline hcd hd

theorem slice_exact_lines :
    ∃ s : Span, s = ⟨⟨3, 5, 10⟩, ⟨4, 4, 15⟩, "a\nbcd"⟩ ∧ s.Counted ∧
      s.slice (some (-3)) (some 9) = .ok ⟨⟨4, 1, 12⟩, ⟨4, 4, 15⟩, "bcd"⟩ ∧
      (∃ u v, s.slice none (some (-2)) = .ok u ∧ s.slice (some (-2)) none = .ok v ∧
        u.append v = .ok s) ∧
      ∃ t, s.slice (some (-3)) (some 9) = .ok t ∧
        t.slice (some 1) (some 2) = s.slice (some 3) (some 4) := by
  have hs : Counted ⟨⟨3, 5, 10⟩, ⟨4, 4, 15⟩, "a\nbcd"⟩ := by rfl
  obtain ⟨hcut, happend, hpart⟩ := slice_exact hs (x := some (-3)) (y := some 9) (a := 2) (b := 5)
    (by rfl) (by rfl)
  obtain ⟨v, hv, hsum⟩ := happend (-2) ⟨⟨3, 5, 10⟩, ⟨4, 2, 13⟩, "a\nb"⟩ (by rfl)
  exact ⟨_, rfl, hs, hcut, ⟨_, v, by rfl, hv, hsum⟩, _, hcut, hpart _ hcut 1 2 (by decide)
    (by decide)⟩

end Span

end Sexpr
